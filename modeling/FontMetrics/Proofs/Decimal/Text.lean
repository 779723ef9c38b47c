import FontMetrics.Decimal.Layout
import FontMetrics.Proofs.Decimal.Shortest
import FontMetrics.Proofs.Json.Number

/-!
# The texts of numbers

Integers and floating-point numbers are written as numbers in the notation of JSON, and each of them
is determined by its text: an integer by its digits, and a floating-point number since its text has
the value of its shortest decimal, wherever the point stands.  The two never look alike, as a
floating-point number always has a point or an exponent.
-/

namespace FontMetrics.Decimal

open Json (NumberText IsDigits digitChars ofDigits)

/-- The decimal digits of a number. -/
def digitsOf (n : Nat) : List Nat := (Nat.toDigits 10 n).map fun c => c.toNat - 48

/-- A number below ten is one digit. -/
theorem digitsOf_of_lt {n : Nat} (h : n < 10) : digitsOf n = [n] := by
  rw [digitsOf, Nat.toDigits_of_lt_base h]
  interval_cases n <;> rfl

/-- The last digit of a larger number is its remainder by ten. -/
theorem digitsOf_of_le {n : Nat} (h : 10 ≤ n) : digitsOf n = digitsOf (n / 10) ++ [n % 10] := by
  have hlast := digitsOf_of_lt (Nat.mod_lt n (by norm_num : 0 < 10))
  rw [digitsOf, Nat.toDigits_of_lt_base (Nat.mod_lt n (by norm_num))] at hlast
  rw [digitsOf, Nat.toDigits_of_base_le (by norm_num) h, List.map_append, hlast]
  rfl

/-- Digits behind others move these to higher places. -/
theorem ofDigits_append (ds ds' : List Nat) :
    ofDigits (ds ++ ds') = ofDigits ds * 10 ^ ds'.length + ofDigits ds' := by
  induction ds' using List.reverseRecOn with
  | nil => simp [ofDigits]
  | append_singleton ds' d ih =>
    rw [← List.append_assoc]
    simp only [ofDigits, List.foldl_append, List.foldl_cons, List.foldl_nil] at ih ⊢
    rw [← List.foldl_append, List.foldl_append, ih, List.length_append, List.length_singleton]
    ring

private theorem ofDigits_replicate_zero (k : Nat) : ofDigits (List.replicate k 0) = 0 := by
  induction k with
  | zero => rfl
  | succ k ih => exact ih

/-- The digits of a number are its digits. -/
theorem ofDigits_digitsOf (n : Nat) : ofDigits (digitsOf n) = n := by
  induction n using Nat.strongRecOn with
  | ind n ih =>
    rcases Nat.lt_or_ge n 10 with h | h
    · rw [digitsOf_of_lt h]
      exact (Nat.zero_add _)
    · rw [digitsOf_of_le h, ofDigits_append, ih _ (by omega)]
      change n / 10 * 10 ^ 1 + (0 * 10 + n % 10) = n
      omega

/-- A number is determined by its digits. -/
theorem digitsOf_inj {n n' : Nat} (h : digitsOf n = digitsOf n') : n = n' := by
  rw [← ofDigits_digitsOf n, h, ofDigits_digitsOf]

/-- The digits are written as the library writes the number. -/
theorem digitChars_digitsOf (n : Nat) : digitChars (digitsOf n) = Nat.toDigits 10 n := by
  induction n using Nat.strongRecOn with
  | ind n ih =>
    rcases Nat.lt_or_ge n 10 with h | h
    · rw [digitsOf_of_lt h, Nat.toDigits_of_lt_base h]
      rfl
    · rw [digitsOf_of_le h, Nat.toDigits_of_base_le (by norm_num) h, ← ih _ (by omega)]
      exact List.map_append

/-- The digits of a number are digits, and there is one at least. -/
theorem isDigits_digitsOf (n : Nat) : IsDigits (digitsOf n) := by
  induction n using Nat.strongRecOn with
  | ind n ih =>
    rcases Nat.lt_or_ge n 10 with h | h
    · rw [digitsOf_of_lt h]
      exact ⟨List.cons_ne_nil _ _, by simpa using h⟩
    · rw [digitsOf_of_le h]
      refine ⟨by simp, fun d hd => ?_⟩
      rcases List.mem_append.mp hd with hd | hd
      · exact (ih _ (by omega)).lt d hd
      · rw [List.mem_singleton.mp hd]
        exact Nat.mod_lt n (by norm_num)

/-- Only zero has a zero in front. -/
theorem eq_zero_of_digitsOf {n : Nat} {rest : List Nat} (h : digitsOf n = 0 :: rest) :
    n = 0 ∧ rest = [] := by
  induction n using Nat.strongRecOn generalizing rest with
  | ind n ih =>
    rcases Nat.lt_or_ge n 10 with hn | hn
    · rw [digitsOf_of_lt hn] at h
      obtain ⟨hzero, hrest⟩ := List.cons.inj h
      exact ⟨hzero, hrest.symm⟩
    · rw [digitsOf_of_le hn] at h
      obtain ⟨d, ds, hds⟩ := List.exists_cons_of_ne_nil (isDigits_digitsOf (n / 10)).ne_nil
      rw [hds, List.cons_append] at h
      have hzero := (ih (n / 10) (by omega) (by rw [hds, (List.cons.inj h).1])).1
      omega

/-- An integer in the notation of JSON. -/
def integerNumber (n : Int) : NumberText := ⟨decide (n < 0), digitsOf n.natAbs, none, none⟩

/-- An integer has no zero in front, no fraction and no exponent. -/
theorem wellFormed_integerNumber (n : Int) : (integerNumber n).WellFormed where
  whole := isDigits_digitsOf _
  leading _ h := (eq_zero_of_digitsOf h).2
  fraction := nofun
  exponent := nofun

/-- An integer is written in the usual way. -/
theorem chars_integerNumber (n : Int) : (integerNumber n).chars = (toString n).toList := by
  have hnat (k : Nat) : (toString k).toList = digitChars (digitsOf k) := by
    rw [Nat.toString_eq_ofList_toDigits, String.toList_ofList, digitChars_digitsOf]
  cases n with
  | ofNat k =>
    change [] ++ digitChars (digitsOf k) ++ [] ++ [] = (toString k).toList
    rw [hnat, List.nil_append, List.append_nil, List.append_nil]
  | negSucc k =>
    rw [integerNumber, decide_eq_true (Int.negSucc_lt_zero k)]
    change ['-'] ++ digitChars (digitsOf (k + 1)) ++ [] ++ [] = ("-" ++ toString (k + 1)).toList
    rw [String.toList_append, hnat, List.append_nil, List.append_nil]
    rfl

/-- An integer is determined by its sign and its digits. -/
theorem integerNumber_inj {n n' : Int} (h : integerNumber n = integerNumber n') : n = n' := by
  obtain ⟨hsign, hdigits, -⟩ := (NumberText.mk.injEq ..).mp h
  have habs := digitsOf_inj hdigits
  simp only [decide_eq_decide] at hsign
  omega

/-- The number `digits · 10 ^ (position - digits.length + 1)` in positional notation. -/
def positionalNumber (negative : Bool) (digits : List Nat) (position : Int) : NumberText :=
  if position < 0 then
    ⟨negative, [0], some (List.replicate (-position - 1).toNat 0 ++ digits), none⟩
  else
    let whole := position.toNat + 1
    ⟨negative, digits.take whole ++ List.replicate (whole - digits.length) 0,
      some (if (digits.drop whole).isEmpty then [0] else digits.drop whole), none⟩

/-- The same number with its first digit in front of the point and an exponent. -/
def exponentialNumber (negative : Bool) (digits : List Nat) (position : Int) : NumberText :=
  ⟨negative, digits.take 1, if (digits.drop 1).isEmpty then none else some (digits.drop 1),
    some (decide (position < 0), digitsOf position.natAbs)⟩

section Layout

variable {negative : Bool} {digits : List Nat} {position : Int}

private theorem digitChars_replicate_zero (k : Nat) :
    digitChars (List.replicate k 0) = Layout.zeros k := List.map_replicate

private theorem digitChars_append (ds ds' : List Nat) :
    digitChars (ds ++ ds') = digitChars ds ++ digitChars ds' := List.map_append

private theorem chars_positionalNumber : (positionalNumber negative digits position).chars =
    (if negative then ['-'] else []) ++ Layout.positional (digitChars digits) position := by
  have hlength : (digitChars digits).length = digits.length := List.length_map ..
  rw [NumberText.chars_eq, positionalNumber, Layout.positional]
  split
  · simp only [NumberText.fractionChars, NumberText.exponentChars, digitChars_append,
      digitChars_replicate_zero, List.append_nil]
    rfl
  · have hback : (digitChars digits).drop (position.toNat + 1) =
        digitChars (digits.drop (position.toNat + 1)) := List.map_drop.symm
    have hfront : (digitChars digits).take (position.toNat + 1) =
        digitChars (digits.take (position.toNat + 1)) := List.map_take.symm
    simp only [NumberText.fractionChars, NumberText.exponentChars, digitChars_append,
      digitChars_replicate_zero, List.append_nil, hback, hfront, hlength, List.append_assoc,
      List.cons_append, List.nil_append]
    cases digits.drop (position.toNat + 1) <;> rfl

private theorem chars_exponentialNumber : (exponentialNumber negative digits position).chars =
    (if negative then ['-'] else []) ++ tableLayout.exponential (digitChars digits) position := by
  have hback : (digitChars digits).drop 1 = digitChars (digits.drop 1) := List.map_drop.symm
  have hfront : (digitChars digits).take 1 = digitChars (digits.take 1) := List.map_take.symm
  rw [NumberText.chars_eq, exponentialNumber, Layout.exponential]
  simp only [NumberText.exponentChars, hback, hfront, digitChars_digitsOf, List.append_assoc]
  by_cases hneg : position < 0
  · cases digits.drop 1 <;> simp [NumberText.fractionChars, digitChars, hneg]
  · cases digits.drop 1 <;> simp [NumberText.fractionChars, digitChars, hneg, tableLayout]

/-- Digits behind others. -/
theorem isDigits_append {ds ds' : List Nat} (h : ∀ d ∈ ds, d < 10) (h' : IsDigits ds') :
    IsDigits (ds ++ ds') where
  ne_nil := List.append_ne_nil_of_right_ne_nil ds h'.ne_nil
  lt := List.forall_mem_append.mpr ⟨h, h'.lt⟩

private theorem lt_ten_of_mem_replicate {k : Nat} :
    ∀ d ∈ List.replicate k 0, d < 10 := fun d hd => by
  rw [List.eq_of_mem_replicate hd]
  norm_num

private theorem isDigits_zero : IsDigits [0] := ⟨List.cons_ne_nil _ _, by simp⟩

/-- No zero stands in front of a positional number if none stands in front of its digits, unless
they are a single zero in the place of the ones. -/
theorem wellFormed_positionalNumber (h : IsDigits digits)
    (hzero : ∀ rest, digits = 0 :: rest → rest = [] ∧ position = 0) :
    (positionalNumber negative digits position).WellFormed := by
  obtain ⟨first, ds, rfl⟩ := List.exists_cons_of_ne_nil h.ne_nil
  unfold positionalNumber
  split
  · refine ⟨isDigits_zero, fun rest hrest => (List.cons.inj hrest).2.symm, ?_, nofun⟩
    rintro _ ⟨rfl⟩
    exact isDigits_append lt_ten_of_mem_replicate h
  · refine ⟨⟨List.cons_ne_nil _ _, ?_⟩, fun rest hrest => ?_, ?_, nofun⟩
    · exact List.forall_mem_append.mpr
        ⟨fun d hd => h.lt d (List.mem_of_mem_take hd), lt_ten_of_mem_replicate⟩
    · obtain ⟨hfirst, hrest⟩ := List.cons.inj hrest
      obtain ⟨rfl, rfl⟩ := hzero ds (by rw [hfirst])
      exact hrest.symm
    · rintro _ ⟨rfl⟩
      split
      · exact isDigits_zero
      · next hback =>
        exact ⟨by simpa using hback, fun d hd => h.lt d (List.mem_of_mem_drop hd)⟩

/-- A number with an exponent has a single digit in front of its point. -/
private theorem wellFormed_exponentialNumber (h : IsDigits digits) :
    (exponentialNumber negative digits position).WellFormed := by
  obtain ⟨first, ds, rfl⟩ := List.exists_cons_of_ne_nil h.ne_nil
  have hlt := List.forall_mem_cons.mp h.lt
  refine ⟨⟨List.cons_ne_nil _ _, List.forall_mem_singleton.mpr hlt.1⟩, ?_, ?_, ?_⟩
  · exact fun rest hrest => (List.cons.inj hrest).2.symm
  · intro digits hdigits
    cases ds with
    | nil => cases hdigits
    | cons d ds =>
      cases hdigits
      exact ⟨List.cons_ne_nil _ _, hlt.2⟩
  · rintro _ _ ⟨rfl⟩
    exact isDigits_digitsOf _

end Layout

/-- The power of ten that an exponent stands for. -/
def power : Option (Bool × List Nat) → Int
  | none => 0
  | some (true, digits) => -ofDigits digits
  | some (false, digits) => ofDigits digits

/-- The number that a text stands for, without its sign. -/
def magnitude (t : NumberText) : ℚ :=
  ofDigits (t.whole ++ t.fraction.getD []) * 10 ^ (power t.exponent - (t.fraction.getD []).length)

section Value

variable (negative : Bool) {digits : List Nat} {position : Int}

/-- The digits are worth what their first place says, wherever the point is. -/
private theorem magnitude_positionalNumber (position : Int) :
    magnitude (positionalNumber negative digits position) =
      ofDigits digits * 10 ^ (position - digits.length + 1) := by
  unfold positionalNumber
  split
  · next hneg =>
    have hfront : ofDigits ([0] ++ (List.replicate (-position - 1).toNat 0 ++ digits)) =
        ofDigits digits := by
      rw [← List.append_assoc, ofDigits_append, show [0] ++ List.replicate _ 0 =
        List.replicate ((-position - 1).toNat + 1) 0 from rfl, ofDigits_replicate_zero]
      omega
    simp only [magnitude, power, Option.getD_some, hfront, List.length_append,
      List.length_replicate]
    congr 2
    push_cast
    omega
  · next hpos =>
    obtain ⟨k, rfl⟩ := Int.eq_ofNat_of_zero_le (not_lt.mp hpos)
    simp only [magnitude, power, Option.getD_some, Int.toNat_natCast]
    rcases Nat.lt_or_ge (k + 1) digits.length with hlt | hge
    · -- The point stands among the digits.
      have hback : (digits.drop (k + 1)).isEmpty = false := by simpa using hlt
      have hnone : k + 1 - digits.length = 0 := by omega
      simp only [hback, hnone, List.replicate_zero, List.append_nil, Bool.false_eq_true, ite_false,
        List.take_append_drop, List.length_drop]
      congr 2
      omega
    · -- Zeros lie between the digits and the point.
      have hback : (digits.drop (k + 1)).isEmpty = true := by simpa using hge
      simp only [hback, ite_true, List.take_of_length_le hge, ofDigits_append,
        ofDigits_replicate_zero, List.length_singleton, List.length_replicate,
        show ofDigits [0] = 0 from rfl]
      have hexponent : (k : Int) - digits.length + 1 = (k + 1 - digits.length : Nat) := by omega
      have hpoint : ((0 : Int) - (1 : Nat)) = -1 := rfl
      rw [hexponent, hpoint, zpow_natCast, zpow_neg_one]
      push_cast
      ring

/-- The exponent is the place of the first digit. -/
private theorem magnitude_exponentialNumber (h : IsDigits digits) (position : Int) :
    magnitude (exponentialNumber negative digits position) =
      ofDigits digits * 10 ^ (position - digits.length + 1) := by
  have hpower : power (some (decide (position < 0), digitsOf position.natAbs)) = position := by
    by_cases hneg : position < 0
    · simp only [hneg, decide_true, power, ofDigits_digitsOf]
      omega
    · simp only [hneg, decide_false, power, ofDigits_digitsOf]
      omega
  have hfraction : (if (digits.drop 1).isEmpty then none else some (digits.drop 1)).getD [] =
      digits.drop 1 := by
    cases digits.drop 1 <;> rfl
  have hlength := List.length_pos_of_ne_nil h.ne_nil
  simp only [magnitude, exponentialNumber, hpower, hfraction, List.take_append_drop,
    List.length_drop]
  congr 2
  omega

end Value

/-- A floating-point number in the notation of JSON, as metrics tables have it. -/
def tableNumber : Binary64 → NumberText
  | .finite negative significand exponent =>
    let p := shortest tableLayout.tie significand exponent
    let digits := digitsOf p.digits
    let position := p.exponent + digits.length - 1
    if tableLayout.leastPosition ≤ position && position ≤ tableLayout.greatestPosition then
      positionalNumber negative digits position
    else exponentialNumber negative digits position
  | _ => ⟨false, [0], none, none⟩

variable {x y : Binary64}

/-- The text of a number in a table has the characters of the number. -/
theorem chars_tableNumber (h : x.IsProper) : (tableNumber x).chars = (tableText x).toList := by
  obtain ⟨negative, h⟩ := h
  have hsign : (if negative then "-" else "").toList = if negative then ['-'] else [] := by
    cases negative <;> rfl
  simp only [tableText, Layout.render, Layout.magnitude, tableNumber, String.toList_append, hsign,
    String.toList_ofList]
  rw [← digitChars_digitsOf, digitChars, List.length_map, ← digitChars]
  split
  · exact chars_positionalNumber
  · exact chars_exponentialNumber

/-- Numbers in metrics tables keep the grammar of JSON. -/
theorem wellFormed_tableNumber (h : x.IsProper) : (tableNumber x).WellFormed := by
  obtain @⟨negative, significand, exponent, h⟩ := h
  rw [tableNumber]
  split
  · refine wellFormed_positionalNumber (isDigits_digitsOf _) fun rest hrest => ?_
    obtain ⟨hzero, rfl⟩ := eq_zero_of_digitsOf hrest
    have hsignificand := eq_zero_of_digits_shortest h.lt hzero
    refine ⟨rfl, ?_⟩
    rw [hrest, hsignificand, shortest_zero]
    rfl
  · exact wellFormed_exponentialNumber (isDigits_digitsOf _)

/-- A floating-point number is never written like an integer. -/
theorem isWhole_tableNumber (h : x.IsProper) : (tableNumber x).isWhole = false := by
  obtain @⟨negative, significand, exponent, h⟩ := h
  rw [tableNumber]
  split
  · unfold positionalNumber
    split <;> rfl
  · exact Bool.and_false _

/-- The text of a number has the value of its shortest decimal. -/
theorem magnitude_tableNumber (negative : Bool) (significand : Nat) (exponent : Int) :
    magnitude (tableNumber (.finite negative significand exponent)) =
      (shortest tableLayout.tie significand exponent).toRat := by
  have hvalue (p : Point) :
      (ofDigits (digitsOf p.digits) : ℚ) *
        10 ^ (p.exponent + (digitsOf p.digits).length - 1 - (digitsOf p.digits).length + 1) =
        p.toRat := by
    rw [ofDigits_digitsOf, Point.toRat]
    congr 2
    ring
  rw [tableNumber]
  split
  · exact (magnitude_positionalNumber negative _).trans (hvalue _)
  · exact (magnitude_exponentialNumber negative (isDigits_digitsOf _) _).trans (hvalue _)

/-- The sign is written, also for zero. -/
private theorem negative_tableNumber (negative : Bool) (significand : Nat) (exponent : Int) :
    (tableNumber (.finite negative significand exponent)).negative = negative := by
  rw [tableNumber]
  split
  · unfold positionalNumber
    split <;> rfl
  · rfl

/-- A finite number is determined by its text in metrics tables. -/
theorem tableNumber_inj (hx : x.IsProper) (hy : y.IsProper) (h : tableNumber x = tableNumber y) :
    x = y := by
  obtain @⟨negative, significand, exponent, hx⟩ := hx
  obtain @⟨negative', significand', exponent', hy⟩ := hy
  have hnegative := congrArg NumberText.negative h
  have hmagnitude := congrArg magnitude h
  rw [negative_tableNumber, negative_tableNumber] at hnegative
  rw [magnitude_tableNumber, magnitude_tableNumber] at hmagnitude
  obtain ⟨hsignificand, hexponent⟩ := eq_of_toRat_shortest hx hy hmagnitude
  rw [hnegative, hsignificand, hexponent]

end FontMetrics.Decimal
