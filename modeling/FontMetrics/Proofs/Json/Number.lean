import Mathlib.Data.List.Basic
import Mathlib.Tactic.IntervalCases
import FontMetrics.Json.Token

/-!
# The characters of a number

A number is written as its digits, with a point before those of the fraction and a sign before those
of the exponent.  Whatever comes after it, as long as it is something that may come after a value,
the reader finds exactly that number; and the characters determine its parts.
-/

namespace FontMetrics.Json

section Prefix

variable {α : Type} {p : α → Bool} {xs ys rest rest' : List α}

/-- A prefix is taken whole if what follows it does not go on. -/
private theorem takeWhile_append_of_head (hxs : ∀ x ∈ xs, p x = true)
    (hrest : ∀ x ∈ rest.head?, p x = false) : (xs ++ rest).takeWhile p = xs := by
  rw [List.takeWhile_append_of_pos hxs]
  cases rest with
  | nil => rw [List.takeWhile_nil, List.append_nil]
  | cons x rest =>
    rw [List.takeWhile_cons_of_neg (by simp [hrest x rfl]), List.append_nil]

/-- A prefix is dropped whole if what follows it does not go on. -/
private theorem dropWhile_append_of_head (hxs : ∀ x ∈ xs, p x = true)
    (hrest : ∀ x ∈ rest.head?, p x = false) : (xs ++ rest).dropWhile p = rest := by
  rw [List.dropWhile_append_of_pos hxs]
  cases rest with
  | nil => rfl
  | cons x rest => rw [List.dropWhile_cons_of_neg (by simp [hrest x rfl])]

/-- Two lists with the same front part, of which all have a property, go on in the same way if what
comes next does not have it. -/
theorem append_inj_of_head (hxs : ∀ x ∈ xs, p x = true) (hys : ∀ y ∈ ys, p y = true)
    (hrest : ∀ x ∈ rest.head?, p x = false) (hrest' : ∀ x ∈ rest'.head?, p x = false)
    (h : xs ++ rest = ys ++ rest') : xs = ys ∧ rest = rest' := by
  constructor
  · rw [← takeWhile_append_of_head hxs hrest, h, takeWhile_append_of_head hys hrest']
  · rw [← dropWhile_append_of_head hxs hrest, h, dropWhile_append_of_head hys hrest']

end Prefix

/-- The bytes of a text of ASCII characters. -/
def asciiBytes (text : List Char) : List UInt8 := text.map Token.ascii

/-- The bytes of two texts follow one another. -/
@[simp] theorem asciiBytes_append (text rest : List Char) :
    asciiBytes (text ++ rest) = asciiBytes text ++ asciiBytes rest := List.map_append

/-- The byte of the first character comes first. -/
@[simp] theorem asciiBytes_cons (c : Char) (text : List Char) :
    asciiBytes (c :: text) = Token.ascii c :: asciiBytes text := rfl

/-- The list has at least one entry, and all its entries are digits. -/
structure IsDigits (digits : List Nat) : Prop where
  /-- There is a digit. -/
  ne_nil : digits ≠ []
  /-- They are the digits from 0 to 9. -/
  lt : ∀ d ∈ digits, d < 10

/-- The characters of digits. -/
def digitChars (digits : List Nat) : List Char := digits.map Nat.digitChar

/-- The characters that may come after a value. -/
def delimiters : List Char := [',', ']', '\x7d', ' ', '\n', '\t', '\r']

/-- A value may end before the text. -/
def Ends (text : List Char) : Prop := ∀ c ∈ text.head?, c ∈ delimiters

/-- A value may stand at the end of the text. -/
theorem ends_nil : Ends [] := nofun

/-- A delimiter may follow a value. -/
theorem ends_cons {c : Char} (h : c ∈ delimiters) (text : List Char) : Ends (c :: text) := by
  rintro _ ⟨rfl⟩
  exact h

/-- What has been tested of the characters of a list holds of them. -/
theorem forall_of_all {cs : List Char} {P : Char → Prop} [DecidablePred P]
    (h : cs.all (fun c => decide (P c)) = true) : ∀ c ∈ cs, P c :=
  fun c hc => of_decide_eq_true (List.all_eq_true.mp h c hc)

/-- What holds of all delimiters holds of the byte after a value. -/
theorem Ends.head_asciiBytes {text : List Char} (h : Ends text) {P : UInt8 → Prop}
    [DecidablePred P] (hall : delimiters.all (fun c => decide (P (Token.ascii c))) = true) :
    ∀ b ∈ (asciiBytes text).head?, P b := by
  cases text with
  | nil => nofun
  | cons c text =>
    rintro _ ⟨rfl⟩
    exact forall_of_all (P := fun c => P (Token.ascii c)) hall c (h c rfl)

namespace NumberText

/-- The point and the digits of a fraction. -/
def fractionChars : Option (List Nat) → List Char
  | none => []
  | some digits => '.' :: digitChars digits

/-- The sign and the digits of an exponent. -/
def exponentChars : Option (Bool × List Nat) → List Char
  | none => []
  | some (negative, digits) => 'e' :: (if negative then '-' else '+') :: digitChars digits

/-- The characters of a number. -/
def chars (t : NumberText) : List Char :=
  (if t.negative then ['-'] else []) ++ digitChars t.whole ++ fractionChars t.fraction ++
    exponentChars t.exponent

/-- The parts of a number are not empty, and no zero stands in front of other digits. -/
structure WellFormed (t : NumberText) : Prop where
  /-- The digits before the point. -/
  whole : IsDigits t.whole
  /-- A zero in front stands alone. -/
  leading : ∀ rest, t.whole = 0 :: rest → rest = []
  /-- The digits after the point. -/
  fraction : ∀ digits ∈ t.fraction, IsDigits digits
  /-- The digits of the exponent. -/
  exponent : ∀ negative digits, t.exponent = some (negative, digits) → IsDigits digits

end NumberText

namespace Token

/-- A digit is read with its value. -/
private theorem ascii_digitChar {d : Nat} (h : d < 10) :
    isDigit (ascii d.digitChar) = true ∧ digitValue (ascii d.digitChar) = d := by
  have hall : ∀ d < 10, isDigit (ascii d.digitChar) = true ∧
      digitValue (ascii d.digitChar) = d := by decide
  exact hall d h

/-- What is read does not depend on the bound for what is left. -/
@[simp] theorem Read.val_lift {bytes longer : List UInt8} (h : bytes.length ≤ longer.length)
    (r : Read bytes) : (r.lift h).1 = r.1 := rfl

variable {ds : List Nat} {rest : List UInt8}

/-- Digits are read up to something that is no digit. -/
theorem digits_digitChars (h : ∀ d ∈ ds, d < 10) (hrest : ∀ b ∈ rest.head?, isDigit b = false) :
    digits (asciiBytes (digitChars ds) ++ rest) = (ds, rest) := by
  have hall : ∀ b ∈ asciiBytes (digitChars ds), isDigit b = true := by
    simp only [asciiBytes, digitChars, List.mem_map, forall_exists_index, and_imp,
      forall_apply_eq_imp_iff₂]
    exact fun d hd => (ascii_digitChar (h d hd)).1
  have hvalues : (asciiBytes (digitChars ds)).map digitValue = ds := by
    rw [asciiBytes, digitChars, List.map_map, List.map_map]
    exact (List.map_congr_left fun d hd => (ascii_digitChar (h d hd)).2).trans (List.map_id ds)
  rw [digits, takeWhile_append_of_head hall hrest, dropWhile_append_of_head hall hrest, hvalues]

/-- The digits of an exponent are read. -/
theorem val_exponentDigits (t : NumberText) (negative : Bool) (h : IsDigits ds)
    (hrest : ∀ b ∈ rest.head?, isDigit b = false) :
    (exponentDigits t negative (asciiBytes (digitChars ds) ++ rest)).1 =
      (.atom (.number { t with exponent := some (negative, ds) }.toNumber), rest) := by
  have hdigits := digits_digitChars h.lt hrest
  unfold exponentDigits
  dsimp only
  split
  · next hempty =>
    rw [hdigits] at hempty
    exact absurd (List.isEmpty_iff.mp hempty) h.ne_nil
  · rw [Read.val_lift]
    change (Token.atom (.number { t with exponent := some (negative, _) }.toNumber), _) = _
    rw [hdigits]

/-- Where no exponent starts the number is complete. -/
theorem val_exponent_of_head (t : NumberText) (bytes : List UInt8)
    (h : ∀ b ∈ bytes.head?, b ≠ ascii 'e' ∧ b ≠ ascii 'E') :
    (exponent t bytes).1 = (.atom (.number t.toNumber), bytes) := by
  match bytes, h with
  | [], _ => rfl
  | [b], h =>
    obtain ⟨he, hE⟩ := h b rfl
    simp only [exponent, he, hE, decide_false, Bool.or_self, Bool.false_eq_true, ite_false]
    rfl
  | b :: s :: rest, h =>
    obtain ⟨he, hE⟩ := h b rfl
    simp only [exponent, he, hE, decide_false, Bool.or_self, Bool.false_eq_true, ite_false]
    rfl

/-- Where no fraction starts an exponent may start. -/
theorem val_fraction_of_head (t : NumberText) (bytes : List UInt8)
    (h : ∀ b ∈ bytes.head?, b ≠ ascii '.') : (fraction t bytes).1 = (exponent t bytes).1 := by
  cases bytes with
  | nil => rfl
  | cons b rest =>
    simp only [fraction, h b rfl, ite_false]

variable {text : List Char} {negative : Bool} {whole : List Nat} {f : Option (List Nat)}
  {x : Option (Bool × List Nat)}

/-- An exponent is read, if there is one. -/
theorem val_exponent (hx : ∀ negative digits, x = some (negative, digits) → IsDigits digits)
    (htext : Ends text) :
    (exponent ⟨negative, whole, f, none⟩
      (asciiBytes (NumberText.exponentChars x) ++ asciiBytes text)).1 =
      (.atom (.number (NumberText.toNumber ⟨negative, whole, f, x⟩)), asciiBytes text) := by
  have hdigit := htext.head_asciiBytes (P := fun b => isDigit b = false) (by decide)
  rcases x with _ | ⟨sign, digits⟩
  · exact val_exponent_of_head _ _ (htext.head_asciiBytes (by decide))
  · have hds := hx sign digits rfl
    cases sign
    · exact val_exponentDigits ⟨negative, whole, f, none⟩ false hds hdigit
    · exact val_exponentDigits ⟨negative, whole, f, none⟩ true hds hdigit

/-- What comes after the digits of a whole number or a fraction. -/
theorem head_exponentChars (htext : Ends text) {P : UInt8 → Prop} [DecidablePred P]
    (he : P (ascii 'e')) (hall : delimiters.all (fun c => decide (P (ascii c))) = true) :
    ∀ b ∈ (asciiBytes (NumberText.exponentChars x) ++ asciiBytes text).head?, P b := by
  rcases x with _ | ⟨sign, digits⟩
  · exact htext.head_asciiBytes hall
  · rintro _ ⟨rfl⟩
    exact he

/-- A fraction and an exponent are read, if they are there. -/
theorem val_fraction (hf : ∀ digits ∈ f, IsDigits digits)
    (hx : ∀ negative digits, x = some (negative, digits) → IsDigits digits) (htext : Ends text) :
    (fraction ⟨negative, whole, none, none⟩ (asciiBytes (NumberText.fractionChars f) ++
      (asciiBytes (NumberText.exponentChars x) ++ asciiBytes text))).1 =
      (.atom (.number (NumberText.toNumber ⟨negative, whole, f, x⟩)), asciiBytes text) := by
  cases f with
  | none =>
    exact (val_fraction_of_head _ _ (head_exponentChars htext (by decide) (by decide))).trans
      (val_exponent hx htext)
  | some ds =>
    have hds := hf ds rfl
    have hdigits := digits_digitChars hds.lt
      (head_exponentChars (x := x) htext (P := fun b => isDigit b = false) (by decide) (by decide))
    rw [NumberText.fractionChars, asciiBytes_cons, List.cons_append, fraction, if_pos rfl]
    dsimp only
    split
    · next hempty =>
      rw [hdigits] at hempty
      exact absurd (List.isEmpty_iff.mp hempty) hds.ne_nil
    · rw [Read.val_lift, hdigits]
      exact val_exponent hx htext

/-- A number is read from behind its first digit. -/
theorem val_number {first : Nat} {ds : List Nat} (hlt : ∀ d ∈ ds, d < 10)
    (hleading : first = 0 → ds = []) (hf : ∀ digits ∈ f, IsDigits digits)
    (hx : ∀ negative digits, x = some (negative, digits) → IsDigits digits) (htext : Ends text) :
    (number negative first (asciiBytes (digitChars ds) ++
      (asciiBytes (NumberText.fractionChars f) ++
        (asciiBytes (NumberText.exponentChars x) ++ asciiBytes text)))).1 =
      (.atom (.number (NumberText.toNumber ⟨negative, first :: ds, f, x⟩)), asciiBytes text) := by
  have hrest : ∀ b ∈ (asciiBytes (NumberText.fractionChars f) ++
      (asciiBytes (NumberText.exponentChars x) ++ asciiBytes text)).head?, isDigit b = false := by
    cases f with
    | none => exact head_exponentChars htext (by decide) (by decide)
    | some digits =>
      rintro _ ⟨rfl⟩
      decide
  have hdigits := digits_digitChars hlt hrest
  unfold number
  dsimp only
  split
  · next hzero =>
    simp only [hdigits, Bool.and_eq_true, decide_eq_true_eq, Bool.not_eq_true',
      List.isEmpty_eq_false_iff] at hzero
    exact absurd (hleading hzero.1) hzero.2
  · rw [Read.val_lift, hdigits]
    exact val_fraction hf hx htext

/-- A digit starts a number. -/
theorem val_read_digit {d : Nat} (hd : d < 10) (bytes : List UInt8) :
    (read (ascii d.digitChar) bytes).1 = (number false d bytes).1 := by
  interval_cases d <;> rfl

/-- A minus sign and a digit start a number. -/
theorem val_read_minus {d : Nat} (hd : d < 10) (bytes : List UInt8) :
    (read (ascii '-') (ascii d.digitChar :: bytes)).1 = (number true d bytes).1 := by
  interval_cases d <;> rfl

end Token

/-- A number is read from its characters and what comes after them. -/
theorem NumberText.WellFormed.read_chars {t : NumberText} (h : t.WellFormed) {text : List Char}
    (htext : Ends text) : ∃ c cs, t.chars = c :: cs ∧ Token.isBlank (Token.ascii c) = false ∧
      (Token.read (Token.ascii c) (asciiBytes (cs ++ text))).1 =
        (.atom (.number t.toNumber), asciiBytes text) := by
  obtain ⟨negative, whole, f, x⟩ := t
  obtain ⟨hwhole, hleading, hf, hx⟩ := h
  obtain ⟨first, ds, rfl⟩ := List.exists_cons_of_ne_nil hwhole.ne_nil
  have hlt := List.forall_mem_cons.mp hwhole.lt
  have hnumber : ∀ sign, (Token.number sign first (asciiBytes (digitChars ds ++ fractionChars f ++
      exponentChars x ++ text))).1 =
        (.atom (.number (toNumber ⟨sign, first :: ds, f, x⟩)), asciiBytes text) := fun sign => by
    rw [asciiBytes_append, asciiBytes_append, asciiBytes_append, List.append_assoc,
      List.append_assoc]
    exact Token.val_number hlt.2 (fun hzero => hleading ds (congrArg (· :: ds) hzero)) hf hx htext
  have hblank : ∀ d < 10, Token.isBlank (Token.ascii d.digitChar) = false := by decide
  cases negative with
  | false =>
    exact ⟨_, _, rfl, hblank first hlt.1, (Token.val_read_digit hlt.1 _).trans (hnumber false)⟩
  | true => exact ⟨_, _, rfl, rfl, (Token.val_read_minus hlt.1 _).trans (hnumber true)⟩

namespace NumberText

/-- The characters of which numbers consist. -/
def isNumberChar (c : Char) : Bool := c.isDigit || c = '.' || c = 'e' || c = '+' || c = '-'

private theorem isDigit_of_mem_digitChars {ds : List Nat} (h : ∀ d ∈ ds, d < 10) :
    ∀ c ∈ digitChars ds, c.isDigit = true := by
  have hall : ∀ d < 10, d.digitChar.isDigit = true := by decide
  simp only [digitChars, List.mem_map, forall_exists_index, and_imp, forall_apply_eq_imp_iff₂]
  exact fun d hd => hall d (h d hd)

private theorem isNumberChar_of_mem_digitChars {ds : List Nat} (h : ∀ d ∈ ds, d < 10) :
    ∀ c ∈ digitChars ds, isNumberChar c = true := fun c hc => by
  simp [isNumberChar, isDigit_of_mem_digitChars h c hc]

/-- A number has only digits, signs, a point and an `e`. -/
theorem WellFormed.isNumberChar_of_mem_chars {t : NumberText} (h : t.WellFormed) :
    ∀ c ∈ t.chars, isNumberChar c = true := by
  have hsign : ∀ c ∈ (if t.negative then ['-'] else []), isNumberChar c = true := by
    cases t.negative
    · nofun
    · exact List.forall_mem_singleton.mpr rfl
  have hfraction : ∀ c ∈ fractionChars t.fraction, isNumberChar c = true := by
    cases hf : t.fraction with
    | none => nofun
    | some ds =>
      exact List.forall_mem_cons.mpr ⟨rfl, isNumberChar_of_mem_digitChars (h.fraction ds hf).lt⟩
  have hexponent : ∀ c ∈ exponentChars t.exponent, isNumberChar c = true := by
    cases hx : t.exponent with
    | none => nofun
    | some x =>
      have hds := isNumberChar_of_mem_digitChars (h.exponent x.1 x.2 hx).lt
      refine List.forall_mem_cons.mpr ⟨rfl, List.forall_mem_cons.mpr ⟨?_, hds⟩⟩
      cases x.1 <;> rfl
  simp only [chars, List.forall_mem_append]
  exact ⟨⟨⟨hsign, isNumberChar_of_mem_digitChars h.whole.lt⟩, hfraction⟩, hexponent⟩

/-- Digits are determined by their characters. -/
private theorem digitChars_inj {ds ds' : List Nat} (h : ∀ d ∈ ds, d < 10) (h' : ∀ d ∈ ds', d < 10)
    (heq : digitChars ds = digitChars ds') : ds = ds' := by
  have hnil : ∀ b ∈ ([] : List UInt8).head?, Token.isDigit b = false := nofun
  have hdigits := Token.digits_digitChars h hnil
  rw [heq, Token.digits_digitChars h' hnil] at hdigits
  exact (congrArg Prod.fst hdigits).symm

/-- Digits in front of something else are determined. -/
theorem digitChars_append_inj {ds ds' : List Nat} {rest rest' : List Char}
    (h : ∀ d ∈ ds, d < 10) (h' : ∀ d ∈ ds', d < 10) (hrest : ∀ c ∈ rest.head?, c.isDigit = false)
    (hrest' : ∀ c ∈ rest'.head?, c.isDigit = false)
    (heq : digitChars ds ++ rest = digitChars ds' ++ rest') : ds = ds' ∧ rest = rest' := by
  obtain ⟨hdigits, hrests⟩ := append_inj_of_head (isDigit_of_mem_digitChars h)
    (isDigit_of_mem_digitChars h') hrest hrest' heq
  exact ⟨digitChars_inj h h' hdigits, hrests⟩

variable {f f' : Option (List Nat)} {x x' : Option (Bool × List Nat)}

/-- No exponent starts with a point. -/
theorem exponentChars_ne_point (rest : List Char) : exponentChars x ≠ '.' :: rest := by
  cases x with
  | none => nofun
  | some x =>
    intro h
    exact absurd (List.cons.inj h).1 (by decide)

/-- An exponent does not start with a digit. -/
private theorem isDigit_head_exponentChars : ∀ c ∈ (exponentChars x).head?, c.isDigit = false := by
  cases x with
  | none => nofun
  | some x =>
    rintro _ ⟨rfl⟩
    rfl

/-- What follows the whole part does not start with a digit. -/
private theorem isDigit_head_fractionChars :
    ∀ c ∈ (fractionChars f ++ exponentChars x).head?, c.isDigit = false := by
  cases f with
  | none => exact isDigit_head_exponentChars
  | some digits =>
    rintro _ ⟨rfl⟩
    rfl

/-- An exponent is determined by its characters, and so is whether there is one. -/
private theorem exponentChars_inj
    (hx : ∀ negative digits, x = some (negative, digits) → IsDigits digits)
    (hx' : ∀ negative digits, x' = some (negative, digits) → IsDigits digits)
    (h : exponentChars x = exponentChars x') : x = x' := by
  rcases x with _ | ⟨sign, ds⟩ <;> rcases x' with _ | ⟨sign', ds'⟩
  · rfl
  · cases h
  · cases h
  · simp only [exponentChars, List.cons.injEq, true_and] at h
    have hsign : sign = sign' := by
      revert h
      cases sign <;> cases sign' <;> simp
    rw [hsign, digitChars_inj (hx sign ds rfl).lt (hx' sign' ds' rfl).lt h.2]

/-- The fraction ends where the exponent starts. -/
private theorem fractionChars_append_inj (hf : ∀ digits ∈ f, IsDigits digits)
    (hf' : ∀ digits ∈ f', IsDigits digits)
    (h : fractionChars f ++ exponentChars x = fractionChars f' ++ exponentChars x') :
    f = f' ∧ exponentChars x = exponentChars x' := by
  cases f with
  | none =>
    cases f' with
    | none => exact ⟨rfl, h⟩
    | some ds' => exact absurd h (exponentChars_ne_point _)
  | some ds =>
    cases f' with
    | none => exact absurd h.symm (exponentChars_ne_point _)
    | some ds' =>
      obtain ⟨hds, hrest⟩ := digitChars_append_inj (hf ds rfl).lt (hf' ds' rfl).lt
        isDigit_head_exponentChars isDigit_head_exponentChars (List.cons.inj h).2
      exact ⟨congrArg some hds, hrest⟩

/-- A number consists of its sign, its whole part, its fraction and its exponent. -/
theorem chars_eq (t : NumberText) : t.chars = (if t.negative then ['-'] else []) ++
    (digitChars t.whole ++ (fractionChars t.fraction ++ exponentChars t.exponent)) := by
  simp only [chars, List.append_assoc]

/-- Only a negative number starts with a minus sign. -/
theorem WellFormed.head?_chars_iff {t : NumberText} (h : t.WellFormed) :
    t.chars.head? = some '-' ↔ t.negative = true := by
  obtain ⟨first, ds, hwhole⟩ := List.exists_cons_of_ne_nil h.whole.ne_nil
  have hfirst : first < 10 := h.whole.lt first (by rw [hwhole]; exact List.mem_cons_self)
  have hall : ∀ d < 10, d.digitChar ≠ '-' := by decide
  rw [chars_eq, hwhole]
  cases t.negative with
  | true => exact iff_of_true rfl rfl
  | false => exact iff_of_false (fun heq => hall first hfirst (Option.some.inj heq)) nofun

/-- A number is determined by its characters. -/
theorem WellFormed.chars_inj {t t' : NumberText} (h : t.WellFormed) (h' : t'.WellFormed)
    (heq : t.chars = t'.chars) : t = t' := by
  have hsign : t.negative = t'.negative := by
    rw [Bool.eq_iff_iff, ← h.head?_chars_iff, heq, h'.head?_chars_iff]
  rw [chars_eq, chars_eq, hsign] at heq
  obtain ⟨hwhole, hrest⟩ := digitChars_append_inj h.whole.lt h'.whole.lt isDigit_head_fractionChars
    isDigit_head_fractionChars (List.append_cancel_left heq)
  obtain ⟨hfraction, hexponent⟩ := fractionChars_append_inj h.fraction h'.fraction hrest
  have hx := exponentChars_inj h.exponent h'.exponent hexponent
  obtain ⟨negative, whole, f, x⟩ := t
  obtain ⟨negative', whole', f', x'⟩ := t'
  exact (NumberText.mk.injEq ..).mpr ⟨hsign, hwhole, hfraction, hx⟩

/-- A number in front of something that may come after it is determined. -/
theorem WellFormed.chars_append_inj {t t' : NumberText} (h : t.WellFormed) (h' : t'.WellFormed)
    {text text' : List Char} (htext : Ends text) (htext' : Ends text')
    (heq : t.chars ++ text = t'.chars ++ text') : t = t' ∧ text = text' := by
  have hends : ∀ {rest : List Char}, Ends rest → ∀ c ∈ rest.head?, isNumberChar c = false :=
    fun hrest c hc => by
      exact forall_of_all (P := fun c => isNumberChar c = false) (by decide) c (hrest c hc)
  obtain ⟨hchars, hrest⟩ := append_inj_of_head h.isNumberChar_of_mem_chars
    h'.isNumberChar_of_mem_chars (hends htext) (hends htext') heq
  exact ⟨h.chars_inj h' hchars, hrest⟩

end NumberText

end FontMetrics.Json
