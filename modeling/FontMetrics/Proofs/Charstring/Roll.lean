import FontMetrics.Proofs.Binary64.Truncation
import FontMetrics.Proofs.Charstring.Inlining
import FontMetrics.Proofs.Charstring.Invariant
import FontMetrics.Proofs.Charstring.Rotation

/-!
# Rolling the operand stack

The operator `roll` takes a count and a distance from the stack, both of them numbers of which only
the integer parts matter, and rotates so many of the operands below.  For every count, the integers
act on the stack in this way: distances add up, opposite ones undo each other, and whole turns do
nothing.
-/

namespace FontMetrics.Charstring

open Binary64 (IntegerPart)

namespace State

variable {α : Type} [Scalar α]

/-- Pushes the two operands of `roll`, how many operands to rotate and by how many places, and
executes it. -/
def rollBy (count shift : α) (s : State α) : Except Error (State α) := do
  let s ← s.push count
  let s ← s.push shift
  s.compute .roll

/-- What `roll` does, given that there is room for its operands. -/
theorem rollBy_eq {s : State α} {x y : α} {count : Nat} {shift : Int}
    (hroom : s.stack.size + 2 ≤ stackLimit) (hx : Scalar.truncate x = some (count : Int))
    (hy : Scalar.truncate y = some shift) (hcount : count ≤ s.stack.size)
    (hshift : isInt64 shift = true) :
    ∃ stack, s.stack.roll count (shift % count).toNat = .ok stack ∧
      s.rollBy x y = .ok { s with stack } := by
  obtain ⟨stack, hroll⟩ := OperandStack.exists_roll hcount (shift % count).toNat
  obtain ⟨s', hs'⟩ := exists_push x (show s.stack.size < stackLimit by omega)
  have hsize : s'.stack.size + 0 = s.stack.size + 1 :=
    ((computes_push x s).value hs').size
  obtain ⟨s'', hs''⟩ := exists_push y (show s'.stack.size < stackLimit by omega)
  have hint : isInt32 (count : Int) = true := by
    have hlimit : stackLimit = 48 := rfl
    simp only [isInt32, Bool.and_eq_true, decide_eq_true_eq]
    omega
  refine ⟨stack, hroll, ?_⟩
  simp only [rollBy, hs', hs'', bind, Except.bind, compute, roll, pop2, pop_of_push hs'',
    pop_of_push hs', pure, Except.pure, rollCount, hx, hint, Int.natCast_nonneg, decide_true,
    Bool.and_self, ite_true, Int.toNat_natCast, rollShift, hy, hshift, hroll]

section Float

variable {s : State Float} {n : Nat} {x x' x'' y y' y'' : Float} {j k : Int}

/-- Rolling rotates the top of the stack by the integer part of the distance. -/
theorem exists_rollBy (hroom : s.stack.size + 2 ≤ stackLimit) (hn : n ≤ s.stack.size)
    (hx : IntegerPart x n) (hy : IntegerPart y j) (hj : isInt64 j = true) :
    ∃ stack, s.rollBy x y = .ok { s with stack } ∧
      RotatesTop n j s.stack.toList stack.toList := by
  obtain ⟨stack, hroll, hrollBy⟩ := rollBy_eq hroom (Binary64.integerPart_iff.mp hx)
    (Binary64.integerPart_iff.mp hy) hn hj
  refine ⟨stack, hrollBy, ?_⟩
  have hrotates := OperandStack.rotatesTop_of_roll hroll
  rcases Nat.eq_zero_or_pos n with rfl | hpos
  · rw [hrotates.eq_of_zero]
    exact .empty j _
  · have hpos' : (n : Int) ≠ 0 := by omega
    rw [Int.toNat_of_nonneg (Int.emod_nonneg j hpos')] at hrotates
    exact hrotates.congr (Int.mod_modEq j n)

/-- Rotations of one stack by the same distance, modulo the count, give the same stack. -/
theorem eq_of_rotatesTop {stack stack' : Operands Float} (hn : n ≤ s.stack.size)
    (h : RotatesTop n j s.stack.toList stack.toList)
    (h' : RotatesTop n k s.stack.toList stack'.toList) (hjk : j ≡ k [ZMOD n]) : stack = stack' :=
  OperandStack.eq_of_toList ((h.congr hjk).unique h' (by rwa [OperandStack.length_toList]))

theorem rollBy_eq_of_modEq (hroom : s.stack.size + 2 ≤ stackLimit) (hn : n ≤ s.stack.size)
    (hx : IntegerPart x n) (hx' : IntegerPart x' n) (hy : IntegerPart y j)
    (hy' : IntegerPart y' k) (hj : isInt64 j = true) (hk : isInt64 k = true)
    (hjk : j ≡ k [ZMOD n]) : s.rollBy x y = s.rollBy x' y' := by
  obtain ⟨stack, hroll, hrotates⟩ := exists_rollBy hroom hn hx hy hj
  obtain ⟨stack', hroll', hrotates'⟩ := exists_rollBy hroom hn hx' hy' hk
  rw [hroll, hroll', eq_of_rotatesTop hn hrotates hrotates' hjk]

/-- Rolling twice adds the distances up. -/
theorem exists_rollBy_rollBy (hroom : s.stack.size + 2 ≤ stackLimit) (hn : n ≤ s.stack.size)
    (hx : IntegerPart x n) (hx' : IntegerPart x' n) (hy : IntegerPart y j)
    (hy' : IntegerPart y' k) (hj : isInt64 j = true) (hk : isInt64 k = true) :
    ∃ stack, (s.rollBy x y >>= rollBy x' y') = .ok { s with stack } ∧
      RotatesTop n (j + k) s.stack.toList stack.toList := by
  obtain ⟨stack, hroll, hrotates⟩ := exists_rollBy hroom hn hx hy hj
  have hsize : stack.size = s.stack.size := by
    rw [← OperandStack.length_toList, ← OperandStack.length_toList, hrotates.length_eq]
  obtain ⟨stack', hroll', hrotates'⟩ := exists_rollBy (s := { s with stack })
    (by rwa [hsize]) (by rwa [hsize]) hx' hy' hk
  refine ⟨stack', ?_, hrotates.trans hrotates'⟩
  rw [hroll]
  exact hroll'

end Float

end State

/-- The integers act on the top of the operand stack by `roll`.

For a count that the stack can serve and any distance of 64 bits, each the integer part of an
operand, rolling moves the operand at distance `p` from the bottom of the block to the distance
`(p + j) mod n` and changes nothing else in the state; an empty block leaves the stack as it was.  So
whole turns do not count, rolling twice is rolling by the sum or by what is the same modulo the
count, and rolling by the opposite distance restores the state. -/
theorem integers_act_by_roll {s : State Float} {n : Nat} (hroom : s.stack.size + 2 ≤ stackLimit)
    (hn : n ≤ s.stack.size) :
    (∀ x y j, IntegerPart x n → IntegerPart y j → isInt64 j = true →
      ∃ stack, s.rollBy x y = .ok { s with stack } ∧ stack.size = s.stack.size ∧
        RotatesTop n j s.stack.toList stack.toList ∧ (n = 0 → stack = s.stack)) ∧
    (∀ x x' y y' j j', IntegerPart x n → IntegerPart x' n → IntegerPart y j → IntegerPart y' j' →
      isInt64 j = true → isInt64 j' = true → j ≡ j' [ZMOD n] →
      s.rollBy x y = s.rollBy x' y') ∧
    (∀ x x' y y' j k, IntegerPart x n → IntegerPart x' n → IntegerPart y j → IntegerPart y' k →
      isInt64 j = true → isInt64 k = true →
      (∃ stack, (s.rollBy x y >>= State.rollBy x' y') = .ok { s with stack } ∧
        RotatesTop n (j + k) s.stack.toList stack.toList) ∧
      ∀ x'' y'' m, IntegerPart x'' n → IntegerPart y'' m → isInt64 m = true →
        m ≡ j + k [ZMOD n] → (s.rollBy x y >>= State.rollBy x' y') = s.rollBy x'' y'') ∧
    ∀ x x' y y' j, IntegerPart x n → IntegerPart x' n → IntegerPart y j → IntegerPart y' (-j) →
      isInt64 j = true → isInt64 (-j) = true →
      (s.rollBy x y >>= State.rollBy x' y') = .ok s := by
  refine ⟨?_, ?_, ?_, ?_⟩
  · intro x y j hx hy hj
    obtain ⟨stack, hroll, hrotates⟩ := State.exists_rollBy hroom hn hx hy hj
    refine ⟨stack, hroll, ?_, hrotates, ?_⟩
    · rw [← OperandStack.length_toList, ← OperandStack.length_toList, hrotates.length_eq]
    · rintro rfl
      exact OperandStack.eq_of_toList hrotates.eq_of_zero
  · intro x x' y y' j j' hx hx' hy hy' hj hj' hmod
    exact State.rollBy_eq_of_modEq hroom hn hx hx' hy hy' hj hj' hmod
  · intro x x' y y' j k hx hx' hy hy' hj hk
    obtain ⟨stack, htwice, hrotates⟩ := State.exists_rollBy_rollBy hroom hn hx hx' hy hy' hj hk
    refine ⟨⟨stack, htwice, hrotates⟩, fun x'' y'' m hx'' hy'' hm hsum => ?_⟩
    obtain ⟨stack', honce, hrotates'⟩ := State.exists_rollBy hroom hn hx'' hy'' hm
    rw [htwice, honce, State.eq_of_rotatesTop hn hrotates hrotates' hsum.symm]
  · intro x x' y y' j hx hx' hy hy' hj hopposite
    obtain ⟨stack, htwice, hrotates⟩ :=
      State.exists_rollBy_rollBy hroom hn hx hx' hy hy' hj hopposite
    rw [htwice, State.eq_of_rotatesTop hn hrotates (.refl n _) (by rw [Int.add_right_neg])]

/-- Five operands of which three and a half roll by -1.5, by 2 and by 0.5: the fractions are dropped,
and -1 and 2 are the same modulo 3. -/
theorem integers_act_by_roll_fractions :
    let s : State Float := { State.initial with stack := ⟨[5.0, 4.0, 3.0, 2.0, 1.0], by decide⟩ }
    let count : Float := Fixed.toScalar ⟨229376⟩
    let back : Float := Fixed.toScalar ⟨-98304⟩
    let forth : Float := (Fixed.ofInt 2).toScalar
    let onward : Float := (Fixed.ofInt 1).toScalar
    s.stack.size + 2 ≤ stackLimit ∧ 3 ≤ s.stack.size ∧ IntegerPart count (3 : Nat) ∧
      IntegerPart back (-1) ∧ IntegerPart forth 2 ∧ IntegerPart onward 1 ∧
      (∃ stack, s.rollBy count back = .ok { s with stack } ∧
        RotatesTop 3 (-1) s.stack.toList stack.toList) ∧
      s.rollBy count back = s.rollBy count forth ∧
      (s.rollBy count back >>= State.rollBy count forth) = s.rollBy count onward ∧
      (s.rollBy count back >>= State.rollBy count onward) = .ok s := by
  intro s count back forth onward
  have hroom : s.stack.size + 2 ≤ stackLimit := by decide
  have hn : 3 ≤ s.stack.size := by decide
  have hcount : IntegerPart count (3 : Nat) :=
    Binary64.integerPart_iff.mpr (Binary64.truncate_toScalar (by decide))
  have hback : IntegerPart back (-1) :=
    Binary64.integerPart_iff.mpr (Binary64.truncate_toScalar (by decide))
  have hforth : IntegerPart forth 2 := (Binary64.isInteger_ofInt (by decide)).integerPart
  have honward : IntegerPart onward 1 := (Binary64.isInteger_ofInt (by decide)).integerPart
  obtain ⟨hrotates, hmod, hadd, hopposite⟩ := integers_act_by_roll hroom hn
  obtain ⟨stack, hroll, -, hstack, -⟩ := hrotates count back (-1) hcount hback (by decide)
  exact ⟨hroom, hn, hcount, hback, hforth, honward, ⟨stack, hroll, hstack⟩,
    hmod _ _ _ _ (-1) 2 hcount hcount hback hforth (by decide) (by decide) (by decide),
    (hadd _ _ _ _ (-1) 2 hcount hcount hback hforth (by decide) (by decide)).2 _ _ 1 hcount honward
      (by decide) (by decide),
    hopposite _ _ _ _ (-1) hcount hcount hback honward (by decide) (by decide)⟩

end FontMetrics.Charstring
