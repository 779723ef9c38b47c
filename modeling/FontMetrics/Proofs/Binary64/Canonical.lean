import FontMetrics.Proofs.Binary64.Truncation

/-!
# Canonical significands

The bits of a floating-point number give its significand and exponent in one form only: the
significand has 53 bits unless the exponent is the least one.  So a finite number is determined by
what its bits stand for.
-/

namespace FontMetrics.Binary64

/-- The significand and the exponent of a number are those that its bits give. -/
structure IsCanonical (significand : Nat) (exponent : Int) : Prop where
  /-- The significand has at most 53 bits. -/
  lt : significand < 2 ^ 53
  /-- The exponent is that of a subnormal number or above it. -/
  least_le : -1074 ≤ exponent
  /-- Only at the least exponent may the leading bit be missing. -/
  leading : exponent = -1074 ∨ 2 ^ 52 ≤ significand

/-- The number is finite and in its only form. -/
inductive IsProper : Binary64 → Prop where
  /-- A significand and an exponent that bits can give. -/
  | finite (negative : Bool) {significand : Nat} {exponent : Int}
    (h : IsCanonical significand exponent) : IsProper (.finite negative significand exponent)

/-- What bits stand for is in its only form if it is finite. -/
theorem isCanonical_of_ofBits {bits : Nat} {negative : Bool} {significand : Nat} {exponent : Int}
    (h : ofBits bits = .finite negative significand exponent) :
    IsCanonical significand exponent := by
  simp only [ofBits] at h
  split_ifs at h with hall hfraction hscale
  · cases h
    exact ⟨by omega, le_rfl, .inl rfl⟩
  · cases h
    exact ⟨by omega, by omega, .inr (by omega)⟩

/-- The 64 bits of a finite number: its sign, its exponent and its significand without the leading
bit. -/
def bitsOf (negative : Bool) (significand : Nat) (exponent : Int) : Nat :=
  negative.toNat * 0x8000000000000000 +
    if significand < 0x10000000000000 then significand
    else (exponent + 1075).toNat * 0x10000000000000 + (significand - 0x10000000000000)

/-- The bits that stand for a finite number. -/
theorem eq_bitsOf {bits : Nat} (hlt : bits < 2 ^ 64) {negative : Bool} {significand : Nat}
    {exponent : Int} (h : ofBits bits = .finite negative significand exponent) :
    bits = bitsOf negative significand exponent := by
  have hbit : (bits / 0x8000000000000000 % 2 == 1).toNat = bits / 0x8000000000000000 % 2 := by
    rcases Nat.mod_two_eq_zero_or_one (bits / 0x8000000000000000) with h | h <;> rw [h] <;> rfl
  have hsign : bits / 0x8000000000000000 % 2 = bits / 0x8000000000000000 := by omega
  simp only [ofBits] at h
  split_ifs at h with hall hfraction hscale
  · cases h
    rw [bitsOf, hbit, hsign, if_pos (by omega)]
    omega
  · cases h
    rw [bitsOf, hbit, hsign, if_neg (by omega)]
    omega

/-- A finite number has its significand and exponent in their only form. -/
theorem isProper_ofFloat {x : Float} (h : x.isFinite = true) : (ofFloat x).IsProper := by
  rw [isFinite_iff] at h
  cases hx : ofFloat x with
  | nan => rw [hx] at h; cases h
  | infinite => rw [hx] at h; cases h
  | finite negative significand exponent => exact .finite negative (isCanonical_of_ofBits hx)

/-- A number is nothing but its bits. -/
private theorem eq_of_toBits_eq {x y : Float} (h : x.toBits = y.toBits) : x = y := by
  obtain ⟨bits, _⟩ := x
  obtain ⟨bits', _⟩ := y
  obtain rfl : bits = bits' := h
  rfl

/-- A finite number is determined by what its bits stand for. -/
theorem eq_of_ofFloat_eq {x y : Float} (hx : x.isFinite = true) (h : ofFloat x = ofFloat y) :
    x = y := by
  cases hvalue : ofFloat x with
  | nan => rw [isFinite_iff, hvalue] at hx; cases hx
  | infinite => rw [isFinite_iff, hvalue] at hx; cases hx
  | finite negative significand exponent =>
    have hbits : x.toBits.toNat = y.toBits.toNat :=
      (eq_bitsOf x.toBits.toNat_lt hvalue).trans
        (eq_bitsOf y.toBits.toNat_lt (h.symm.trans hvalue)).symm
    exact eq_of_toBits_eq (UInt64.toNat_inj.mp hbits)

end FontMetrics.Binary64
