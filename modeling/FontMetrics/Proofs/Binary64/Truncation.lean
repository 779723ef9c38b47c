import Mathlib.Algebra.Order.Field.Power
import Mathlib.Data.Rat.Floor
import Mathlib.Tactic.Linarith
import Mathlib.Tactic.Positivity
import FontMetrics.Proofs.Binary64.Exact

/-!
# Integer parts of binary64 numbers

A finite number stands for a rational number, and its integer part is that number rounded toward
zero.  Numbers that are not finite have no integer part.
-/

namespace FontMetrics.Binary64

/-- A rational number rounded toward zero. -/
def towardZero (q : ℚ) : Int := if 0 ≤ q then ⌊q⌋ else ⌈q⌉

/-- Truncating a number that is not negative rounds it down. -/
theorem towardZero_of_nonneg {q : ℚ} (h : 0 ≤ q) : towardZero q = ⌊q⌋ := if_pos h

/-- Rounding toward zero does not depend on the sign. -/
theorem towardZero_neg (q : ℚ) : towardZero (-q) = -towardZero q := by
  unfold towardZero
  rcases lt_trichotomy q 0 with h | rfl | h
  · rw [if_pos (by linarith), if_neg (by linarith), Int.floor_neg]
  · simp
  · rw [if_neg (by linarith), if_pos h.le, Int.ceil_neg]

/-- Truncating an integer does not change it. -/
@[simp] theorem towardZero_intCast (n : Int) : towardZero n = n := by
  simp [towardZero]

/-- Scaling a significand up is exact, and scaling it down rounds toward zero. -/
theorem floor_significand_mul (significand : Nat) (exponent : Int) :
    ⌊(significand : ℚ) * 2 ^ exponent⌋ =
      (if 0 ≤ exponent then significand * 2 ^ exponent.toNat
        else significand / 2 ^ (-exponent).toNat : Nat) := by
  split
  · next h =>
    obtain ⟨k, rfl⟩ := Int.eq_ofNat_of_zero_le h
    rw [zpow_natCast, Int.toNat_natCast, ← Nat.cast_ofNat, ← Nat.cast_pow, ← Nat.cast_mul]
    exact Int.floor_natCast _
  · next h =>
    obtain ⟨k, hk⟩ : ∃ k : Nat, exponent = -k := ⟨(-exponent).toNat, by omega⟩
    rw [hk, neg_neg, Int.toNat_natCast, zpow_neg, zpow_natCast, ← div_eq_mul_inv,
      ← Nat.cast_ofNat, ← Nat.cast_pow]
    exact Rat.floor_natCast_div_natCast _ _

/-- The integer part of a number is its value rounded toward zero. -/
theorem truncate_eq (x : Binary64) : x.truncate = x.toRat?.map towardZero := by
  cases x with
  | nan => rfl
  | infinite => rfl
  | finite negative significand exponent =>
    have hnonneg : (0 : ℚ) ≤ significand * 2 ^ exponent := by positivity
    have hfloor := towardZero_of_nonneg hnonneg
    rw [floor_significand_mul] at hfloor
    cases negative with
    | false =>
      simp only [truncate, toRat?, Bool.false_eq_true, ite_false, one_mul, Option.map_some, hfloor,
        Nat.pow_eq]
    | true =>
      simp only [truncate, toRat?, ite_true, neg_mul, one_mul, Option.map_some, towardZero_neg,
        hfloor, Nat.pow_eq]

/-- The exponent field of all ones marks the numbers that are not finite. -/
theorem isSome_toRat?_ofBits (bits : Nat) :
    (ofBits bits).toRat?.isSome = true ↔ bits / 0x10000000000000 % 0x800 ≠ 2047 := by
  simp only [ofBits]
  split
  · next h => split <;> simp [toRat?, h]
  · next h =>
    split
    · simp [toRat?, h]
    · simp [toRat?, h]

section Finite

open Float.Model (Format UnpackedFloat)
open Float.Model.UnpackedFloat (unpackExponent unpackMantissa)

/-- What is unpacked is finite unless the exponent field is all ones. -/
private theorem isFinite_unpack (b : BitVec 64) :
    (UnpackedFloat.unpack Format.binary64 b).isFinite = true ↔
      @unpackExponent Format.binary64 b ≠ -1#11 := by
  by_cases hall : @unpackExponent Format.binary64 b = -1#11
  · have hfinite : (UnpackedFloat.unpack Format.binary64 b).isFinite = false := by
      by_cases hfraction : @unpackMantissa Format.binary64 b = 0#52
      · exact congrArg UnpackedFloat.isFinite ((if_pos hall).trans (if_pos hfraction))
      · exact congrArg UnpackedFloat.isFinite ((if_pos hall).trans (if_neg hfraction))
    rw [hfinite]
    exact iff_of_false nofun (not_not.mpr hall)
  · have hfinite : (UnpackedFloat.unpack Format.binary64 b).isFinite = true := by
      by_cases hzero : @unpackExponent Format.binary64 b = 0#11
      · by_cases hfraction : @unpackMantissa Format.binary64 b = 0#52
        · exact congrArg UnpackedFloat.isFinite
            ((if_neg hall).trans ((if_pos hzero).trans (dif_pos hfraction)))
        · exact congrArg UnpackedFloat.isFinite
            ((if_neg hall).trans ((if_pos hzero).trans (dif_neg hfraction)))
      · exact congrArg UnpackedFloat.isFinite ((if_neg hall).trans (if_neg hzero))
    exact iff_of_true hfinite hall

/-- The finite numbers are those that stand for a rational number. -/
theorem isFinite_iff {x : Float} : x.isFinite = true ↔ (ofFloat x).toRat?.isSome = true := by
  rw [ofFloat, isSome_toRat?_ofBits]
  change (UnpackedFloat.unpack Format.binary64 x.toBits.toBitVec).isFinite = true ↔ _
  have hfield : (@unpackExponent Format.binary64 x.toBits.toBitVec).toNat =
      x.toBits.toNat / 0x10000000000000 % 0x800 := by
    simp only [unpackExponent, BitVec.toNat_cast, BitVec.extractLsb_toNat,
      UInt64.toNat_toBitVec, Nat.shiftRight_eq_div_pow]
  have hones : @unpackExponent Format.binary64 x.toBits.toBitVec = -1#11 ↔
      x.toBits.toNat / 0x10000000000000 % 0x800 = 2047 := by
    rw [← BitVec.toNat_inj, hfield]
    rfl
  rw [isFinite_unpack]
  exact not_congr hones

end Finite

/-- The number is finite, and rounded toward zero it is the integer. -/
def IntegerPart (x : Float) (n : Int) : Prop :=
  x.isFinite = true ∧ ∃ q, (ofFloat x).toRat? = some q ∧ towardZero q = n

/-- The number is exactly the integer. -/
def IsInteger (x : Float) (n : Int) : Prop := (ofFloat x).toRat? = some (n : ℚ)

/-- The integer part is what the truncation gives. -/
theorem integerPart_iff {x : Float} {n : Int} :
    IntegerPart x n ↔ Scalar.truncate x = some n := by
  change _ ↔ (ofFloat x).truncate = some n
  rw [truncate_eq, IntegerPart, isFinite_iff]
  cases (ofFloat x).toRat? <;> simp

/-- An integer is its own integer part. -/
theorem IsInteger.integerPart {x : Float} {n : Int} (h : IsInteger x n) : IntegerPart x n :=
  ⟨isFinite_iff.mpr (by rw [h]; rfl), n, h, towardZero_intCast n⟩

/-- A number has at most one integer part. -/
theorem IntegerPart.unique {x : Float} {m n : Int} (hm : IntegerPart x m) (hn : IntegerPart x n) :
    m = n :=
  Option.some.inj ((integerPart_iff.mp hm).symm.trans (integerPart_iff.mp hn))

/-- The integers of at most 37 bits that a charstring can spell out are exact. -/
theorem isInteger_ofInt {n : Int} (h : n.natAbs < 2 ^ 37) :
    IsInteger (Fixed.ofInt n).toScalar n := by
  have hunits : (Fixed.ofInt n).units.natAbs = n.natAbs * 65536 := Int.natAbs_mul n 65536
  rw [IsInteger, toRat?_toScalar (by rw [hunits]; omega)]
  simp [Fixed.ofInt]

end FontMetrics.Binary64
