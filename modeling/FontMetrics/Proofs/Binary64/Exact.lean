import Mathlib.Algebra.Order.Ring.Rat
import Mathlib.Tactic.NormNum
import Mathlib.Tactic.Ring
import FontMetrics.Binary64
import FontMetrics.Fixed

/-!
# Fixed-point numbers as binary64 numbers

The numbers of a charstring become binary64 numbers by dividing an integer by 65536.  Neither the
conversion of the integer nor the division rounds, because the integer has at most 53 bits: the
binary64 number is exactly the fixed-point number, and its integer part is that of the quotient.

The arithmetic is followed on significands of 53 bits, `2 ^ 52 ≤ m < 2 ^ 53`, which is what
`m.log2 = 52` says.
-/

namespace FontMetrics.Binary64

open Float.Model
open Float.Model.UnpackedFloat

/-- The exponents of normal numbers. -/
def IsExponent (e : Int) : Prop := -1074 ≤ e ∧ e ≤ 971

private theorem pos_of_log2 {m : Nat} (hm : m.log2 = 52) : 0 < m := by
  rcases Nat.eq_zero_or_pos m with rfl | hpos
  · simp at hm
  · exact hpos

/-- A normal number of the floating-point format. -/
def normal (s : Sign) (m : Nat) (e : Int) (hm : m.log2 = 52) : Float :=
  .ofModel (.pack (.finite s m e (pos_of_log2 hm)))

theorem log2_mul_two_pow {m : Nat} (hm : m ≠ 0) (k : Nat) : (m * 2 ^ k).log2 = m.log2 + k := by
  induction k with
  | zero => simp
  | succ k ih =>
    have hne : m * 2 ^ k ≠ 0 := Nat.mul_ne_zero hm (Nat.pos_iff_ne_zero.mp (Nat.two_pow_pos k))
    rw [show m * 2 ^ (k + 1) = 2 * (m * 2 ^ k) by ring, Nat.log2_two_mul hne, ih, Nat.add_assoc]

private theorem mantissaBits_eq : Format.binary64.mantissaBits = 53 := rfl

/-- Shifting out zeros loses nothing. -/
theorem shift_mul_two_pow (m k : Nat) :
    (⟨m * 2 ^ k, false, false⟩ : ExtendedMantissa) >>> k = ⟨m, false, false⟩ := by
  change Nat.repeat ExtendedMantissa.shiftRightOne k ⟨m * 2 ^ k, false, false⟩ = _
  induction k generalizing m with
  | zero => simp [Nat.repeat]
  | succ k ih =>
    rw [Nat.repeat, show m * 2 ^ (k + 1) = m * 2 * 2 ^ k by ring, ih]
    simp [ExtendedMantissa.shiftRightOne]

/-- A number is shifted to the place where its significand has 53 bits. -/
theorem shiftToTargetExponent_exact {m k : Nat} {e : Int} (hm : m.log2 = 52) (he : -1074 ≤ e + k) :
    shiftToTargetExponent Format.binary64 (m * 2 ^ k) e .exact =
      (⟨m, false, false⟩, e + k) := by
  have htotal : totalExponent (m * 2 ^ k) e = 53 + k + e := by
    rw [totalExponent, log2_mul_two_pow (pos_of_log2 hm).ne', hm]
    push_cast
    ring
  have htarget : Format.binary64.targetExponent (53 + k + e) = e + k := by
    simp only [Format.targetExponent, mantissaBits_eq, Format.minExponent]
    norm_num
    omega
  have hshift : (e + k - e).toNat = k := by omega
  simp only [shiftToTargetExponent, shiftToExponent, htotal, htarget, hshift,
    ExtendedMantissa.ofMantissaAndAccuracy, shift_mul_two_pow]

/-- A significand of 53 bits stays where it is. -/
theorem shiftToTargetExponent_self {m : Nat} {e : Int} (hm : m.log2 = 52) (he : -1074 ≤ e) :
    shiftToTargetExponent Format.binary64 m e .exact = (⟨m, false, false⟩, e) := by
  simpa using shiftToTargetExponent_exact (k := 0) (e := e) hm (by simpa using he)

/-- What is shifted to a significand of 53 bits is rounded to it. -/
private theorem roundWithAccuracy_of_shift (s : Sign) {m m' : Nat} {e e' : Int} (hm : m.log2 = 52)
    (he : -1074 ≤ e)
    (h : shiftToTargetExponent Format.binary64 m' e' .exact = (⟨m, false, false⟩, e)) :
    roundWithAccuracy Format.binary64 s m' e' .exact = .finite s m e (pos_of_log2 hm) := by
  have hrounded : ExtendedMantissa.roundedMantissa ⟨m, false, false⟩ = m := rfl
  rw [roundWithAccuracy, h]
  dsimp only
  rw [hrounded, shiftToTargetExponent_self hm he]
  exact dif_neg (pos_of_log2 hm).ne'

/-- Rounding keeps a number that has a significand of 53 bits. -/
theorem roundWithAccuracy_exact (s : Sign) {m k : Nat} {e : Int} (hm : m.log2 = 52)
    (he : -1074 ≤ e + k) :
    roundWithAccuracy Format.binary64 s (m * 2 ^ k) e .exact =
      .finite s m (e + k) (pos_of_log2 hm) :=
  roundWithAccuracy_of_shift s hm he (shiftToTargetExponent_exact hm he)

/-- The exponent field of a packed normal number. -/
private theorem biased_lt {e : Int} (he : IsExponent e) :
    ∃ biased : Nat, (biased : Int) = e + 1075 ∧ 0 < biased ∧ biased < 2047 := by
  obtain ⟨hlow, hhigh⟩ := he
  exact ⟨(e + 1075).toNat, by omega, by omega, by omega⟩

/-- The fields of a packed normal number. -/
theorem pack_normal (s : Sign) {m : Nat} {e : Int} (hm : m.log2 = 52) (biased : Nat)
    (hbiased : (biased : Int) = e + 1075) (hlt : biased < 2047) :
    UnpackedFloat.pack Format.binary64 (.finite s m e (pos_of_log2 hm)) =
      packComponents Format.binary64 s (BitVec.ofNat 11 biased) (BitVec.ofNat 52 m) := by
  have hexponent : (e + Format.binary64.exponentBias +
      Format.binary64.mantissaBitsWithoutImplicit).toNat = biased := by
    simp only [Format.exponentBias]
    norm_num
    omega
  have hsize : ¬ 2 ^ Format.binary64.exponentBits ≤ biased + 1 := by
    simp only
    omega
  change (if 2 ^ Format.binary64.exponentBits ≤ (e + Format.binary64.exponentBias +
      Format.binary64.mantissaBitsWithoutImplicit).toNat + 1 then _ else
    if m.log2 + 1 = 53 then packComponents Format.binary64 s (BitVec.ofNat 11 (e +
      Format.binary64.exponentBias + Format.binary64.mantissaBitsWithoutImplicit).toNat)
      (BitVec.ofNat 52 m) else _) = _
  rw [hexponent, if_neg hsize, hm, if_pos rfl]

/-- The fraction of a packed normal number is its significand without the leading bit. -/
private theorem significand_eq {m : Nat} (hm : m.log2 = 52) :
    m = 2 ^ 52 + (BitVec.ofNat 52 m).toNat := by
  obtain ⟨hlow, hhigh⟩ := (Nat.log2_eq_iff (pos_of_log2 hm).ne').mp hm
  rw [BitVec.toNat_ofNat]
  omega

private theorem unpackSign_packComponents (s : Sign) (exponent : BitVec 11)
    (fraction : BitVec 52) :
    Sign.ofBitVec (unpackSign (packComponents Format.binary64 s exponent fraction)) = s := by
  -- The sign lies above the two other fields.
  change Sign.ofBitVec ((s.toBitVec ++ exponent ++ fraction).extractLsb' 63 1) = s
  rw [BitVec.extractLsb'_append_eq_of_le (by omega), BitVec.extractLsb'_append_eq_of_le (by omega)]
  cases s <;> rfl

/-- Prepending a bit adds a power of two. -/
theorem toNat_append_eq {v w : Nat} (x : BitVec v) (y : BitVec w) :
    (x ++ y).toNat = x.toNat * 2 ^ w + y.toNat := by
  rw [BitVec.toNat_append, ← Nat.shiftLeft_add_eq_or_of_lt y.isLt, Nat.shiftLeft_eq]

/-- What is unpacked from fields that are neither all ones nor all zeros. -/
private theorem unpack_of_exponent {b : BitVec 64}
    (hones : @unpackExponent Format.binary64 b ≠ -1#11)
    (hzero : @unpackExponent Format.binary64 b ≠ 0#11) :
    ∃ h, UnpackedFloat.unpack Format.binary64 b =
      .finite (Sign.ofBitVec (@unpackSign Format.binary64 b))
        (1#1 ++ @unpackMantissa Format.binary64 b).toNat
        ((@unpackExponent Format.binary64 b).toNat - 1075) h :=
  ⟨_, (if_neg hones).trans (if_neg hzero)⟩

/-- Unpacking undoes packing. -/
theorem unpack_normal (s : Sign) {m : Nat} {e : Int} (hm : m.log2 = 52) (he : IsExponent e) :
    (normal s m e hm).toModel.unpack = .finite s m e (pos_of_log2 hm) := by
  obtain ⟨biased, hbiased, hpos, hlt⟩ := biased_lt he
  have hfield : (BitVec.ofNat 11 biased).toNat = biased := by
    rw [BitVec.toNat_ofNat]
    omega
  have hones : BitVec.ofNat 11 biased ≠ -1#11 := fun h => by
    have hnat : biased = 2047 := hfield.symm.trans (congrArg BitVec.toNat h)
    omega
  have hzero : BitVec.ofNat 11 biased ≠ 0#11 := fun h => by
    have hnat : biased = 0 := hfield.symm.trans (congrArg BitVec.toNat h)
    omega
  have hsignificand : (1#1 ++ BitVec.ofNat 52 m).toNat = m := by
    rw [toNat_append_eq, BitVec.toNat_ofNat, Nat.one_mod, Nat.one_mul]
    exact (significand_eq hm).symm
  change UnpackedFloat.unpack Format.binary64
    (UnpackedFloat.pack Format.binary64 (.finite s m e (pos_of_log2 hm))) = _
  rw [pack_normal s hm biased hbiased hlt]
  obtain ⟨hpositive, hunpack⟩ := unpack_of_exponent
    (b := packComponents Format.binary64 s (BitVec.ofNat 11 biased) (BitVec.ofNat 52 m))
    (by rwa [unpackExponent_packComponents]) (by rwa [unpackExponent_packComponents])
  rw [hunpack]
  congr 1
  · exact unpackSign_packComponents s _ _
  · rw [unpackMantissa_packComponents, hsignificand]
  · rw [unpackExponent_packComponents, hfield]
    omega

/-- Three fields in the range of normal numbers stand for a normal number. -/
theorem ofBits_fields (negative : Bool) {biased fraction : Nat} (hpos : 0 < biased)
    (hlt : biased < 2047) (hfraction : fraction < 2 ^ 52) :
    ofBits ((negative.toNat * 2 ^ 11 + biased) * 2 ^ 52 + fraction) =
      .finite negative (2 ^ 52 + fraction) ((biased : Int) - 1075) := by
  have hsign : ((negative.toNat * 2 ^ 11 + biased) * 2 ^ 52 + fraction) / 0x8000000000000000 % 2 =
      negative.toNat := by
    cases negative <;> simp only [Bool.toNat_false, Bool.toNat_true] <;> omega
  have hscale : ((negative.toNat * 2 ^ 11 + biased) * 2 ^ 52 + fraction) / 0x10000000000000 %
      0x800 = biased := by omega
  have hrest : ((negative.toNat * 2 ^ 11 + biased) * 2 ^ 52 + fraction) % 0x10000000000000 =
      fraction := by omega
  have hnotall : biased ≠ 2047 := by omega
  have hnotzero : biased ≠ 0 := by omega
  simp only [ofBits, hsign, hscale, hrest, hnotall, hnotzero, ite_false]
  cases negative <;> rfl

/-- The bits of a normal number stand for the number. -/
theorem ofFloat_normal (s : Sign) {m : Nat} {e : Int} (hm : m.log2 = 52) (he : IsExponent e) :
    ofFloat (normal s m e hm) = .finite (s == .negative) m e := by
  obtain ⟨biased, hbiased, hpos, hlt⟩ := biased_lt he
  have hbits : (normal s m e hm).toBits.toNat =
      (s.toBitVec.toNat * 2 ^ 11 + biased) * 2 ^ 52 + (BitVec.ofNat 52 m).toNat := by
    change (UnpackedFloat.pack Format.binary64 (.finite s m e (pos_of_log2 hm))).toNat = _
    rw [pack_normal s hm biased hbiased hlt]
    simp only [packComponents]
    rw [toNat_append_eq, toNat_append_eq, BitVec.toNat_ofNat, Nat.mod_eq_of_lt (by omega)]
  have hsign : s.toBitVec.toNat = (s == .negative).toNat := by cases s <;> rfl
  rw [ofFloat, hbits, hsign, ofBits_fields _ hpos hlt (BitVec.isLt _), ← significand_eq hm, hbiased]
  congr 1
  omega

/-- How far a number of at most 53 bits is shifted to the left. -/
def room (n : Nat) : Nat := 52 - n.log2

/-- Shifting to the left fills 53 bits. -/
theorem log2_normalized {n : Nat} (hpos : 0 < n) (hlt : n < 2 ^ 53) :
    (n * 2 ^ room n).log2 = 52 := by
  have hlog : n.log2 < 53 := (Nat.log2_lt hpos.ne').mpr hlt
  rw [log2_mul_two_pow hpos.ne', room]
  omega

/-- An integer of at most 53 bits is not rounded. -/
theorem round_eq (s : Sign) {n : Nat} (hpos : 0 < n) (hlt : n < 2 ^ 53) :
    UnpackedFloat.round Format.binary64 s n 0 =
      .finite s (n * 2 ^ room n) (-room n) (pos_of_log2 (log2_normalized hpos hlt)) := by
  have hlog : n.log2 < 53 := (Nat.log2_lt hpos.ne').mpr hlt
  have htarget : Format.binary64.targetExponent (totalExponent n 0) = -room n := by
    simp only [Format.targetExponent, totalExponent, mantissaBits_eq, Format.minExponent, room]
    norm_num
    omega
  have hshift : (0 - -(room n : Int)).toNat = room n := by omega
  have hlow : -1074 ≤ -(room n : Int) := by rw [room]; omega
  have hnormal := log2_normalized hpos hlt
  refine Eq.trans ?_
    (roundWithAccuracy_of_shift s hnormal hlow (shiftToTargetExponent_self hnormal hlow))
  simp only [UnpackedFloat.round, htarget, decreaseExponent, hshift, Nat.shiftLeft_eq]
  rw [show (0 : Int) - room n = -room n by omega]

/-- The number by which integers are multiplied when they are converted. -/
private theorem unpack_one :
    (Float.ofBits 0x3FF0000000000000).toModel.unpack =
      .finite .positive (2 ^ 52) (-52) (by decide) := by
  rfl

/-- Converting an integer of at most 53 bits does not round. -/
theorem ofNat_eq {n : Nat} (hpos : 0 < n) (hlt : n < 2 ^ 53) :
    Float.ofNat n = normal .positive (n * 2 ^ room n) (-room n) (log2_normalized hpos hlt) := by
  have hone : Float.ofNat n = n.toUInt64.toFloat * Float.ofBits 0x3FF0000000000000 := by
    unfold Float.ofNat
    simp only [OfScientific.ofScientific, Float.ofScientific]
    rw [dif_pos ⟨hlt, by decide⟩]
    rfl
  have hnat : n.toUInt64.toNat = n := by
    rw [Nat.toUInt64_eq, UInt64.toNat_ofNat']
    omega
  have hconvert : n.toUInt64.toFloat =
      normal .positive (n * 2 ^ room n) (-room n) (log2_normalized hpos hlt) := by
    have hcompare : compare (n : Int) 0 = .gt := Int.compare_eq_gt.mpr (by omega)
    have hround : UnpackedFloat.ofUInt64 Format.binary64 n.toUInt64 =
        UnpackedFloat.round Format.binary64 .positive n 0 := by
      simp only [UnpackedFloat.ofUInt64, UnpackedFloat.ofNat, UnpackedFloat.ofInt,
        UnpackedFloat.normalize, hnat, hcompare, Int.toNat_natCast]
    exact congrArg (fun x => Float.ofModel (.pack x)) (hround.trans (round_eq .positive hpos hlt))
  have hexponent : IsExponent (-room n) := by
    rw [room]
    exact ⟨by omega, by omega⟩
  rw [hone, hconvert]
  change Float.ofModel (.pack (UnpackedFloat.mul Format.binary64 (normal _ _ _ _).toModel.unpack
    (Float.ofBits 0x3FF0000000000000).toModel.unpack)) = _
  rw [unpack_normal _ _ hexponent, unpack_one]
  change Float.ofModel (.pack (roundWithAccuracy Format.binary64 _ (n * 2 ^ room n * 2 ^ 52)
    (-room n + -52) .exact)) = _
  rw [roundWithAccuracy_exact _ (k := 52) (log2_normalized hpos hlt) (by rw [room]; omega),
    show -(room n : Int) + -52 + (52 : Nat) = -room n by omega]
  rfl

/-- Negation changes the sign and nothing else. -/
theorem neg_normal (s : Sign) {m : Nat} {e : Int} (hm : m.log2 = 52) (he : IsExponent e) :
    -normal s m e hm = normal (-s) m e hm := by
  change Float.ofModel (.pack (UnpackedFloat.neg (normal s m e hm).toModel.unpack)) = _
  rw [unpack_normal _ _ he]
  rfl

/-- The sign of an integer. -/
def signOf (n : Int) : Sign := if n < 0 then .negative else .positive

/-- Converting an integer of at most 53 bits does not round. -/
theorem ofInt_eq {n : Int} (hne : n ≠ 0) (hlt : n.natAbs < 2 ^ 53) :
    Float.ofInt n = normal (signOf n) (n.natAbs * 2 ^ room n.natAbs) (-room n.natAbs)
      (log2_normalized (Int.natAbs_pos.mpr hne) hlt) := by
  cases n with
  | ofNat n => exact ofNat_eq (Int.natAbs_pos.mpr hne) hlt
  | negSucc n =>
    have hexponent : IsExponent (-room (n + 1)) := by
      rw [room]
      exact ⟨by omega, by omega⟩
    have hsign : signOf (Int.negSucc n) = .negative := if_pos (Int.negSucc_lt_zero n)
    have hpos := ofNat_eq (Nat.succ_pos n) hlt
    change -Float.ofNat (n + 1) = _
    rw [hpos, neg_normal _ _ hexponent, hsign]
    rfl

private theorem ofInt_divisor :
    Float.ofInt 65536 = normal .positive (2 ^ 52) (-36) (by decide) := by
  have hlog : Nat.log2 65536 = 16 := Nat.log2_two_pow (n := 16)
  change Float.ofNat 65536 = _
  rw [ofNat_eq (n := 65536) (by decide) (by decide)]
  simp only [room, hlog]
  rfl

/-- Dividing by 65536 lowers the exponent. -/
theorem normal_div (s : Sign) {m : Nat} {e : Int} (hm : m.log2 = 52) (he : IsExponent e)
    (hlow : -1057 ≤ e) :
    normal s m e hm / Float.ofInt 65536 = normal s m (e - 16) hm := by
  rw [ofInt_divisor]
  change Float.ofModel (.pack (UnpackedFloat.div Format.binary64 (normal s m e hm).toModel.unpack
    (normal .positive (2 ^ 52) (-36) _).toModel.unpack)) = _
  rw [unpack_normal _ _ he, unpack_normal _ _ ⟨by decide, by decide⟩]
  have htarget : Format.binary64.targetExponent
      (totalExponent m e - totalExponent (2 ^ 52) (-36)) = max (e - 17) (-1074) := by
    simp only [Format.targetExponent, totalExponent, hm, Nat.log2_two_pow, mantissaBits_eq,
      Format.minExponent]
    norm_num
    congr 1
    omega
  have hquotient : m <<< 53 / 2 ^ 52 = m * 2 ^ 1 := by
    rw [Nat.shiftLeft_eq]
    omega
  have hremainder : m <<< 53 % 2 ^ 52 = 0 := by
    rw [Nat.shiftLeft_eq]
    omega
  have hshift : (e - -36 - (e - 17)).toNat = 53 := by omega
  have hsign : s / .positive = s := by cases s <;> rfl
  have hcore : divCore Format.binary64 m e (2 ^ 52) (-36) = (m * 2 ^ 1, e - 17, .exact) := by
    simp only [divCore, htarget]
    rw [show min (e - -36) (max (e - 17) (-1074)) = e - 17 by omega, hshift, hquotient, hremainder,
      accuracyOfFraction, if_pos rfl]
  change Float.ofModel (.pack (match divCore Format.binary64 m e (2 ^ 52) (-36) with
    | (quotient, exponent, accuracy) =>
      roundWithAccuracy Format.binary64 (s / .positive) quotient exponent accuracy)) = _
  rw [hcore, hsign]
  dsimp only
  rw [roundWithAccuracy_exact _ hm (by omega), show e - 17 + (1 : Nat) = e - 16 by omega]
  rfl

/-- The scalar of a fixed-point number of at most 53 bits is exactly that number. -/
theorem ofFloat_toScalar {x : Fixed} (hne : x.units ≠ 0) (hlt : x.units.natAbs < 2 ^ 53) :
    ofFloat x.toScalar = .finite (x.units < 0) (x.units.natAbs * 2 ^ room x.units.natAbs)
      (-(room x.units.natAbs + 16)) := by
  have hroom : room x.units.natAbs ≤ 52 := by rw [room]; omega
  have hscalar : (x.toScalar : Float) = Float.ofInt x.units / Float.ofInt 65536 := rfl
  rw [hscalar, ofInt_eq hne hlt, normal_div _ _ ⟨by omega, by omega⟩ (by omega),
    ofFloat_normal _ _ ⟨by omega, by omega⟩]
  congr 1
  · by_cases hsign : x.units < 0 <;> simp only [signOf, hsign, ite_true, ite_false] <;> rfl
  · omega

/-- The rational number that a finite number is. -/
def toRat? : Binary64 → Option ℚ
  | .finite negative significand exponent =>
    some ((if negative then -1 else 1) * significand * 2 ^ exponent)
  | _ => none

theorem ofFloat_toScalar_zero : ofFloat (Fixed.toScalar ⟨0⟩) = .finite false 0 (-1074) := by
  decide +kernel

/-- The scalar of a fixed-point number of at most 53 bits is that many 65536ths. -/
theorem toRat?_toScalar {x : Fixed} (hlt : x.units.natAbs < 2 ^ 53) :
    (ofFloat x.toScalar).toRat? = some (x.units / 65536 : ℚ) := by
  obtain ⟨units⟩ := x
  by_cases hne : units = 0
  · subst hne
    rw [ofFloat_toScalar_zero]
    simp [toRat?]
  · rw [ofFloat_toScalar hne hlt, toRat?]
    congr 1
    have hpow : (2 : ℚ) ^ room units.natAbs * 2 ^ (-((room units.natAbs : Int) + 16)) =
        1 / 65536 := by
      rw [← zpow_natCast, ← zpow_add₀ (by norm_num), show (room units.natAbs : Int) +
        -((room units.natAbs : Int) + 16) = -16 by omega]
      norm_num
    have hsign : (if decide (units < 0) then -1 else 1) * (units.natAbs : ℚ) = units := by
      rw [Nat.cast_natAbs]
      by_cases hneg : units < 0
      · simp [hneg, abs_of_neg hneg]
      · simp [hneg, abs_of_nonneg (not_lt.mp hneg)]
    push_cast
    rw [← mul_assoc, hsign, mul_assoc, hpow, mul_one_div]

/-- The integer part of the scalar of a fixed-point number of at most 53 bits. -/
theorem truncate_toScalar {x : Fixed} (hlt : x.units.natAbs < 2 ^ 53) :
    Scalar.truncate (x.toScalar : Float) = some (x.units.tdiv 65536) := by
  by_cases hne : x.units = 0
  · obtain ⟨units⟩ := x
    simp only at hne
    subst hne
    decide +kernel
  · change (ofFloat x.toScalar).truncate = _
    have hlog : x.units.natAbs.log2 < 53 := (Nat.log2_lt (Int.natAbs_pos.mpr hne).ne').mpr hlt
    have hexponent : ¬ (0 : Int) ≤ -(room x.units.natAbs + 16) := by omega
    have hshift : (- -((room x.units.natAbs : Int) + 16)).toNat = room x.units.natAbs + 16 := by
      omega
    have hquotient : x.units.natAbs * 2 ^ room x.units.natAbs / 2 ^ (room x.units.natAbs + 16) =
        x.units.natAbs / 65536 := by
      rw [Nat.pow_add, Nat.mul_comm, Nat.mul_div_mul_left _ _ (Nat.two_pow_pos _)]
    rw [ofFloat_toScalar hne hlt]
    simp only [truncate, hexponent, ite_false, Nat.pow_eq, hshift, hquotient, decide_eq_true_eq]
    obtain ⟨units⟩ := x
    obtain ⟨n, rfl | rfl⟩ := units.eq_nat_or_neg
    · simp
    · have hpos : n ≠ 0 := by simpa using hne
      simp [hpos]

/-- The integer part of the scalar of a short integer is the integer. -/
theorem truncate_ofInt {n : Int} (hlt : n.natAbs < 2 ^ 37) :
    Scalar.truncate ((Fixed.ofInt n).toScalar : Float) = some n := by
  have hunits : (Fixed.ofInt n).units.natAbs = n.natAbs * 65536 := Int.natAbs_mul n 65536
  rw [truncate_toScalar (by rw [hunits]; omega)]
  simp [Fixed.ofInt]

end FontMetrics.Binary64
