import Mathlib.Data.Int.Order.Basic
import Mathlib.Data.Prod.Lex
import FontMetrics.Binary64
import FontMetrics.Proofs.Scalar.Order

/-!
# The order of floating-point numbers

Floating-point numbers other than NaN are compared by sign, exponent and significand, so they are
ordered scalars.
-/

namespace FontMetrics.Binary64

open Float.Model (UnpackedFloat)

/-- What a floating-point number is compared by: its sign and whether it is infinite, then its
exponent and its significand.  NaN is not compared, and both zeros are the same. -/
def orderKey : UnpackedFloat → Option (ℤ ×ₗ ℤ ×ₗ ℤ)
  | .notANumber => none
  | .infinity .negative => some (toLex (-2, toLex (0, 0)))
  | .finite .negative m e _ => some (toLex (-1, toLex (-e, -m)))
  | .zero _ => some (toLex (0, toLex (0, 0)))
  | .finite .positive m e _ => some (toLex (1, toLex (e, m)))
  | .infinity .positive => some (toLex (2, toLex (0, 0)))

private theorem compare_neg (a b : ℤ) : compare (-a) (-b) = (compare a b).swap := by
  rcases lt_trichotomy a b with h | rfl | h
  · rw [compare_lt_iff_lt.mpr h, compare_gt_iff_gt.mpr (Int.neg_lt_neg h)]; rfl
  · simp
  · rw [compare_gt_iff_gt.mpr h, compare_lt_iff_lt.mpr (Int.neg_lt_neg h)]; rfl

private theorem compare_natCast (m n : Nat) : compare (m : ℤ) (n : ℤ) = compare m n := by
  rcases lt_trichotomy m n with h | rfl | h
  · rw [compare_lt_iff_lt.mpr h, compare_lt_iff_lt.mpr (Int.ofNat_lt.mpr h)]
  · simp
  · rw [compare_gt_iff_gt.mpr h, compare_gt_iff_gt.mpr (Int.ofNat_lt.mpr h)]

/-- Comparing floating-point numbers is comparing their keys. -/
theorem compare_eq (x y : UnpackedFloat) :
    x.compare y = (orderKey x).bind fun k => (orderKey y).map fun l => compare k l := by
  rcases x with s | _ | s | ⟨s, m, e, hm⟩ <;> rcases y with t | _ | t | ⟨t, n, f, hn⟩ <;>
    try cases s <;> try cases t
  all_goals try rfl
  case finite.finite.negative.negative =>
    change some ((compare e f).then (compare m n)).swap =
      some ((compare (-e) (-f)).then (compare (-(m : ℤ)) (-(n : ℤ))))
    rw [compare_neg, compare_neg, compare_natCast, Ordering.swap_then]
  case finite.finite.positive.positive =>
    change some ((compare e f).then (compare m n)) =
      some ((compare e f).then (compare (m : ℤ) (n : ℤ)))
    rw [compare_natCast]

/-- The key of a floating-point number. -/
def floatKey (x : Float) : Option (ℤ ×ₗ ℤ ×ₗ ℤ) := orderKey x.toModel.unpack

/-- The comparison of two floating-point numbers, absent if one is not compared. -/
def compareKeys (x y : Float) : Option Ordering :=
  (floatKey x).bind fun k => (floatKey y).map fun l => compare k l

/-- A test that fails for numbers that are not compared is a relation of the keys. -/
theorem test_compareKeys_iff (test : Option Ordering → Bool)
    {r : ℤ ×ₗ ℤ ×ₗ ℤ → ℤ ×ₗ ℤ ×ₗ ℤ → Prop} (hnone : test none = false)
    (hsome : ∀ k l, test (some (compare k l)) = true ↔ r k l) (x y : Float) :
    test (compareKeys x y) = true ↔ ∃ k ∈ floatKey x, ∃ l ∈ floatKey y, r k l := by
  unfold compareKeys
  cases floatKey x with
  | none => simp [hnone]
  | some k =>
    cases floatKey y with
    | none => simp [hnone]
    | some l =>
      rw [Option.bind_some, Option.map_some, hsome]
      constructor
      · intro h
        exact ⟨k, rfl, l, rfl, h⟩
      · rintro ⟨_, ⟨rfl⟩, _, ⟨rfl⟩, h⟩
        exact h

/-- One number is at most another if its key is. -/
theorem isLe_iff_floatKey {x y : Float} :
    Scalar.isLe x y = true ↔ ∃ k ∈ floatKey x, ∃ l ∈ floatKey y, k ≤ l := by
  have htest : Scalar.isLe x y = (compareKeys x y).any (·.isLE) := by
    rw [compareKeys, floatKey, floatKey, ← compare_eq]
    change decide (decide (UnpackedFloat.le _ _ = true) = true) = _
    rw [Bool.decide_eq_true, Bool.decide_eq_true, UnpackedFloat.le]
  rw [htest]
  refine test_compareKeys_iff (fun o => o.any (·.isLE)) rfl (fun k l => ?_) x y
  rw [Option.any_some, Ordering.isLE_iff_ne_gt, ← compare_le_iff_le]

/-- One number is less than another if its key is. -/
theorem isLt_iff_floatKey {x y : Float} :
    Scalar.isLt x y = true ↔ ∃ k ∈ floatKey x, ∃ l ∈ floatKey y, k < l := by
  have htest : Scalar.isLt x y = (compareKeys x y == some .lt) := by
    rw [compareKeys, floatKey, floatKey, ← compare_eq]
    change decide (decide (UnpackedFloat.lt _ _ = true) = true) = _
    rw [Bool.decide_eq_true, Bool.decide_eq_true, UnpackedFloat.lt]
  rw [htest]
  refine test_compareKeys_iff (fun o => o == some .lt) rfl (fun k l => ?_) x y
  rw [beq_iff_eq, Option.some.injEq, compare_lt_iff_lt]

/-- Two numbers are equal if their keys are. -/
theorem isEq_iff_floatKey {x y : Float} :
    Scalar.isEq x y = true ↔ ∃ k ∈ floatKey x, ∃ l ∈ floatKey y, k = l := by
  have htest : Scalar.isEq x y = (compareKeys x y == some .eq) := by
    rw [compareKeys, floatKey, floatKey, ← compare_eq]
    rfl
  rw [htest]
  refine test_compareKeys_iff (fun o => o == some .eq) rfl (fun k l => ?_) x y
  rw [beq_iff_eq, Option.some.injEq, compare_eq_iff_eq]

/-- A finite number has a key. -/
theorem exists_floatKey_of_isFinite {x : Float} (h : Scalar.isFinite x = true) :
    ∃ k, k ∈ floatKey x := by
  change x.toModel.unpack.isFinite = true at h
  unfold floatKey
  cases hx : x.toModel.unpack with
  | infinity s => rw [hx] at h; cases h
  | notANumber => rw [hx] at h; cases h
  | zero s => exact ⟨_, rfl⟩
  | finite s m e hm => cases s <;> exact ⟨_, rfl⟩

instance : Scalar.IsOrdered Float where
  isNumber_of_isLe h := by
    obtain ⟨k, hk, l, hl, -⟩ := isLe_iff_floatKey.mp h
    exact ⟨isEq_iff_floatKey.mpr ⟨k, hk, k, hk, rfl⟩, isEq_iff_floatKey.mpr ⟨l, hl, l, hl, rfl⟩⟩
  isLe_total hx hy := by
    obtain ⟨k, hk, -⟩ := isEq_iff_floatKey.mp hx
    obtain ⟨l, hl, -⟩ := isEq_iff_floatKey.mp hy
    rcases le_total k l with h | h
    · exact Or.inl (isLe_iff_floatKey.mpr ⟨k, hk, l, hl, h⟩)
    · exact Or.inr (isLe_iff_floatKey.mpr ⟨l, hl, k, hk, h⟩)
  isLe_trans hxy hyz := by
    obtain ⟨k, hk, l, hl, hkl⟩ := isLe_iff_floatKey.mp hxy
    obtain ⟨l', hl', m, hm, hlm⟩ := isLe_iff_floatKey.mp hyz
    obtain rfl := Option.mem_unique hl hl'
    exact isLe_iff_floatKey.mpr ⟨k, hk, m, hm, hkl.trans hlm⟩
  isEq_iff := by
    intro x y
    rw [isEq_iff_floatKey, isLe_iff_floatKey, isLe_iff_floatKey]
    constructor
    · rintro ⟨k, hk, _, hl, rfl⟩
      exact ⟨⟨k, hk, k, hl, le_rfl⟩, k, hl, k, hk, le_rfl⟩
    · rintro ⟨⟨k, hk, l, hl, hkl⟩, l', hl', k', hk', hlk⟩
      obtain rfl := Option.mem_unique hk hk'
      obtain rfl := Option.mem_unique hl hl'
      exact ⟨k, hk, l, hl, hkl.antisymm hlk⟩
  isLt_iff := by
    intro x y
    rw [isLt_iff_floatKey, isLe_iff_floatKey, isLe_iff_floatKey]
    constructor
    · rintro ⟨k, hk, l, hl, hkl⟩
      refine ⟨⟨k, hk, l, hl, hkl.le⟩, ?_⟩
      rintro ⟨l', hl', k', hk', hlk⟩
      obtain rfl := Option.mem_unique hk hk'
      obtain rfl := Option.mem_unique hl hl'
      exact hkl.not_ge hlk
    · rintro ⟨⟨k, hk, l, hl, -⟩, hnot⟩
      exact ⟨k, hk, l, hl, not_le.mp fun hlk => hnot ⟨l, hl, k, hk, hlk⟩⟩
  isNumber_of_isFinite h := by
    obtain ⟨k, hk⟩ := exists_floatKey_of_isFinite h
    exact isEq_iff_floatKey.mpr ⟨k, hk, k, hk, rfl⟩

end FontMetrics.Binary64
