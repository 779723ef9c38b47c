import Mathlib.Algebra.Order.AbsoluteValue.Basic
import Mathlib.Algebra.Order.Field.Basic
import FontMetrics.Scalar

/-!
# Exact scalars

An ordered field with a square root, read as scalars: the same definitions that run on
floating-point numbers then compute without rounding, and every scalar is a number on the line.
-/

namespace FontMetrics.Scalar

variable {K : Type} [Field K] [LinearOrder K]

/-- The scalars of an ordered field, given a square root and an integer part. -/
@[reducible] def ofField (root : K → K) (truncate : K → Option Int) : Scalar K where
  ofInt n := n
  abs x := |x|
  sqrt := root
  isEq x y := decide (x = y)
  isLt x y := decide (x < y)
  isLe x y := decide (x ≤ y)
  isFinite _ := true
  truncate := truncate

variable (root : K → K) (truncate : K → Option Int)

@[simp] theorem zero_ofField : @zero K (ofField root truncate) = 0 := Int.cast_zero

@[simp] theorem one_ofField : @one K (ofField root truncate) = 1 := Int.cast_one

/-- The test for equality of exact scalars decides equality. -/
@[simp] theorem isEq_ofField (x y : K) :
    (ofField root truncate).isEq x y = true ↔ x = y := decide_eq_true_iff

/-- The strict comparison of exact scalars decides the order. -/
@[simp] theorem isLt_ofField (x y : K) :
    (ofField root truncate).isLt x y = true ↔ x < y := decide_eq_true_iff

/-- The comparison of exact scalars decides the order. -/
@[simp] theorem isLe_ofField (x y : K) :
    (ofField root truncate).isLe x y = true ↔ x ≤ y := decide_eq_true_iff

/-- Keeping the smaller of two exact scalars computes their minimum. -/
theorem ite_isLt_ofField_min (x y : K) :
    (if (ofField root truncate).isLt x y = true then x else y) = Min.min x y := by
  simp only [isLt_ofField]
  split
  · next h => rw [min_eq_left h.le]
  · next h => rw [min_eq_right (not_lt.mp h)]

/-- Keeping the larger of two exact scalars computes their maximum. -/
theorem ite_isLt_ofField_max (x y : K) :
    (if (ofField root truncate).isLt x y = true then y else x) = Max.max x y := by
  simp only [isLt_ofField]
  split
  · next h => rw [max_eq_right h.le]
  · next h => rw [max_eq_left (not_lt.mp h)]

/-- Exchanging two exact scalars that are out of order puts the minimum first. -/
theorem ite_isLt_ofField_order (x y : K) :
    (if (ofField root truncate).isLt y x = true then (y, x) else (x, y)) =
      (Min.min x y, Max.max x y) := by
  simp only [isLt_ofField]
  split
  · next h => rw [min_eq_right h.le, max_eq_left h.le]
  · next h => rw [min_eq_left (not_lt.mp h), max_eq_right (not_lt.mp h)]

/-- The smaller of two exact scalars is their minimum. -/
theorem min_ofField (x y : K) : @min K (ofField root truncate) x y = Min.min x y := by
  have hnumber : (ofField root truncate).isEq x x = true := (isEq_ofField root truncate x x).mpr rfl
  unfold min
  rw [if_pos hnumber, ite_isLt_ofField_min, min_comm]

/-- The larger of two exact scalars is their maximum. -/
theorem max_ofField (x y : K) : @max K (ofField root truncate) x y = Max.max x y := by
  have hnumber : (ofField root truncate).isEq x x = true := (isEq_ofField root truncate x x).mpr rfl
  unfold max
  rw [if_pos hnumber, ite_isLt_ofField_max]

end FontMetrics.Scalar
