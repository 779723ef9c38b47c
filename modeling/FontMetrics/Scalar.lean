/-!
# Scalars

The numbers that charstrings compute with and outlines are measured in.  Everything that handles
coordinates is written over this class, so that the same definitions run on binary64 numbers and
can be read over any ordered field with square roots.

Comparisons are Boolean tests of the scalar itself: a scalar need not be totally ordered, and one
that differs from itself (`isEq x x = false`) is treated as missing by `min` and `max`.
-/

namespace FontMetrics

/-- Numbers with the operations that charstring programs and outlines need. -/
class Scalar (α : Type) extends Add α, Sub α, Mul α, Div α, Neg α where
  /-- The scalar nearest to an integer. -/
  ofInt : Int → α
  /-- Absolute value. -/
  abs : α → α
  /-- Square root. -/
  sqrt : α → α
  /-- Equality of values. -/
  isEq : α → α → Bool
  /-- The first is strictly less than the second. -/
  isLt : α → α → Bool
  /-- The first is at most the second. -/
  isLe : α → α → Bool
  /-- The scalar stands for a number on the line. -/
  isFinite : α → Bool
  /-- The integer part, rounded toward zero; absent when the scalar is not finite. -/
  truncate : α → Option Int

namespace Scalar

variable {α : Type} [Scalar α]

/-- The scalar zero. -/
def zero : α := ofInt 0

/-- The scalar one. -/
def one : α := ofInt 1

/-- One for true and zero for false. -/
def ofBool (b : Bool) : α := if b then one else zero

/-- The smaller of two scalars; the first wins a tie, and a scalar that is no value loses. -/
def min (x y : α) : α :=
  if isEq x x then (if isLt y x then y else x) else y

/-- The larger of two scalars; the first wins a tie, and a scalar that is no value loses. -/
def max (x y : α) : α :=
  if isEq x x then (if isLt x y then y else x) else y

end Scalar

end FontMetrics
