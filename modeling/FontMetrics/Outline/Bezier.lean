import FontMetrics.Scalar

/-!
# Cubic Bézier curves, one coordinate at a time

The range of one coordinate of a cubic curve.  It is attained at an end of the curve or where the
derivative vanishes in between; control points that lie outside the curve do not widen it.
-/

namespace FontMetrics.Bezier

open Scalar (ofInt zero one isEq isLt isLe)

variable {α : Type} [Scalar α]

/-- The point at parameter `t` of the curve with control values `p0`, `p1`, `p2`, `p3`. -/
def eval (p0 p1 p2 p3 t : α) : α :=
  let k := one - t
  p0 * k * k * k + ofInt 3 * k * t * (p1 * k + p2 * t) + p3 * t * t * t

/-- The parameters where the derivative, a third of which is `a t² + b t + c`, vanishes.  A constant
derivative has none. -/
def criticalParameters (p0 p1 p2 p3 : α) : List α :=
  let a := p3 - p0 + ofInt 3 * (p1 - p2)
  let b := ofInt 2 * (p0 + p2) - ofInt 4 * p1
  let c := p1 - p0
  if isEq a zero then
    if isEq b zero then [] else [-c / b]
  else
    let discriminant := b * b - ofInt 4 * a * c
    if isLe zero discriminant then
      let root := Scalar.sqrt discriminant
      [(-b + root) / (a + a), (-b - root) / (a + a)]
    else []

/-- The extrema of the curve strictly between its ends. -/
def interiorExtrema (p0 p1 p2 p3 : α) : List α :=
  ((criticalParameters p0 p1 p2 p3).filter fun t => isLt zero t && isLt t one).map
    (eval p0 p1 p2 p3)

/-- Widens a range by further values, two at a time.  Among values that compare as equal the first
minimum and the last maximum are kept. -/
def widen (lo hi : α) : List α → α × α
  | [] => (lo, hi)
  | [x] => if isLt x lo then (x, hi) else (lo, if isLt x hi then hi else x)
  | x :: y :: rest =>
    let (small, large) := if isLt y x then (y, x) else (x, y)
    widen (if isLt small lo then small else lo) (if isLt large hi then hi else large) rest

/-- The least and the greatest value of the curve. -/
def extent (p0 p1 p2 p3 : α) : α × α :=
  let (lo, hi) := if isLt p3 p0 then (p3, p0) else (p0, p3)
  widen lo hi (interiorExtrema p0 p1 p2 p3)

/-- A derivative of degree at most two vanishes at no more than two parameters. -/
theorem length_criticalParameters_le (p0 p1 p2 p3 : α) :
    (criticalParameters p0 p1 p2 p3).length ≤ 2 := by
  simp only [criticalParameters]
  repeat' split
  all_goals simp

end FontMetrics.Bezier
