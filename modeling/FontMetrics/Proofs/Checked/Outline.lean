import FontMetrics.Outline.Path
import FontMetrics.Proofs.Checked.Result

/-!
# Curves in buffers of fixed size

The critical parameters of a curve, and the values among which the ends of its range are sought, are
collected in buffers with room for two and for four of them.  A derivative of degree at most two has
no more roots than that, and no more than these are added to the two ends of the curve, whatever the
control values are; so the buffers never overflow.
-/

namespace FontMetrics

variable {ε α : Type} [Scalar α]

namespace Bezier

open Scalar (ofInt zero one isEq isLt isLe)

/-- The critical parameters, in a buffer for two. -/
def checkedParameters (p0 p1 p2 p3 : α) : Checked ε (List α) := do
  let a := p3 - p0 + ofInt 3 * (p1 - p2)
  let b := ofInt 2 * (p0 + p2) - ofInt 4 * p1
  let c := p1 - p0
  if isEq a zero then
    if isEq b zero then return [] else Checked.append 2 [] (-c / b)
  else
    let discriminant := b * b - ofInt 4 * a * c
    if isLe zero discriminant then
      let root := Scalar.sqrt discriminant
      let parameters ← Checked.append 2 [] ((-b + root) / (a + a))
      Checked.append 2 parameters ((-b - root) / (a + a))
    else
      return []

/-- Adds the values of the curve at parameters between its ends to a buffer for four. -/
def checkedExtrema (p0 p1 p2 p3 : α) : List α → List α → Checked ε (List α)
  | candidates, [] => return candidates
  | candidates, t :: parameters => do
    if isLt zero t && isLt t one then
      let candidates ← Checked.append 4 candidates (eval p0 p1 p2 p3 t)
      checkedExtrema p0 p1 p2 p3 candidates parameters
    else
      checkedExtrema p0 p1 p2 p3 candidates parameters

/-- The least and the greatest of some values, if there is any. -/
def minMax? : List α → Option (α × α)
  | [] => none
  | [x] => some (x, x)
  | x :: y :: rest =>
    let (lo, hi) := if isLt y x then (y, x) else (x, y)
    some (widen lo hi rest)

/-- The least and the greatest value of the curve, sought in a buffer for four. -/
def checkedExtent (p0 p1 p2 p3 : α) : Checked ε (α × α) := do
  let candidates ← Checked.append 4 [] p0
  let candidates ← Checked.append 4 candidates p3
  let parameters ← checkedParameters p0 p1 p2 p3
  let candidates ← checkedExtrema p0 p1 p2 p3 candidates parameters
  return (minMax? candidates).getD (p0, p3)

/-- A curve never has more than two critical parameters. -/
private theorem checkedParameters_eq (p0 p1 p2 p3 : α) :
    (checkedParameters p0 p1 p2 p3 : Checked ε (List α)) =
      pure (criticalParameters p0 p1 p2 p3) := by
  have hone (x : α) : (Checked.append 2 [] x : Checked ε (List α)) = pure [x] :=
    Checked.append_eq x Nat.zero_lt_two
  have htwo (x y : α) : (Checked.append 2 [x] y : Checked ε (List α)) = pure [x, y] :=
    Checked.append_eq y Nat.one_lt_two
  simp only [checkedParameters, criticalParameters, hone, htwo, pure_bind]
  split
  · split <;> rfl
  · split <;> rfl

/-- There is room for as many values as there are parameters. -/
theorem checkedExtrema_eq (p0 p1 p2 p3 : α) {candidates parameters : List α}
    (h : candidates.length + parameters.length ≤ 4) :
    (checkedExtrema p0 p1 p2 p3 candidates parameters : Checked ε (List α)) =
      pure (candidates ++
        (parameters.filter fun t => isLt zero t && isLt t one).map (eval p0 p1 p2 p3)) := by
  induction parameters generalizing candidates with
  | nil => simp [checkedExtrema]
  | cons t parameters ih =>
    rw [List.length_cons] at h
    rw [checkedExtrema, List.filter_cons]
    by_cases ht : (isLt zero t && isLt t one) = true
    · have hroom : (candidates ++ [eval p0 p1 p2 p3 t]).length + parameters.length ≤ 4 := by
        rw [List.length_append, List.length_singleton]
        omega
      rw [if_pos ht, if_pos ht, Checked.append_eq _ (by omega), pure_bind, ih hroom]
      simp
    · rw [if_neg ht, if_neg ht, ih (by omega)]

/-- The range of a curve is found within the buffers. -/
private theorem checkedExtent_eq (p0 p1 p2 p3 : α) :
    (checkedExtent p0 p1 p2 p3 : Checked ε (α × α)) = pure (extent p0 p1 p2 p3) := by
  have hroom : ([p0] ++ [p3]).length + (criticalParameters p0 p1 p2 p3).length ≤ 4 :=
    Nat.add_le_add_left (length_criticalParameters_le p0 p1 p2 p3) 2
  rw [checkedExtent, Checked.append_eq p0 (by simp), pure_bind, List.nil_append,
    Checked.append_eq p3 (by simp), pure_bind, checkedParameters_eq, pure_bind,
    checkedExtrema_eq p0 p1 p2 p3 hroom, pure_bind]
  rfl

end Bezier

namespace Outline

/-- Performs one step, with curves measured in buffers of fixed size. -/
def checkedStep (o : Outline α) : PathStep α → Checked ε (Outline α)
  | .curve dxa dya dxb dyb dxc dyc => do
    let xa := o.x + dxa
    let ya := o.y + dya
    let xb := xa + dxb
    let yb := ya + dyb
    let xc := xb + dxc
    let yc := yb + dyc
    let (xMin, xMax) ← Bezier.checkedExtent o.x xa xb xc
    let (yMin, yMax) ← Bezier.checkedExtent o.y ya yb yc
    return o.segment [o.x, o.y, xa, ya, xb, yb, xc, yc] ⟨xMin, xMax, yMin, yMax⟩ xc yc
  | s => return o.step s

/-- Every step of a path is performed without overrunning a buffer. -/
theorem checkedStep_eq (o : Outline α) (s : PathStep α) :
    (o.checkedStep s : Checked ε (Outline α)) = pure (o.step s) := by
  cases s with
  | curve dxa dya dxb dyb dxc dyc =>
    simp only [checkedStep, Bezier.checkedExtent_eq, pure_bind]
    rfl
  | move dx dy | line dx dy => rfl

end Outline

end FontMetrics
