import Mathlib.Data.List.Perm.Basic
import FontMetrics.Binary64
import FontMetrics.Proofs.Charstring.Attempt

/-!
# Exchanging the axes

Reflecting an outline in the diagonal exchanges its axes.  Drawing commutes with it step by step, for
any scalars: the two coordinates are computed alike, and the flag asks the same of all of them.

Where there is an operator for each axis, the two stand for reflected paths, but not always with the
same operands.  Curves have an operand for each coordinate between their first and their last
control vector, and both operators take the horizontal one first; so these two are to be exchanged.
-/

namespace FontMetrics

variable {α : Type}

/-- The outline reflected in the diagonal. -/
def Outline.transpose (o : Outline α) : Outline α where
  x := o.y
  y := o.x
  box := o.box.map Box.transpose
  overflowed := o.overflowed

/-- Reflecting an outline twice gives it back. -/
@[simp] theorem Outline.transpose_transpose (o : Outline α) : o.transpose.transpose = o := by
  obtain ⟨x, y, box, overflowed⟩ := o
  cases box <;> rfl

/-- The coordinates of points are those of the reflected points. -/
theorem coordinates_perm (points : List (α × α)) :
    (points.flatMap fun p => [p.1, p.2]).Perm (points.flatMap fun p => [p.2, p.1]) := by
  apply List.Perm.flatMap_left
  intro p _
  exact List.Perm.swap p.2 p.1 []

section Drawing

variable [Scalar α]

/-- A reflected box is finite exactly if the box is. -/
theorem Box.isFinite_transpose (b : Box α) : b.transpose.isFinite = b.isFinite := by
  have hcomm := Bool.and_comm (Scalar.isFinite b.yMin && Scalar.isFinite b.yMax)
    (Scalar.isFinite b.xMin && Scalar.isFinite b.xMax)
  simpa only [Box.isFinite, Box.transpose, Bool.and_assoc] using hcomm

/-- A segment through reflected points, with the reflected extent, is the reflected segment. -/
theorem Outline.transpose_segment (o : Outline α) {points points' : List α}
    (hpoints : points.Perm points') (extent : Box α) (x y : α) :
    (o.segment points extent x y).transpose =
      o.transpose.segment points' extent.transpose y x := by
  have hfinite : points.all Scalar.isFinite = points'.all Scalar.isFinite := hpoints.all_eq
  have hbox : Option.map Box.transpose (o.segment points extent x y).box =
      (o.transpose.segment points' extent.transpose y x).box := by
    cases hbox : o.box with
    | none => simp [segment, transpose, hbox]
    | some box => simp [segment, transpose, hbox, Box.transpose_union]
  have hflag : (o.segment points extent x y).overflowed =
      (o.transpose.segment points' extent.transpose y x).overflowed := by
    simp only [segment, transpose, hfinite, Box.isFinite_transpose]
  rw [transpose, hbox, hflag]
  rfl

/-- Reflecting the outline before a step, and the step, reflects the outline after it. -/
theorem Outline.transpose_step (o : Outline α) (s : PathStep α) :
    (o.step s).transpose = o.transpose.step s.transpose := by
  cases s with
  | move dx dy => rfl
  | line dx dy =>
    exact o.transpose_segment (coordinates_perm [(o.x, o.y), (o.x + dx, o.y + dy)]) _ _ _
  | curve dxa dya dxb dyb dxc dyc =>
    exact o.transpose_segment
      (coordinates_perm [(o.x, o.y), (o.x + dxa, o.y + dya), (o.x + dxa + dxb, o.y + dya + dyb),
        (o.x + dxa + dxb + dxc, o.y + dya + dyb + dyc)]) _ _ _

/-- Reflecting the outline before a path, and the path, reflects the outline after it. -/
theorem Outline.transpose_draw (o : Outline α) (path : List (PathStep α)) :
    (o.draw path).transpose = o.transpose.draw (path.map PathStep.transpose) := by
  induction path generalizing o with
  | nil => rfl
  | cons s path ih => rw [draw_cons, ih, transpose_step, List.map_cons, draw_cons]

end Drawing

namespace Charstring

/-- The kinds of operators of which there is one for each axis. -/
inductive AxialOperator where
  | move
  | lines
  | parallelCurves
  | turningCurves
  deriving DecidableEq, Repr

/-- The operator of the kind for an axis. -/
def AxialOperator.along : AxialOperator → Axis → PathOperator
  | .move, .horizontal => .hmoveto
  | .move, .vertical => .vmoveto
  | .lines, .horizontal => .hlineto
  | .lines, .vertical => .vlineto
  | .parallelCurves, .horizontal => .hhcurveto
  | .parallelCurves, .vertical => .vvcurveto
  | .turningCurves, .horizontal => .hvcurveto
  | .turningCurves, .vertical => .vhcurveto

/-- The second and the third of every four operands exchanged. -/
def swapControls : List α → List α
  | a :: b :: c :: d :: rest => a :: c :: b :: d :: swapControls rest
  | operands => operands

/-- Exchanging operands keeps their number. -/
theorem length_swapControls : ∀ operands : List α,
    (swapControls operands).length = operands.length
  | [] | [_] | [_, _] | [_, _, _] => rfl
  | _ :: _ :: _ :: _ :: rest => by
    simp only [swapControls, List.length_cons, length_swapControls rest]

/-- The operands with which the operator for the other axis stands for the reflected path. -/
def AxialOperator.reflect : AxialOperator → List α → List α
  | .move, operands | .lines, operands => operands
  | .parallelCurves, operands =>
    -- An operand in front, by which the first curve starts off its axis, is not part of a group.
    if operands.length % 2 = 1 then operands.take 1 ++ swapControls (operands.drop 1)
    else swapControls operands
  | .turningCurves, operands => swapControls operands

/-- The attempt to draw the reflected path. -/
def Attempt.transpose (a : Attempt α) : Attempt α := ⟨a.path.map PathStep.transpose, a.refusal⟩

/-- A reflected attempt starts with the reflected step. -/
@[simp] theorem Attempt.transpose_cons (s : PathStep α) (a : Attempt α) :
    (a.cons s).transpose = a.transpose.cons s.transpose := rfl

/-- Operands that are checked first give the reflected path or the same error. -/
theorem Attempt.transpose_ofSteps (steps : Except Error (List (PathStep α))) :
    (ofSteps steps).transpose = ofSteps (List.map PathStep.transpose <$> steps) := by
  cases steps <;> rfl

/-- The path of a reflected attempt is the reflected path. -/
theorem Attempt.toSteps_transpose (a : Attempt α) :
    a.transpose.toSteps = List.map PathStep.transpose <$> a.toSteps := by
  obtain ⟨path, refusal⟩ := a
  cases refusal <;> rfl

section Axes

variable [Scalar α] (axis : Axis)

theorem Axis.transpose_move (d : α) : (axis.move d).transpose = axis.other.move d := by
  cases axis <;> rfl

theorem Axis.transpose_line (d : α) : (axis.line d).transpose = axis.other.line d := by
  cases axis <;> rfl

/-- A reflected curve with parallel ends goes along the other axis, with its control vector
reflected. -/
theorem Axis.transpose_parallelCurve (cross along dxb dyb last : α) :
    (axis.parallelCurve cross along dxb dyb last).transpose =
      axis.other.parallelCurve cross along dyb dxb last := by
  cases axis <;> rfl

/-- A reflected curve that turns starts along the other axis, with its control vector reflected. -/
theorem Axis.transpose_turningCurve (along dxb dyb last cross : α) :
    (axis.turningCurve along dxb dyb last cross).transpose =
      axis.other.turningCurve along dyb dxb last cross := by
  cases axis <;> rfl

namespace PathOperands

private theorem axisMove_other (operands : List α) :
    axisMove axis.other operands = List.map PathStep.transpose <$> axisMove axis operands := by
  match operands with
  | [] => rfl
  | [d] | [_, d] =>
    change Except.ok [axis.other.move d] = Except.ok [(axis.move d).transpose]
    rw [axis.transpose_move]
  | _ :: _ :: _ :: _ => rfl

/-- Lines along the axes in turn, reflected, start with the other axis. -/
private theorem alternatingLines_other (operands : List α) :
    alternatingLines axis.other operands =
      (alternatingLines axis operands).map PathStep.transpose := by
  induction operands generalizing axis with
  | nil => rfl
  | cons d rest ih =>
    rw [alternatingLines, alternatingLines, List.map_cons, axis.transpose_line, ih axis.other]

/-- Parallel curves along the other axis are the reflected ones, group by group. -/
private theorem parallelCurves_other : ∀ (cross : α) (operands : List α),
    parallelCurves axis.other cross (swapControls operands) =
      List.map PathStep.transpose <$> parallelCurves axis cross operands
  | _, [] | _, [_] | _, [_, _] | _, [_, _, _] => rfl
  | cross, along :: dxb :: dyb :: last :: rest => by
    rw [swapControls, parallelCurves, parallelCurves, parallelCurves_other Scalar.zero rest,
      Functor.map_map, Functor.map_map]
    simp only [List.map_cons, axis.transpose_parallelCurve]

/-- An even number of operands has none in front of the curves. -/
private theorem packedParallelCurves_of_even {operands : List α} (h : operands.length % 2 = 0) :
    packedParallelCurves axis operands = parallelCurves axis Scalar.zero operands := by
  cases operands with
  | nil => rfl
  | cons cross rest => exact if_neg (by omega)

/-- The operand in front stays in front when the axes are exchanged. -/
private theorem packedParallelCurves_other (operands : List α) :
    packedParallelCurves axis.other (AxialOperator.parallelCurves.reflect operands) =
      List.map PathStep.transpose <$> packedParallelCurves axis operands := by
  rw [AxialOperator.reflect]
  by_cases hodd : operands.length % 2 = 1
  · rw [if_pos hodd]
    cases operands with
    | nil => cases hodd
    | cons cross rest =>
      have hodd' : (cross :: swapControls rest).length % 2 = 1 := by
        rw [List.length_cons, length_swapControls]
        exact hodd
      change packedParallelCurves axis.other (cross :: swapControls rest) = _
      rw [packedParallelCurves, packedParallelCurves, if_pos hodd', if_pos hodd,
        parallelCurves_other]
  · have heven : operands.length % 2 = 0 := by omega
    have heven' : (swapControls operands).length % 2 = 0 := by
      rw [length_swapControls]
      exact heven
    rw [if_neg hodd, packedParallelCurves_of_even _ heven', packedParallelCurves_of_even _ heven,
      parallelCurves_other]

end PathOperands

namespace Attempt

/-- Behind a pair of curves come more operands, unless it is the last one's `cross`. -/
theorem curvePairs_cons {rest : List α} (h : rest.length ≠ 1) (a b c d e f g h' : α) :
    curvePairs axis (a :: b :: c :: d :: e :: f :: g :: h' :: rest) =
      ((curvePairs axis rest).cons (axis.other.turningCurve e f g h' Scalar.zero)).cons
        (axis.turningCurve a b c d Scalar.zero) := by
  match rest with
  | [] => rfl
  | [_] => exact absurd rfl h
  | _ :: _ :: _ => rfl

private theorem curvePairs_other (axis : Axis) : ∀ operands : List α,
    curvePairs axis.other (swapControls operands) = (curvePairs axis operands).transpose
  | [] | [_] | [_, _] | [_, _, _] | [_, _, _, _] | [_, _, _, _, _] | [_, _, _, _, _, _]
  | [_, _, _, _, _, _, _] => rfl
  | a :: b :: c :: d :: e :: f :: g :: h :: rest => by
    change curvePairs axis.other (a :: c :: b :: d :: e :: g :: f :: h :: swapControls rest) = _
    by_cases hrest : rest.length = 1
    · obtain ⟨cross, rfl⟩ := List.length_eq_one_iff.mp hrest
      simp only [swapControls, curvePairs, transpose_cons, Axis.transpose_turningCurve]
      rfl
    · have hrest' : (swapControls rest).length ≠ 1 := by
        rw [length_swapControls]
        exact hrest
      rw [curvePairs_cons axis hrest, curvePairs_cons axis.other hrest', curvePairs_other axis rest]
      simp only [transpose_cons, Axis.transpose_turningCurve]

/-- A single curve may end off its axis. -/
private theorem alternatingCurves_last (a b c d cross : α) :
    alternatingCurves axis [a, b, c, d, cross] =
      done.cons (axis.turningCurve a b c d cross) :=
  if_pos (show [a, b, c, d, cross].length / 4 % 2 = 1 by simp)

/-- Behind a single curve come pairs, unless it is the last one's `cross`. -/
theorem alternatingCurves_cons {rest : List α} (hodd : (rest.length + 4) / 4 % 2 = 1)
    (h : rest.length ≠ 1) (a b c d : α) :
    alternatingCurves axis (a :: b :: c :: d :: rest) =
      (curvePairs axis.other rest).cons (axis.turningCurve a b c d Scalar.zero) := by
  refine (if_pos hodd).trans ?_
  match rest with
  | [] => rfl
  | [_] => exact absurd rfl h
  | _ :: _ :: _ => rfl

/-- Curves that start along the axes in turn, reflected, start with the other axis. -/
private theorem alternatingCurves_other (operands : List α) :
    alternatingCurves axis.other (swapControls operands) =
      (alternatingCurves axis operands).transpose := by
  have hlength := length_swapControls operands
  by_cases hodd : operands.length / 4 % 2 = 1
  · match operands with
    | [] | [_] | [_, _] | [_, _, _] => exact absurd hodd (by simp)
    | a :: b :: c :: d :: rest =>
      by_cases hrest : rest.length = 1
      · obtain ⟨cross, rfl⟩ := List.length_eq_one_iff.mp hrest
        rw [alternatingCurves_last, transpose_cons, axis.transpose_turningCurve]
        exact alternatingCurves_last axis.other a c b d cross
      · have hodd' : ((swapControls rest).length + 4) / 4 % 2 = 1 := by
          rw [length_swapControls]
          exact hodd
        have hrest' : (swapControls rest).length ≠ 1 := by
          rw [length_swapControls]
          exact hrest
        rw [swapControls, alternatingCurves_cons _ hodd' hrest', alternatingCurves_cons _ hodd hrest,
          curvePairs_other, transpose_cons, axis.transpose_turningCurve]
  · unfold alternatingCurves
    rw [hlength, if_neg hodd, if_neg hodd, curvePairs_other]

end Attempt

/-- The operator for the other axis attempts the reflected path. -/
theorem AxialOperator.attempt_other (k : AxialOperator) (operands : List α) :
    (k.along axis.other).attempt (k.reflect operands) =
      ((k.along axis).attempt operands).transpose := by
  cases k with
  | move =>
    have hmove (axis : Axis) : (AxialOperator.move.along axis).attempt operands =
        .ofSteps (PathOperands.axisMove axis operands) := by cases axis <;> rfl
    rw [reflect, hmove, hmove, PathOperands.axisMove_other, Attempt.transpose_ofSteps]
  | lines =>
    have hlines (axis : Axis) : (AxialOperator.lines.along axis).attempt operands =
        .ofSteps (.ok (PathOperands.alternatingLines axis operands)) := by cases axis <;> rfl
    rw [reflect, hlines, hlines, PathOperands.alternatingLines_other, Attempt.transpose_ofSteps]
    rfl
  | parallelCurves =>
    have hcurves (axis : Axis) (operands : List α) :
        (AxialOperator.parallelCurves.along axis).attempt operands =
          .ofSteps (PathOperands.packedParallelCurves axis operands) := by cases axis <;> rfl
    rw [hcurves, hcurves, PathOperands.packedParallelCurves_other, Attempt.transpose_ofSteps]
  | turningCurves =>
    have hcurves (axis : Axis) (operands : List α) :
        (AxialOperator.turningCurves.along axis).attempt operands =
          .alternatingCurves axis operands := by cases axis <;> rfl
    rw [reflect, hcurves, hcurves, Attempt.alternatingCurves_other]

/-- Exchanging the axes of an outline, and then performing the operator for the other axis, is the
same as performing the operator and then exchanging the axes, whether the operands are taken or
refused.  Moves and lines are performed on the same operands.  Those of curves are exchanged where
two of them are the coordinates of one control vector. -/
theorem exchanging_axes_exchanges_operators (k : AxialOperator) (operands : List α)
    (o : Outline α) :
    (k.along axis.other).steps (k.reflect operands) =
        List.map PathStep.transpose <$> (k.along axis).steps operands ∧
      (k.along axis.other).perform (k.reflect operands) o.transpose =
        Prod.map Outline.transpose id ((k.along axis).perform operands o) := by
  have hattempt := k.attempt_other axis operands
  constructor
  · rw [← PathOperator.toSteps_attempt, ← PathOperator.toSteps_attempt, hattempt,
      Attempt.toSteps_transpose]
  · rw [PathOperator.perform, PathOperator.perform, hattempt, Prod.map, Outline.transpose_draw]
    rfl

/-- On the same operands the operators for curves are not exchanged: with the control vector
`(20, 50)` one curve turns another way than its reflection. -/
theorem curve_operators_not_exchanged_on_same_operands :
    PathOperator.vvcurveto.perform [Float.ofInt 10, Float.ofInt 20, Float.ofInt 50, Float.ofInt 30]
        Outline.empty.transpose ≠
      Prod.map Outline.transpose id (PathOperator.hhcurveto.perform
        [Float.ofInt 10, Float.ofInt 20, Float.ofInt 50, Float.ofInt 30] Outline.empty) ∧
    PathOperator.vhcurveto.perform [Float.ofInt 10, Float.ofInt 20, Float.ofInt 50, Float.ofInt 30]
        Outline.empty.transpose ≠
      Prod.map Outline.transpose id (PathOperator.hvcurveto.perform
        [Float.ofInt 10, Float.ofInt 20, Float.ofInt 50, Float.ofInt 30] Outline.empty) := by
  constructor
  · intro h
    have hx := congrArg (fun r => r.1.x.toBits) h
    revert hx
    decide +kernel
  · intro h
    have hx := congrArg (fun r => r.1.x.toBits) h
    revert hx
    decide +kernel

end Axes

end Charstring

end FontMetrics
