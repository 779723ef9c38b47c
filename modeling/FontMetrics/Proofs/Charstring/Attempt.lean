import FontMetrics.Charstring.State

/-!
# Operators that refuse their operands

A path operator draws as it goes along, and some operators find out only on the way that they do not
take the operands that are left.  What has been drawn by then stays drawn.  `PathOperator.perform`
gives the outline in either case; where the operands are taken, it is the one with the path of
`PathOperator.steps`.
-/

namespace FontMetrics.Charstring

/-- What an operator does with operands. -/
structure Attempt (α : Type) where
  /-- The path that is drawn. -/
  path : List (PathStep α)
  /-- Why the operands that are left then are refused, unless all have been taken. -/
  refusal : Option Error

namespace Attempt

variable {α : Type}

/-- There is nothing left to do. -/
def done : Attempt α := ⟨[], none⟩

/-- The operands are refused. -/
def refuse (e : Error) : Attempt α := ⟨[], some e⟩

/-- A step is drawn first. -/
def cons (s : PathStep α) (a : Attempt α) : Attempt α := ⟨s :: a.path, a.refusal⟩

/-- Operands that are checked before anything is drawn: the whole path is drawn or nothing. -/
def ofSteps : Except Error (List (PathStep α)) → Attempt α
  | .ok path => ⟨path, none⟩
  | .error e => refuse e

/-- The path, if all operands are taken. -/
def toSteps (a : Attempt α) : Except Error (List (PathStep α)) :=
  match a.refusal with
  | none => .ok a.path
  | some e => .error e

/-- A first step is the first of the path. -/
@[simp] theorem toSteps_cons (s : PathStep α) (a : Attempt α) :
    (a.cons s).toSteps = (s :: ·) <$> a.toSteps := by
  obtain ⟨path, refusal⟩ := a
  cases refusal <;> rfl

/-- Operands that are checked first give the path that they stand for. -/
@[simp] theorem toSteps_ofSteps (steps : Except Error (List (PathStep α))) :
    (ofSteps steps).toSteps = steps := by
  cases steps <;> rfl

/-- `(dx dy)*`: a line as soon as its two operands are there. -/
def lines : List α → Attempt α
  | [] => done
  | dx :: dy :: rest => (lines rest).cons (.line dx dy)
  | _ => refuse .operandCount

/-- `(dxa dya dxb dyb dxc dyc)* dx dy`: curves while more than two operands are left. -/
def curvesThenLine : List α → Attempt α
  | [dx, dy] => done.cons (.line dx dy)
  | dxa :: dya :: dxb :: dyb :: dxc :: dyc :: rest =>
    (curvesThenLine rest).cons (.curve dxa dya dxb dyb dxc dyc)
  | _ => refuse .operandCount

/-- `(dx dy)* dxa dya dxb dyb dxc dyc`: lines while more than six operands are left. -/
def linesThenCurve : List α → Attempt α
  | [dxa, dya, dxb, dyb, dxc, dyc] => done.cons (.curve dxa dya dxb dyb dxc dyc)
  | dx :: dy :: rest =>
    if 4 < rest.length then (linesThenCurve rest).cons (.line dx dy) else refuse .operandCount
  | _ => refuse .operandCount

/-- Lines that are all drawn are their path, by induction on the pairs of operands. -/
private theorem toSteps_lines : ∀ operands : List α,
    (lines operands).toSteps = PathOperands.lines operands
  | [] => rfl
  | [_] => rfl
  | dx :: dy :: rest => by rw [lines, toSteps_cons, toSteps_lines rest, PathOperands.lines]

private theorem toSteps_curvesThenLine : ∀ operands : List α,
    (curvesThenLine operands).toSteps = PathOperands.curvesThenLine operands
  | [] | [_] | [_, _] | [_, _, _] | [_, _, _, _] | [_, _, _, _, _] => rfl
  | _ :: _ :: _ :: _ :: _ :: _ :: rest => by
    rw [curvesThenLine, toSteps_cons, toSteps_curvesThenLine rest, PathOperands.curvesThenLine]

private theorem toSteps_linesThenCurve : ∀ operands : List α,
    (linesThenCurve operands).toSteps = PathOperands.linesThenCurve operands
  | [] | [_] | [_, _] | [_, _, _] | [_, _, _, _] | [_, _, _, _, _] => rfl
  | [_, _, _, _, _, _] => rfl
  | dx :: dy :: a :: b :: c :: d :: e :: rest => by
    have hmore : 4 < (a :: b :: c :: d :: e :: rest).length := by simp
    rw [linesThenCurve, if_pos hmore, toSteps_cons,
      toSteps_linesThenCurve (a :: b :: c :: d :: e :: rest)]
    · rfl
    · simp

variable [Scalar α]

/-- `(a b c d e f g h)* cross?`: two curves as soon as their operands are there. -/
def curvePairs (axis : Axis) : List α → Attempt α
  | [] => done
  | [a, b, c, d, e, f, g, h, cross] =>
    (done.cons (axis.other.turningCurve e f g h cross)).cons
      (axis.turningCurve a b c d Scalar.zero)
  | a :: b :: c :: d :: e :: f :: g :: h :: rest =>
    ((curvePairs axis rest).cons (axis.other.turningCurve e f g h Scalar.zero)).cons
      (axis.turningCurve a b c d Scalar.zero)
  | _ => refuse .operandCount

/-- `(a b c d)* cross?`: one curve if their number is odd, and then pairs. -/
def alternatingCurves (axis : Axis) (operands : List α) : Attempt α :=
  if operands.length / 4 % 2 = 1 then
    match operands with
    | [a, b, c, d, cross] => done.cons (axis.turningCurve a b c d cross)
    | a :: b :: c :: d :: rest =>
      (curvePairs axis.other rest).cons (axis.turningCurve a b c d Scalar.zero)
    | _ => refuse .operandCount
  else
    curvePairs axis operands

/-- A last pair with a single operand behind it is taken whole, like the pairs before it. -/
private theorem toSteps_curvePairs (axis : Axis) : ∀ operands : List α,
    (curvePairs axis operands).toSteps = PathOperands.curvePairs axis operands
  | [] | [_] | [_, _] | [_, _, _] | [_, _, _, _] | [_, _, _, _, _] | [_, _, _, _, _, _]
  | [_, _, _, _, _, _, _] | [_, _, _, _, _, _, _, _] | [_, _, _, _, _, _, _, _, _] => rfl
  | _ :: _ :: _ :: _ :: _ :: _ :: _ :: _ :: x :: y :: rest => by
    rw [curvePairs, toSteps_cons, toSteps_cons, toSteps_curvePairs axis (x :: y :: rest),
      Functor.map_map]
    · rfl
    · simp

private theorem toSteps_alternatingCurves (axis : Axis) (operands : List α) :
    (alternatingCurves axis operands).toSteps = PathOperands.alternatingCurves axis operands := by
  unfold alternatingCurves PathOperands.alternatingCurves
  split
  · match operands with
    | [] | [_] | [_, _] | [_, _, _] => rfl
    | [_, _, _, _] | [_, _, _, _, _] => rfl
    | _ :: _ :: _ :: _ :: x :: y :: rest =>
      exact (toSteps_cons _ _).trans
        (congrArg _ (toSteps_curvePairs axis.other (x :: y :: rest)))
  · exact toSteps_curvePairs axis operands

end Attempt

variable {α : Type} [Scalar α]

/-- What an operator does with its operands, listed from the bottom of the stack. -/
def PathOperator.attempt (op : PathOperator) (operands : List α) : Attempt α :=
  match op with
  | .rlineto => .lines operands
  | .rcurveline => .curvesThenLine operands
  | .rlinecurve => .linesThenCurve operands
  | .hvcurveto => .alternatingCurves .horizontal operands
  | .vhcurveto => .alternatingCurves .vertical operands
  -- The others refuse operands, if they ever do, by their number before they draw anything.
  | op => .ofSteps (op.steps operands)

/-- The outline that an operator leaves behind, and why it refused its operands if it did. -/
def PathOperator.perform (op : PathOperator) (operands : List α) (o : Outline α) :
    Outline α × Option Error :=
  (o.draw (op.attempt operands).path, (op.attempt operands).refusal)

/-- Operators take the operands for which they stand for a path, and draw this path. -/
theorem PathOperator.toSteps_attempt (op : PathOperator) (operands : List α) :
    (op.attempt operands).toSteps = op.steps operands := by
  cases op with
  | rlineto => exact Attempt.toSteps_lines operands
  | rcurveline => exact Attempt.toSteps_curvesThenLine operands
  | rlinecurve => exact Attempt.toSteps_linesThenCurve operands
  | hvcurveto => exact Attempt.toSteps_alternatingCurves .horizontal operands
  | vhcurveto => exact Attempt.toSteps_alternatingCurves .vertical operands
  | hlineto => rfl
  | vlineto => rfl
  | _ => exact Attempt.toSteps_ofSteps _

/-- Operands that are all taken draw the path. -/
theorem PathOperator.perform_of_ok {op : PathOperator} {operands : List α}
    {path : List (PathStep α)} (h : op.steps operands = .ok path) (o : Outline α) :
    op.perform operands o = (o.draw path, none) := by
  rw [← op.toSteps_attempt, Attempt.toSteps] at h
  rw [perform]
  cases hrefusal : (op.attempt operands).refusal with
  | none => rw [hrefusal] at h; rw [Except.ok.inj h]
  | some e => rw [hrefusal] at h; cases h

/-- Operands without a path are refused for the reason that the path gives. -/
private theorem PathOperator.refusal_of_error {op : PathOperator} {operands : List α} {e : Error}
    (h : op.steps operands = .error e) (o : Outline α) : (op.perform operands o).2 = some e := by
  rw [← op.toSteps_attempt, Attempt.toSteps] at h
  rw [perform]
  cases hrefusal : (op.attempt operands).refusal with
  | none => rw [hrefusal] at h; cases h
  | some e => rw [hrefusal] at h; rw [Except.error.inj h]

/-- Executing a path operator performs it on all operands, and ends with the reason if they are
refused. -/
theorem State.drawPath_eq_perform (op : PathOperator) (s : State α) :
    s.drawPath op =
      match op.perform s.stack.toList s.outline with
      | (outline, none) => .ok { s with outline, stack := .empty }
      | (_, some e) => .error e := by
  rw [State.drawPath]
  cases h : op.steps s.stack.toList with
  | ok path => rw [PathOperator.perform_of_ok h]
  | error e =>
    have hrefusal := PathOperator.refusal_of_error h s.outline
    cases hperform : op.perform s.stack.toList s.outline with
    | mk outline refusal =>
      rw [hperform] at hrefusal
      obtain rfl : refusal = some e := hrefusal
      rfl

end FontMetrics.Charstring
