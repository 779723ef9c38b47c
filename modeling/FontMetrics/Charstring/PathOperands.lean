import FontMetrics.Charstring.Error
import FontMetrics.Charstring.Operator
import FontMetrics.Outline.Path

/-!
# The operands of path operators

Each path operator packs the steps of a path into as few operands as it can.  Here the operands,
listed from the bottom of the stack, are unpacked again: `PathOperator.steps` gives the path that an
operator stands for, or says why it does not take these operands.

Most operators exist for both axes.  They are defined once, by the axis along which they start.
-/

namespace FontMetrics.Charstring

/-- A direction in which coordinates are counted. -/
inductive Axis where
  | horizontal
  | vertical
  deriving DecidableEq, Repr

namespace Axis

variable {α : Type} [Scalar α]

/-- The other direction. -/
def other : Axis → Axis
  | .horizontal => .vertical
  | .vertical => .horizontal

/-- There are two axes. -/
@[simp] theorem other_other (axis : Axis) : axis.other.other = axis := by
  cases axis <;> rfl

/-- A move along an axis. -/
def move (axis : Axis) (d : α) : PathStep α :=
  match axis with
  | .horizontal => .move d Scalar.zero
  | .vertical => .move Scalar.zero d

/-- A line along an axis. -/
def line (axis : Axis) (d : α) : PathStep α :=
  match axis with
  | .horizontal => .line d Scalar.zero
  | .vertical => .line Scalar.zero d

/-- A curve that ends along the axis and starts along it but for `cross`. -/
def parallelCurve (axis : Axis) (cross along dxb dyb last : α) : PathStep α :=
  match axis with
  | .horizontal => .curve along cross dxb dyb last Scalar.zero
  | .vertical => .curve cross along dxb dyb Scalar.zero last

/-- A curve that starts along the axis and ends along the other one but for `cross`. -/
def turningCurve (axis : Axis) (along dxb dyb last cross : α) : PathStep α :=
  match axis with
  | .horizontal => .curve along Scalar.zero dxb dyb cross last
  | .vertical => .curve Scalar.zero along dxb dyb last cross

end Axis

namespace PathOperands

variable {α : Type} [Scalar α]

/-- `dx dy`, perhaps after the width of the glyph: one move. -/
def freeMove : List α → Except Error (List (PathStep α))
  | [dx, dy] | [_, dx, dy] => .ok [.move dx dy]
  | _ => .error .operandCount

/-- `d`, perhaps after the width of the glyph: one move along the axis. -/
def axisMove (axis : Axis) : List α → Except Error (List (PathStep α))
  | [] => .error .stackUnderflow
  | [d] | [_, d] => .ok [axis.move d]
  | _ => .error .operandCount

/-- `(dx dy)*`: lines. -/
def lines : List α → Except Error (List (PathStep α))
  | [] => .ok []
  | dx :: dy :: rest => (.line dx dy :: ·) <$> lines rest
  | _ => .error .operandCount

/-- `d*`: lines along the two axes in turn. -/
def alternatingLines (axis : Axis) : List α → List (PathStep α)
  | [] => []
  | d :: rest => axis.line d :: alternatingLines axis.other rest

/-- `(dxa dya dxb dyb dxc dyc)*`: curves. -/
def curves : List α → Except Error (List (PathStep α))
  | [] => .ok []
  | dxa :: dya :: dxb :: dyb :: dxc :: dyc :: rest =>
    (.curve dxa dya dxb dyb dxc dyc :: ·) <$> curves rest
  | _ => .error .operandCount

/-- `(dxa dya dxb dyb dxc dyc)* dx dy`: curves, then a line. -/
def curvesThenLine : List α → Except Error (List (PathStep α))
  | [dx, dy] => .ok [.line dx dy]
  | dxa :: dya :: dxb :: dyb :: dxc :: dyc :: rest =>
    (.curve dxa dya dxb dyb dxc dyc :: ·) <$> curvesThenLine rest
  | _ => .error .operandCount

/-- `(dx dy)* dxa dya dxb dyb dxc dyc`: lines, then a curve. -/
def linesThenCurve : List α → Except Error (List (PathStep α))
  | [dxa, dya, dxb, dyb, dxc, dyc] => .ok [.curve dxa dya dxb dyb dxc dyc]
  | dx :: dy :: rest => (.line dx dy :: ·) <$> linesThenCurve rest
  | _ => .error .operandCount

/-- `(along dxb dyb last)*`: curves that start and end along the axis, the first of them but for
`cross`. -/
def parallelCurves (axis : Axis) (cross : α) : List α → Except Error (List (PathStep α))
  | [] => .ok []
  | along :: dxb :: dyb :: last :: rest =>
    (axis.parallelCurve cross along dxb dyb last :: ·) <$> parallelCurves axis Scalar.zero rest
  | _ => .error .operandCount

/-- `cross? (along dxb dyb last)*`: curves that start and end along the axis.  An odd number of
operands tells that `cross` is there. -/
def packedParallelCurves (axis : Axis) (operands : List α) : Except Error (List (PathStep α)) :=
  match operands with
  | cross :: rest =>
    if operands.length % 2 = 1 then parallelCurves axis cross rest
    else parallelCurves axis Scalar.zero operands
  | [] => .ok []

/-- `(a b c d e f g h)* cross?`: pairs of curves, the first of which starts along the axis and the
second along the other one.  The very last curve may end off its axis. -/
def curvePairs (axis : Axis) : List α → Except Error (List (PathStep α))
  | [] => .ok []
  | [a, b, c, d, e, f, g, h, cross] =>
    .ok [axis.turningCurve a b c d Scalar.zero, axis.other.turningCurve e f g h cross]
  | a :: b :: c :: d :: e :: f :: g :: h :: rest =>
    (axis.turningCurve a b c d Scalar.zero ::
      axis.other.turningCurve e f g h Scalar.zero :: ·) <$> curvePairs axis rest
  | _ => .error .operandCount

/-- `(a b c d)* cross?`: curves that start along the two axes in turn.  An odd number of curves is
one curve followed by pairs. -/
def alternatingCurves (axis : Axis) (operands : List α) : Except Error (List (PathStep α)) :=
  if operands.length / 4 % 2 = 1 then
    match operands with
    | [a, b, c, d, cross] => .ok [axis.turningCurve a b c d cross]
    | a :: b :: c :: d :: rest =>
      (axis.turningCurve a b c d Scalar.zero :: ·) <$> curvePairs axis.other rest
    | _ => .error .operandCount
  else
    curvePairs axis operands

/-- Two curves and the depth of the flex, which only matters to renderers. -/
def flex : List α → Except Error (List (PathStep α))
  | [dx1, dy1, dx2, dy2, dx3, dy3, dx4, dy4, dx5, dy5, dx6, dy6, _] =>
    .ok [.curve dx1 dy1 dx2 dy2 dx3 dy3, .curve dx4 dy4 dx5 dy5 dx6 dy6]
  | _ => .error .operandCount

/-- Two curves whose ends and middle have the same height. -/
def hflex : List α → Except Error (List (PathStep α))
  | [dx1, dx2, dy2, dx3, dx4, dx5, dx6] =>
    .ok [.curve dx1 Scalar.zero dx2 dy2 dx3 Scalar.zero,
      .curve dx4 Scalar.zero dx5 (-dy2) dx6 Scalar.zero]
  | _ => .error .operandCount

/-- Two curves whose ends have the same height and that meet horizontally. -/
def hflex1 : List α → Except Error (List (PathStep α))
  | [dx1, dy1, dx2, dy2, dx3, dx4, dx5, dy5, dx6] =>
    .ok [.curve dx1 dy1 dx2 dy2 dx3 Scalar.zero,
      .curve dx4 Scalar.zero dx5 dy5 dx6 (-(dy1 + dy2 + dy5))]
  | _ => .error .operandCount

/-- Two curves that return to where they started on the axis along which they extend less; the last
operand is the final delta along the other one. -/
def flex1 : List α → Except Error (List (PathStep α))
  | [dx1, dy1, dx2, dy2, dx3, dy3, dx4, dy4, dx5, dy5, d6] =>
    let dx := dx1 + dx2 + dx3 + dx4 + dx5
    let dy := dy1 + dy2 + dy3 + dy4 + dy5
    let (dx6, dy6) :=
      if Scalar.isLt (Scalar.abs dy) (Scalar.abs dx) then (d6, -dy) else (-dx, d6)
    .ok [.curve dx1 dy1 dx2 dy2 dx3 dy3, .curve dx4 dy4 dx5 dy5 dx6 dy6]
  | _ => .error .operandCount

end PathOperands

/-- The path that an operator stands for with the given operands. -/
def PathOperator.steps {α : Type} [Scalar α] (op : PathOperator) (operands : List α) :
    Except Error (List (PathStep α)) :=
  match op with
  | .rmoveto => PathOperands.freeMove operands
  | .hmoveto => PathOperands.axisMove .horizontal operands
  | .vmoveto => PathOperands.axisMove .vertical operands
  | .rlineto => PathOperands.lines operands
  | .hlineto => .ok (PathOperands.alternatingLines .horizontal operands)
  | .vlineto => .ok (PathOperands.alternatingLines .vertical operands)
  | .rrcurveto => PathOperands.curves operands
  | .rcurveline => PathOperands.curvesThenLine operands
  | .rlinecurve => PathOperands.linesThenCurve operands
  | .hhcurveto => PathOperands.packedParallelCurves .horizontal operands
  | .vvcurveto => PathOperands.packedParallelCurves .vertical operands
  | .hvcurveto => PathOperands.alternatingCurves .horizontal operands
  | .vhcurveto => PathOperands.alternatingCurves .vertical operands
  | .flex => PathOperands.flex operands
  | .hflex => PathOperands.hflex operands
  | .hflex1 => PathOperands.hflex1 operands
  | .flex1 => PathOperands.flex1 operands

end FontMetrics.Charstring
