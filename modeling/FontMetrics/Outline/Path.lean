import FontMetrics.Outline.Bezier
import FontMetrics.Outline.Box

/-!
# Paths and outlines

A path is a list of steps of a pen: moves, lines and cubic curves, every point relative to the one
before it.  An outline is what drawing a path leaves behind: where the pen stands, the box around
every line and curve drawn so far, and whether any of them left the finite plane.

Moves alone draw nothing, so an outline has a box exactly when a line or curve has been drawn.
-/

namespace FontMetrics

/-- One step of the pen. -/
inductive PathStep (α : Type) where
  /-- Lifts the pen and moves it by `(dx, dy)`. -/
  | move (dx dy : α)
  /-- Draws a straight line to the point `(dx, dy)` away. -/
  | line (dx dy : α)
  /-- Draws a cubic curve; each control point and the end are relative to the point before. -/
  | curve (dxa dya dxb dyb dxc dyc : α)
  deriving DecidableEq, Repr

/-- The state of an outline while it is drawn. -/
structure Outline (α : Type) where
  /-- The horizontal position of the pen. -/
  x : α
  /-- The vertical position of the pen. -/
  y : α
  /-- The box around everything drawn. -/
  box : Option (Box α)
  /-- Something was drawn that is not finite. -/
  overflowed : Bool
  deriving Repr

namespace PathStep

/-- The step reflected in the diagonal. -/
def transpose {α : Type} : PathStep α → PathStep α
  | .move dx dy => .move dy dx
  | .line dx dy => .line dy dx
  | .curve dxa dya dxb dyb dxc dyc => .curve dya dxa dyb dxb dyc dxc

end PathStep

namespace Outline

variable {α : Type} [Scalar α]

/-- The empty outline, with the pen at the origin. -/
def empty : Outline α := ⟨Scalar.zero, Scalar.zero, none, false⟩

/-- Moves the pen to `(x, y)` over a segment through the given points with the given extent. -/
def segment (o : Outline α) (points : List α) (extent : Box α) (x y : α) : Outline α where
  x := x
  y := y
  box := some (match o.box with
    | some box => box.union extent
    | none => extent)
  overflowed := o.overflowed || !points.all Scalar.isFinite || !extent.isFinite

/-- Performs one step. -/
def step (o : Outline α) : PathStep α → Outline α
  | .move dx dy => { o with x := o.x + dx, y := o.y + dy }
  | .line dx dy =>
    let x := o.x + dx
    let y := o.y + dy
    o.segment [o.x, o.y, x, y]
      ⟨Scalar.min o.x x, Scalar.max o.x x, Scalar.min o.y y, Scalar.max o.y y⟩ x y
  | .curve dxa dya dxb dyb dxc dyc =>
    let xa := o.x + dxa
    let ya := o.y + dya
    let xb := xa + dxb
    let yb := ya + dyb
    let xc := xb + dxc
    let yc := yb + dyc
    let (xMin, xMax) := Bezier.extent o.x xa xb xc
    let (yMin, yMax) := Bezier.extent o.y ya yb yc
    o.segment [o.x, o.y, xa, ya, xb, yb, xc, yc] ⟨xMin, xMax, yMin, yMax⟩ xc yc

/-- Performs the steps of a path in order. -/
def draw (o : Outline α) (path : List (PathStep α)) : Outline α :=
  path.foldl step o

/-- A path without steps draws nothing. -/
@[simp] theorem draw_nil (o : Outline α) : o.draw [] = o := rfl

/-- A path is drawn from its first step on. -/
@[simp] theorem draw_cons (o : Outline α) (s : PathStep α) (path : List (PathStep α)) :
    o.draw (s :: path) = (o.step s).draw path := rfl

/-- Paths are drawn one behind the other. -/
theorem draw_append (o : Outline α) (front back : List (PathStep α)) :
    o.draw (front ++ back) = (o.draw front).draw back := by
  simp [draw]

end Outline

end FontMetrics
