import FontMetrics.Scalar

/-!
# Boxes

Axis-parallel bounding boxes, given by the two ends of their range in each coordinate.
-/

namespace FontMetrics

/-- A bounding box, in font units. -/
structure Box (α : Type) where
  /-- The left side. -/
  xMin : α
  /-- The right side. -/
  xMax : α
  /-- The lower side. -/
  yMin : α
  /-- The upper side. -/
  yMax : α
  deriving DecidableEq, Repr

namespace Box

variable {α : Type}

/-- The box reflected in the diagonal. -/
def transpose (b : Box α) : Box α where
  xMin := b.yMin
  xMax := b.yMax
  yMin := b.xMin
  yMax := b.xMax

/-- Exchanging the axes of a box twice gives it back. -/
@[simp] theorem transpose_transpose (b : Box α) : b.transpose.transpose = b := rfl

variable [Scalar α]

/-- The box around two boxes. -/
def union (a b : Box α) : Box α where
  xMin := Scalar.min a.xMin b.xMin
  xMax := Scalar.max a.xMax b.xMax
  yMin := Scalar.min a.yMin b.yMin
  yMax := Scalar.max a.yMax b.yMax

/-- All four sides are finite. -/
def isFinite (b : Box α) : Bool :=
  Scalar.isFinite b.xMin && Scalar.isFinite b.xMax &&
    Scalar.isFinite b.yMin && Scalar.isFinite b.yMax

/-- The extent from left to right. -/
def width (b : Box α) : α := b.xMax - b.xMin

/-- The extent from bottom to top. -/
def height (b : Box α) : α := b.yMax - b.yMin

/-- The axes of the union are those of the boxes. -/
theorem transpose_union (a b : Box α) :
    (a.union b).transpose = a.transpose.union b.transpose := rfl

end Box

end FontMetrics
