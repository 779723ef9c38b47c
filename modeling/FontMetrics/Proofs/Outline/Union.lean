import FontMetrics.Outline.Path
import FontMetrics.Proofs.Scalar.Order

/-!
# The box of an outline

What an outline keeps of the path drawn so far, compared with the lines and curves of that path: the
box is the union of their extents, and the outline has overflowed exactly if one of them is not
finite.  The scalars may be no numbers or infinite; moves may take the pen there without drawing
anything.
-/

namespace FontMetrics

open Scalar (IsNumber IsOrdered IsLeast IsGreatest isLe isLt)

variable {α : Type}

/-- A line or curve between two places of the pen. -/
inductive Segment (α : Type) where
  /-- A straight line. -/
  | line (start stop : α × α)
  /-- A cubic curve with two control points. -/
  | curve (start first second stop : α × α)
  deriving DecidableEq, Repr

namespace PathStep

/-- The step draws, and does not only move the pen. -/
def Draws : PathStep α → Prop
  | .move _ _ => False
  | .line _ _ => True
  | .curve _ _ _ _ _ _ => True

/-- Where a step that starts at `pen` leaves the pen. -/
def target [Scalar α] (pen : α × α) : PathStep α → α × α
  | .move dx dy | .line dx dy => (pen.1 + dx, pen.2 + dy)
  | .curve dxa dya dxb dyb dxc dyc => (pen.1 + dxa + dxb + dxc, pen.2 + dya + dyb + dyc)

/-- What a step that starts at `pen` draws. -/
def segment? [Scalar α] (pen : α × α) : PathStep α → Option (Segment α)
  | .move _ _ => none
  | .line dx dy => some (.line pen (pen.1 + dx, pen.2 + dy))
  | .curve dxa dya dxb dyb dxc dyc =>
    some (.curve pen (pen.1 + dxa, pen.2 + dya) (pen.1 + dxa + dxb, pen.2 + dya + dyb)
      (pen.1 + dxa + dxb + dxc, pen.2 + dya + dyb + dyc))

end PathStep

/-- The lines and curves of a path that starts at `pen`, in order. -/
def segments [Scalar α] (pen : α × α) : List (PathStep α) → List (Segment α)
  | [] => []
  | s :: path => (s.segment? pen).toList ++ segments (s.target pen) path

/-- A path has segments if one of its steps draws. -/
theorem segments_eq_nil_iff [Scalar α] {pen : α × α} {path : List (PathStep α)} :
    segments pen path = [] ↔ ∀ s ∈ path, ¬ s.Draws := by
  induction path generalizing pen with
  | nil => simp [segments]
  | cons s path ih =>
    rw [segments, List.append_eq_nil_iff, ih, List.forall_mem_cons]
    cases s <;> simp [PathStep.segment?, PathStep.Draws]

namespace Segment

/-- Where the segment starts. -/
def start : Segment α → α × α
  | .line start _ => start
  | .curve start _ _ _ => start

/-- Where the segment ends. -/
def stop : Segment α → α × α
  | .line _ stop => stop
  | .curve _ _ _ stop => stop

/-- The ends and control points of a segment. -/
def points : Segment α → List (α × α)
  | .line start stop => [start, stop]
  | .curve start first second stop => [start, first, second, stop]

variable [Scalar α]

/-- The box around a segment. -/
def extent : Segment α → Box α
  | .line start stop =>
    ⟨Scalar.min start.1 stop.1, Scalar.max start.1 stop.1,
      Scalar.min start.2 stop.2, Scalar.max start.2 stop.2⟩
  | .curve start first second stop =>
    let x := Bezier.extent start.1 first.1 second.1 stop.1
    let y := Bezier.extent start.2 first.2 second.2 stop.2
    ⟨x.1, x.2, y.1, y.2⟩

/-- An end, a control point or a side of the extent is not finite. -/
def Overflows (s : Segment α) : Prop :=
  (∃ p ∈ s.points, Scalar.isFinite p.1 = false ∨ Scalar.isFinite p.2 = false) ∨
    s.extent.isFinite = false

end Segment

namespace Box

variable [Scalar α]

/-- The point is inside the box or on its sides. -/
structure Contains (b : Box α) (p : α × α) : Prop where
  /-- Not left of the box. -/
  left : isLe b.xMin p.1 = true
  /-- Not right of the box. -/
  right : isLe p.1 b.xMax = true
  /-- Not below the box. -/
  bottom : isLe b.yMin p.2 = true
  /-- Not above the box. -/
  top : isLe p.2 b.yMax = true

/-- Each side of the box is the outermost of those of the other boxes. -/
structure IsUnion (b : Box α) (boxes : List (Box α)) : Prop where
  /-- The left side is the leftmost one. -/
  xMin : IsLeast b.xMin (boxes.map Box.xMin)
  /-- The right side is the rightmost one. -/
  xMax : IsGreatest b.xMax (boxes.map Box.xMax)
  /-- The lower side is the lowest one. -/
  yMin : IsLeast b.yMin (boxes.map Box.yMin)
  /-- The upper side is the highest one. -/
  yMax : IsGreatest b.yMax (boxes.map Box.yMax)

/-- The box is a finite one around the segments, no larger than their extents require. -/
structure Bounds (b : Box α) (drawn : List (Segment α)) : Prop where
  /-- The sides are finite. -/
  isFinite : b.isFinite = true
  /-- The left side is not right of the right one. -/
  xMin_le : isLe b.xMin b.xMax = true
  /-- The lower side is not above the upper one. -/
  yMin_le : isLe b.yMin b.yMax = true
  /-- Each side is the outermost of those of the extents. -/
  isUnion : b.IsUnion (drawn.map Segment.extent)
  /-- The ends of the segments are in the box. -/
  contains : ∀ s ∈ drawn, b.Contains s.start ∧ b.Contains s.stop

/-- The first box lies in the second. -/
structure IsWithin (b b' : Box α) : Prop where
  /-- The left side is not left of the other one. -/
  xMin : isLe b'.xMin b.xMin = true
  /-- The right side is not right of the other one. -/
  xMax : isLe b.xMax b'.xMax = true
  /-- The lower side is not below the other one. -/
  yMin : isLe b'.yMin b.yMin = true
  /-- The upper side is not above the other one. -/
  yMax : isLe b.yMax b'.yMax = true

/-- The union of some boxes lies in that of more boxes. -/
theorem IsUnion.isWithin {b b' : Box α} {boxes more : List (Box α)} (h : b.IsUnion boxes)
    (h' : b'.IsUnion (boxes ++ more)) : b.IsWithin b' := by
  have side {f : Box α → α} {x : α} (hx : x ∈ boxes.map f) : x ∈ (boxes ++ more).map f := by
    rw [List.map_append]
    exact List.mem_append_left _ hx
  exact ⟨h'.xMin.isLe _ (side h.xMin.mem), h'.xMax.isLe _ (side h.xMax.mem),
    h'.yMin.isLe _ (side h.yMin.mem), h'.yMax.isLe _ (side h.yMax.mem)⟩

/-- A box is finite if its sides are. -/
theorem isFinite_iff (b : Box α) :
    b.isFinite = true ↔ Scalar.isFinite b.xMin = true ∧ Scalar.isFinite b.xMax = true ∧
      Scalar.isFinite b.yMin = true ∧ Scalar.isFinite b.yMax = true := by
  simp only [Box.isFinite, Bool.and_eq_true, and_assoc]

variable [IsOrdered α]

/-- A finite box is the union of itself. -/
theorem IsUnion.singleton {b : Box α} (h : b.isFinite = true) : b.IsUnion [b] := by
  obtain ⟨h1, h2, h3, h4⟩ := b.isFinite_iff.mp h
  exact ⟨.singleton (Scalar.isNumber_of_isFinite h1), .singleton (Scalar.isNumber_of_isFinite h2),
    .singleton (Scalar.isNumber_of_isFinite h3), .singleton (Scalar.isNumber_of_isFinite h4)⟩

/-- Joining a finite box to the union of others gives the union of all. -/
theorem IsUnion.concat {b e : Box α} {boxes : List (Box α)} (h : b.IsUnion boxes)
    (he : e.isFinite = true) : (b.union e).IsUnion (boxes ++ [e]) := by
  obtain ⟨h1, h2, h3, h4⟩ := e.isFinite_iff.mp he
  constructor <;> rw [List.map_append]
  · exact h.xMin.concat (Scalar.isNumber_of_isFinite h1)
  · exact h.xMax.concat (Scalar.isNumber_of_isFinite h2)
  · exact h.yMin.concat (Scalar.isNumber_of_isFinite h3)
  · exact h.yMax.concat (Scalar.isNumber_of_isFinite h4)

omit [IsOrdered α] in
/-- The union of finite boxes is finite. -/
theorem IsUnion.isFinite {b : Box α} {boxes : List (Box α)} (h : b.IsUnion boxes)
    (hboxes : ∀ e ∈ boxes, e.isFinite = true) : b.isFinite = true := by
  have side : ∀ {f : Box α → α} {x : α}, x ∈ boxes.map f →
      (∀ e : Box α, e.isFinite = true → Scalar.isFinite (f e) = true) →
      Scalar.isFinite x = true := by
    intro f x hx hf
    obtain ⟨e, he, rfl⟩ := List.mem_map.mp hx
    exact hf e (hboxes e he)
  refine b.isFinite_iff.mpr ⟨side h.xMin.mem ?_, side h.xMax.mem ?_, side h.yMin.mem ?_,
    side h.yMax.mem ?_⟩
  · exact fun e he => (e.isFinite_iff.mp he).1
  · exact fun e he => (e.isFinite_iff.mp he).2.1
  · exact fun e he => (e.isFinite_iff.mp he).2.2.1
  · exact fun e he => (e.isFinite_iff.mp he).2.2.2

/-- The union of boxes contains the points of each. -/
theorem IsUnion.contains {b e : Box α} {boxes : List (Box α)} {p : α × α} (h : b.IsUnion boxes)
    (he : e ∈ boxes) (hp : e.Contains p) : b.Contains p where
  left := Scalar.isLe_trans (h.xMin.isLe _ (List.mem_map_of_mem he)) hp.left
  right := Scalar.isLe_trans hp.right (h.xMax.isLe _ (List.mem_map_of_mem he))
  bottom := Scalar.isLe_trans (h.yMin.isLe _ (List.mem_map_of_mem he)) hp.bottom
  top := Scalar.isLe_trans hp.top (h.yMax.isLe _ (List.mem_map_of_mem he))

end Box

namespace Bezier

variable [Scalar α] [IsOrdered α]

private theorem lower_isLe {x lo : α} (hlo : IsNumber lo) :
    isLe (if isLt x lo then x else lo) lo = true := by
  split
  · next h => exact (Scalar.isLt_iff.mp h).1
  · exact Scalar.isLe_refl hlo

private theorem isLe_upper {x hi : α} (hhi : IsNumber hi)
    (hnumber : IsNumber (if isLt x hi then hi else x)) :
    isLe hi (if isLt x hi then hi else x) = true := by
  split at hnumber
  · next h => rw [if_pos h]; exact Scalar.isLe_refl hhi
  · next h => rw [if_neg h]; exact Scalar.isLe_of_not_isLt hnumber hhi h

/-- A range that is widened by at most two values, and whose upper end still is a number, holds what
it held before.  The values may be no numbers. -/
theorem widen_around {lo hi : α} {rest : List α} (hle : isLe lo hi = true)
    (hlength : rest.length ≤ 2) (hnumber : IsNumber (widen lo hi rest).2) :
    isLe (widen lo hi rest).1 lo = true ∧ isLe hi (widen lo hi rest).2 = true := by
  obtain ⟨hlo, hhi⟩ := Scalar.isNumber_of_isLe hle
  match rest, hlength with
  | [], _ => exact ⟨Scalar.isLe_refl hlo, Scalar.isLe_refl hhi⟩
  | [x], _ =>
    simp only [widen] at hnumber ⊢
    split
    · next h => exact ⟨(Scalar.isLt_iff.mp h).1, Scalar.isLe_refl hhi⟩
    · next h =>
      rw [if_neg h] at hnumber
      exact ⟨Scalar.isLe_refl hlo, isLe_upper hhi hnumber⟩
  | [x, y], _ =>
    simp only [widen] at hnumber ⊢
    exact ⟨lower_isLe hlo, isLe_upper hhi hnumber⟩

/-- The extent of a curve between numbers has both ends of the curve inside, if its upper end still
is a number. -/
theorem extent_around {p0 p1 p2 p3 : α} (h0 : IsNumber p0) (h3 : IsNumber p3)
    (hnumber : IsNumber (extent p0 p1 p2 p3).2) :
    (isLe (extent p0 p1 p2 p3).1 p0 = true ∧ isLe p0 (extent p0 p1 p2 p3).2 = true) ∧
      isLe (extent p0 p1 p2 p3).1 p3 = true ∧ isLe p3 (extent p0 p1 p2 p3).2 = true := by
  have hlength : (interiorExtrema p0 p1 p2 p3).length ≤ 2 := by
    rw [interiorExtrema, List.length_map]
    exact Nat.le_trans (List.length_filter_le _ _) (length_criticalParameters_le p0 p1 p2 p3)
  simp only [extent] at hnumber ⊢
  split at hnumber
  · next h =>
    simp only [if_pos h]
    have hle := (Scalar.isLt_iff.mp h).1
    obtain ⟨hlo, hhi⟩ := widen_around hle hlength hnumber
    exact ⟨⟨Scalar.isLe_trans hlo hle, hhi⟩, hlo, Scalar.isLe_trans hle hhi⟩
  · next h =>
    simp only [if_neg h]
    have hle := Scalar.isLe_of_not_isLt h3 h0 h
    obtain ⟨hlo, hhi⟩ := widen_around hle hlength hnumber
    exact ⟨⟨hlo, Scalar.isLe_trans hle hhi⟩, Scalar.isLe_trans hlo hle, hhi⟩

end Bezier

namespace Segment

variable [Scalar α] [IsOrdered α]

omit [IsOrdered α] in
/-- What does not overflow has finite points and sides. -/
theorem not_overflows_iff {s : Segment α} :
    ¬ s.Overflows ↔ (∀ p ∈ s.points, Scalar.isFinite p.1 = true ∧ Scalar.isFinite p.2 = true) ∧
      s.extent.isFinite = true := by
  simp only [Overflows, not_or, not_exists, not_and, Bool.not_eq_false]

/-- The extent of a segment that does not overflow contains both of its ends. -/
theorem contains_ends {s : Segment α} (h : ¬ s.Overflows) :
    s.extent.Contains s.start ∧ s.extent.Contains s.stop := by
  obtain ⟨hpoints, hextent⟩ := not_overflows_iff.mp h
  obtain ⟨-, hxMax, -, hyMax⟩ := s.extent.isFinite_iff.mp hextent
  have number : ∀ p ∈ s.points, IsNumber p.1 ∧ IsNumber p.2 := fun p hp =>
    ⟨Scalar.isNumber_of_isFinite (hpoints p hp).1, Scalar.isNumber_of_isFinite (hpoints p hp).2⟩
  cases s with
  | line start stop =>
    obtain ⟨hx0, hy0⟩ := number start (by simp [points])
    obtain ⟨hx1, hy1⟩ := number stop (by simp [points])
    obtain ⟨hxlo0, hxlo1⟩ := Scalar.min_isLe hx0 hx1
    obtain ⟨hxhi0, hxhi1⟩ := Scalar.isLe_max hx0 hx1
    obtain ⟨hylo0, hylo1⟩ := Scalar.min_isLe hy0 hy1
    obtain ⟨hyhi0, hyhi1⟩ := Scalar.isLe_max hy0 hy1
    exact ⟨⟨hxlo0, hxhi0, hylo0, hyhi0⟩, hxlo1, hxhi1, hylo1, hyhi1⟩
  | curve start first second stop =>
    obtain ⟨hx0, hy0⟩ := number start (by simp [points])
    obtain ⟨hx1, hy1⟩ := number stop (by simp [points])
    obtain ⟨⟨hxlo0, hxhi0⟩, hxlo1, hxhi1⟩ :=
      Bezier.extent_around hx0 hx1 (Scalar.isNumber_of_isFinite hxMax)
    obtain ⟨⟨hylo0, hyhi0⟩, hylo1, hyhi1⟩ :=
      Bezier.extent_around hy0 hy1 (Scalar.isNumber_of_isFinite hyMax)
    exact ⟨⟨hxlo0, hxhi0, hylo0, hyhi0⟩, hxlo1, hxhi1, hylo1, hyhi1⟩

end Segment

namespace Outline

variable [Scalar α]

/-- The place of the pen. -/
def pen (o : Outline α) : α × α := (o.x, o.y)

/-- What an outline keeps of the segments drawn so far. -/
structure Tracks (o : Outline α) (drawn : List (Segment α)) : Prop where
  /-- There is a box as soon as something was drawn. -/
  box_eq_none_iff : o.box = none ↔ drawn = []
  /-- The outline has overflowed if a segment has. -/
  overflowed_iff : o.overflowed = true ↔ ∃ s ∈ drawn, s.Overflows
  /-- Without overflow the box is the union of all extents. -/
  isUnion : o.overflowed = false → ∀ b ∈ o.box, b.IsUnion (drawn.map Segment.extent)

/-- What the outline of a path says about the path. -/
structure Describes (o : Outline α) (path : List (PathStep α)) : Prop where
  /-- There is no box exactly if no step draws. -/
  box_eq_none_iff : o.box = none ↔ ∀ s ∈ path, ¬ s.Draws
  /-- The outline has overflowed exactly if a segment has. -/
  overflowed_iff : o.overflowed = true ↔
    ∃ s ∈ segments (Scalar.zero, Scalar.zero) path, s.Overflows
  /-- Once it has overflowed, it stays so. -/
  overflowed_draw : o.overflowed = true →
    ∀ more : List (PathStep α), (o.draw more).overflowed = true
  /-- If it has not overflowed, its box bounds the segments. -/
  bounds : o.overflowed = false →
    ∀ b ∈ o.box, b.Bounds (segments (Scalar.zero, Scalar.zero) path)

/-- A step takes the pen to its target. -/
theorem pen_step (o : Outline α) (s : PathStep α) : (o.step s).pen = s.target o.pen := by
  cases s <;> rfl

/-- A step that draws nothing keeps the box and the flag. -/
theorem step_of_segment?_eq_none {o : Outline α} {s : PathStep α} (h : s.segment? o.pen = none) :
    (o.step s).box = o.box ∧ (o.step s).overflowed = o.overflowed := by
  cases s with
  | move => exact ⟨rfl, rfl⟩
  | line => cases h
  | curve => cases h

/-- A step that draws adds its segment. -/
theorem step_of_segment?_eq_some {o : Outline α} {s : PathStep α} {seg : Segment α}
    (h : s.segment? o.pen = some seg) :
    o.step s = o.segment (seg.points.flatMap fun p => [p.1, p.2]) seg.extent
      seg.stop.1 seg.stop.2 := by
  cases s with
  | move => cases h
  | line => cases h; rfl
  | curve => cases h; rfl

/-- Adding a segment that overflows sets the flag, and nothing clears it. -/
theorem overflowed_segment_iff (o : Outline α) (seg : Segment α) (x y : α) :
    (o.segment (seg.points.flatMap fun p => [p.1, p.2]) seg.extent x y).overflowed = true ↔
      o.overflowed = true ∨ seg.Overflows := by
  rw [← not_iff_not, not_or, Segment.not_overflows_iff]
  simp [segment, and_assoc]

/-- Once set, the flag stays set. -/
theorem overflowed_draw {o : Outline α} (h : o.overflowed = true) (path : List (PathStep α)) :
    (o.draw path).overflowed = true := by
  induction path generalizing o with
  | nil => exact h
  | cons s path ih =>
    rw [draw_cons]
    refine ih ?_
    cases hseg : s.segment? o.pen with
    | none => rw [(step_of_segment?_eq_none hseg).2, h]
    | some seg =>
      rw [step_of_segment?_eq_some hseg, overflowed_segment_iff]
      exact Or.inl h

section IsOrdered

variable [IsOrdered α]

/-- Adding a segment keeps track of it. -/
theorem Tracks.segment {o : Outline α} {drawn : List (Segment α)} (h : o.Tracks drawn)
    (seg : Segment α) (x y : α) :
    (o.segment (seg.points.flatMap fun p => [p.1, p.2]) seg.extent x y).Tracks
      (drawn ++ [seg]) where
  box_eq_none_iff := by simp [Outline.segment]
  overflowed_iff := by
    rw [overflowed_segment_iff, h.overflowed_iff]
    simp [or_and_right, exists_or]
  isUnion hflag b hb := by
    rw [← Bool.not_eq_true, overflowed_segment_iff, not_or, Bool.not_eq_true] at hflag
    obtain ⟨hflag, hseg⟩ := hflag
    have hextent := (Segment.not_overflows_iff.mp hseg).2
    rw [List.map_append]
    cases hbox : o.box with
    | none =>
      obtain rfl : seg.extent = b := by simpa [Outline.segment, hbox] using hb
      rw [h.box_eq_none_iff.mp hbox]
      exact .singleton hextent
    | some box =>
      obtain rfl : box.union seg.extent = b := by simpa [Outline.segment, hbox] using hb
      exact (h.isUnion hflag box hbox).concat hextent

/-- Every step keeps track of what it draws. -/
theorem Tracks.step {o : Outline α} {drawn : List (Segment α)} (h : o.Tracks drawn)
    (s : PathStep α) : (o.step s).Tracks (drawn ++ (s.segment? o.pen).toList) := by
  cases hseg : s.segment? o.pen with
  | none =>
    obtain ⟨hbox, hflag⟩ := step_of_segment?_eq_none hseg
    rw [Option.toList_none, List.append_nil]
    exact ⟨by rw [hbox]; exact h.box_eq_none_iff, by rw [hflag]; exact h.overflowed_iff,
      by rw [hbox, hflag]; exact h.isUnion⟩
  | some seg =>
    rw [step_of_segment?_eq_some hseg]
    exact h.segment seg _ _

/-- Drawing a path keeps track of its segments. -/
theorem Tracks.draw {o : Outline α} {drawn : List (Segment α)} (h : o.Tracks drawn)
    (path : List (PathStep α)) : (o.draw path).Tracks (drawn ++ segments o.pen path) := by
  induction path generalizing o drawn with
  | nil => simpa only [draw_nil, segments, List.append_nil] using h
  | cons s path ih =>
    rw [draw_cons, segments, ← List.append_assoc, ← pen_step]
    exact ih (h.step s)

omit [IsOrdered α] in
/-- The empty outline has nothing to keep track of. -/
theorem tracks_empty : (empty : Outline α).Tracks [] where
  box_eq_none_iff := by simp [empty]
  overflowed_iff := by simp [empty]
  isUnion _ b hb := by cases hb

/-- What the outline of a path knows about the path. -/
theorem tracks_draw_empty (path : List (PathStep α)) :
    (empty.draw path).Tracks (segments (Scalar.zero, Scalar.zero) path) :=
  tracks_empty.draw path

/-- The box of an outline that has not overflowed bounds what was drawn. -/
theorem Tracks.bounds {o : Outline α} {drawn : List (Segment α)} (h : o.Tracks drawn)
    (hflag : o.overflowed = false) {b : Box α} (hb : b ∈ o.box) : b.Bounds drawn := by
  have hunion := h.isUnion hflag b hb
  have sound : ∀ s ∈ drawn, ¬ s.Overflows := by
    intro s hs hover
    rw [h.overflowed_iff.mpr ⟨s, hs, hover⟩] at hflag
    cases hflag
  have contains : ∀ s ∈ drawn, b.Contains s.start ∧ b.Contains s.stop := by
    intro s hs
    obtain ⟨hstart, hstop⟩ := Segment.contains_ends (sound s hs)
    have hmem := List.mem_map_of_mem (f := Segment.extent) hs
    exact ⟨hunion.contains hmem hstart, hunion.contains hmem hstop⟩
  obtain ⟨s, hs⟩ : ∃ s, s ∈ drawn := by
    refine List.exists_mem_of_ne_nil drawn fun hnil => ?_
    rw [h.box_eq_none_iff.mpr hnil] at hb
    cases hb
  have hstart := (contains s hs).1
  refine ⟨hunion.isFinite ?_, Scalar.isLe_trans hstart.left hstart.right,
    Scalar.isLe_trans hstart.bottom hstart.top, hunion, contains⟩
  intro e he
  obtain ⟨s, hs, rfl⟩ := List.mem_map.mp he
  exact (Segment.not_overflows_iff.mp (sound s hs)).2

/-- Drawing on only ever widens the box. -/
theorem Tracks.isWithin_draw {o : Outline α} {drawn : List (Segment α)} (h : o.Tracks drawn)
    {path : List (PathStep α)} (hflag : (o.draw path).overflowed = false) {b : Box α}
    (hb : b ∈ o.box) : ∃ b' ∈ (o.draw path).box, b.IsWithin b' := by
  have hdrawn := h.draw path
  have hbefore : o.overflowed = false := by
    by_contra hne
    rw [overflowed_draw (by simpa using hne) path] at hflag
    cases hflag
  cases hbox : (o.draw path).box with
  | none =>
    -- Then nothing was drawn before either.
    have hnil := (List.append_eq_nil_iff.mp (hdrawn.box_eq_none_iff.mp hbox)).1
    rw [h.box_eq_none_iff.mpr hnil] at hb
    cases hb
  | some b' =>
    have hunion := hdrawn.isUnion hflag b' hbox
    rw [List.map_append] at hunion
    exact ⟨b', rfl, (h.isUnion hbefore b hb).isWithin hunion⟩

/-- An outline describes the path that was drawn on it. -/
theorem describes_draw_empty (path : List (PathStep α)) : (empty.draw path).Describes path where
  box_eq_none_iff := by
    rw [(tracks_draw_empty path).box_eq_none_iff, segments_eq_nil_iff]
  overflowed_iff := (tracks_draw_empty path).overflowed_iff
  overflowed_draw h more := Outline.overflowed_draw h more
  bounds hflag _ hb := (tracks_draw_empty path).bounds hflag hb

end IsOrdered

end Outline

end FontMetrics
