import FontMetrics.Outline.Path
import FontMetrics.Proofs.Outline.Extent

/-!
# Outlines in other places

In exact arithmetic a path draws the same outline wherever the pen starts, only in another place.
The derivative of a curve is made of differences of its control values, so that it vanishes at the
same parameters, and the weights with which a point of the curve is made of the control values add
up to one.  None of this depends on what the square root is.
-/

namespace FontMetrics

variable {K : Type} [Field K] [LinearOrder K] {root : K → K} (truncate : K → Option Int)

namespace Bezier

omit [LinearOrder K] in
/-- The weights of the control values add up to one. -/
theorem bernstein_add (p0 p1 p2 p3 t u : K) :
    bernstein (p0 + u) (p1 + u) (p2 + u) (p3 + u) t = bernstein p0 p1 p2 p3 t + u := by
  unfold bernstein
  ring

/-- The coefficients of the derivative are made of differences. -/
theorem criticalParameters_add (p0 p1 p2 p3 u : K) :
    @criticalParameters K (.ofField root truncate) (p0 + u) (p1 + u) (p2 + u) (p3 + u) =
      @criticalParameters K (.ofField root truncate) p0 p1 p2 p3 := by
  have ha : p3 + u - (p0 + u) + 3 * (p1 + u - (p2 + u)) = p3 - p0 + 3 * (p1 - p2) := by ring
  have hb : 2 * (p0 + u + (p2 + u)) - 4 * (p1 + u) = 2 * (p0 + p2) - 4 * p1 := by ring
  have hc : p1 + u - (p0 + u) = p1 - p0 := by ring
  rw [criticalParameters_ofField, criticalParameters_ofField, ha, hb, hc]

/-- The same parameters are inside, and the points there have moved. -/
theorem interiorExtrema_add (p0 p1 p2 p3 u : K) :
    @interiorExtrema K (.ofField root truncate) (p0 + u) (p1 + u) (p2 + u) (p3 + u) =
      (@interiorExtrema K (.ofField root truncate) p0 p1 p2 p3).map (· + u) := by
  unfold interiorExtrema
  rw [criticalParameters_add, List.map_map]
  refine List.map_congr_left fun t _ => ?_
  rw [eval_ofField, bernstein_add, Function.comp_apply, eval_ofField]

omit [Field K] in
/-- Values have no more than one range. -/
theorem IsRange.unique {range range' : K × K} {values : List K} (h : IsRange range values)
    (h' : IsRange range' values) : range = range' := by
  have hlower : range.1 = range'.1 :=
    le_antisymm (h.bounds _ h'.lower_mem).1 (h'.bounds _ h.lower_mem).1
  have hupper : range.2 = range'.2 :=
    le_antisymm (h'.bounds _ h.upper_mem).2 (h.bounds _ h'.upper_mem).2
  exact Prod.ext hlower hupper

variable [IsStrictOrderedRing K]

/-- The range of values that have all moved by the same distance. -/
theorem IsRange.add {range : K × K} {values : List K} (h : IsRange range values) (u : K) :
    IsRange (range.1 + u, range.2 + u) (values.map (· + u)) where
  lower_mem := List.mem_map_of_mem h.lower_mem
  upper_mem := List.mem_map_of_mem h.upper_mem
  bounds := by
    intro x hx
    obtain ⟨y, hy, rfl⟩ := List.mem_map.mp hx
    obtain ⟨hlo, hhi⟩ := h.bounds y hy
    exact ⟨add_le_add_left hlo u, add_le_add_left hhi u⟩

/-- The extent moves with the control values. -/
theorem extent_add (p0 p1 p2 p3 u : K) :
    @extent K (.ofField root truncate) (p0 + u) (p1 + u) (p2 + u) (p3 + u) =
      ((@extent K (.ofField root truncate) p0 p1 p2 p3).1 + u,
        (@extent K (.ofField root truncate) p0 p1 p2 p3).2 + u) := by
  have hmoved :
      IsRange (@extent K (.ofField root truncate) (p0 + u) (p1 + u) (p2 + u) (p3 + u)) _ :=
    isRange_extent truncate (p0 + u) (p1 + u) (p2 + u) (p3 + u)
  rw [interiorExtrema_add] at hmoved
  exact hmoved.unique ((isRange_extent truncate p0 p1 p2 p3).add u)

end Bezier

/-- The box moved by `(u, v)`. -/
def Box.translate (b : Box K) (u v : K) : Box K where
  xMin := b.xMin + u
  xMax := b.xMax + u
  yMin := b.yMin + v
  yMax := b.yMax + v

variable [IsStrictOrderedRing K]

theorem Box.union_translate (a b : Box K) (u v : K) :
    @Box.union K (.ofField root truncate) (a.translate u v) (b.translate u v) =
      (@Box.union K (.ofField root truncate) a b).translate u v := by
  simp only [Box.union, Box.translate, Scalar.min_ofField, Scalar.max_ofField,
    min_add_add_right, max_add_add_right]

namespace Outline

/-- The outline moved by `(u, v)`, with its pen and everything drawn. -/
def translate (o : Outline K) (u v : K) : Outline K where
  x := o.x + u
  y := o.y + v
  box := o.box.map (·.translate u v)
  overflowed := o.overflowed

/-- Exact scalars are all finite, so it does not matter through which points the segment goes. -/
theorem segment_translate (o : Outline K) (points points' : List K)
    (xMin xMax yMin yMax x y u v : K) :
    @segment K (.ofField root truncate) (o.translate u v) points'
        ⟨xMin + u, xMax + u, yMin + v, yMax + v⟩ (x + u) (y + v) =
      (@segment K (.ofField root truncate) o points ⟨xMin, xMax, yMin, yMax⟩ x y).translate
        u v := by
  have hpoints : ∀ l : List K, l.all (Scalar.ofField root truncate).isFinite = true :=
    fun l => List.all_eq_true.mpr fun _ _ => rfl
  have hextent : ∀ b : Box K, @Box.isFinite K (.ofField root truncate) b = true := fun _ => rfl
  obtain ⟨x', y', box, overflowed⟩ := o
  simp only [segment, translate, hpoints, hextent]
  cases box with
  | none => rfl
  | some box =>
    have hunion : @Box.union K (.ofField root truncate) (box.translate u v)
        ⟨xMin + u, xMax + u, yMin + v, yMax + v⟩ =
          (@Box.union K (.ofField root truncate) box ⟨xMin, xMax, yMin, yMax⟩).translate u v :=
      Box.union_translate truncate box ⟨xMin, xMax, yMin, yMax⟩ u v
    simp only [Option.map_some, hunion]

/-- A step from another place does the same there. -/
theorem step_translate (o : Outline K) (s : PathStep K) (u v : K) :
    @step K (.ofField root truncate) (o.translate u v) s =
      (@step K (.ofField root truncate) o s).translate u v := by
  have hx : (o.translate u v).x = o.x + u := rfl
  have hy : (o.translate u v).y = o.y + v := rfl
  -- What the pen has moved by is added last, behind the deltas of the step.
  have hu : ∀ a d : K, a + u + d = a + d + u := fun a d => add_right_comm a u d
  have hv : ∀ a d : K, a + v + d = a + d + v := fun a d => add_right_comm a v d
  cases s with
  | move dx dy =>
    simp only [step, hx, hy, hu, hv]
    rfl
  | line dx dy =>
    simp only [step, hx, hy, hu, hv, Scalar.min_ofField, Scalar.max_ofField, min_add_add_right,
      max_add_add_right]
    exact segment_translate truncate o _ _ _ _ _ _ _ _ u v
  | curve dxa dya dxb dyb dxc dyc =>
    simp only [step, hx, hy, hu, hv, Bezier.extent_add]
    exact segment_translate truncate o _ _ _ _ _ _ _ _ u v

/-- A path from another place draws the same there. -/
theorem draw_translate (o : Outline K) (path : List (PathStep K)) (u v : K) :
    @draw K (.ofField root truncate) (o.translate u v) path =
      (@draw K (.ofField root truncate) o path).translate u v := by
  induction path generalizing o with
  | nil => rfl
  | cons s path ih =>
    rw [@draw_cons K (.ofField root truncate), step_translate, ih]
    rfl

/-- In exact arithmetic, whatever the square root may be, what a path draws moves with the pen that
it starts from.  There is a box in the one place if there is one in the other, the sides of the
boxes differ by as much as the places do, and so do the places where the pen is left. -/
theorem box_moves_with_pen (path : List (PathStep K)) (x y u v : K) (box : Option (Box K))
    (overflowed : Bool) :
    let move : Box K → Box K := fun b => ⟨b.xMin + u, b.xMax + u, b.yMin + v, b.yMax + v⟩
    let drawn := @draw K (.ofField root truncate) ⟨x, y, box, overflowed⟩ path
    let moved := @draw K (.ofField root truncate) ⟨x + u, y + v, box.map move, overflowed⟩ path
    moved.box.isSome = drawn.box.isSome ∧ moved.box = drawn.box.map move ∧
      moved.x = drawn.x + u ∧ moved.y = drawn.y + v ∧ moved.overflowed = drawn.overflowed := by
  intro move drawn moved
  have hmoved : moved = drawn.translate u v :=
    draw_translate truncate ⟨x, y, box, overflowed⟩ path u v
  rw [hmoved]
  exact ⟨Option.isSome_map, rfl, rfl, rfl, rfl⟩

/-- A path with a line and a curve over the rational numbers, where nothing has to be a square
root, from two places. -/
theorem box_moves_with_pen_rational :
    let path : List (PathStep ℚ) := [.move 1 2, .line 3 (-4), .curve 10 20 (-30) 5 7 (-60)]
    let drawn := @draw ℚ (.ofField (7 - ·) fun _ => none) ⟨0, 0, none, false⟩ path
    let moved := @draw ℚ (.ofField (7 - ·) fun _ => none) ⟨0 + 100, 0 + -50, none, false⟩ path
    drawn.box.isSome = true ∧ moved.box.isSome = true ∧
      moved.box = drawn.box.map (fun b =>
        ⟨b.xMin + 100, b.xMax + 100, b.yMin + -50, b.yMax + -50⟩) ∧
      moved.x = drawn.x + 100 ∧ moved.y = drawn.y + -50 := by
  intro path drawn moved
  have hdrawn : drawn.box.isSome = true := rfl
  obtain ⟨hsome, hbox, hx, hy, -⟩ :=
    @box_moves_with_pen ℚ _ _ (7 - ·) (fun _ => none) _ path 0 0 100 (-50) none false
  exact ⟨hdrawn, hsome.trans hdrawn, hbox, hx, hy⟩

end Outline

end FontMetrics
