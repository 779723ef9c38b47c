import Mathlib.Algebra.BigOperators.Group.List.Basic
import Mathlib.Data.List.FinRange
import Mathlib.Data.List.ReduceOption
import Mathlib.Tactic.LinearCombination
import Mathlib.Tactic.Ring
import Mathlib.Tactic.NormNum
import FontMetrics.Charstring.PathOperands
import FontMetrics.Proofs.Outline.Union
import FontMetrics.Proofs.Scalar.Field

/-!
# The use of operands

Operators that pack a path compute nothing: every operand is one of the changes of coordinates that
the path is made of, and the changes that have no operand are zero.  Operands are labelled here, so
that two of them with one value are still told apart; the labels are then found in the path, each of
them once.
-/

namespace FontMetrics

variable {α β ι : Type}

namespace PathStep

/-- The changes of coordinates that make up a step. -/
def deltas : PathStep α → List α
  | .move dx dy | .line dx dy => [dx, dy]
  | .curve dxa dya dxb dyb dxc dyc => [dxa, dya, dxb, dyb, dxc, dyc]

/-- The step with every change replaced. -/
def map (f : α → β) : PathStep α → PathStep β
  | .move dx dy => .move (f dx) (f dy)
  | .line dx dy => .line (f dx) (f dy)
  | .curve dxa dya dxb dyb dxc dyc => .curve (f dxa) (f dya) (f dxb) (f dyb) (f dxc) (f dyc)

/-- Replacing the changes of a step replaces its deltas. -/
theorem deltas_map (f : α → β) (s : PathStep α) : (s.map f).deltas = s.deltas.map f := by
  cases s <;> rfl

/-- Whether a step draws does not depend on its changes. -/
@[simp] theorem draws_map (f : α → β) (s : PathStep α) : (s.map f).Draws ↔ s.Draws := by
  cases s <;> rfl

end PathStep

namespace Charstring

/-- The operators that pack the lines and curves of a path. -/
def PathOperator.packed : List PathOperator :=
  [.rlineto, .hlineto, .vlineto, .rrcurveto, .rcurveline, .rlinecurve, .hhcurveto, .vvcurveto,
    .hvcurveto, .vhcurveto]

/-- The value of a label, and zero where there is none. -/
def valueOf [Scalar α] (f : ι → α) : Option ι → α
  | some i => f i
  | none => Scalar.zero

/-- The steps draw, and among the changes that they are made of every label stands once. -/
structure UsesEach (labels : List ι) (places : List (PathStep (Option ι))) : Prop where
  /-- No step only moves the pen. -/
  draws : ∀ s ∈ places, s.Draws
  /-- The changes that are not zero are the labels in some order. -/
  perm : (places.flatMap PathStep.deltas).reduceOption.Perm labels

/-- Labels used in two parts of a path are used in the whole. -/
theorem UsesEach.append {front rest : List ι} {places places' : List (PathStep (Option ι))}
    (h : UsesEach front places) (h' : UsesEach rest places') :
    UsesEach (front ++ rest) (places ++ places') where
  draws s hs := (List.mem_append.mp hs).elim (h.draws s) (h'.draws s)
  perm := by
    rw [List.flatMap_append, List.reduceOption_append]
    exact h.perm.append h'.perm

section Labels

variable [Scalar α] (f : ι → α)

/-- The path is that of some labels, each of which is used. -/
def Spends (labels : List ι) (path : List (PathStep α)) : Prop :=
  ∃ places, UsesEach labels places ∧ path = places.map (PathStep.map (valueOf f))

/-- If there is a path, it spends the labels. -/
def Uses (labels : List ι) (steps : Except Error (List (PathStep α))) : Prop :=
  ∀ path, steps = .ok path → Spends f labels path

variable {f}

/-- A path without steps spends nothing. -/
theorem Spends.nil : Spends f [] [] := ⟨[], ⟨by simp, .refl _⟩, rfl⟩

/-- Two parts of a path spend the labels of both. -/
theorem Spends.append {front rest : List ι} {path path' : List (PathStep α)}
    (h : Spends f front path) (h' : Spends f rest path') :
    Spends f (front ++ rest) (path ++ path') := by
  obtain ⟨places, huses, rfl⟩ := h
  obtain ⟨places', huses', rfl⟩ := h'
  exact ⟨places ++ places', huses.append huses', List.map_append.symm⟩

/-- It is enough that the path spends the labels. -/
theorem Spends.uses {labels : List ι} {path : List (PathStep α)} (h : Spends f labels path) :
    Uses f labels (.ok path) := by
  rintro _ ⟨⟩
  exact h

/-- Without a path there is nothing to spend. -/
theorem uses_error (labels : List ι) (e : Error) : Uses f labels (.error e) := by
  rintro _ ⟨⟩

/-- Steps in front of a path spend labels in front of its labels. -/
theorem Uses.append {front rest : List ι} {path : List (PathStep α)}
    {steps : Except Error (List (PathStep α))} (h : Uses f rest steps) (hfront : Spends f front path) :
    Uses f (front ++ rest) ((path ++ ·) <$> steps) := by
  cases steps with
  | error e => exact uses_error _ e
  | ok path' => exact (hfront.append (h path' rfl)).uses

/-! ## Steps -/

private theorem spends_line (i j : ι) : Spends f [i, j] [.line (f i) (f j)] :=
  ⟨[.line (some i) (some j)], ⟨by simp [PathStep.Draws], .refl _⟩, rfl⟩

private theorem spends_curve (a b c d e g : ι) :
    Spends f [a, b, c, d, e, g] [.curve (f a) (f b) (f c) (f d) (f e) (f g)] :=
  ⟨[.curve (some a) (some b) (some c) (some d) (some e) (some g)],
    ⟨by simp [PathStep.Draws], .refl _⟩, rfl⟩

/-- A line along an axis spends one label, since the other change is zero. -/
private theorem spends_axisLine (axis : Axis) (i : ι) : Spends f [i] [axis.line (f i)] := by
  cases axis with
  | horizontal => exact ⟨[.line (some i) none], ⟨by simp [PathStep.Draws], .refl _⟩, rfl⟩
  | vertical => exact ⟨[.line none (some i)], ⟨by simp [PathStep.Draws], .refl _⟩, rfl⟩

/-- A curve with parallel ends spends four labels, and one for its start off the axis if there is
one. -/
private theorem spends_parallelCurve (axis : Axis) (cross : Option ι) (a b c d : ι) :
    Spends f (cross.toList ++ [a, b, c, d])
      [axis.parallelCurve (valueOf f cross) (f a) (f b) (f c) (f d)] := by
  cases axis with
  | horizontal =>
    refine ⟨[.curve (some a) cross (some b) (some c) (some d) none], ⟨by simp [PathStep.Draws], ?_⟩,
      rfl⟩
    cases cross with
    | none => exact .refl _
    | some cross => exact .swap cross a [b, c, d]
  | vertical =>
    refine ⟨[.curve cross (some a) (some b) (some c) none (some d)], ⟨by simp [PathStep.Draws], ?_⟩,
      rfl⟩
    cases cross <;> exact .refl _

/-- A curve that turns spends four labels, and one for its end off the axis if there is one. -/
private theorem spends_turningCurve (axis : Axis) (a b c d : ι) (cross : Option ι) :
    Spends f ([a, b, c, d] ++ cross.toList)
      [axis.turningCurve (f a) (f b) (f c) (f d) (valueOf f cross)] := by
  cases axis with
  | horizontal =>
    refine ⟨[.curve (some a) none (some b) (some c) cross (some d)], ⟨by simp [PathStep.Draws], ?_⟩,
      rfl⟩
    cases cross with
    | none => exact .refl _
    | some cross => exact (((List.Perm.swap d cross []).cons c).cons b).cons a
  | vertical =>
    refine ⟨[.curve none (some a) (some b) (some c) (some d) cross], ⟨by simp [PathStep.Draws], ?_⟩,
      rfl⟩
    cases cross <;> exact .refl _

/-! ## Operators -/

private theorem uses_lines : ∀ labels : List ι, Uses f labels (PathOperands.lines (labels.map f))
  | [] => Spends.nil.uses
  | [_] => uses_error _ _
  | i :: j :: rest => (uses_lines rest).append (spends_line i j)

/-- Lines along the two axes in turn are drawn for any number of labels. -/
private theorem spends_alternatingLines (axis : Axis) (labels : List ι) :
    Spends f labels (PathOperands.alternatingLines axis (labels.map f)) := by
  induction labels generalizing axis with
  | nil => exact .nil
  | cons i rest ih => exact (spends_axisLine axis i).append (ih axis.other)

private theorem uses_curves : ∀ labels : List ι, Uses f labels (PathOperands.curves (labels.map f))
  | [] => Spends.nil.uses
  | [_] | [_, _] | [_, _, _] | [_, _, _, _] | [_, _, _, _, _] => uses_error _ _
  | a :: b :: c :: d :: e :: g :: rest => (uses_curves rest).append (spends_curve a b c d e g)

private theorem uses_curvesThenLine : ∀ labels : List ι,
    Uses f labels (PathOperands.curvesThenLine (labels.map f))
  | [] | [_] | [_, _, _] | [_, _, _, _] | [_, _, _, _, _] => uses_error _ _
  | [i, j] => (spends_line i j).uses
  | a :: b :: c :: d :: e :: g :: rest =>
    (uses_curvesThenLine rest).append (spends_curve a b c d e g)

private theorem uses_linesThenCurve : ∀ labels : List ι,
    Uses f labels (PathOperands.linesThenCurve (labels.map f))
  | [] | [_] | [_, _] | [_, _, _] | [_, _, _, _] | [_, _, _, _, _] => uses_error _ _
  | [a, b, c, d, e, g] => (spends_curve a b c d e g).uses
  | i :: j :: a :: b :: c :: d :: e :: rest =>
    (uses_linesThenCurve (a :: b :: c :: d :: e :: rest)).append (spends_line i j)

/-- How far the first curve starts off its axis is lost if there is no curve. -/
theorem uses_parallelCurves (axis : Axis) : ∀ (cross : Option ι) (labels : List ι),
    (labels = [] → cross = none) →
      Uses f (cross.toList ++ labels)
        (PathOperands.parallelCurves axis (valueOf f cross) (labels.map f))
  | cross, [], h => by
    rw [h rfl]
    exact Spends.nil.uses
  | _, [_], _ | _, [_, _], _ | _, [_, _, _], _ => uses_error _ _
  | cross, a :: b :: c :: d :: rest, _ => by
    have hrest := uses_parallelCurves axis none rest fun _ => rfl
    have hcurve := hrest.append (spends_parallelCurve axis cross a b c d)
    rwa [List.append_assoc] at hcurve

/-- A label in front belongs to the first curve, so it must not stand alone. -/
private theorem uses_packedParallelCurves (axis : Axis) {labels : List ι} (h : labels.length ≠ 1) :
    Uses f labels (PathOperands.packedParallelCurves axis (labels.map f)) := by
  cases labels with
  | nil => exact Spends.nil.uses
  | cons cross rest =>
    rw [List.map_cons, PathOperands.packedParallelCurves]
    split
    · refine uses_parallelCurves axis (some cross) rest fun hrest => ?_
      exact absurd (congrArg (·.length + 1) hrest) h
    · exact uses_parallelCurves axis none (cross :: rest) fun _ => rfl

/-- A label behind the last pair is the end of its second curve. -/
private theorem uses_curvePairs (axis : Axis) : ∀ labels : List ι,
    Uses f labels (PathOperands.curvePairs axis (labels.map f))
  | [] => Spends.nil.uses
  | [_] | [_, _] | [_, _, _] | [_, _, _, _] | [_, _, _, _, _] | [_, _, _, _, _, _]
  | [_, _, _, _, _, _, _] => uses_error _ _
  | [a, b, c, d, e, g, h, i] =>
    ((spends_turningCurve axis a b c d none).append
      (spends_turningCurve axis.other e g h i none)).uses
  | [a, b, c, d, e, g, h, i, cross] =>
    ((spends_turningCurve axis a b c d none).append
      (spends_turningCurve axis.other e g h i (some cross))).uses
  | a :: b :: c :: d :: e :: g :: h :: i :: j :: k :: rest =>
    (uses_curvePairs axis (j :: k :: rest)).append
      ((spends_turningCurve axis a b c d none).append
        (spends_turningCurve axis.other e g h i none))

/-- A label behind a single curve is its end. -/
private theorem uses_alternatingCurves (axis : Axis) (labels : List ι) :
    Uses f labels (PathOperands.alternatingCurves axis (labels.map f)) := by
  unfold PathOperands.alternatingCurves
  split
  · match labels with
    | [] | [_] | [_, _] | [_, _, _] => exact uses_error _ _
    | [a, b, c, d] => exact (spends_turningCurve axis a b c d none).uses
    | [a, b, c, d, cross] => exact (spends_turningCurve axis a b c d (some cross)).uses
    | a :: b :: c :: d :: i :: j :: rest =>
      exact (uses_curvePairs axis.other (i :: j :: rest)).append
        (spends_turningCurve axis a b c d none)
  · exact uses_curvePairs axis labels

/-- An operand that is alone with an operator for parallel curves is in front of no curve. -/
def PathOperator.LosesOperand (op : PathOperator) (operands : List α) : Prop :=
  (op = .hhcurveto ∨ op = .vvcurveto) ∧ operands.length = 1

/-- Every packed operator spends what it takes, but for a lone operand. -/
private theorem uses_steps {op : PathOperator} (hop : op ∈ PathOperator.packed) (labels : List ι)
    (h : ¬ op.LosesOperand (labels.map f)) : Uses f labels (op.steps (labels.map f)) := by
  cases op with
  | rlineto => exact uses_lines labels
  | hlineto => exact (spends_alternatingLines .horizontal labels).uses
  | vlineto => exact (spends_alternatingLines .vertical labels).uses
  | rrcurveto => exact uses_curves labels
  | rcurveline => exact uses_curvesThenLine labels
  | rlinecurve => exact uses_linesThenCurve labels
  | hhcurveto =>
    refine uses_packedParallelCurves .horizontal fun hlength => h ⟨.inl rfl, ?_⟩
    rwa [List.length_map]
  | vvcurveto =>
    refine uses_packedParallelCurves .vertical fun hlength => h ⟨.inr rfl, ?_⟩
    rwa [List.length_map]
  | hvcurveto => exact uses_alternatingCurves .horizontal labels
  | vhcurveto => exact uses_alternatingCurves .vertical labels
  | _ => exact absurd hop (by decide)

end Labels

private theorem flatMap_deltas_map (f : α → β) (path : List (PathStep α)) :
    (path.map (PathStep.map f)).flatMap PathStep.deltas = (path.flatMap PathStep.deltas).map f := by
  simp only [List.flatMap_map, List.map_flatMap, PathStep.deltas_map]

/-- Each operand is one of the changes of one of the steps, told apart by its place in the list, and
the other changes are zero.  All steps draw. -/
structure SpendsOperands [Scalar α] (operands : List α) (path : List (PathStep α)) : Prop where
  /-- The operands are the changes in the places where they are found, and each is found once. -/
  places : ∃ places : List (PathStep (Option (Fin operands.length))),
    path = places.map (PathStep.map (valueOf operands.get)) ∧
      ∀ i, (places.flatMap PathStep.deltas).count (some i) = 1
  /-- No step only moves the pen. -/
  draws : ∀ s ∈ path, s.Draws
  /-- With operands there is something to draw. -/
  segments_ne_nil : operands ≠ [] → ∀ pen, segments pen path ≠ []

private theorem count_reduceOption (l : List (Option ι)) [DecidableEq ι] (i : ι) :
    l.reduceOption.count i = l.count (some i) := by
  induction l with
  | nil => rfl
  | cons x l ih =>
    cases x with
    | none => simp [ih]
    | some j => simp [List.count_cons, ih]

/-- Positions that are spent as labels are operands that are spent. -/
theorem Spends.spendsOperands [Scalar α] {operands : List α} {path : List (PathStep α)}
    (h : Spends operands.get (List.finRange operands.length) path) :
    SpendsOperands operands path := by
  obtain ⟨places, huses, rfl⟩ := h
  have hdraws : ∀ s ∈ places.map (PathStep.map (valueOf operands.get)), s.Draws := by
    intro s hs
    obtain ⟨t, ht, rfl⟩ := List.mem_map.mp hs
    exact (PathStep.draws_map _ t).mpr (huses.draws t ht)
  refine ⟨⟨places, rfl, fun i => ?_⟩, hdraws, fun hne pen hnil => ?_⟩
  · rw [← count_reduceOption, huses.perm.count_eq]
    exact List.count_eq_one_of_mem (List.nodup_finRange _) (List.mem_finRange i)
  · -- Without a step no label would be used.
    cases hplaces : places with
    | nil =>
      have hperm := huses.perm
      rw [hplaces] at hperm
      have hlength := hperm.length_eq
      rw [List.length_finRange] at hlength
      exact hne (List.eq_nil_of_length_eq_zero hlength.symm)
    | cons t rest =>
      rw [segments_eq_nil_iff] at hnil
      rw [hplaces] at hdraws hnil
      exact hnil _ List.mem_cons_self (hdraws _ List.mem_cons_self)

/-- An accepted path spends the positions of the operands. -/
private theorem spends_of_steps [Scalar α] {op : PathOperator} (hop : op ∈ PathOperator.packed)
    {operands : List α} {path : List (PathStep α)} (h : op.steps operands = .ok path)
    (hlone : ¬ op.LosesOperand operands) :
    Spends operands.get (List.finRange operands.length) path := by
  have hmap : (List.finRange operands.length).map operands.get = operands :=
    List.map_get_finRange operands
  have huses := uses_steps (f := operands.get) hop (List.finRange operands.length)
    (by rwa [hmap])
  rw [hmap] at huses
  exact huses path h

section Exact

variable {K : Type} [Field K] [LinearOrder K] {root : K → K} {truncate : K → Option Int}

/-- Places without a label add nothing to a sum. -/
private theorem sum_map_valueOf (f : ι → K) (l : List (Option ι)) :
    (l.map (@valueOf K ι (.ofField root truncate) f)).sum = (l.reduceOption.map f).sum := by
  induction l with
  | nil => rfl
  | cons x l ih =>
    cases x with
    | none =>
      rw [List.map_cons, List.sum_cons, ih, List.reduceOption_cons_of_none]
      exact (congrArg (· + _) (Scalar.zero_ofField root truncate)).trans (zero_add _)
    | some i =>
      rw [List.map_cons, List.sum_cons, ih, List.reduceOption_cons_of_some, List.map_cons,
        List.sum_cons]
      rfl

/-- In exact arithmetic the changes along a path add up to the labels that it spends. -/
theorem Spends.sum_deltas {f : ι → K} {labels : List ι} {path : List (PathStep K)}
    (h : @Spends K ι (.ofField root truncate) f labels path) :
    (path.flatMap PathStep.deltas).sum = (labels.map f).sum := by
  obtain ⟨places, huses, rfl⟩ := h
  rw [flatMap_deltas_map, sum_map_valueOf, (huses.perm.map f).sum_eq]

/-- In exact arithmetic a step changes the coordinates of the pen by its deltas. -/
theorem pen_step_ofField (o : Outline K) (s : PathStep K) :
    (@Outline.step K (.ofField root truncate) o s).x +
        (@Outline.step K (.ofField root truncate) o s).y =
      o.x + o.y + s.deltas.sum := by
  cases s with
  | move dx dy =>
    change o.x + dx + (o.y + dy) = o.x + o.y + [dx, dy].sum
    simp only [List.sum_cons, List.sum_nil]
    ring
  | line dx dy =>
    change o.x + dx + (o.y + dy) = o.x + o.y + [dx, dy].sum
    simp only [List.sum_cons, List.sum_nil]
    ring
  | curve dxa dya dxb dyb dxc dyc =>
    change o.x + dxa + dxb + dxc + (o.y + dya + dyb + dyc) =
      o.x + o.y + [dxa, dya, dxb, dyb, dxc, dyc].sum
    simp only [List.sum_cons, List.sum_nil]
    ring

/-- In exact arithmetic a path changes the coordinates of the pen by its deltas. -/
theorem pen_draw_ofField (o : Outline K) (path : List (PathStep K)) :
    (@Outline.draw K (.ofField root truncate) o path).x +
        (@Outline.draw K (.ofField root truncate) o path).y =
      o.x + o.y + (path.flatMap PathStep.deltas).sum := by
  induction path generalizing o with
  | nil => exact (add_zero _).symm
  | cons s path ih =>
    rw [@Outline.draw_cons K (.ofField root truncate), ih, pen_step_ofField, List.flatMap_cons,
      List.sum_append, add_assoc]

/-- Operators that pack a path use every operand, in one place of one segment, so that in exact
arithmetic the operands add up to what the pen is moved by; and they draw a segment if they have any
operands.  The exception is an operand that is alone with `hhcurveto` or `vvcurveto`. -/
theorem packed_operators_use_operands_iff {op : PathOperator} (hop : op ∈ PathOperator.packed)
    {operands : List K} {path : List (PathStep K)}
    (h : @PathOperator.steps K (.ofField root truncate) op operands = .ok path) :
    (@SpendsOperands K (.ofField root truncate) operands path ∧
        ∀ o : Outline K,
          ((@Outline.draw K (.ofField root truncate) o path).x - o.x) +
            ((@Outline.draw K (.ofField root truncate) o path).y - o.y) = operands.sum) ↔
      ¬ op.LosesOperand operands := by
  constructor
  · rintro ⟨huse, -⟩ ⟨hcurves, hlength⟩
    obtain ⟨cross, rfl⟩ := List.length_eq_one_iff.mp hlength
    have hpath : path = [] := by
      rcases hcurves with rfl | rfl <;> exact (Except.ok.inj h).symm
    subst hpath
    exact @SpendsOperands.segments_ne_nil K (.ofField root truncate) _ _ huse
      (List.cons_ne_nil _ _) (0, 0) rfl
  · intro hlone
    have hspends := @spends_of_steps K (.ofField root truncate) op hop operands path h hlone
    refine ⟨@Spends.spendsOperands K (.ofField root truncate) _ _ hspends, fun o => ?_⟩
    have hpen := @pen_draw_ofField K _ _ root truncate o path
    rw [hspends.sum_deltas, List.map_get_finRange] at hpen
    linear_combination hpen

/-- Five operands of `hvcurveto` make one curve, which ends off its axis by the last one. -/
theorem packed_operators_use_operands_iff_hvcurveto :
    PathOperator.hvcurveto ∈ PathOperator.packed ∧
      @PathOperator.steps ℚ (.ofField id fun _ => none) .hvcurveto [3, 4, 5, 6, 7] =
        .ok [.curve 3 0 4 5 7 6] ∧
      @SpendsOperands ℚ (.ofField id fun _ => none) [3, 4, 5, 6, 7] [.curve 3 0 4 5 7 6] ∧
      ∀ o : Outline ℚ,
        ((@Outline.draw ℚ (.ofField id fun _ => none) o [.curve 3 0 4 5 7 6]).x - o.x) +
          ((@Outline.draw ℚ (.ofField id fun _ => none) o [.curve 3 0 4 5 7 6]).y - o.y) =
            [3, 4, 5, 6, 7].sum := by
  have hop : PathOperator.hvcurveto ∈ PathOperator.packed := by decide
  have hsteps : @PathOperator.steps ℚ (.ofField id fun _ => none) .hvcurveto [3, 4, 5, 6, 7] =
      .ok [.curve 3 0 4 5 7 6] := rfl
  have hkept : ¬ PathOperator.hvcurveto.LosesOperand [(3 : ℚ), 4, 5, 6, 7] := fun h => by
    cases h.2
  exact ⟨hop, hsteps, (packed_operators_use_operands_iff hop hsteps).mpr hkept⟩

/-- A lone operand of `hhcurveto` is taken, although nothing is drawn and the pen stays. -/
theorem lone_operand_is_lost :
    @PathOperator.steps ℚ (.ofField id fun _ => none) .hhcurveto [5] = .ok [] ∧
      ¬ @SpendsOperands ℚ (.ofField id fun _ => none) [5] [] ∧
      ((@Outline.draw ℚ (.ofField id fun _ => none) ⟨0, 0, none, false⟩ []).x - 0) +
        ((@Outline.draw ℚ (.ofField id fun _ => none) ⟨0, 0, none, false⟩ []).y - 0) ≠ [5].sum := by
  refine ⟨rfl, fun h => ?_, ?_⟩
  · exact @SpendsOperands.segments_ne_nil ℚ (.ofField id fun _ => none) _ _ h
      (List.cons_ne_nil _ _) (0, 0) rfl
  · change (0 : ℚ) - 0 + (0 - 0) ≠ [5].sum
    norm_num

end Exact

end Charstring

end FontMetrics
