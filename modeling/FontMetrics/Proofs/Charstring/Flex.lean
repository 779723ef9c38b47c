import Mathlib.Tactic.LinearCombination
import Mathlib.Tactic.Ring
import FontMetrics.Proofs.Charstring.Attempt
import FontMetrics.Proofs.Outline.Union
import FontMetrics.Proofs.Scalar.Field

/-!
# Flexes

A flex is two curves that meet in a point where the outline is almost straight.  There is one
operator that gives both curves in full, and three that leave out the deltas which follow from where
the flex starts.  Each of them draws what `rrcurveto` draws with the deltas filled in.
-/

namespace FontMetrics.Charstring

/-- The operators that draw a flex. -/
inductive FlexOperator where
  | flex
  | hflex
  | hflex1
  | flex1
  deriving DecidableEq, Repr

namespace FlexOperator

/-- The operator as one of those that draw. -/
def operator : FlexOperator → PathOperator
  | .flex => .flex
  | .hflex => .hflex
  | .hflex1 => .hflex1
  | .flex1 => .flex1

/-- How many operands a flex takes. -/
def count : FlexOperator → Nat
  | .flex => 13
  | .hflex => 7
  | .hflex1 => 9
  | .flex1 => 11

end FlexOperator

section Drawing

variable {α β : Type}

/-- What was performed is what `complete` performs with the only operands that make the pen stop
where it has to. -/
def IsCompletion (performed : Outline α × Option Error) (complete : β → Outline α × Option Error)
    (Stops : α × α → Prop) : Prop :=
  ∃ rest, (∀ rest', Stops (complete rest').1.pen ↔ rest' = rest) ∧ performed = complete rest

/-- What completes the operands stops where it has to. -/
theorem IsCompletion.stops {performed : Outline α × Option Error}
    {complete : β → Outline α × Option Error} {Stops : α × α → Prop}
    (h : IsCompletion performed complete Stops) : Stops performed.1.pen := by
  obtain ⟨rest, hstops, rfl⟩ := h
  exact (hstops rest).mpr rfl

variable [Scalar α]

/-- The operator draws two curves on the outline, the second from where the first ends. -/
def PathOperator.DrawsTwoCurves (op : PathOperator) (operands : List α) (o : Outline α) : Prop :=
  ∃ (path : List (PathStep α)) (a b middle c d stop : α × α),
    op.perform operands o = (o.draw path, none) ∧ path.length = 2 ∧
      segments o.pen path = [.curve o.pen a b middle, .curve middle c d stop]

/-- Two curves in a path meet. -/
private theorem PathOperator.drawsTwoCurves_of_steps {op : PathOperator} {operands : List α}
    {dxa dya dxb dyb dxc dyc dxa' dya' dxb' dyb' dxc' dyc' : α}
    (h : op.steps operands =
      .ok [.curve dxa dya dxb dyb dxc dyc, .curve dxa' dya' dxb' dyb' dxc' dyc'])
    (o : Outline α) : op.DrawsTwoCurves operands o :=
  ⟨_, _, _, _, _, _, _, perform_of_ok h o, rfl, rfl⟩

/-- A flex with another number of operands is refused before anything is drawn. -/
theorem FlexOperator.perform_of_ne {k : FlexOperator} {operands : List α}
    (h : operands.length ≠ k.count) (o : Outline α) :
    k.operator.perform operands o = (o, some .operandCount) := by
  have herror : k.operator.attempt operands = .refuse .operandCount := by
    cases k with
    | flex =>
      change Attempt.ofSteps (PathOperands.flex operands) = _
      unfold PathOperands.flex
      split
      · exact absurd rfl h
      · rfl
    | hflex =>
      change Attempt.ofSteps (PathOperands.hflex operands) = _
      unfold PathOperands.hflex
      split
      · exact absurd rfl h
      · rfl
    | hflex1 =>
      change Attempt.ofSteps (PathOperands.hflex1 operands) = _
      unfold PathOperands.hflex1
      split
      · exact absurd rfl h
      · rfl
    | flex1 =>
      change Attempt.ofSteps (PathOperands.flex1 operands) = _
      unfold PathOperands.flex1
      split
      · exact absurd rfl h
      · rfl
  rw [PathOperator.perform, herror]
  rfl

/-- Each flex with its number of operands is a path of two curves. -/
private theorem FlexOperator.drawsTwoCurves {k : FlexOperator} {operands : List α}
    (h : operands.length = k.count) (o : Outline α) : k.operator.DrawsTwoCurves operands o := by
  cases k with
  | flex =>
    match operands, h with
    | [_, _, _, _, _, _, _, _, _, _, _, _, _], _ => exact PathOperator.drawsTwoCurves_of_steps rfl o
  | hflex =>
    match operands, h with
    | [_, _, _, _, _, _, _], _ => exact PathOperator.drawsTwoCurves_of_steps rfl o
  | hflex1 =>
    match operands, h with
    | [_, _, _, _, _, _, _, _, _], _ => exact PathOperator.drawsTwoCurves_of_steps rfl o
  | flex1 =>
    match operands, h with
    | [_, _, _, _, _, _, _, _, _, _, _], _ => exact PathOperator.drawsTwoCurves_of_steps rfl o

end Drawing

section Exact

variable {K : Type} [Field K] [LinearOrder K] (root : K → K) (truncate : K → Option Int)

/-- Performs an operator without rounding. -/
def PathOperator.performExactly (op : PathOperator) (operands : List K) (o : Outline K) :
    Outline K × Option Error :=
  @PathOperator.perform K (.ofField root truncate) op operands o

/-- Where `flex1` stops after deltas with the sums `dx` and `dy`.  The last operand leads on along the
axis on which these have led further, the vertical one if they have led equally far; on the other
axis the flex stops where it started. -/
def flex1Stop (start : K × K) (dx dy d6 : K) : K × K :=
  if |dy| < |dx| then (start.1 + dx + d6, start.2) else (start.1, start.2 + dy + d6)

/-- The last two deltas of `flex1`. -/
def flex1Last (dx dy d6 : K) : K × K := if |dy| < |dx| then (d6, -dy) else (-dx, d6)

/-- The last deltas of `flex1` lead to where it stops. -/
private theorem add_flex1Last (start : K × K) (dx dy d6 : K) :
    (start.1 + dx + (flex1Last dx dy d6).1, start.2 + dy + (flex1Last dx dy d6).2) =
      flex1Stop start dx dy d6 := by
  unfold flex1Last flex1Stop
  split
  · rw [add_neg_cancel_right]
  · rw [add_neg_cancel_right]

variable {root truncate}

/-- Operators that stand for one path perform alike. -/
private theorem performExactly_congr {op op' : PathOperator} {operands operands' : List K}
    {path : List (PathStep K)}
    (h : @PathOperator.steps K (.ofField root truncate) op operands = .ok path)
    (h' : @PathOperator.steps K (.ofField root truncate) op' operands' = .ok path)
    (o : Outline K) :
    op.performExactly root truncate operands o = op'.performExactly root truncate operands' o := by
  unfold PathOperator.performExactly
  rw [@PathOperator.perform_of_ok K (.ofField root truncate) _ _ _ h,
    @PathOperator.perform_of_ok K (.ofField root truncate) _ _ _ h']

/-- Two curves end where their deltas lead. -/
theorem pen_rrcurveto (dx1 dy1 dx2 dy2 dx3 dy3 dx4 dy4 dx5 dy5 dx6 dy6 : K) (o : Outline K) :
    (PathOperator.rrcurveto.performExactly root truncate
        [dx1, dy1, dx2, dy2, dx3, dy3, dx4, dy4, dx5, dy5, dx6, dy6] o).1.pen =
      (o.x + (dx1 + dx2 + dx3 + dx4 + dx5) + dx6, o.y + (dy1 + dy2 + dy3 + dy4 + dy5) + dy6) := by
  change (o.x + dx1 + dx2 + dx3 + dx4 + dx5 + dx6, o.y + dy1 + dy2 + dy3 + dy4 + dy5 + dy6) = _
  simp only [add_assoc]

/-- The depth of `flex` has no effect. -/
private theorem performExactly_flex (dx1 dy1 dx2 dy2 dx3 dy3 dx4 dy4 dx5 dy5 dx6 dy6 fd : K)
    (o : Outline K) :
    PathOperator.flex.performExactly root truncate
        [dx1, dy1, dx2, dy2, dx3, dy3, dx4, dy4, dx5, dy5, dx6, dy6, fd] o =
      PathOperator.rrcurveto.performExactly root truncate
        [dx1, dy1, dx2, dy2, dx3, dy3, dx4, dy4, dx5, dy5, dx6, dy6] o :=
  performExactly_congr rfl rfl o

/-- The deltas that `hflex` leaves out are zero, or undo the vertical one that it gives. -/
private theorem performExactly_hflex (dx1 dx2 dy2 dx3 dx4 dx5 dx6 : K) (o : Outline K) :
    PathOperator.hflex.performExactly root truncate [dx1, dx2, dy2, dx3, dx4, dx5, dx6] o =
      PathOperator.rrcurveto.performExactly root truncate
        [dx1, 0, dx2, dy2, dx3, 0, dx4, 0, dx5, -dy2, dx6, 0] o := by
  have hsteps : @PathOperator.steps K (.ofField root truncate) .hflex
      [dx1, dx2, dy2, dx3, dx4, dx5, dx6] =
        .ok [.curve dx1 0 dx2 dy2 dx3 0, .curve dx4 0 dx5 (-dy2) dx6 0] := by
    simp only [PathOperator.steps, PathOperands.hflex, Scalar.zero_ofField]
  exact performExactly_congr hsteps rfl o

/-- The flex `hflex` stops at the height of its start. -/
theorem y_hflex (dx1 dx2 dy2 dx3 dx4 dx5 dx6 : K) (o : Outline K) :
    (PathOperator.hflex.performExactly root truncate
      [dx1, dx2, dy2, dx3, dx4, dx5, dx6] o).1.y = o.y := by
  rw [performExactly_hflex]
  refine (congrArg Prod.snd (pen_rrcurveto dx1 0 dx2 dy2 dx3 0 dx4 0 dx5 (-dy2) dx6 0 o)).trans ?_
  ring

/-- The last vertical delta of `hflex1` undoes the others. -/
private theorem performExactly_hflex1 (dx1 dy1 dx2 dy2 dx3 dx4 dx5 dy5 dx6 : K) (o : Outline K) :
    PathOperator.hflex1.performExactly root truncate
        [dx1, dy1, dx2, dy2, dx3, dx4, dx5, dy5, dx6] o =
      PathOperator.rrcurveto.performExactly root truncate
        [dx1, dy1, dx2, dy2, dx3, 0, dx4, 0, dx5, dy5, dx6, -(dy1 + dy2 + dy5)] o := by
  have hsteps : @PathOperator.steps K (.ofField root truncate) .hflex1
      [dx1, dy1, dx2, dy2, dx3, dx4, dx5, dy5, dx6] =
        .ok [.curve dx1 dy1 dx2 dy2 dx3 0, .curve dx4 0 dx5 dy5 dx6 (-(dy1 + dy2 + dy5))] := by
    simp only [PathOperator.steps, PathOperands.hflex1, Scalar.zero_ofField]
  exact performExactly_congr hsteps rfl o

/-- The last deltas of `flex1`, written out. -/
private theorem performExactly_flex1 (dx1 dy1 dx2 dy2 dx3 dy3 dx4 dy4 dx5 dy5 d6 : K)
    (o : Outline K) :
    let last := flex1Last (dx1 + dx2 + dx3 + dx4 + dx5) (dy1 + dy2 + dy3 + dy4 + dy5) d6
    PathOperator.flex1.performExactly root truncate
        [dx1, dy1, dx2, dy2, dx3, dy3, dx4, dy4, dx5, dy5, d6] o =
      PathOperator.rrcurveto.performExactly root truncate
        [dx1, dy1, dx2, dy2, dx3, dy3, dx4, dy4, dx5, dy5, last.1, last.2] o := by
  intro last
  have hsteps : @PathOperator.steps K (.ofField root truncate) .flex1
      [dx1, dy1, dx2, dy2, dx3, dy3, dx4, dy4, dx5, dy5, d6] =
        .ok [.curve dx1 dy1 dx2 dy2 dx3 dy3, .curve dx4 dy4 dx5 dy5 last.1 last.2] := by
    simp only [PathOperator.steps, PathOperands.flex1, Scalar.isLt_ofField]
    rfl
  exact performExactly_congr hsteps rfl o

/-- The last delta of `hflex1` is the one that returns to the height of the start. -/
theorem hflex1_isCompletion (dx1 dy1 dx2 dy2 dx3 dx4 dx5 dy5 dx6 : K) (o : Outline K) :
    IsCompletion
      (PathOperator.hflex1.performExactly root truncate
        [dx1, dy1, dx2, dy2, dx3, dx4, dx5, dy5, dx6] o)
      (fun z => PathOperator.rrcurveto.performExactly root truncate
        [dx1, dy1, dx2, dy2, dx3, 0, dx4, 0, dx5, dy5, dx6, z] o)
      (fun stop => stop.2 = o.y) := by
  refine ⟨-(dy1 + dy2 + dy5), fun z => ?_, performExactly_hflex1 ..⟩
  rw [pen_rrcurveto]
  constructor
  · intro h
    linear_combination h
  · intro h
    linear_combination h

/-- The flex `hflex1` stops at the height of its start. -/
theorem y_hflex1 (dx1 dy1 dx2 dy2 dx3 dx4 dx5 dy5 dx6 : K) (o : Outline K) :
    (PathOperator.hflex1.performExactly root truncate
      [dx1, dy1, dx2, dy2, dx3, dx4, dx5, dy5, dx6] o).1.y = o.y :=
  (hflex1_isCompletion dx1 dy1 dx2 dy2 dx3 dx4 dx5 dy5 dx6 o).stops

/-- The last two deltas of `flex1` are those that lead to where it has to stop. -/
theorem flex1_isCompletion (dx1 dy1 dx2 dy2 dx3 dy3 dx4 dy4 dx5 dy5 d6 : K) (o : Outline K) :
    IsCompletion
      (PathOperator.flex1.performExactly root truncate
        [dx1, dy1, dx2, dy2, dx3, dy3, dx4, dy4, dx5, dy5, d6] o)
      (fun last : K × K => PathOperator.rrcurveto.performExactly root truncate
        [dx1, dy1, dx2, dy2, dx3, dy3, dx4, dy4, dx5, dy5, last.1, last.2] o)
      (fun stop => stop =
        flex1Stop o.pen (dx1 + dx2 + dx3 + dx4 + dx5) (dy1 + dy2 + dy3 + dy4 + dy5) d6) := by
  refine ⟨flex1Last _ _ d6, fun last => ?_, performExactly_flex1 ..⟩
  change _ = _ ↔ _
  rw [pen_rrcurveto, ← add_flex1Last, Prod.mk.injEq, Prod.ext_iff]
  exact and_congr (add_right_inj _) (add_right_inj _)

end Exact

/-- A flex draws two curves that meet, and takes no other number of operands than its own.  In exact
arithmetic they are the curves that `rrcurveto` draws with all deltas written out: those that `flex`
gives next to its depth, those that `hflex` leaves out because they are zero or the negative of one
before, and the deltas at the end of `hflex1` and `flex1` that lead to where these have to stop. -/
theorem flexes_are_two_curves :
    (∀ (α : Type) [Scalar α] (k : FlexOperator) (operands : List α) (o : Outline α),
      if operands.length = k.count then k.operator.DrawsTwoCurves operands o
      else k.operator.perform operands o = (o, some .operandCount)) ∧
    ∀ (K : Type) [Field K] [LinearOrder K] (root : K → K) (truncate : K → Option Int)
      (o : Outline K),
      (∀ dx1 dy1 dx2 dy2 dx3 dy3 dx4 dy4 dx5 dy5 dx6 dy6 fd : K,
        PathOperator.flex.performExactly root truncate
            [dx1, dy1, dx2, dy2, dx3, dy3, dx4, dy4, dx5, dy5, dx6, dy6, fd] o =
          PathOperator.rrcurveto.performExactly root truncate
            [dx1, dy1, dx2, dy2, dx3, dy3, dx4, dy4, dx5, dy5, dx6, dy6] o) ∧
      (∀ dx1 dx2 dy2 dx3 dx4 dx5 dx6 : K,
        PathOperator.hflex.performExactly root truncate [dx1, dx2, dy2, dx3, dx4, dx5, dx6] o =
            PathOperator.rrcurveto.performExactly root truncate
              [dx1, 0, dx2, dy2, dx3, 0, dx4, 0, dx5, -dy2, dx6, 0] o ∧
          (PathOperator.hflex.performExactly root truncate
            [dx1, dx2, dy2, dx3, dx4, dx5, dx6] o).1.y = o.y) ∧
      (∀ dx1 dy1 dx2 dy2 dx3 dx4 dx5 dy5 dx6 : K,
        IsCompletion
            (PathOperator.hflex1.performExactly root truncate
              [dx1, dy1, dx2, dy2, dx3, dx4, dx5, dy5, dx6] o)
            (fun z => PathOperator.rrcurveto.performExactly root truncate
              [dx1, dy1, dx2, dy2, dx3, 0, dx4, 0, dx5, dy5, dx6, z] o)
            (fun stop => stop.2 = o.y) ∧
          (PathOperator.hflex1.performExactly root truncate
            [dx1, dy1, dx2, dy2, dx3, dx4, dx5, dy5, dx6] o).1.y = o.y) ∧
      ∀ dx1 dy1 dx2 dy2 dx3 dy3 dx4 dy4 dx5 dy5 d6 : K,
        IsCompletion
          (PathOperator.flex1.performExactly root truncate
            [dx1, dy1, dx2, dy2, dx3, dy3, dx4, dy4, dx5, dy5, d6] o)
          (fun last : K × K => PathOperator.rrcurveto.performExactly root truncate
            [dx1, dy1, dx2, dy2, dx3, dy3, dx4, dy4, dx5, dy5, last.1, last.2] o)
          (fun stop => stop =
            flex1Stop o.pen (dx1 + dx2 + dx3 + dx4 + dx5) (dy1 + dy2 + dy3 + dy4 + dy5) d6) := by
  refine ⟨fun α _ k operands o => ?_, fun K _ _ root truncate o => ⟨?flex, ?hflex, ?hflex1, ?flex1⟩⟩
  · split
    · next h => exact k.drawsTwoCurves h o
    · next h => exact k.perform_of_ne h o
  case flex =>
    intros
    apply performExactly_flex
  case hflex =>
    intros
    exact ⟨performExactly_hflex .., y_hflex ..⟩
  case hflex1 =>
    intros
    exact ⟨hflex1_isCompletion .., y_hflex1 ..⟩
  case flex1 =>
    intros
    apply flex1_isCompletion

end FontMetrics.Charstring
