import FontMetrics.Charstring.Bounds

/-!
# What instructions leave alone

Computing takes operands off the stack and puts others on it, always as many of each.  Only path
operators change the outline.  The instructions that act on the data fail for their operands alone:
not for what the outline is, which is decided when the glyph has ended, and not for what the tables
of subroutines are, which only calls depend on.
-/

namespace FontMetrics.Charstring

variable {β γ : Type}

/-- The result is a value with a property, or an error of a certain kind. -/
def Satisfies (P : β → Prop) (E : Error → Prop) : Except Error β → Prop
  | .ok b => P b
  | .error e => E e

/-- An error of the execution, not of the outline that it leaves behind. -/
def Error.IsExecution : Error → Prop
  | .outlineOverflow => False
  | _ => True

/-- An error for which the operands of an instruction are to blame: their number, or what one of
them names. -/
def Error.OfOperands : Error → Prop
  | .stackUnderflow | .stackOverflow | .operandCount | .subroutineIndex | .transientIndex => True
  | _ => False

/-- Operands are to blame only while the glyph is executed. -/
theorem Error.OfOperands.isExecution {e : Error} (h : e.OfOperands) : e.IsExecution := by
  cases e with
  | outlineOverflow => exact h
  | _ => trivial

/-- An error for which the number of operands is to blame, of an operator that puts none on the
stack. -/
def Error.OfCount : Error → Prop
  | .stackUnderflow | .operandCount => True
  | _ => False

/-- Errors of the number of operands are errors of operands. -/
theorem Error.OfCount.ofOperands {e : Error} (h : e.OfCount) : e.OfOperands := by
  cases e with
  | stackUnderflow | operandCount => trivial
  | _ => exact h.elim

/-- An error for which the value of an operand is to blame, not how many there are. -/
def Error.OfValue : Error → Prop
  | .operandCount | .subroutineIndex | .transientIndex => True
  | _ => False

/-- Errors of the value of an operand are errors of operands. -/
theorem Error.OfValue.ofOperands {e : Error} (h : e.OfValue) : e.OfOperands := by
  cases e with
  | operandCount | subroutineIndex | transientIndex => trivial
  | _ => exact h.elim

/-- If there is an error at all, the operands are to blame for it. -/
def FailsForOperands : Except Error β → Prop := Satisfies (fun _ => True) Error.OfOperands

/-- If there is an error at all, the number of operands is to blame for it. -/
def FailsForCount : Except Error β → Prop := Satisfies (fun _ => True) Error.OfCount

/-- If there is an error at all, the value of an operand is to blame for it. -/
def FailsForValue : Except Error β → Prop := Satisfies (fun _ => True) Error.OfValue

namespace Satisfies

variable {P : β → Prop} {Q : γ → Prop} {E : Error → Prop}

/-- What is known of the value if there is one. -/
theorem value {r : Except Error β} {b : β} (h : Satisfies P E r) (hr : r = .ok b) : P b := by
  subst hr
  exact h

/-- A computation goes on from a value with the property, or stops with the error. -/
theorem bind {r : Except Error β} {f : β → Except Error γ} (h : Satisfies P E r)
    (hf : ∀ b, P b → Satisfies Q E (f b)) : Satisfies Q E (r >>= f) := by
  cases r with
  | ok b => exact hf b h
  | error e => exact h

/-- A weaker property of the value. -/
theorem mono {P' : β → Prop} {r : Except Error β} (h : Satisfies P E r)
    (hP : ∀ b, P b → P' b) : Satisfies P' E r := by
  cases r with
  | ok b => exact hP b h
  | error e => exact h

/-- A wider kind of errors. -/
theorem widen {E' : Error → Prop} {r : Except Error β} (h : Satisfies P E r)
    (hE : ∀ e, E e → E' e) : Satisfies P E' r := by
  cases r with
  | ok b => exact h
  | error e => exact hE e h

/-- Nothing is known of the value or of the error. -/
theorem any (r : Except Error β) : Satisfies (fun _ => True) (fun _ => True) r := by
  cases r with
  | ok b => trivial
  | error e => trivial

/-- A function of a value with the property keeps the error. -/
theorem map {r : Except Error β} {f : β → γ} (h : Satisfies P E r) (hf : ∀ b, P b → Q (f b)) :
    Satisfies Q E (f <$> r) := by
  cases r with
  | ok b => exact hf b h
  | error e => exact h

end Satisfies

/-- What fails for the number of operands fails for the operands. -/
theorem FailsForCount.forOperands {r : Except Error β} (h : FailsForCount r) :
    FailsForOperands r :=
  h.widen fun _ => Error.OfCount.ofOperands

/-- What fails for the value of an operand fails for the operands. -/
theorem FailsForValue.forOperands {r : Except Error β} (h : FailsForValue r) :
    FailsForOperands r :=
  h.widen fun _ => Error.OfValue.ofOperands

variable {α : Type}

/-- How many operands an operator takes off the stack; those it only looks at stay. -/
def StackOperator.popped : StackOperator → Nat
  | .dup | .random => 0
  | .abs | .neg | .sqrt | .not | .drop | .index | .get => 1
  | .add | .sub | .mul | .div | .and | .or | .eq | .exch | .roll | .put => 2
  | .ifelse => 4

/-- How many operands an operator puts on the stack. -/
def StackOperator.pushed : StackOperator → Nat
  | .drop | .roll | .put => 0
  | .exch => 2
  | _ => 1

namespace State

/-- The second state has other operands than the first, so many less and so many more; neither hints
nor outline differ. -/
structure Moves (popped pushed : Nat) (s s' : State α) : Prop where
  /-- Operands were taken off the stack and put on it. -/
  size : s'.stack.size + popped = s.stack.size + pushed
  /-- No hints were declared. -/
  hints : s'.hints = s.hints
  /-- Nothing was drawn. -/
  outline : s'.outline = s.outline

/-- Operands moved in two steps are moved in all. -/
theorem Moves.trans {m n m' n' : Nat} {s s' s'' : State α} (h : s.Moves m n s')
    (h' : s'.Moves m' n' s'') : s.Moves (m + m') (n + n') s'' where
  size := by
    have hfirst := h.size
    have hsecond := h'.size
    omega
  hints := h'.hints.trans h.hints
  outline := h'.outline.trans h.outline

/-- The result is a state with other operands, or an error that the operands cause. -/
def Computes (popped pushed : Nat) (s : State α) : Except Error (State α) → Prop :=
  Satisfies (s.Moves popped pushed) Error.OfOperands

/-- The result is a value and a state with other operands, or an error that the operands cause. -/
def ComputesWith (popped pushed : Nat) (s : State α) : Except Error (β × State α) → Prop :=
  Satisfies (fun read => s.Moves popped pushed read.2) Error.OfOperands

/-- The state, if there is one, differs from the given one in its operands only. -/
def MovesOperands (s : State α) : Except Error (State α) → Prop :=
  Satisfies (fun s' => ∃ stack, s' = { s with stack }) fun _ => True

/-- The result is a state with the given outline, or an error of the execution. -/
def Keeps (outline : Outline α) : Except Error (State α) → Prop :=
  Satisfies (fun s => s.outline = outline) Error.IsExecution

/-- The result is a value and a state with the given outline, or an error of the execution. -/
def KeepsWith (outline : Outline α) : Except Error (β × State α) → Prop :=
  Satisfies (fun read => read.2.outline = outline) Error.IsExecution

variable {s : State α} {outline : Outline α}

/-- Pushing an operand does nothing else. -/
theorem computes_push (x : α) (s : State α) : s.Computes 0 1 (s.push x) := by
  unfold push OperandStack.push
  split
  · next heq => split at heq <;> cases heq; trivial
  · next heq =>
    split at heq
    · cases heq
      exact ⟨rfl, rfl, rfl⟩
    · cases heq

/-- Popping an operand does nothing else. -/
theorem computes_pop (s : State α) : s.ComputesWith 1 0 s.pop := by
  obtain ⟨⟨items, hitems⟩, hints, transient, random, outline⟩ := s
  cases items with
  | nil => trivial
  | cons x below => exact ⟨rfl, rfl, rfl⟩

/-- Popping two operands does nothing else. -/
theorem computes_pop2 (s : State α) :
    Satisfies (fun read : α × α × State α => s.Moves 2 0 read.2.2) Error.OfOperands s.pop2 :=
  s.computes_pop.bind fun _ h => (computes_pop _).bind fun _ h' => h.trans h'

/-- What is pushed after other operands were moved. -/
theorem Moves.push {m n : Nat} {s s' : State α} (h : s.Moves m n s') (x : α) :
    s.Computes m (n + 1) (s'.push x) :=
  (computes_push x s').mono fun _ h' => h.trans h'

/-- Replacing an operand does nothing else. -/
theorem computes_unary (f : α → α) (s : State α) : s.Computes 1 1 (s.unary f) :=
  s.computes_pop.bind fun read h => h.push (f read.1)

/-- Replacing two operands does nothing else. -/
theorem computes_binary (f : α → α → α) (s : State α) : s.Computes 2 1 (s.binary f) :=
  s.computes_pop2.bind fun read h => h.push (f read.1 read.2.1)

/-- A push changes the stack and nothing else. -/
theorem movesOperands_push (x : α) (s : State α) : s.MovesOperands (s.push x) := by
  unfold push
  split
  · trivial
  · exact ⟨_, rfl⟩

/-- A pop changes the stack and nothing else. -/
theorem movesOperands_pop (s : State α) :
    Satisfies (fun p : α × State α => ∃ stack, p.2 = { s with stack }) (fun _ => True) s.pop := by
  unfold pop
  split
  · trivial
  · exact ⟨_, rfl⟩

/-- Two pops change the stack and nothing else. -/
theorem movesOperands_pop2 (s : State α) :
    Satisfies (fun p : α × α × State α => ∃ stack, p.2.2 = { s with stack }) (fun _ => True)
      s.pop2 := by
  refine s.movesOperands_pop.bind ?_
  rintro ⟨b, _⟩ ⟨stack, rfl⟩
  exact (movesOperands_pop { s with stack }).bind fun _ h => h

/-- What is pushed after operands were moved. -/
theorem movesOperands_push_of_eq {s' : State α} (h : ∃ stack, s' = { s with stack }) (x : α) :
    s.MovesOperands (s'.push x) := by
  obtain ⟨stack, rfl⟩ := h
  exact movesOperands_push x { s with stack }

/-- Looking at an operand fails only where there is none. -/
private theorem failsForOperands_peek (depth : Nat) (stack : Operands α) :
    FailsForOperands (stack.peek depth) := by
  unfold OperandStack.peek
  split
  · trivial
  · trivial

/-- Rolling keeps the number of operands. -/
theorem size_roll (count shift : Nat) (stack : Operands α) :
    Satisfies (fun rolled : Operands α => rolled.size = stack.size) Error.OfOperands
      (stack.roll count shift) := by
  unfold OperandStack.roll
  split
  · change List.length _ = stack.fromTop.length
    rw [List.length_append, OperandStack.length_rotateLeft, ← List.length_append,
      List.take_append_drop]
  · trivial

end State

namespace PathOperands

/-- Lines fail only for the number of operands. -/
theorem failsForCount_lines (operands : List α) :
    FailsForCount (lines operands) := by
  fun_induction lines operands with
  | case1 => trivial
  | case2 dx dy rest ih => exact ih.map fun _ _ => trivial
  | case3 => trivial

/-- Curves fail only for the number of operands. -/
theorem failsForCount_curves (operands : List α) :
    FailsForCount (curves operands) := by
  fun_induction curves operands with
  | case1 => trivial
  | case2 dxa dya dxb dyb dxc dyc rest ih => exact ih.map fun _ _ => trivial
  | case3 => trivial

private theorem failsForCount_curvesThenLine (operands : List α) :
    FailsForCount (curvesThenLine operands) := by
  fun_induction curvesThenLine operands with
  | case1 => trivial
  | case2 dxa dya dxb dyb dxc dyc rest ih => exact ih.map fun _ _ => trivial
  | case3 => trivial

private theorem failsForCount_linesThenCurve (operands : List α) :
    FailsForCount (linesThenCurve operands) := by
  fun_induction linesThenCurve operands with
  | case1 => trivial
  | case2 dx dy rest hne ih => exact ih.map fun _ _ => trivial
  | case3 => trivial

variable [Scalar α]

private theorem failsForCount_parallelCurves (axis : Axis) (cross : α) (operands : List α) :
    FailsForCount (parallelCurves axis cross operands) := by
  fun_induction parallelCurves axis cross operands with
  | case1 => trivial
  | case2 cross along dxb dyb last rest ih => exact ih.map fun _ _ => trivial
  | case3 => trivial

private theorem failsForCount_curvePairs (axis : Axis) (operands : List α) :
    FailsForCount (curvePairs axis operands) := by
  fun_induction curvePairs axis operands with
  | case1 => trivial
  | case2 => trivial
  | case3 a b c d e f g h rest hne ih => exact ih.map fun _ _ => trivial
  | case4 => trivial

end PathOperands

variable [Scalar α]

/-- A path operator fails only for the number of its operands. -/
theorem PathOperator.failsForCount_steps (op : PathOperator) (operands : List α) :
    FailsForCount (op.steps operands) := by
  cases op with
  | hlineto | vlineto => trivial
  | rlineto => exact PathOperands.failsForCount_lines operands
  | rrcurveto => exact PathOperands.failsForCount_curves operands
  | rcurveline => exact PathOperands.failsForCount_curvesThenLine operands
  | rlinecurve => exact PathOperands.failsForCount_linesThenCurve operands
  | hhcurveto | vvcurveto =>
    simp only [PathOperator.steps, PathOperands.packedParallelCurves]
    split
    · split <;> exact PathOperands.failsForCount_parallelCurves _ _ _
    · trivial
  | hvcurveto | vhcurveto =>
    simp only [PathOperator.steps, PathOperands.alternatingCurves]
    split
    · split
      · trivial
      · exact (PathOperands.failsForCount_curvePairs _ _).map fun _ _ => trivial
      · trivial
    · exact PathOperands.failsForCount_curvePairs _ _
  | rmoveto =>
    simp only [PathOperator.steps]
    unfold PathOperands.freeMove
    split <;> trivial
  | hmoveto | vmoveto =>
    simp only [PathOperator.steps]
    unfold PathOperands.axisMove
    split <;> trivial
  | flex =>
    simp only [PathOperator.steps]
    unfold PathOperands.flex
    split <;> trivial
  | hflex =>
    simp only [PathOperator.steps]
    unfold PathOperands.hflex
    split <;> trivial
  | hflex1 =>
    simp only [PathOperator.steps]
    unfold PathOperands.hflex1
    split <;> trivial
  | flex1 =>
    simp only [PathOperator.steps]
    unfold PathOperands.flex1
    split <;> trivial

/-- A path operator fails only for its operands. -/
theorem PathOperator.failsForOperands_steps (op : PathOperator) (operands : List α) :
    FailsForOperands (op.steps operands) :=
  (op.failsForCount_steps operands).forOperands

namespace State

variable {s : State α} {outline : Outline α}

/-- An index into the transient array is refused for its value. -/
theorem failsForValue_transientIndex (x : α) :
    FailsForValue (transientIndex x) := by
  unfold transientIndex
  split
  · trivial
  · split
    · trivial
    · trivial

/-- A depth that is not a number underflows the stack. -/
private theorem failsForOperands_peekDepth (x : α) :
    FailsForOperands (peekDepth x) := by
  unfold peekDepth
  split
  · trivial
  · split
    · trivial
    · trivial

/-- The number of operands to rotate is refused for its value. -/
theorem failsForValue_rollCount (x : α) :
    FailsForValue (rollCount x) := by
  unfold rollCount
  split
  · trivial
  · split
    · trivial
    · trivial

/-- The distance of a rotation is refused for its value. -/
theorem failsForValue_rollShift (count : Nat) (x : α) :
    FailsForValue (rollShift count x) := by
  unfold rollShift
  split
  · trivial
  · split
    · trivial
    · trivial

/-- An index fails only for the value of the operand. -/
theorem failsForValue_index (size : Nat) (operand : α) :
    FailsForValue (Subroutine.index size operand) := by
  unfold Subroutine.index
  split
  · trivial
  · simp only
    split
    · trivial
    · trivial

/-- Computing moves as many operands as the operator does. -/
theorem computes_compute (op : StackOperator) (s : State α) :
    s.Computes op.popped op.pushed (State.compute op s) := by
  cases op with
  | abs | neg | sqrt | not =>
    simp only [compute]
    exact computes_unary _ s
  | add | sub | mul | div | and | or | eq =>
    simp only [compute]
    exact computes_binary _ s
  | ifelse =>
    exact s.computes_pop2.bind fun _ h => (computes_pop2 _).bind fun _ h' => (h.trans h').push _
  | drop => exact s.computes_pop.bind fun _ h => h
  | dup => exact (failsForOperands_peek 0 _).bind fun x _ => computes_push x s
  | exch => exact s.computes_pop2.bind fun _ h => (h.push _).bind fun _ h' => h'.push _
  | index =>
    exact s.computes_pop.bind fun _ h => (failsForOperands_peekDepth _).bind fun _ _ =>
      (failsForOperands_peek _ _).bind fun x _ => h.push x
  | roll =>
    refine s.computes_pop2.bind fun _ h => (failsForValue_rollCount _).forOperands.bind fun _ _ =>
      (failsForValue_rollShift _ _).forOperands.bind fun _ _ =>
        (size_roll _ _ _).bind fun rolled hsize => ?_
    exact ⟨(congrArg (· + 2) hsize).trans h.size, h.hints, h.outline⟩
  | put =>
    exact s.computes_pop2.bind fun _ h =>
      (failsForValue_transientIndex _).forOperands.bind fun _ _ => ⟨h.size, h.hints, h.outline⟩
  | get =>
    refine s.computes_pop.bind fun read h =>
      (failsForValue_transientIndex _).forOperands.bind fun i _ => ?_
    split
    · exact h.push _
    · trivial
  | random =>
    have hdrawn : s.Moves 0 0 { s with random := (s.random.draw (α := α)).2 } := ⟨rfl, rfl, rfl⟩
    exact hdrawn.push _

/-- Only two of the operators that compute change more than operands: one stores a value, the other
draws a random number. -/
theorem movesOperands_compute {op : StackOperator} (hput : op ≠ .put) (hrandom : op ≠ .random)
    (s : State α) : s.MovesOperands (State.compute op s) := by
  cases op with
  | abs | neg | sqrt | not =>
    simp only [compute]
    exact s.movesOperands_pop.bind fun _ h => movesOperands_push_of_eq h _
  | add | sub | mul | div | and | or | eq =>
    simp only [compute]
    exact s.movesOperands_pop2.bind fun _ h => movesOperands_push_of_eq h _
  | ifelse =>
    refine s.movesOperands_pop2.bind ?_
    rintro ⟨v1, v2, _⟩ ⟨stack, rfl⟩
    exact (movesOperands_pop2 { s with stack }).bind fun _ h => movesOperands_push_of_eq h _
  | drop => exact s.movesOperands_pop.bind fun _ h => h
  | dup => exact (Satisfies.any _).bind fun x _ => s.movesOperands_push x
  | exch =>
    refine s.movesOperands_pop2.bind ?_
    rintro ⟨a, b, _⟩ ⟨stack, rfl⟩
    exact (movesOperands_push b { s with stack }).bind fun _ h => movesOperands_push_of_eq h a
  | index =>
    exact s.movesOperands_pop.bind fun _ h => (Satisfies.any _).bind fun _ _ =>
      (Satisfies.any _).bind fun x _ => movesOperands_push_of_eq h x
  | roll =>
    refine s.movesOperands_pop2.bind ?_
    rintro ⟨n, j, _⟩ ⟨stack, rfl⟩
    exact (Satisfies.any _).bind fun _ _ => (Satisfies.any _).bind fun _ _ =>
      (Satisfies.any _).bind fun rolled _ => ⟨rolled, rfl⟩
  | get =>
    refine s.movesOperands_pop.bind fun _ h => (Satisfies.any _).bind fun _ _ => ?_
    split
    · exact movesOperands_push_of_eq h _
    · trivial
  | put => exact absurd rfl hput
  | random => exact absurd rfl hrandom

/-- Popping the number of a subroutine changes the stack and nothing else. -/
theorem movesOperands_popIndex (size : Nat) (s : State α) :
    Satisfies (fun p : Nat × State α => ∃ stack, p.2 = { s with stack }) (fun _ => True)
      (s.popIndex size) :=
  s.movesOperands_pop.bind fun _ h => (Satisfies.any _).bind fun _ _ => h

/-- Drawing uses up the operands, and changes nothing else than the outline. -/
theorem exists_of_drawPath {op : PathOperator} {s' : State α} (h : s.drawPath op = .ok s') :
    ∃ path, s' = { s with outline := s.outline.draw path, stack := .empty } := by
  unfold drawPath at h
  split at h
  · cases h
  · next path _ =>
    cases h
    exact ⟨path, rfl⟩

/-- Drawing fails only for the number of operands. -/
theorem failsForCount_drawPath (op : PathOperator) (s : State α) :
    FailsForCount (s.drawPath op) := by
  have hsteps := op.failsForCount_steps s.stack.toList
  unfold drawPath
  generalize op.steps s.stack.toList = path at hsteps ⊢
  cases path with
  | ok path => trivial
  | error e => exact hsteps

/-- Drawing fails only for the operands. -/
theorem failsForOperands_drawPath (op : PathOperator) (s : State α) :
    FailsForOperands (s.drawPath op) :=
  (s.failsForCount_drawPath op).forOperands

/-- Popping the operand of a call does nothing else. -/
theorem computes_popIndex (size : Nat) (s : State α) : s.ComputesWith 1 0 (s.popIndex size) :=
  s.computes_pop.bind fun _ h => (failsForValue_index size _).forOperands.bind fun _ _ => h

omit [Scalar α] in
/-- Pushing an operand leaves the outline alone. -/
theorem keeps_push (x : α) (h : s.outline = outline) : Keeps outline (s.push x) :=
  ((computes_push x s).mono fun _ hmoves => hmoves.outline.trans h).widen fun _ =>
    Error.OfOperands.isExecution

/-- Computing leaves the outline alone. -/
theorem keeps_compute (op : StackOperator) (h : s.outline = outline) :
    Keeps outline (State.compute op s) :=
  ((computes_compute op s).mono fun _ hmoves => hmoves.outline.trans h).widen fun _ =>
    Error.OfOperands.isExecution

/-- Popping the operand of a call leaves the outline alone. -/
theorem keeps_popIndex (size : Nat) (h : s.outline = outline) :
    KeepsWith outline (s.popIndex size) :=
  ((computes_popIndex size s).mono fun _ hmoves => hmoves.outline.trans h).widen fun _ =>
    Error.OfOperands.isExecution

end State

end FontMetrics.Charstring
