import FontMetrics.Charstring.Bounds
import FontMetrics.Proofs.Checked.OperandStack
import FontMetrics.Proofs.Checked.Path

/-!
# Instructions on an operand stack in an array

The effects of the instructions when operands are kept in an array and hints are counted in a word
of 32 bits.  Conversions of operands are total and taken over as they are; it is what is done with
the converted numbers that has a domain: the rotation of `roll`, the division by which its distance
is reduced, and the sum of the hints.
-/

namespace FontMetrics.Charstring

/-- The state of an execution, with operands in an array. -/
structure CheckedState (α : Type) where
  /-- The operand stack. -/
  stack : ArrayStack α
  /-- The number of stem hints declared so far. -/
  hints : Nat
  /-- The transient array. -/
  transient : Std.HashMap Nat α
  /-- The source of random numbers. -/
  random : RandomSource
  /-- The outline drawn so far. -/
  outline : Outline α

namespace CheckedState

variable {α : Type}

/-- The array holds the operands; nothing else differs. -/
structure Represents (s : CheckedState α) (t : State α) : Prop where
  stack : s.stack.Holds t.stack
  hints : s.hints = t.hints
  transient : s.transient = t.transient
  random : s.random = t.random
  outline : s.outline = t.outline

/-- The values are the same, and the states too but for the array. -/
def RepresentsWith {β : Type} (p : β × CheckedState α) (q : β × State α) : Prop :=
  p.1 = q.1 ∧ p.2.Represents q.2

variable {s : CheckedState α} {t : State α}

/-- Operands that are held take the place of others. -/
theorem Represents.withStack (h : s.Represents t) {stack : ArrayStack α} {operands : Operands α}
    (hstack : stack.Holds operands) :
    ({ s with stack } : CheckedState α).Represents { t with stack := operands } :=
  ⟨hstack, h.hints, h.transient, h.random, h.outline⟩

/-- Removes all operands. -/
def clear (s : CheckedState α) : CheckedState α := { s with stack := s.stack.clear }

/-- Removing all operands from the array empties the stack. -/
theorem Represents.clear (h : s.Represents t) : s.clear.Represents t.clear :=
  h.withStack h.stack.clear

/-- Pushes an operand. -/
def push (x : α) (s : CheckedState α) : Checked Error (CheckedState α) := do
  let stack ← s.stack.push x
  return { s with stack }

/-- Pushing on the array pushes on the stack, or overflows with it. -/
theorem agrees_push (h : s.Represents t) (x : α) :
    Checked.Agrees Represents (s.push x) (t.push x) := by
  have hpush : t.push x = (do let stack ← t.stack.push x; .ok { t with stack }) := by
    unfold State.push
    cases t.stack.push x <;> rfl
  rw [hpush]
  refine (ArrayStack.agrees_push h.stack x).bind ?_
  intro stack operands hstack
  exact .ok (h.withStack hstack)

/-- Pops an operand. -/
def pop (s : CheckedState α) : Checked Error (α × CheckedState α) := do
  let (x, stack) ← s.stack.pop
  return (x, { s with stack })

/-- Popping from the array gives the operand on the top, or underflows with the stack. -/
private theorem agrees_pop (h : s.Represents t) : Checked.Agrees RepresentsWith s.pop t.pop := by
  have hpop : t.pop = (do let (x, stack) ← t.stack.pop; .ok (x, { t with stack })) := by
    unfold State.pop
    cases t.stack.pop <;> rfl
  rw [hpop]
  refine (ArrayStack.agrees_pop h.stack).bind ?_
  rintro ⟨x, stack⟩ ⟨_, operands⟩ ⟨rfl, hstack⟩
  exact .ok ⟨rfl, h.withStack hstack⟩

/-- Pops two operands; the one pushed first comes first. -/
def pop2 (s : CheckedState α) : Checked Error (α × α × CheckedState α) := do
  let (b, s) ← s.pop
  let (a, s) ← s.pop
  return (a, b, s)

private theorem agrees_pop2 (h : s.Represents t) :
    Checked.Agrees (fun p q => p.1 = q.1 ∧ RepresentsWith p.2 q.2) s.pop2 t.pop2 :=
  (agrees_pop h).bind fun _ _ hb => (agrees_pop hb.2).bind fun _ _ ha => .ok ⟨ha.1, hb.1, ha.2⟩

/-- Replaces one operand by a function of it. -/
def unary (f : α → α) (s : CheckedState α) : Checked Error (CheckedState α) := do
  let (a, s) ← s.pop
  s.push (f a)

/-- The result fits where the operand was. -/
private theorem agrees_unary (h : s.Represents t) (f : α → α) :
    Checked.Agrees Represents (s.unary f) (t.unary f) := by
  refine (agrees_pop h).bind ?_
  rintro ⟨a, s⟩ ⟨_, t⟩ ⟨rfl, h⟩
  exact agrees_push h (f a)

/-- Replaces two operands by a function of them. -/
def binary (f : α → α → α) (s : CheckedState α) : Checked Error (CheckedState α) := do
  let (a, b, s) ← s.pop2
  s.push (f a b)

/-- The result fits where the lower of the two operands was. -/
private theorem agrees_binary (h : s.Represents t) (f : α → α → α) :
    Checked.Agrees Represents (s.binary f) (t.binary f) := by
  refine (agrees_pop2 h).bind ?_
  rintro ⟨a, b, s⟩ ⟨_, _, t⟩ ⟨rfl, rfl, h⟩
  exact agrees_push h (f a b)

/-- Copies the operand on the top. -/
def dup (s : CheckedState α) : Checked Error (CheckedState α) := do
  let x ← s.stack.peek 0
  s.push x

/-- There may be no room for the copy, but no access leaves the array. -/
private theorem agrees_dup (h : s.Represents t) : Checked.Agrees Represents s.dup t.dup := by
  refine (ArrayStack.agrees_peek h.stack 0).bind ?_
  rintro x _ rfl
  exact agrees_push h x

/-- Exchanges the two operands on the top. -/
def exch (s : CheckedState α) : Checked Error (CheckedState α) := do
  let (a, b, s) ← s.pop2
  let s ← s.push b
  s.push a

/-- The two operands are pushed where they have been popped. -/
private theorem agrees_exch (h : s.Represents t) : Checked.Agrees Represents s.exch t.exch := by
  refine (agrees_pop2 h).bind ?_
  rintro ⟨a, b, s⟩ ⟨_, _, t⟩ ⟨rfl, rfl, h⟩
  refine (agrees_push h b).bind ?_
  intro s t h
  exact agrees_push h a

/-- Removes the operand on the top. -/
def drop (s : CheckedState α) : Checked Error (CheckedState α) := do
  let (_, s) ← s.pop
  return s

private theorem agrees_drop (h : s.Represents t) : Checked.Agrees Represents s.drop t.drop :=
  (agrees_pop h).bind fun _ _ hpop => .ok hpop.2

/-- Counts a hint for every two operands and removes them. -/
def declareHints (s : CheckedState α) : Checked Error (CheckedState α) := do
  let hints ← Checked.add 32 s.hints (s.stack.len / 2)
  return { s with hints, stack := s.stack.clear }

/-- The sum of the hints fits into its word as long as few of them have been declared. -/
theorem declareHints_represents (h : s.Represents t)
    (hhints : t.hints + t.stack.size / 2 < Nat.pow 2 32) :
    ∃ s', s.declareHints = pure s' ∧ s'.Represents t.declareHints := by
  have hlen := h.stack.len_eq
  rw [declareHints, h.hints, hlen, Checked.add_eq hhints, pure_bind]
  exact ⟨_, rfl, h.stack.clear, rfl, h.transient, h.random, h.outline⟩

variable [Scalar α]

/-- The state in which a glyph starts. -/
def initial : CheckedState α where
  stack := .new (List.replicate stackLimit Scalar.zero)
  hints := 0
  transient := ∅
  random := .initial
  outline := .empty

/-- An execution starts with an empty array. -/
theorem represents_initial : (initial : CheckedState α).Represents .initial :=
  ⟨ArrayStack.holds_new (List.length_replicate ..), rfl, rfl, rfl, rfl⟩

/-- Performs the path that the operands stand for. -/
def drawPath (op : PathOperator) (s : CheckedState α) : Checked Error (CheckedState α) := do
  let operands ← s.stack.all
  let r ← PathReader.path op ⟨operands, 0, s.outline⟩
  return { s with outline := r.outline, stack := s.stack.clear }

/-- Path operators read the operands in the array from the bottom, draw, and remove them. -/
theorem agrees_drawPath (h : s.Represents t) (op : PathOperator) :
    Checked.Agrees Represents (s.drawPath op) (t.drawPath op) := by
  have hdraws := PathReader.draws_path op t.stack.toList t.outline
  have hsteps : t.drawPath op = (do
      let path ← op.steps t.stack.toList
      .ok { t with outline := t.outline.draw path, stack := .empty }) := by
    unfold State.drawPath
    cases op.steps t.stack.toList <;> rfl
  rw [drawPath, ArrayStack.all_eq h.stack, pure_bind, h.outline, hsteps]
  refine Checked.Agrees.bind hdraws ?_
  intro r path hr
  exact .ok ⟨h.stack.clear, h.hints, h.transient, h.random, hr⟩

/-- Stores a value in the transient array. -/
def put (s : CheckedState α) : Checked Error (CheckedState α) := do
  let (value, i, s) ← s.pop2
  let i ← State.transientIndex i
  return { s with transient := s.transient.insert i value }

/-- A number is stored without an access to the array: its index has been checked as a number. -/
private theorem agrees_put (h : s.Represents t) : Checked.Agrees Represents s.put t.put := by
  refine (agrees_pop2 h).bind ?_
  rintro ⟨value, i, s⟩ ⟨_, _, t⟩ ⟨rfl, rfl, h⟩
  refine (Checked.Agrees.lift (State.transientIndex i)).bind ?_
  rintro i _ rfl
  exact .ok ⟨h.stack, h.hints, congrArg (·.insert i value) h.transient, h.random, h.outline⟩

/-- Recalls a value from the transient array. -/
def get (s : CheckedState α) : Checked Error (CheckedState α) := do
  let (i, s) ← s.pop
  let i ← State.transientIndex i
  match s.transient[i]? with
  | some value => s.push value
  | none => throw .transientIndex

private theorem agrees_get (h : s.Represents t) : Checked.Agrees Represents s.get t.get := by
  refine (agrees_pop h).bind ?_
  rintro ⟨i, s⟩ ⟨_, t⟩ ⟨rfl, h⟩
  refine (Checked.Agrees.lift (State.transientIndex i)).bind ?_
  rintro i _ rfl
  rw [h.transient]
  cases t.transient[i]? with
  | none => exact .error _
  | some value => exact agrees_push h value

/-- Copies an operand from below to the top. -/
def index (s : CheckedState α) : Checked Error (CheckedState α) := do
  let (i, s) ← s.pop
  let depth ← State.peekDepth i
  let x ← s.stack.peek depth
  s.push x

/-- No index makes the copy of an operand be read outside the array. -/
private theorem agrees_index (h : s.Represents t) : Checked.Agrees Represents s.index t.index := by
  refine (agrees_pop h).bind ?_
  rintro ⟨i, s⟩ ⟨_, t⟩ ⟨rfl, h⟩
  refine (Checked.Agrees.lift (State.peekDepth i)).bind ?_
  rintro depth _ rfl
  refine (ArrayStack.agrees_peek h.stack depth).bind ?_
  rintro x _ rfl
  exact agrees_push h x

/-- By how many places `roll` rotates `count` operands. -/
def rollShift (count : Nat) (x : α) : Checked Error Nat :=
  match Scalar.truncate x with
  | none => throw .operandCount
  | some j =>
    if isInt64 j then
      if count = 0 then
        return 0
      else do
        let shift ← Checked.remainder 64 j count
        return shift.toNat
    else
      throw .operandCount

/-- The distance of a rotation is reduced by a positive count, or not at all. -/
theorem agrees_rollShift (count : Nat) (x : α) :
    Checked.Agrees (fun shift shift' => count ≠ 0 → shift = shift') (rollShift count x)
      (State.rollShift count x) := by
  unfold rollShift State.rollShift
  cases Scalar.truncate x with
  | none => exact .error _
  | some j =>
    dsimp only
    by_cases hj : isInt64 j = true
    · rw [if_pos hj, if_pos hj]
      by_cases hcount : count = 0
      · rw [if_pos hcount]
        exact .ok fun hne => absurd hcount hne
      · rw [if_neg hcount, Checked.remainder_eq (by omega), pure_bind]
        exact .ok fun _ => rfl
    · rw [if_neg hj, if_neg hj]
      exact .error _

/-- Rotates the operands on the top. -/
def roll (s : CheckedState α) : Checked Error (CheckedState α) := do
  let (n, j, s) ← s.pop2
  let count ← State.rollCount n
  let shift ← rollShift count j
  let stack ← s.stack.roll count shift
  return { s with stack }

/-- Rotating moves no operand out of the array, for any count and distance. -/
private theorem agrees_roll (h : s.Represents t) : Checked.Agrees Represents s.roll t.roll := by
  refine (agrees_pop2 h).bind ?_
  rintro ⟨n, j, s⟩ ⟨_, _, t⟩ ⟨rfl, rfl, h⟩
  refine (Checked.Agrees.lift (State.rollCount n)).bind ?_
  rintro count _ rfl
  refine (agrees_rollShift count j).bind ?_
  intro shift shift' hshift
  have hroll : t.stack.roll count shift' = t.stack.roll count shift := by
    by_cases hcount : count = 0
    · subst hcount
      rfl
    · rw [hshift hcount]
  rw [hroll]
  refine (ArrayStack.agrees_roll h.stack count shift).bind ?_
  intro stack operands hstack
  exact .ok (h.withStack hstack)

/-- Chooses between two operands by comparing two others. -/
def ifelse (s : CheckedState α) : Checked Error (CheckedState α) := do
  let (v1, v2, s) ← s.pop2
  let (s1, s2, s) ← s.pop2
  s.push (if Scalar.isLe v1 v2 then s1 else s2)

/-- One of two operands is pushed where four have been popped. -/
private theorem agrees_ifelse (h : s.Represents t) :
    Checked.Agrees Represents s.ifelse t.ifelse := by
  refine (agrees_pop2 h).bind ?_
  rintro ⟨v1, v2, s⟩ ⟨_, _, t⟩ ⟨rfl, rfl, h⟩
  refine (agrees_pop2 h).bind ?_
  rintro ⟨s1, s2, s⟩ ⟨_, _, t⟩ ⟨rfl, rfl, h⟩
  exact agrees_push h _

/-- Pushes a random number. -/
def drawRandom (s : CheckedState α) : Checked Error (CheckedState α) :=
  let (x, random) : α × RandomSource := s.random.draw
  push x { s with random }

private theorem agrees_drawRandom (h : s.Represents t) :
    Checked.Agrees Represents s.drawRandom t.drawRandom := by
  unfold drawRandom State.drawRandom
  rw [h.random]
  have hdrawn : ({ s with random := (t.random.draw (α := α)).2 } : CheckedState α).Represents
      { t with random := (t.random.draw (α := α)).2 } :=
    ⟨h.stack, h.hints, h.transient, rfl, h.outline⟩
  exact agrees_push hdrawn _

/-- Performs an operator that computes. -/
def compute (op : StackOperator) (s : CheckedState α) : Checked Error (CheckedState α) :=
  match op with
  | .abs => s.unary Scalar.abs
  | .add => s.binary (· + ·)
  | .sub => s.binary (· - ·)
  | .mul => s.binary (· * ·)
  | .div => s.binary (· / ·)
  | .neg => s.unary (-·)
  | .sqrt => s.unary Scalar.sqrt
  | .and => s.binary fun a b => Scalar.ofBool (State.isTrue a && State.isTrue b)
  | .or => s.binary fun a b => Scalar.ofBool (State.isTrue a || State.isTrue b)
  | .not => s.unary fun a => Scalar.ofBool (!State.isTrue a)
  | .eq => s.binary fun a b => Scalar.ofBool (Scalar.isEq a b)
  | .ifelse => s.ifelse
  | .drop => s.drop
  | .dup => s.dup
  | .exch => s.exch
  | .index => s.index
  | .roll => s.roll
  | .put => s.put
  | .get => s.get
  | .random => s.drawRandom

/-- Operators that compute do so without a fault, whatever the operands are. -/
theorem agrees_compute (h : s.Represents t) (op : StackOperator) :
    Checked.Agrees Represents (s.compute op) (t.compute op) := by
  unfold compute State.compute
  cases op with
  | abs | neg | sqrt | not => exact agrees_unary h _
  | add | sub | mul | div | and | or | eq => exact agrees_binary h _
  | ifelse => exact agrees_ifelse h
  | drop => exact agrees_drop h
  | dup => exact agrees_dup h
  | exch => exact agrees_exch h
  | index => exact agrees_index h
  | roll => exact agrees_roll h
  | put => exact agrees_put h
  | get => exact agrees_get h
  | random => exact agrees_drawRandom h

/-- Pops the operand of a call into a table of `size` subroutines. -/
def popIndex (size : Nat) (s : CheckedState α) : Checked Error (Nat × CheckedState α) := do
  let (operand, s) ← s.pop
  let i ← Subroutine.index size operand
  return (i, s)

/-- The operand of a call is popped, and names a subroutine for both or for neither. -/
theorem agrees_popIndex (h : s.Represents t) (size : Nat) :
    Checked.Agrees RepresentsWith (s.popIndex size) (t.popIndex size) := by
  refine (agrees_pop h).bind ?_
  rintro ⟨operand, s⟩ ⟨_, t⟩ ⟨rfl, h⟩
  refine (Checked.Agrees.lift (Subroutine.index size operand)).bind ?_
  rintro i _ rfl
  exact .ok ⟨rfl, h⟩

end CheckedState

end FontMetrics.Charstring
