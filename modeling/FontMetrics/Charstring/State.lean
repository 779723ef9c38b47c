import Std.Data.HashMap
import FontMetrics.Charstring.OperandStack
import FontMetrics.Charstring.PathOperands
import FontMetrics.Charstring.RandomSource
import FontMetrics.Charstring.Subroutine

/-!
# Execution state

What the instructions of a glyph act on, subroutines included: operands, the number of stem hints,
the transient array, the source of random numbers and the outline drawn so far.
-/

namespace FontMetrics.Charstring

/-- The number of operands that fit on the stack. -/
def stackLimit : Nat := 48

/-- The operand stack of a charstring. -/
abbrev Operands (α : Type) := OperandStack stackLimit α

/-- The state of an execution, but for the place in the code. -/
structure State (α : Type) where
  /-- The operand stack. -/
  stack : Operands α
  /-- The number of stem hints declared so far. -/
  hints : Nat
  /-- The transient array. -/
  transient : Std.HashMap Nat α
  /-- The source of random numbers. -/
  random : RandomSource
  /-- The outline drawn so far. -/
  outline : Outline α

namespace State

variable {α : Type} [Scalar α]

/-- The state in which a glyph starts. -/
def initial : State α where
  stack := .empty
  hints := 0
  transient := ∅
  random := .initial
  outline := .empty

/-- Removes all operands. -/
def clear (s : State α) : State α := { s with stack := .empty }

/-- Pushes an operand. -/
def push (x : α) (s : State α) : Except Error (State α) :=
  match s.stack.push x with
  | .error e => .error e
  | .ok stack => .ok { s with stack }

/-- Pops an operand. -/
def pop (s : State α) : Except Error (α × State α) :=
  match s.stack.pop with
  | .error e => .error e
  | .ok (x, stack) => .ok (x, { s with stack })

/-- Pops two operands; the one pushed first comes first. -/
def pop2 (s : State α) : Except Error (α × α × State α) := do
  let (b, s) ← s.pop
  let (a, s) ← s.pop
  return (a, b, s)

/-- Counts a hint for every two operands and removes them.  An operand left over is the width. -/
def declareHints (s : State α) : State α :=
  { s with hints := s.hints + s.stack.size / 2, stack := .empty }

/-- The number of bytes of a mask over the hints. -/
def maskLength (s : State α) : Nat := (s.hints + 7) / 8

/-- Performs the path that the operands stand for. -/
def drawPath (op : PathOperator) (s : State α) : Except Error (State α) :=
  match op.steps s.stack.toList with
  | .error e => .error e
  | .ok path => .ok { s with outline := s.outline.draw path, stack := .empty }

/-- Replaces one operand by a function of it. -/
def unary (f : α → α) (s : State α) : Except Error (State α) := do
  let (a, s) ← s.pop
  s.push (f a)

/-- Replaces two operands by a function of them. -/
def binary (f : α → α → α) (s : State α) : Except Error (State α) := do
  let (a, b, s) ← s.pop2
  s.push (f a b)

/-- The index into the transient array that an operand stands for. -/
def transientIndex (x : α) : Except Error Nat :=
  match Scalar.truncate x with
  | none => .error .transientIndex
  | some n => if isInt32 n && 0 ≤ n then .ok n.toNat else .error .transientIndex

/-- Stores a value in the transient array. -/
def put (s : State α) : Except Error (State α) := do
  let (value, i, s) ← s.pop2
  let i ← transientIndex i
  return { s with transient := s.transient.insert i value }

/-- Recalls a value from the transient array. -/
def get (s : State α) : Except Error (State α) := do
  let (i, s) ← s.pop
  let i ← transientIndex i
  match s.transient[i]? with
  | some value => s.push value
  | none => .error .transientIndex

/-- The depth below the top that an operand of `index` names; a negative one names the top. -/
def peekDepth (x : α) : Except Error Nat :=
  if Scalar.isLt x Scalar.zero then .ok 0
  else match Scalar.truncate x with
    | some n => .ok n.toNat
    | none => .error .stackUnderflow

/-- Copies an operand from below to the top. -/
def index (s : State α) : Except Error (State α) := do
  let (i, s) ← s.pop
  let depth ← peekDepth i
  let x ← s.stack.peek depth
  s.push x

/-- How many operands `roll` rotates. -/
def rollCount (x : α) : Except Error Nat :=
  match Scalar.truncate x with
  | none => .error .operandCount
  | some n => if isInt32 n && 0 ≤ n then .ok n.toNat else .error .operandCount

/-- By how many places `roll` rotates `count` operands. -/
def rollShift (count : Nat) (x : α) : Except Error Nat :=
  match Scalar.truncate x with
  | none => .error .operandCount
  | some j => if isInt64 j then .ok (j % count).toNat else .error .operandCount

/-- Rotates the operands on the top. -/
def roll (s : State α) : Except Error (State α) := do
  let (n, j, s) ← s.pop2
  let count ← rollCount n
  let shift ← rollShift count j
  let stack ← s.stack.roll count shift
  return { s with stack }

/-- Copies the operand on the top. -/
def dup (s : State α) : Except Error (State α) := do
  let x ← s.stack.peek 0
  s.push x

/-- Exchanges the two operands on the top. -/
def exch (s : State α) : Except Error (State α) := do
  let (a, b, s) ← s.pop2
  let s ← s.push b
  s.push a

/-- Removes the operand on the top. -/
def drop (s : State α) : Except Error (State α) := do
  let (_, s) ← s.pop
  return s

/-- Chooses between two operands by comparing two others. -/
def ifelse (s : State α) : Except Error (State α) := do
  let (v1, v2, s) ← s.pop2
  let (s1, s2, s) ← s.pop2
  s.push (if Scalar.isLe v1 v2 then s1 else s2)

/-- Pushes a random number. -/
def drawRandom (s : State α) : Except Error (State α) :=
  let (x, random) : α × RandomSource := s.random.draw
  State.push x { s with random }

/-- The scalar counts as true in a condition. -/
def isTrue (x : α) : Bool := !Scalar.isEq x Scalar.zero

/-- Performs an operator that computes. -/
def compute (op : StackOperator) (s : State α) : Except Error (State α) :=
  match op with
  | .abs => s.unary Scalar.abs
  | .add => s.binary (· + ·)
  | .sub => s.binary (· - ·)
  | .mul => s.binary (· * ·)
  | .div => s.binary (· / ·)
  | .neg => s.unary (-·)
  | .sqrt => s.unary Scalar.sqrt
  | .and => s.binary fun a b => Scalar.ofBool (isTrue a && isTrue b)
  | .or => s.binary fun a b => Scalar.ofBool (isTrue a || isTrue b)
  | .not => s.unary fun a => Scalar.ofBool (!isTrue a)
  | .eq => s.binary fun a b => Scalar.ofBool (Scalar.isEq a b)
  | .ifelse => s.ifelse
  | .drop => s.drop
  | .dup => s.dup
  | .exch => s.exch
  | .index => s.index
  | .roll => s.roll
  | .put => s.put
  | .get => s.get
  | .random => s.drawRandom

/-- Pops the operand of a call into a table of `size` subroutines. -/
def popIndex (size : Nat) (s : State α) : Except Error (Nat × State α) := do
  let (operand, s) ← s.pop
  let i ← Subroutine.index size operand
  return (i, s)

end State

end FontMetrics.Charstring
