import FontMetrics.Charstring.Instruction
import FontMetrics.Charstring.Subroutine

/-!
# Control flow

How an execution moves through the code: which instruction comes next, how subroutines are called
and left, and when the glyph ends.  The effect of the instructions on the data is a parameter, a
`Semantics`, so that statements about control flow hold whatever the operators do.

A configuration stands between two instructions.  It holds the bytes that are left of the running
charstring and, innermost first, of the callers that wait for it.  `step` executes one instruction;
`run` executes instructions until the glyph ends, as long as its budget lasts.  Because every
instruction costs one unit of the budget, an execution always comes to an end.
-/

namespace FontMetrics.Charstring

/-- What instructions do to the data of an execution. -/
structure Semantics (σ : Type) where
  /-- Pushes a number. -/
  number : Fixed → σ → Except Error σ
  /-- Counts the operands as stem hints. -/
  declareHints : σ → σ
  /-- The number of bytes of a mask. -/
  maskLength : σ → Nat
  /-- Moves the pen or draws. -/
  path : PathOperator → σ → Except Error σ
  /-- Computes. -/
  compute : StackOperator → σ → Except Error σ
  /-- Pops the operand of a call into a table of the given size: an index into the table. -/
  popIndex : Nat → σ → Except Error (Nat × σ)
  /-- Removes the operands at the end of the glyph. -/
  clear : σ → σ

/-- A place in the code and the data there, between two instructions. -/
structure Config (σ : Type) where
  /-- The rest of the running charstring. -/
  code : Bytes
  /-- The rest of each suspended caller, innermost first. -/
  callers : List Bytes
  /-- The data. -/
  data : σ

/-- The start of a subroutine. -/
structure Call where
  /-- The table of the subroutine. -/
  scope : SubroutineScope
  /-- Its index in the table. -/
  index : Nat
  /-- How many callers wait for it. -/
  depth : Nat
  deriving DecidableEq, Repr

/-- What executing an instruction leads to. -/
inductive Transition (σ : Type) where
  /-- The execution goes on, perhaps in a subroutine that was just called. -/
  | next (called : Option Call) (config : Config σ)
  /-- The glyph has ended. -/
  | done (data : σ)
  /-- The execution has failed. -/
  | fail (error : Error)

namespace Config

variable {σ : Type}

/-- How many callers wait. -/
def depth (c : Config σ) : Nat := c.callers.length

/-- The configuration at the start of a glyph. -/
def start (code : Bytes) (data : σ) : Config σ := ⟨code, [], data⟩

/-- The running charstring, or the innermost caller, that has bytes left, and the callers that wait
for it. -/
def resume : Bytes → List Bytes → Option (Bytes × List Bytes)
  | [], [] => none
  | [], caller :: callers => resume caller callers
  | byte :: code, callers => some (byte :: code, callers)

/-- No instruction is left, in the running charstring or in a caller. -/
def isFinished (c : Config σ) : Bool := (resume c.code c.callers).isNone

/-- Goes on with new data, unless there was an error. -/
def continueWith (c : Config σ) : Except Error σ → Transition σ
  | .ok data => .next none { c with data }
  | .error e => .fail e

end Config

namespace Semantics

variable {σ : Type} (sem : Semantics σ) (subroutines : Subroutines)

/-- Passes over the mask that follows a mask operator. -/
def skipMask (c : Config σ) : Transition σ :=
  let data := sem.declareHints c.data
  match Bytes.slice (sem.maskLength data) c.code with
  | .error e => .fail (.data e)
  | .ok (_, code) => .next none { c with code, data }

/-- Calls a subroutine, unless `nestingLimit` callers are waiting already. -/
def call (nestingLimit : Option Nat) (scope : SubroutineScope) (c : Config σ) : Transition σ :=
  match subroutines.table scope with
  | .error e => .fail e
  | .ok table =>
    if nestingLimit = some c.depth then .fail .nestingLimit
    else match sem.popIndex table.size c.data with
      | .error e => .fail e
      | .ok (i, data) =>
        match table[i]? with
        | none => .fail .subroutineIndex
        | some code => .next (some ⟨scope, i, c.depth + 1⟩) ⟨code, c.code :: c.callers, data⟩

/-- Returns to the caller; the glyph itself has none, and ends. -/
def ret (c : Config σ) : Transition σ :=
  match c.callers with
  | [] => .done c.data
  | caller :: callers => .next none ⟨caller, callers, c.data⟩

/-- Executes an instruction that has been read. -/
def execute (nestingLimit : Option Nat) (c : Config σ) : Instruction → Transition σ
  | .number value => c.continueWith (sem.number value c.data)
  | .operator (.stem _) => .next none { c with data := sem.declareHints c.data }
  | .operator (.mask _) => sem.skipMask c
  | .operator (.path op) => c.continueWith (sem.path op c.data)
  | .operator (.stack op) => c.continueWith (sem.compute op c.data)
  | .operator (.call scope) => sem.call subroutines nestingLimit scope c
  | .operator .ret => ret c
  | .operator .endchar => .done (sem.clear c.data)
  | .operator .dotsection => .next none c

/-- Reads and executes the next instruction.  Callers are resumed first where the running charstring
is used up; if nothing is left at all, the glyph has ended. -/
def step (nestingLimit : Option Nat) (c : Config σ) : Transition σ :=
  match Config.resume c.code c.callers with
  | none => .done c.data
  | some (code, callers) =>
    match Instruction.decode code with
    | .error e => .fail e
    | .ok (instruction, rest) =>
      sem.execute subroutines nestingLimit ⟨rest, callers, c.data⟩ instruction

/-- Executes at most `budget` instructions. -/
def run (nestingLimit : Option Nat) : (budget : Nat) → Config σ → Except Error σ
  | 0, c => if c.isFinished then .ok c.data else .error .instructionLimit
  | budget + 1, c =>
    match sem.step subroutines nestingLimit c with
    | .next _ c => run nestingLimit budget c
    | .done data => .ok data
    | .fail e => .error e

/-- The subroutines that `run` calls, the last one first, after those in `earlier`. -/
def calls (nestingLimit : Option Nat) : (budget : Nat) → List Call → Config σ → List Call
  | 0, earlier, _ => earlier
  | budget + 1, earlier, c =>
    match sem.step subroutines nestingLimit c with
    | .next (some call) c => calls nestingLimit budget (call :: earlier) c
    | .next none c => calls nestingLimit budget earlier c
    | _ => earlier

end Semantics

end FontMetrics.Charstring
