import FontMetrics.Proofs.Charstring.Invariant
import FontMetrics.Proofs.Checked.Decoder
import FontMetrics.Proofs.Checked.State

/-!
# Executions without faults

The execution of a glyph in which every operation checks that it is used inside its domain: operands
are in an array, path operators take them one by one, bytes are read with a cursor, curves are
measured in buffers of fixed size, hints and the depth of subroutines are counted in words of 32 and
8 bits.

It never faults, and its result is that of `glyphBounds`, for all charstrings and subroutines.  The
domains of most operations are guarded by tests next to them.  Two bounds are not: that on the hints
is paid for by the budget for instructions, and that on the depth is the limit on nesting.
-/

namespace FontMetrics.Charstring

/-- A charstring that is being executed. -/
structure Frame where
  /-- The place in its code. -/
  cursor : Bytes.Cursor
  /-- How many callers wait for it. -/
  depth : Nat

/-- A place in the code and the state there, between two instructions. -/
structure CheckedConfig (α : Type) where
  /-- The running charstring. -/
  running : Frame
  /-- The suspended callers, innermost first. -/
  callers : List Frame
  /-- How many instructions may still be executed. -/
  budget : Nat
  /-- The state. -/
  state : CheckedState α

namespace CheckedConfig

variable {α : Type}

/-- The running charstring, or the innermost caller, that has bytes left, and the callers that wait
for it. -/
def resume : Frame → List Frame → Option (Frame × List Frame)
  | running, [] => if running.cursor.bytesAvailable then some (running, []) else none
  | running, caller :: callers =>
    if running.cursor.bytesAvailable then some (running, caller :: callers)
    else resume caller callers

/-- Every charstring is as deep as callers wait for it. -/
def Nested : List Frame → Prop
  | [] => True
  | frame :: callers => frame.depth = callers.length ∧ Nested callers

/-- Both executions find bytes left at the same place, or nowhere. -/
theorem resume_eq : ∀ (running : Frame) (callers : List Frame), Nested (running :: callers) →
    (resume running callers = none ∧
      Config.resume running.cursor.rest (callers.map (·.cursor.rest)) = none) ∨
    ∃ running' callers', resume running callers = some (running', callers') ∧
      Config.resume running.cursor.rest (callers.map (·.cursor.rest)) =
        some (running'.cursor.rest, callers'.map (·.cursor.rest)) ∧
      Nested (running' :: callers') ∧ callers'.length ≤ callers.length
  | running, callers, h => by
    by_cases hrest : running.cursor.rest = []
    · have havailable : running.cursor.bytesAvailable = false := by
        have hlength := running.cursor.length_rest
        rw [hrest, List.length_nil] at hlength
        simp only [Bytes.Cursor.bytesAvailable, decide_eq_false_iff_not]
        omega
      cases callers with
      | nil =>
        left
        simp [resume, havailable, hrest, Config.resume]
      | cons caller callers =>
        rcases resume_eq caller callers h.2 with hnone | ⟨running', callers', hsome⟩
        · left
          simpa [resume, havailable, hrest, Config.resume] using hnone
        · right
          refine ⟨running', callers', ?_⟩
          obtain ⟨hresume, hbytes, hnested, hle⟩ := hsome
          refine ⟨?_, ?_, hnested, Nat.le_succ_of_le hle⟩
          · simpa [resume, havailable] using hresume
          · simpa [hrest, Config.resume] using hbytes
    · right
      have havailable : running.cursor.bytesAvailable = true := by
        have hlength := running.cursor.length_rest
        have hpos := List.length_pos_iff.mpr hrest
        simp only [Bytes.Cursor.bytesAvailable, decide_eq_true_eq]
        omega
      refine ⟨running, callers, ?_, Config.resume_of_ne_nil _ hrest, h, le_rfl⟩
      cases callers <;> simp [resume, havailable]

/-- The same place in the code, with the same state. -/
structure Represents (c : CheckedConfig α) (d : Config (State α)) : Prop where
  code : c.running.cursor.rest = d.code
  callers : c.callers.map (·.cursor.rest) = d.callers
  nested : Nested (c.running :: c.callers)
  state : c.state.Represents d.data

/-- What one instruction leads to is the same, within a budget. -/
inductive Follows (budget : Nat) : Checked Error (ForInStep (CheckedConfig α)) →
    Transition (State α) → Prop
  | next {c : CheckedConfig α} {d : Config (State α)} (called : Option Call) (h : c.Represents d)
    (hbudget : c.budget = budget) : Follows budget (pure (.yield c)) (.next called d)
  | done {c : CheckedConfig α} {data : State α} (h : c.state.Represents data) :
    Follows budget (pure (.done c)) (.done data)
  | fail (e : Error) : Follows budget (throw e) (.fail e)

variable {c : CheckedConfig α} {d : Config (State α)}

/-- The depth of the running charstring is how many callers wait. -/
theorem Represents.depth_eq (h : c.Represents d) : c.running.depth = d.depth := by
  rw [h.nested.1, Config.depth, ← h.callers, List.length_map]

/-- A new state that is represented takes the place of the old one. -/
theorem Represents.withState (h : c.Represents d) {state : CheckedState α} {data : State α}
    (hstate : state.Represents data) :
    ({ c with state } : CheckedConfig α).Represents { d with data } :=
  ⟨h.code, h.callers, h.nested, hstate⟩

/-- Goes on with a new state. -/
def continueWith (c : CheckedConfig α) (x : Checked Error (CheckedState α)) :
    Checked Error (ForInStep (CheckedConfig α)) := do
  let state ← x
  return .yield { c with state }

/-- The execution goes on alike with states that agree. -/
private theorem follows_continueWith (h : c.Represents d) {x : Checked Error (CheckedState α)}
    {y : Except Error (State α)} (hxy : Checked.Agrees CheckedState.Represents x y) :
    Follows c.budget (c.continueWith x) (d.continueWith y) := by
  cases hxy with
  | ok hstate => exact .next none (h.withState hstate) rfl
  | error e => exact .fail e

/-- Returns to the caller; the glyph itself has none, and ends. -/
def ret (c : CheckedConfig α) : ForInStep (CheckedConfig α) :=
  match c.callers with
  | [] => .done c
  | caller :: callers => .yield { c with running := caller, callers }

/-- Returning resumes the same caller, or ends both executions. -/
private theorem follows_ret (h : c.Represents d) :
    Follows c.budget (pure c.ret) (Semantics.ret d) := by
  have hcallers := h.callers
  unfold ret Semantics.ret
  cases hc : c.callers with
  | nil =>
    rw [hc] at hcallers
    rw [← hcallers]
    exact .done h.state
  | cons caller callers =>
    rw [hc, List.map_cons] at hcallers
    rw [← hcallers]
    have hnested := h.nested.2
    rw [hc] at hnested
    exact .next none ⟨rfl, rfl, hnested, h.state⟩ rfl

variable [Scalar α] (subroutines : Subroutines)

/-- Passes over the mask that follows a mask operator. -/
def skipMask (c : CheckedConfig α) : Checked Error (ForInStep (CheckedConfig α)) := do
  let state ← c.state.declareHints
  let bits ← Checked.add 64 state.hints 7
  let (_, cursor) ← c.running.cursor.readSlice (bits / 8)
  return .yield { c with running := { c.running with cursor }, state }

/-- As many bytes are skipped as the hints need, and their number fits into its word. -/
private theorem follows_skipMask (h : c.Represents d)
    (hhints : 2 * d.data.hints + d.data.stack.size ≤ instructionLimit) :
    Follows c.budget c.skipMask (State.semantics.skipMask d) := by
  have hword : instructionLimit < Nat.pow 2 32 := by decide
  have hlong : instructionLimit + 7 < Nat.pow 2 64 := by decide
  obtain ⟨state, hdeclare, hstate⟩ :=
    CheckedState.declareHints_represents h.state (by omega)
  have htotal : state.hints = d.data.hints + d.data.stack.size / 2 := hstate.hints
  have hread := Bytes.Cursor.agrees_readSlice c.running.cursor (d.data.declareHints.maskLength)
  have hlength : (state.hints + 7) / 8 = d.data.declareHints.maskLength := by
    rw [htotal]
    rfl
  rw [skipMask, hdeclare, pure_bind, Checked.add_eq (by omega), pure_bind, hlength]
  rw [h.code] at hread
  simp only [Semantics.skipMask, State.semantics]
  rcases hread.ok_or_error with ⟨p, q, hx, hy, hfollows⟩ | ⟨e, hx, hy⟩
  · cases hslice : Bytes.slice d.data.declareHints.maskLength d.code with
    | error e => rw [hslice] at hy; cases hy
    | ok taken =>
      rw [hslice] at hy
      cases hy
      rw [hx, pure_bind]
      exact .next none ⟨hfollows.2, h.callers, h.nested, hstate⟩ rfl
  · cases hslice : Bytes.slice d.data.declareHints.maskLength d.code with
    | error e =>
      rw [hslice] at hy
      cases hy
      rw [hx, Checked.throw_bind]
      exact .fail _
    | ok taken => rw [hslice] at hy; cases hy

/-- Calls a subroutine, unless the nesting limit is reached. -/
def call (scope : SubroutineScope) (c : CheckedConfig α) :
    Checked Error (ForInStep (CheckedConfig α)) := do
  let table ← subroutines.table scope
  if c.running.depth = nestingLimit then
    throw .nestingLimit
  else
    let (i, state) ← c.state.popIndex table.size
    match table[i]? with
    | none => throw .subroutineIndex
    | some code =>
      let depth ← Checked.add 8 c.running.depth 1
      return .yield
        { c with running := ⟨.start code, depth⟩, callers := c.running :: c.callers, state }

/-- A call enters the same subroutine, and the nesting is counted without leaving its word. -/
private theorem follows_call (h : c.Represents d) (hdepth : d.depth ≤ nestingLimit)
    (scope : SubroutineScope) :
    Follows c.budget (c.call subroutines scope)
      (State.semantics.call subroutines (some nestingLimit) scope d) := by
  unfold call Semantics.call
  cases subroutines.table scope with
  | error e => exact .fail e
  | ok table =>
    rw [Checked.lift_ok, pure_bind, h.depth_eq]
    dsimp only
    by_cases hlimit : d.depth = nestingLimit
    · rw [if_pos hlimit, if_pos (congrArg some hlimit.symm)]
      exact .fail _
    · rw [if_neg hlimit, if_neg (fun he => hlimit (Option.some.inj he).symm)]
      simp only [State.semantics]
      rcases (CheckedState.agrees_popIndex h.state table.size).ok_or_error with
        ⟨⟨i, state⟩, ⟨_, data⟩, hx, hy, rfl, hstate⟩ | ⟨e, hx, hy⟩
      · rw [hx, hy, pure_bind]
        dsimp only
        cases table[i]? with
        | none => exact .fail _
        | some code =>
          have hbyte : nestingLimit + 1 < Nat.pow 2 8 := by decide
          dsimp only
          rw [Checked.add_eq (by omega), pure_bind]
          refine .next _ ⟨?_, ?_, ?_, hstate⟩ rfl
          · exact Bytes.Cursor.rest_start code
          · rw [List.map_cons, h.callers, h.code]
          · refine ⟨?_, h.nested⟩
            rw [List.length_cons, ← h.nested.1, h.depth_eq]
      · rw [hx, hy, Checked.throw_bind]
        exact .fail _

/-- Executes an instruction that has been read. -/
def execute (c : CheckedConfig α) :
    Instruction → Checked Error (ForInStep (CheckedConfig α))
  | .number value => c.continueWith (c.state.push value.toScalar)
  | .operator (.stem _) => c.continueWith c.state.declareHints
  | .operator (.mask _) => c.skipMask
  | .operator (.path op) => c.continueWith (c.state.drawPath op)
  | .operator (.stack op) => c.continueWith (c.state.compute op)
  | .operator (.call scope) => c.call subroutines scope
  | .operator .ret => return c.ret
  | .operator .endchar => return .done { c with state := c.state.clear }
  | .operator .dotsection => return .yield c

/-- Executing an instruction agrees, as long as few hints have been declared and the nesting limit
is kept. -/
theorem follows_execute (h : c.Represents d) (hdepth : d.depth ≤ nestingLimit)
    (hhints : 2 * d.data.hints + d.data.stack.size ≤ instructionLimit) (i : Instruction) :
    Follows c.budget (c.execute subroutines i)
      (State.semantics.execute subroutines (some nestingLimit) d i) := by
  cases i with
  | number value => exact follows_continueWith h (CheckedState.agrees_push h.state _)
  | operator op =>
    cases op with
    | stem op =>
      have hword : instructionLimit < Nat.pow 2 32 := by decide
      obtain ⟨state, hdeclare, hstate⟩ :=
        CheckedState.declareHints_represents h.state (by omega)
      rw [execute, continueWith, hdeclare, pure_bind]
      exact .next none (h.withState hstate) rfl
    | mask op => exact follows_skipMask h hhints
    | path op => exact follows_continueWith h (CheckedState.agrees_drawPath h.state op)
    | stack op => exact follows_continueWith h (CheckedState.agrees_compute h.state op)
    | call scope => exact follows_call subroutines h hdepth scope
    | ret => exact follows_ret h
    | endchar => exact .done h.state.clear
    | dotsection => exact .next none h rfl

/-- Reads and executes the next instruction, unless none is left or the budget is used up. -/
def step (c : CheckedConfig α) :
    Checked Error (ForInStep (CheckedConfig α)) :=
  match resume c.running c.callers with
  | none => return .done c
  | some (running, callers) =>
    match c.budget with
    | 0 => throw .instructionLimit
    | budget + 1 => do
      let (i, cursor) ← Instruction.read running.cursor
      execute subroutines { c with running := { running with cursor }, callers, budget } i

/-- One instruction agrees, and uses up one of the budget. -/
private theorem follows_step (h : c.Represents d) (hdepth : d.depth ≤ nestingLimit)
    (hhints : 2 * d.data.hints + d.data.stack.size ≤ instructionLimit) {budget : Nat}
    (hbudget : c.budget = budget + 1) :
    Follows budget (c.step subroutines)
      (State.semantics.step subroutines (some nestingLimit) d) := by
  unfold step Semantics.step
  rcases resume_eq c.running c.callers h.nested with
    ⟨hnone, hbytes⟩ | ⟨running, callers, hsome, hbytes, hnested, hle⟩
  · rw [h.code, h.callers] at hbytes
    rw [hnone, hbytes]
    exact .done h.state
  · rw [h.code, h.callers] at hbytes
    rw [hsome, hbytes, hbudget]
    dsimp only
    rcases (Instruction.agrees_read running.cursor).ok_or_error with
      ⟨⟨i, cursor⟩, ⟨_, rest⟩, hx, hy, rfl, rfl⟩ | ⟨e, hx, hy⟩
    · rw [hx, hy, pure_bind]
      have hread : ({ c with running := { running with cursor }, callers, budget } :
          CheckedConfig α).Represents ⟨cursor.rest, callers.map (·.cursor.rest), d.data⟩ :=
        ⟨rfl, rfl, hnested, h.state⟩
      refine follows_execute subroutines hread ?_ hhints i
      have hcallers := congrArg List.length h.callers
      rw [List.length_map] at hcallers
      rw [Config.depth] at hdepth ⊢
      rw [List.length_map]
      omega
    · rw [hx, hy, Checked.throw_bind]
      exact .fail e

/-- Executes instructions until the glyph ends.  Each of them takes one from the budget, and the
last round finds that the glyph has ended or that nothing is left of the budget. -/
def run (c : CheckedConfig α) : Checked Error (CheckedConfig α) :=
  Checked.loop (step subroutines) (c.budget + 1) c

/-- Running agrees, and does not fault, from everywhere that as many instructions can lead to as the
budget is less than it was. -/
theorem agrees_rounds {n budget : Nat} {c : CheckedConfig α} {d : Config (State α)}
    (h : c.Represents d) (hdepth : d.depth ≤ nestingLimit)
    (hhints : 2 * d.data.hints + d.data.stack.size ≤ n) (hn : n + budget = instructionLimit)
    (hbudget : c.budget = budget) :
    Checked.Agrees (fun c s => c.state.Represents s)
      (Checked.loop (step subroutines) (budget + 1) c)
      (State.semantics.run subroutines (some nestingLimit) budget d) := by
  induction budget generalizing n c d with
  | zero =>
    rw [Semantics.run, Config.isFinished]
    rcases resume_eq c.running c.callers h.nested with
      ⟨hnone, hbytes⟩ | ⟨running, callers, hsome, hbytes, -, -⟩
    · have hstep : c.step subroutines = pure (.done c) := by rw [step, hnone]
      rw [h.code, h.callers] at hbytes
      rw [Checked.loop_of_done hstep, hbytes]
      exact .ok h.state
    · have hstep : c.step subroutines = throw .instructionLimit := by rw [step, hsome, hbudget]
      rw [h.code, h.callers] at hbytes
      rw [Checked.loop_of_throw hstep, hbytes]
      exact .error _
  | succ budget ih =>
    have hfollows := follows_step subroutines h hdepth (by omega) hbudget
    rw [Semantics.run]
    generalize hx : c.step subroutines = x at hfollows
    generalize hy : State.semantics.step subroutines (some nestingLimit) d = y at hfollows
    cases hfollows with
    | next called hnext hnextBudget =>
      rw [Checked.loop_of_yield hx]
      exact ih hnext (Semantics.depth_le_of_step hdepth hy)
        (State.maintains_hints.step hhints hy) (by omega) hnextBudget
    | done hdone =>
      rw [Checked.loop_of_done hx]
      exact .ok hdone
    | fail e =>
      rw [Checked.loop_of_throw hx]
      exact .error e

/-- Whole runs agree within the budget for instructions. -/
private theorem agrees_run {n : Nat} {c : CheckedConfig α} {d : Config (State α)}
    (h : c.Represents d) (hdepth : d.depth ≤ nestingLimit)
    (hhints : 2 * d.data.hints + d.data.stack.size ≤ n)
    (hn : n + c.budget = instructionLimit) :
    Checked.Agrees (fun c s => c.state.Represents s) (c.run subroutines)
      (State.semantics.run subroutines (some nestingLimit) c.budget d) :=
  agrees_rounds subroutines h hdepth hhints hn rfl

/-- The configuration at the start of a glyph. -/
def start (code : Bytes) : CheckedConfig α :=
  ⟨⟨.start code, 0⟩, [], instructionLimit, .initial⟩

/-- Both executions start with the charstring and nothing else. -/
theorem represents_start (code : Bytes) :
    (start code : CheckedConfig α).Represents (.start code .initial) :=
  ⟨rfl, rfl, ⟨rfl, trivial⟩, CheckedState.represents_initial⟩

end CheckedConfig

/-- The bounding box of a glyph's outline, by an execution that checks every operation. -/
def checkedBounds {α : Type} [Scalar α] (code : Bytes) (subroutines : Subroutines) :
    Checked Error (Option (Box α)) := do
  let c ← (CheckedConfig.start code).run subroutines
  if c.state.outline.overflowed then
    throw .outlineOverflow
  else
    return c.state.outline.box

/-- No charstring makes an operation leave its domain, whatever the subroutines are: the execution
that checks them all does not fault, and comes to the same box or error. -/
theorem checkedBounds_eq_glyphBounds {α : Type} [Scalar α] (code : Bytes)
    (subroutines : Subroutines) :
    (checkedBounds (α := α) code subroutines).run = some (glyphBounds code subroutines) := by
  have hrun := CheckedConfig.agrees_run (α := α) subroutines
    (CheckedConfig.represents_start code) (Nat.zero_le _) (Nat.le_refl 0) (Nat.zero_add _)
  have hstate : State.semantics.run subroutines (some nestingLimit)
    (CheckedConfig.start code : CheckedConfig α).budget (.start code .initial) =
      finalState (α := α) code subroutines := rfl
  rw [checkedBounds, glyphBounds]
  rcases hrun.ok_or_error with ⟨c, s, hx, hy, hs⟩ | ⟨e, hx, hy⟩
  · rw [hx, pure_bind, ← hstate, hy, hs.outline]
    simp only [boundsOfOutline]
    split <;> rfl
  · rw [hx, Checked.throw_bind, ← hstate, hy]
    rfl

end FontMetrics.Charstring
