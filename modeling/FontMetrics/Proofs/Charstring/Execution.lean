import Mathlib.Data.Nat.Basic
import Mathlib.Tactic.ByContra
import FontMetrics.Charstring.Machine

/-!
# Executions step by step

The configurations that an execution passes through, counted in instructions, and how `run` follows
them.  The same definitions serve the execution with limits and the one without (`none` for the
nesting limit), which may go on forever.
-/

namespace FontMetrics.Charstring

variable {σ : Type}

/-- The result of a transition that ends the execution. -/
def Transition.result? : Transition σ → Option (Except Error σ)
  | .next _ _ => none
  | .done data => some (.ok data)
  | .fail e => some (.error e)

namespace Config

/-- The next instruction and the configuration behind it; absent when the glyph has ended. -/
def fetch (c : Config σ) : Option (Except Error (Instruction × Config σ)) :=
  match resume c.code c.callers with
  | none => none
  | some (code, callers) =>
    match Instruction.decode code with
    | .error e => some (.error e)
    | .ok (instruction, rest) => some (.ok (instruction, ⟨rest, callers, c.data⟩))

/-- The same place after all subroutines that are used up have returned. -/
def settle (c : Config σ) : Config σ :=
  match resume c.code c.callers with
  | none => ⟨[], [], c.data⟩
  | some (code, callers) => ⟨code, callers, c.data⟩

/-- What is resumed has bytes left. -/
theorem resume_ne_nil {code rest : Bytes} {callers waiting : List Bytes}
    (h : resume code callers = some (rest, waiting)) : rest ≠ [] := by
  fun_induction resume code callers with
  | case1 => cases h
  | case2 caller callers ih => exact ih h
  | case3 byte code callers => cases h; exact List.cons_ne_nil _ _

/-- A charstring with bytes left goes on by itself. -/
theorem resume_of_ne_nil {code : Bytes} (callers : List Bytes) (h : code ≠ []) :
    resume code callers = some (code, callers) := by
  cases code with
  | nil => contradiction
  | cons byte code => cases callers <;> rfl

/-- Where bytes are left the glyph has not ended. -/
theorem isFinished_of_ne_nil {code : Bytes} (callers : List Bytes) (data : σ) (h : code ≠ []) :
    (⟨code, callers, data⟩ : Config σ).isFinished = false := by
  simp only [isFinished, resume_of_ne_nil callers h]
  rfl

/-- Resuming never adds callers. -/
theorem length_resume_le {code rest : Bytes} {callers waiting : List Bytes}
    (h : resume code callers = some (rest, waiting)) : waiting.length ≤ callers.length := by
  fun_induction resume code callers with
  | case1 => cases h
  | case2 caller callers ih => exact Nat.le_succ_of_le (ih h)
  | case3 byte code callers => cases h; exact le_rfl

/-- Once settled, a configuration stays as it is. -/
theorem resume_settle (c : Config σ) :
    resume c.settle.code c.settle.callers = resume c.code c.callers := by
  unfold settle
  split
  · next h => rw [h]; rfl
  · next code callers h => rw [h]; exact resume_of_ne_nil callers (resume_ne_nil h)

/-- Settling twice is settling once. -/
@[simp] theorem settle_settle (c : Config σ) : c.settle.settle = c.settle := by
  rw [settle, resume_settle]
  unfold settle
  split <;> rfl

@[simp] theorem settle_data (c : Config σ) : c.settle.data = c.data := by
  unfold settle
  split <;> rfl

/-- Where bytes are left there is nothing to settle. -/
theorem settle_of_ne_nil {code : Bytes} (callers : List Bytes) (data : σ) (h : code ≠ []) :
    (⟨code, callers, data⟩ : Config σ).settle = ⟨code, callers, data⟩ := by
  simp only [settle, resume_of_ne_nil callers h]

/-- Between the instructions of the glyph's own charstring there is nothing to settle. -/
@[simp] theorem settle_top (code : Bytes) (data : σ) :
    (⟨code, [], data⟩ : Config σ).settle = ⟨code, [], data⟩ := by
  cases code <;> rfl

/-- The next instruction is the same after settling. -/
@[simp] theorem fetch_settle (c : Config σ) : c.settle.fetch = c.fetch := by
  rw [fetch, fetch, resume_settle, settle_data]

@[simp] theorem isFinished_settle (c : Config σ) : c.settle.isFinished = c.isFinished := by
  rw [isFinished, isFinished, resume_settle]

/-- There is a next instruction unless the glyph has ended. -/
theorem fetch_eq_none_iff (c : Config σ) : c.fetch = none ↔ c.isFinished = true := by
  unfold fetch isFinished
  cases resume c.code c.callers with
  | none => simp
  | some place =>
    simp only [Option.isNone_some, Bool.false_eq_true, iff_false]
    split <;> simp

/-- Reading an instruction leaves the data alone and adds no caller. -/
theorem fetch_frame {c rest : Config σ} {i : Instruction} (h : c.fetch = some (.ok (i, rest))) :
    rest.data = c.data ∧ rest.depth ≤ c.depth := by
  unfold fetch at h
  split at h
  · cases h
  · next code callers hresume =>
    split at h
    · cases h
    · cases h
      exact ⟨rfl, length_resume_le hresume⟩

end Config

namespace Semantics

variable (sem : Semantics σ) (subroutines : Subroutines) (limit : Option Nat)

/-- How an instruction leads from the configuration behind it to the next one. -/
inductive Executes : Config σ → Instruction → Config σ → Prop where
  /-- A number is pushed. -/
  | number {c : Config σ} {value : Fixed} {data : σ} (h : sem.number value c.data = .ok data) :
    Executes c (.number value) { c with data }
  /-- Stems are declared. -/
  | stem (c : Config σ) (op : StemOperator) :
    Executes c (.operator (.stem op)) { c with data := sem.declareHints c.data }
  /-- Stems are declared and a mask is passed over. -/
  | mask {c : Config σ} (op : MaskOperator) {mask code : Bytes}
    (h : Bytes.slice (sem.maskLength (sem.declareHints c.data)) c.code = .ok (mask, code)) :
    Executes c (.operator (.mask op)) { c with code, data := sem.declareHints c.data }
  /-- The pen moves. -/
  | path {c : Config σ} {op : PathOperator} {data : σ} (h : sem.path op c.data = .ok data) :
    Executes c (.operator (.path op)) { c with data }
  /-- Something is computed. -/
  | compute {c : Config σ} {op : StackOperator} {data : σ}
    (h : sem.compute op c.data = .ok data) :
    Executes c (.operator (.stack op)) { c with data }
  /-- A subroutine is called. -/
  | call {c : Config σ} {scope : SubroutineScope} {table : SubroutineTable} {index : Nat}
    {code : Bytes} {data : σ} (htable : subroutines.table scope = .ok table)
    (hdepth : limit ≠ some c.depth) (hindex : sem.popIndex table.size c.data = .ok (index, data))
    (hcode : table[index]? = some code) :
    Executes c (.operator (.call scope)) ⟨code, c.code :: c.callers, data⟩
  /-- A subroutine returns. -/
  | ret {c : Config σ} {caller : Bytes} {callers : List Bytes}
    (h : c.callers = caller :: callers) :
    Executes c (.operator .ret) ⟨caller, callers, c.data⟩
  /-- Nothing happens. -/
  | dotsection (c : Config σ) : Executes c (.operator .dotsection) c

/-- After `n` instructions that begin at one configuration, the execution stands at the other. -/
inductive Steps : Nat → Config σ → Config σ → Prop where
  /-- No instruction. -/
  | refl (c : Config σ) : Steps 0 c c
  /-- One instruction, and then more. -/
  | head {n : Nat} {called : Option Call} {c c' c'' : Config σ}
    (first : sem.step subroutines limit c = .next called c') (rest : Steps n c' c'') :
    Steps (n + 1) c c''

/-- After `n` instructions the execution stands at the given place, but for subroutines that are
used up and have yet to return. -/
def Reaches (n : Nat) (c place : Config σ) : Prop :=
  ∃ c', sem.Steps subroutines limit n c c' ∧ c'.settle = place

/-- The execution begins at most `n` instructions: after that many, the glyph has ended. -/
def StartsAtMost (n : Nat) (c : Config σ) : Prop :=
  ∀ c', sem.Steps subroutines limit n c c' → c'.isFinished = true

/-- After `n` instructions the execution ends at once with the result, or by the next
instruction. -/
def Ends (n : Nat) (c : Config σ) (result : Except Error σ) : Prop :=
  ∃ c', sem.Steps subroutines limit n c c' ∧
    (sem.step subroutines limit c').result? = some result

variable {sem subroutines limit}

/-- Where there is no next instruction, the glyph ends. -/
theorem step_of_fetch_none {c : Config σ} (h : c.fetch = none) :
    sem.step subroutines limit c = .done c.data := by
  unfold Config.fetch at h
  unfold step
  cases hresume : Config.resume c.code c.callers with
  | none => rfl
  | some place =>
    rw [hresume] at h
    cases hdecode : Instruction.decode place.1 <;> simp [hdecode] at h

/-- An instruction that cannot be read fails. -/
theorem step_of_fetch_error {c : Config σ} {e : Error} (h : c.fetch = some (.error e)) :
    sem.step subroutines limit c = .fail e := by
  unfold Config.fetch at h
  unfold step
  cases hresume : Config.resume c.code c.callers with
  | none => simp [hresume] at h
  | some place =>
    rw [hresume] at h
    cases hdecode : Instruction.decode place.1 with
    | error e' =>
      obtain rfl : e' = e := by simpa [hdecode] using h
      simp only [hdecode]
    | ok read => simp [hdecode] at h

/-- An instruction that has been read is executed. -/
theorem step_of_fetch_ok {c rest : Config σ} {i : Instruction}
    (h : c.fetch = some (.ok (i, rest))) :
    sem.step subroutines limit c = sem.execute subroutines limit rest i := by
  unfold Config.fetch at h
  unfold step
  cases hresume : Config.resume c.code c.callers with
  | none => simp [hresume] at h
  | some place =>
    rw [hresume] at h
    cases hdecode : Instruction.decode place.1 with
    | error e => simp [hdecode] at h
    | ok read =>
      simp only [hdecode, Option.some.injEq, Except.ok.injEq, Prod.mk.injEq] at h
      obtain ⟨rfl, rfl⟩ := h
      simp only [hdecode]

private theorem continueWith_eq_next_iff {c c' : Config σ} {called : Option Call}
    {result : Except Error σ} :
    c.continueWith result = .next called c' ↔
      called = none ∧ ∃ data, result = .ok data ∧ c' = { c with data } := by
  cases result with
  | error e => simp [Config.continueWith]
  | ok data => simp [Config.continueWith, eq_comm]

/-- The relation says all that an instruction can do without ending the execution. -/
theorem executes_of_execute {c c' : Config σ} {i : Instruction} {called : Option Call}
    (h : sem.execute subroutines limit c i = .next called c') :
    sem.Executes subroutines limit c i c' := by
  cases i with
  | number value =>
    obtain ⟨-, data, hdata, rfl⟩ := continueWith_eq_next_iff.mp h
    exact .number hdata
  | operator op =>
    cases op with
    | stem op => cases h; exact .stem c op
    | mask op =>
      simp only [execute, skipMask] at h
      split at h
      · cases h
      · next hslice => cases h; exact .mask op hslice
    | path op =>
      obtain ⟨-, data, hdata, rfl⟩ := continueWith_eq_next_iff.mp h
      exact .path hdata
    | stack op =>
      obtain ⟨-, data, hdata, rfl⟩ := continueWith_eq_next_iff.mp h
      exact .compute hdata
    | call scope =>
      simp only [execute, call] at h
      split at h
      · cases h
      · next table htable =>
        split at h
        · cases h
        · next hdepth =>
          split at h
          · cases h
          · next index data hindex =>
            split at h
            · cases h
            · next code hcode => cases h; exact .call htable hdepth hindex hcode
    | ret =>
      simp only [execute, ret] at h
      split at h
      · cases h
      · next hcallers => cases h; exact .ret hcallers
    | endchar => cases h
    | dotsection => cases h; exact .dotsection c

/-- A glyph is ended by an instruction of its own, or by a return without a caller. -/
theorem done_of_execute {c : Config σ} {i : Instruction} {data : σ}
    (h : sem.execute subroutines limit c i = .done data) :
    i = .operator .endchar ∧ data = sem.clear c.data ∨
      i = .operator .ret ∧ c.callers = [] ∧ data = c.data := by
  cases i with
  | number value =>
    simp only [execute, Config.continueWith] at h
    split at h <;> cases h
  | operator op =>
    cases op with
    | mask op =>
      simp only [execute, skipMask] at h
      split at h <;> cases h
    | path op | stack op =>
      simp only [execute, Config.continueWith] at h
      split at h <;> cases h
    | call scope =>
      simp only [execute, call] at h
      repeat' split at h
      all_goals cases h
    | ret =>
      simp only [execute, ret] at h
      split at h
      · next hcallers => cases h; exact Or.inr ⟨rfl, hcallers, rfl⟩
      · cases h
    | endchar => cases h; exact Or.inl ⟨rfl, rfl⟩
    | stem op | dotsection => cases h

/-- What the relation allows is executed. -/
theorem Executes.execute {c c' : Config σ} {i : Instruction}
    (h : sem.Executes subroutines limit c i c') :
    ∃ called, sem.execute subroutines limit c i = .next called c' := by
  cases h with
  | number h => exact ⟨none, by simp only [Semantics.execute, h, Config.continueWith]⟩
  | stem => exact ⟨none, rfl⟩
  | mask op h => exact ⟨none, by simp only [Semantics.execute, skipMask, h]⟩
  | path h => exact ⟨none, by simp only [Semantics.execute, h, Config.continueWith]⟩
  | compute h => exact ⟨none, by simp only [Semantics.execute, h, Config.continueWith]⟩
  | @call scope table index code data htable hdepth hindex hcode =>
    exact ⟨some ⟨scope, index, c.depth + 1⟩,
      by simp only [Semantics.execute, Semantics.call, htable, hdepth, ite_false, hindex, hcode]⟩
  | ret h => exact ⟨none, by simp only [Semantics.execute, Semantics.ret, h]⟩
  | dotsection => exact ⟨none, rfl⟩

/-- The execution goes on exactly when an instruction is there that lets it. -/
theorem exists_step_iff {c c' : Config σ} :
    (∃ called, sem.step subroutines limit c = .next called c') ↔
      ∃ i rest, c.fetch = some (.ok (i, rest)) ∧ sem.Executes subroutines limit rest i c' := by
  constructor
  · rintro ⟨called, h⟩
    cases hfetch : c.fetch with
    | none => rw [step_of_fetch_none hfetch] at h; cases h
    | some read =>
      cases read with
      | error e => rw [step_of_fetch_error hfetch] at h; cases h
      | ok read =>
        rw [step_of_fetch_ok hfetch] at h
        exact ⟨read.1, read.2, rfl, executes_of_execute h⟩
  · rintro ⟨i, rest, hfetch, h⟩
    rw [step_of_fetch_ok hfetch]
    exact h.execute

/-- Nothing is executed once the glyph has ended. -/
theorem step_of_isFinished {c : Config σ} (h : c.isFinished = true) :
    sem.step subroutines limit c = .done c.data :=
  step_of_fetch_none (c.fetch_eq_none_iff.mpr h)

/-- Where the glyph has ended, no budget is needed. -/
theorem run_of_isFinished {c : Config σ} (h : c.isFinished = true) (budget : Nat) :
    sem.run subroutines limit budget c = .ok c.data := by
  cases budget with
  | zero => rw [run, if_pos h]
  | succ budget => rw [run, step_of_isFinished h]

/-- A glyph that goes on has not ended. -/
theorem not_isFinished_of_step {c c' : Config σ} {called : Option Call}
    (h : sem.step subroutines limit c = .next called c') : c.isFinished = false := by
  by_contra hne
  rw [step_of_isFinished (by simpa using hne)] at h
  cases h

/-- Returning from used-up subroutines ahead of time changes nothing. -/
@[simp] theorem step_settle (c : Config σ) :
    sem.step subroutines limit c.settle = sem.step subroutines limit c := by
  unfold step
  rw [Config.resume_settle, Config.settle_data]

/-- One step stays within the nesting limit. -/
theorem depth_le_of_step {depth : Nat} {c c' : Config σ} {called : Option Call}
    (hc : c.depth ≤ depth) (h : sem.step subroutines (some depth) c = .next called c') :
    c'.depth ≤ depth := by
  obtain ⟨i, rest, hfetch, hexecutes⟩ := exists_step_iff.mp ⟨called, h⟩
  have hrest : rest.depth ≤ depth := Nat.le_trans (Config.fetch_frame hfetch).2 hc
  cases hexecutes with
  | call _ hdepth _ _ =>
    have hne : rest.depth ≠ depth := fun he => hdepth (congrArg some he.symm)
    exact Nat.lt_of_le_of_ne hrest hne
  | ret hcallers =>
    simp only [Config.depth, hcallers, List.length_cons] at hrest ⊢
    omega
  | _ => exact hrest

/-- No subroutine is nested deeper than the limit. -/
theorem depth_le_of_steps {depth n : Nat} {c c' : Config σ} (hc : c.depth ≤ depth)
    (h : sem.Steps subroutines (some depth) n c c') : c'.depth ≤ depth := by
  induction h with
  | refl => exact hc
  | head first _ ih => exact ih (depth_le_of_step hc first)

/-- Every instruction lets at most one more caller wait. -/
theorem Steps.depth_le_add {n : Nat} {c c' : Config σ} (h : sem.Steps subroutines limit n c c') :
    c'.depth ≤ c.depth + n := by
  induction h with
  | refl => exact le_rfl
  | @head n called c mid last first _ ih =>
    obtain ⟨i, rest, hfetch, hexecutes⟩ := exists_step_iff.mp ⟨called, first⟩
    have hrest := (Config.fetch_frame hfetch).2
    have hmid : mid.depth ≤ rest.depth + 1 := by
      cases hexecutes with
      | call _ _ _ _ => exact le_rfl
      | ret hcallers =>
        simp only [Config.depth, hcallers, List.length_cons]
        omega
      | _ => exact Nat.le_succ _
    omega

/-- Executions are deterministic. -/
theorem Steps.unique {n : Nat} {c c₁ c₂ : Config σ} (h₁ : sem.Steps subroutines limit n c c₁)
    (h₂ : sem.Steps subroutines limit n c c₂) : c₁ = c₂ := by
  induction h₁ with
  | refl => cases h₂; rfl
  | head first _ ih =>
    cases h₂ with
    | head first' rest' =>
      rw [first] at first'
      cases first'
      exact ih rest'

theorem Steps.trans {m n : Nat} {c c' c'' : Config σ} (h : sem.Steps subroutines limit m c c')
    (h' : sem.Steps subroutines limit n c' c'') : sem.Steps subroutines limit (m + n) c c'' := by
  induction h with
  | refl => simpa using h'
  | head first _ ih =>
    rw [Nat.succ_add]
    exact .head first (ih h')

/-- An execution of several instructions can be cut after any of them. -/
theorem Steps.split {m n : Nat} {c c'' : Config σ}
    (h : sem.Steps subroutines limit (m + n) c c'') :
    ∃ c', sem.Steps subroutines limit m c c' ∧ sem.Steps subroutines limit n c' c'' := by
  induction m generalizing c with
  | zero => exact ⟨c, .refl c, by simpa using h⟩
  | succ m ih =>
    rw [Nat.succ_add] at h
    cases h with
    | head first rest =>
      obtain ⟨c', hm, hn⟩ := ih rest
      exact ⟨c', .head first hm, hn⟩

/-- More than no instruction is executed only where the glyph has not ended. -/
theorem Steps.not_isFinished {n : Nat} {c c' : Config σ}
    (h : sem.Steps subroutines limit (n + 1) c c') : c.isFinished = false := by
  cases h with
  | head first _ => exact not_isFinished_of_step first

/-- An execution that has ended makes no more steps. -/
theorem Ends.le {m n : Nat} {c c' : Config σ} {result : Except Error σ}
    (h : sem.Ends subroutines limit m c result) (h' : sem.Steps subroutines limit n c c') :
    n ≤ m := by
  obtain ⟨last, hsteps, hresult⟩ := h
  by_contra hlt
  obtain ⟨extra, rfl⟩ : ∃ extra, n = m + (extra + 1) := ⟨n - m - 1, by omega⟩
  obtain ⟨mid, hmid, hmore⟩ := h'.split
  rw [hmid.unique hsteps] at hmore
  cases hmore with
  | head first _ => rw [first] at hresult; cases hresult

/-- An execution from a place that another one reaches continues that one. -/
theorem Reaches.trans {m n : Nat} {c place place' : Config σ}
    (h : sem.Reaches subroutines limit m c place)
    (h' : sem.Reaches subroutines limit n place place') :
    sem.Reaches subroutines limit (m + n) c place' := by
  obtain ⟨c₁, hm, rfl⟩ := h
  obtain ⟨c₂, hn, rfl⟩ := h'
  cases hn with
  | refl => exact ⟨c₁, hm, c₁.settle_settle.symm⟩
  | head first rest =>
    rw [step_settle] at first
    exact ⟨c₂, hm.trans (.head first rest), rfl⟩

/-- Where fewer instructions are begun, no place is reached by more. -/
theorem StartsAtMost.of_reaches {m n : Nat} {c place : Config σ}
    (h : sem.StartsAtMost subroutines limit n c)
    (hreaches : sem.Reaches subroutines limit m c place) :
    m ≤ n ∧ sem.StartsAtMost subroutines limit (n - m) place := by
  have hle : m ≤ n := by
    obtain ⟨c', hsteps, -⟩ := hreaches
    by_contra hlt
    obtain ⟨extra, rfl⟩ : ∃ extra, m = n + (extra + 1) := ⟨m - n - 1, by omega⟩
    obtain ⟨mid, hmid, hmore⟩ := hsteps.split
    exact absurd (h mid hmid) (by simp [hmore.not_isFinished])
  refine ⟨hle, fun late hlate => ?_⟩
  obtain ⟨c', hsteps, hsettle⟩ := hreaches.trans ⟨late, hlate, rfl⟩
  rw [show m + (n - m) = n by omega] at hsteps
  rw [← late.isFinished_settle, ← hsettle, c'.isFinished_settle, h c' hsteps]

/-- A budget for no more instructions than precede one that is begun is used up. -/
theorem run_of_steps_of_le {n budget : Nat} {c c' : Config σ}
    (h : sem.Steps subroutines limit n c c') (hle : budget ≤ n) (hc' : c'.isFinished = false) :
    sem.run subroutines limit budget c = .error .instructionLimit := by
  induction budget generalizing n c with
  | zero =>
    have hc : c.isFinished = false := by
      cases n with
      | zero => cases h; exact hc'
      | succ n => exact h.not_isFinished
    simp [run, hc]
  | succ budget ih =>
    obtain ⟨n, rfl⟩ : ∃ more, n = more + 1 := ⟨n - 1, by omega⟩
    cases h with
    | head first rest =>
      rw [run, first]
      exact ih rest (Nat.le_of_succ_le_succ hle)

/-- Running is making steps. -/
theorem run_steps {m : Nat} {c c' : Config σ} (h : sem.Steps subroutines limit m c c')
    (budget : Nat) :
    sem.run subroutines limit (m + budget) c = sem.run subroutines limit budget c' := by
  induction h with
  | refl => rw [Nat.zero_add]
  | head first _ ih => rw [Nat.succ_add, run, first]; exact ih

/-- A budget that allows the instruction by which an execution ends makes running come to that
end. -/
theorem Ends.run_eq {n budget : Nat} {c : Config σ} {result : Except Error σ}
    (h : sem.Ends subroutines limit n c result) (hn : n < budget) :
    sem.run subroutines limit budget c = result := by
  obtain ⟨last, hsteps, hresult⟩ := h
  obtain ⟨more, rfl⟩ : ∃ more, budget = n + (more + 1) := ⟨budget - n - 1, by omega⟩
  rw [run_steps hsteps, run]
  cases hstep : sem.step subroutines limit last with
  | next called c' =>
    rw [hstep] at hresult
    cases hresult
  | done data =>
    rw [hstep] at hresult
    exact Option.some.inj hresult
  | fail e =>
    rw [hstep] at hresult
    exact Option.some.inj hresult

/-- Running is indifferent to subroutines that are used up. -/
@[simp] theorem run_settle (budget : Nat) (c : Config σ) :
    sem.run subroutines limit budget c.settle = sem.run subroutines limit budget c := by
  cases budget with
  | zero => rw [run, run, Config.isFinished_settle, Config.settle_data]
  | succ budget => rw [run, run, step_settle]

/-- Running from a place that an execution reaches goes on as that execution does. -/
theorem run_reaches {m : Nat} {c place : Config σ} (h : sem.Reaches subroutines limit m c place)
    (budget : Nat) :
    sem.run subroutines limit (m + budget) c = sem.run subroutines limit budget place := by
  obtain ⟨c', hsteps, rfl⟩ := h
  rw [run_steps hsteps, run_settle]

/-- Two configurations from which one instruction leads to the same place run alike. -/
theorem run_eq_of_step {c d next : Config σ} {called called' : Option Call}
    (hc : sem.step subroutines limit c = .next called next)
    (hd : sem.step subroutines limit d = .next called' next) (budget : Nat) :
    sem.run subroutines limit budget c = sem.run subroutines limit budget d := by
  cases budget with
  | zero => simp [run, not_isFinished_of_step hc, not_isFinished_of_step hd]
  | succ budget => rw [run, run, hc, hd]

/-- Two configurations from which as many instructions lead to places that run alike do so too. -/
theorem run_eq_of_reaches {n : Nat} {c d place place' : Config σ}
    (hc : sem.Reaches subroutines limit n c place) (hd : sem.Reaches subroutines limit n d place')
    (hplace : place.isFinished = false) (hplace' : place'.isFinished = false)
    (h : ∀ budget, sem.run subroutines limit budget place =
      sem.run subroutines limit budget place') (budget : Nat) :
    sem.run subroutines limit budget c = sem.run subroutines limit budget d := by
  rcases Nat.le_total n budget with hle | hle
  · obtain ⟨more, rfl⟩ : ∃ more, budget = n + more := ⟨budget - n, by omega⟩
    rw [run_reaches hc, run_reaches hd, h]
  · obtain ⟨c', hsteps, rfl⟩ := hc
    obtain ⟨d', hsteps', rfl⟩ := hd
    rw [Config.isFinished_settle] at hplace hplace'
    rw [run_of_steps_of_le hsteps hle hplace, run_of_steps_of_le hsteps' hle hplace']

/-- A budget for more instructions than are begun makes no difference. -/
theorem run_of_startsAtMost {n budget : Nat} {c : Config σ}
    (h : sem.StartsAtMost subroutines limit n c) (hle : n ≤ budget) :
    sem.run subroutines limit budget c = sem.run subroutines limit n c := by
  induction n generalizing budget c with
  | zero =>
    have hfinished := h c (.refl c)
    rw [run_of_isFinished hfinished, run_of_isFinished hfinished]
  | succ n ih =>
    obtain ⟨budget, rfl⟩ : ∃ more, budget = more + 1 := ⟨budget - 1, by omega⟩
    rw [run, run]
    cases hstep : sem.step subroutines limit c with
    | next called c' =>
      exact ih (fun late hlate => h late (.head hstep hlate)) (Nat.le_of_succ_le_succ hle)
    | done data => rfl
    | fail e => rfl

/-- Running stops after at most as many instructions as the budget allows: by itself, or because the
budget does not allow the instruction that comes next. -/
theorem run_ends (budget : Nat) (c : Config σ) :
    ∃ n ≤ budget, sem.Ends subroutines limit n c (sem.run subroutines limit budget c) ∨
      n = budget ∧ (∃ c', sem.Steps subroutines limit n c c' ∧ c'.isFinished = false) ∧
        sem.run subroutines limit budget c = .error .instructionLimit := by
  induction budget generalizing c with
  | zero =>
    refine ⟨0, le_rfl, ?_⟩
    cases hc : c.isFinished with
    | true => exact .inl ⟨c, .refl c, by simp [run, hc, step_of_isFinished hc, Transition.result?]⟩
    | false => exact .inr ⟨rfl, ⟨c, .refl c, hc⟩, by simp [run, hc]⟩
  | succ budget ih =>
    cases hstep : sem.step subroutines limit c with
    | next called c' =>
      have hrun : sem.run subroutines limit (budget + 1) c =
          sem.run subroutines limit budget c' := by rw [run, hstep]
      rw [hrun]
      obtain ⟨n, hn, ⟨last, hsteps, hresult⟩ | ⟨rfl, ⟨last, hsteps, hlast⟩, herror⟩⟩ := ih c'
      · exact ⟨n + 1, by omega, .inl ⟨last, .head hstep hsteps, hresult⟩⟩
      · exact ⟨n + 1, le_rfl, .inr ⟨rfl, ⟨last, .head hstep hsteps, hlast⟩, herror⟩⟩
    | done data =>
      exact ⟨0, Nat.zero_le _, .inl ⟨c, .refl c, by rw [run, hstep]; rfl⟩⟩
    | fail e =>
      exact ⟨0, Nat.zero_le _, .inl ⟨c, .refl c, by rw [run, hstep]; rfl⟩⟩

end Semantics

end FontMetrics.Charstring
