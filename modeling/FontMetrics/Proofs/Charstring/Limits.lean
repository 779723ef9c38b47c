import Mathlib.Data.Nat.Find
import FontMetrics.Binary64
import FontMetrics.Charstring.Bounds
import FontMetrics.Proofs.Charstring.Execution

/-!
# What the limits do

The execution with limits is compared with the one without, which may never end.  A limit is met
where the unlimited execution begins one instruction too many or calls from too deep a place.  Until
then the two executions are the same, step by step; there the limited one stops with the error of
the limit.  So a glyph that meets no limit is executed as if there were none.
-/

namespace FontMetrics.Charstring

variable {σ : Type}

/-- A limit on executions. -/
inductive Limit where
  /-- On the number of instructions. -/
  | instructions
  /-- On the number of callers that wait. -/
  | nesting
  deriving DecidableEq, Repr

/-- The error of an execution that a limit stops. -/
def Limit.error : Limit → Error
  | .instructions => .instructionLimit
  | .nesting => .nestingLimit

/-- The next instruction calls into a table that is there while `depth` callers wait. -/
def Config.CallsAt (subroutines : Subroutines) (depth : Nat) (c : Config σ) : Prop :=
  ∃ scope rest table, c.fetch = some (.ok (.operator (.call scope), rest)) ∧
    subroutines.table scope = .ok table ∧ rest.depth = depth

namespace Semantics

section Definitions

variable (sem : Semantics σ) (subroutines : Subroutines) (budget depth : Nat)

/-- Without limits, the execution would meet a limit with instruction number `n`, counted from
zero: it would begin that instruction although `budget` instructions precede it, or call a
subroutine with it although `depth` callers wait. -/
def Meets (start : Config σ) (n : Nat) : Limit → Prop
  | .instructions => n = budget ∧
      ∃ c, sem.Steps subroutines none n start c ∧ c.isFinished = false
  | .nesting => ∃ c, sem.Steps subroutines none n start c ∧ c.CallsAt subroutines depth

/-- The first limit that is met.  The number of instructions is checked before an instruction is
read. -/
def MeetsFirst (start : Config σ) (n : Nat) (limit : Limit) : Prop :=
  sem.Meets subroutines budget depth start n limit ∧
    (∀ m < n, ∀ earlier, ¬ sem.Meets subroutines budget depth start m earlier) ∧
    (limit = .nesting → ¬ sem.Meets subroutines budget depth start n .instructions)

/-- The result is that of an execution within limits. -/
structure IsLimited (start : Config σ) (result : Except Error σ) : Prop where
  /-- The limited execution halts, by itself or because the budget is used up. -/
  halts : ∃ n ≤ budget, sem.Ends subroutines (some depth) n start result ∨
    n = budget ∧ (∃ c, sem.Steps subroutines (some depth) n start c ∧ c.isFinished = false) ∧
      result = .error .instructionLimit
  /-- If no limit is met, the unlimited execution halts with the same result. -/
  unlimited : (∀ n limit, ¬ sem.Meets subroutines budget depth start n limit) →
    ∃ n ≤ budget, sem.Ends subroutines none n start result
  /-- If a limit is met, the first one decides the error. -/
  limited : ∀ n limit, sem.Meets subroutines budget depth start n limit →
    ∃ m ≤ n, ∃ first, sem.MeetsFirst subroutines budget depth start m first ∧
      result = .error first.error
  /-- Subroutines are never nested deeper than the limit. -/
  depth_le : ∀ n c, sem.Steps subroutines (some depth) n start c → c.depth ≤ depth

end Definitions

variable {sem : Semantics σ} {subroutines : Subroutines} {budget depth : Nat}

/-- A call from too deep a place fails in the limited execution. -/
theorem step_of_callsAt {c : Config σ} (h : c.CallsAt subroutines depth) :
    sem.step subroutines (some depth) c = .fail .nestingLimit := by
  obtain ⟨scope, rest, table, hfetch, htable, rfl⟩ := h
  rw [step_of_fetch_ok hfetch]
  simp only [execute, call, htable, ite_true]

/-- Every other instruction has the same effect in both executions. -/
theorem step_of_not_callsAt {c : Config σ} (h : ¬ c.CallsAt subroutines depth) :
    sem.step subroutines (some depth) c = sem.step subroutines none c := by
  cases hfetch : c.fetch with
  | none => rw [step_of_fetch_none hfetch, step_of_fetch_none hfetch]
  | some read =>
    cases read with
    | error e => rw [step_of_fetch_error hfetch, step_of_fetch_error hfetch]
    | ok read =>
      obtain ⟨i, rest⟩ := read
      rw [step_of_fetch_ok hfetch, step_of_fetch_ok hfetch]
      cases i with
      | number value => rfl
      | operator op =>
        cases op with
        | call scope =>
          simp only [execute, call]
          cases htable : subroutines.table scope with
          | error e => rfl
          | ok table =>
            have hdepth : depth ≠ rest.depth := fun hd =>
              h ⟨scope, rest, table, hfetch, htable, hd.symm⟩
            simp [hdepth]
        | _ => rfl

/-- What an execution meets from its second instruction on, the rest of it meets. -/
theorem meets_succ_iff {c c' : Config σ} {called : Option Call}
    (hstep : sem.step subroutines none c = .next called c') (n : Nat) (limit : Limit) :
    sem.Meets subroutines (budget + 1) depth c (n + 1) limit ↔
      sem.Meets subroutines budget depth c' n limit := by
  have hsteps (last : Config σ) : sem.Steps subroutines none (n + 1) c last ↔
      sem.Steps subroutines none n c' last := by
    constructor
    · intro h
      cases h with
      | head first rest =>
        rw [hstep] at first
        cases first
        exact rest
    · exact .head hstep
  cases limit <;> simp only [Meets, hsteps, Nat.add_right_cancel_iff]

/-- The first limit of an execution stays the first one of its rest. -/
theorem meetsFirst_of_succ {c c' : Config σ} {called : Option Call}
    (hstep : sem.step subroutines none c = .next called c') {n : Nat} {limit : Limit}
    (h : sem.MeetsFirst subroutines (budget + 1) depth c (n + 1) limit) :
    sem.MeetsFirst subroutines budget depth c' n limit := by
  obtain ⟨hmeets, hearlier, htie⟩ := h
  refine ⟨(meets_succ_iff hstep n limit).mp hmeets, fun m hm earlier hmet => ?_, fun hl hmet => ?_⟩
  · exact hearlier (m + 1) (by omega) earlier ((meets_succ_iff hstep m earlier).mpr hmet)
  · exact htie hl ((meets_succ_iff hstep n .instructions).mpr hmet)

/-- An execution that goes on from an instruction meets a limit there or has not ended. -/
theorem not_isFinished_of_meets {c : Config σ} {n : Nat} {limit : Limit}
    (h : sem.Meets subroutines budget depth c n limit) : c.isFinished = false := by
  cases n with
  | zero =>
    cases limit with
    | instructions =>
      obtain ⟨-, c', hsteps, hc'⟩ := h
      cases hsteps
      exact hc'
    | nesting =>
      obtain ⟨c', hsteps, scope, rest, table, hfetch, -⟩ := h
      cases hsteps
      by_contra hfinished
      rw [c.fetch_eq_none_iff.mpr (by simpa using hfinished)] at hfetch
      cases hfetch
  | succ n =>
    cases limit with
    | instructions => exact h.2.elim fun _ hc => hc.1.not_isFinished
    | nesting => exact h.elim fun _ hc => hc.1.not_isFinished

/-- Below every limit, the two executions agree. -/
theorem ends_of_not_meets {c : Config σ}
    (h : ∀ n limit, ¬ sem.Meets subroutines budget depth c n limit) :
    ∃ n ≤ budget, sem.Ends subroutines none n c (sem.run subroutines (some depth) budget c) := by
  induction budget generalizing c with
  | zero =>
    have hfinished : c.isFinished = true := by
      by_contra hne
      exact h 0 .instructions ⟨rfl, c, .refl c, by simpa using hne⟩
    refine ⟨0, le_rfl, c, .refl c, ?_⟩
    rw [step_of_isFinished hfinished, run, hfinished]
    rfl
  | succ budget ih =>
    have hcall : ¬ c.CallsAt subroutines depth := fun hc => h 0 .nesting ⟨c, .refl c, hc⟩
    rw [run, step_of_not_callsAt hcall]
    cases hstep : sem.step subroutines none c with
    | next called c' =>
      obtain ⟨n, hn, last, hsteps, hresult⟩ := ih (c := c') fun n limit hmet =>
        h (n + 1) limit ((meets_succ_iff hstep n limit).mpr hmet)
      exact ⟨n + 1, by omega, last, .head hstep hsteps, hresult⟩
    | done data => exact ⟨0, Nat.zero_le _, c, .refl c, by rw [hstep]; rfl⟩
    | fail e => exact ⟨0, Nat.zero_le _, c, .refl c, by rw [hstep]; rfl⟩

/-- The limited execution stops at the first limit. -/
theorem run_of_meetsFirst {c : Config σ} {n : Nat} {limit : Limit}
    (h : sem.MeetsFirst subroutines budget depth c n limit) :
    sem.run subroutines (some depth) budget c = .error limit.error := by
  induction budget generalizing c n with
  | zero =>
    have hfinished := not_isFinished_of_meets h.1
    have hzero : sem.Meets subroutines 0 depth c 0 .instructions := ⟨rfl, c, .refl c, hfinished⟩
    -- The budget is used up already, so no limit but that on instructions can be the first.
    have hlimit : limit = .instructions := by
      cases limit with
      | instructions => rfl
      | nesting =>
        cases n with
        | zero => exact absurd hzero (h.2.2 rfl)
        | succ n => exact absurd hzero (h.2.1 0 (Nat.succ_pos n) .instructions)
    rw [hlimit, run, hfinished]
    rfl
  | succ budget ih =>
    rw [run]
    by_cases hcall : c.CallsAt subroutines depth
    · have hnesting : sem.Meets subroutines (budget + 1) depth c 0 .nesting := ⟨c, .refl c, hcall⟩
      cases n with
      | zero =>
        cases limit with
        | instructions => cases h.1.1
        | nesting => rw [step_of_callsAt hcall]; rfl
      | succ n => exact absurd hnesting (h.2.1 0 (Nat.succ_pos n) .nesting)
    · rw [step_of_not_callsAt hcall]
      cases n with
      | zero =>
        cases limit with
        | instructions => cases h.1.1
        | nesting =>
          obtain ⟨c', hsteps, hc'⟩ := h.1
          cases hsteps
          exact absurd hc' hcall
      | succ n =>
        obtain ⟨called, c', hstep⟩ :
            ∃ called c', sem.step subroutines none c = .next called c' := by
          cases limit with
          | instructions =>
            obtain ⟨-, last, hsteps, -⟩ := h.1
            cases hsteps with
            | head first _ => exact ⟨_, _, first⟩
          | nesting =>
            obtain ⟨last, hsteps, -⟩ := h.1
            cases hsteps with
            | head first _ => exact ⟨_, _, first⟩
        rw [hstep]
        exact ih (meetsFirst_of_succ hstep h)

/-- If a limit is met at all, there is a first one. -/
theorem exists_meetsFirst {c : Config σ} {n : Nat} {limit : Limit}
    (h : sem.Meets subroutines budget depth c n limit) :
    ∃ m ≤ n, ∃ first, sem.MeetsFirst subroutines budget depth c m first := by
  classical
  have hex : ∃ m, ∃ met, sem.Meets subroutines budget depth c m met := ⟨n, limit, h⟩
  have hearlier : ∀ m < Nat.find hex, ∀ earlier, ¬ sem.Meets subroutines budget depth c m earlier :=
    fun m hm earlier hmet => Nat.find_min hex hm ⟨earlier, hmet⟩
  refine ⟨Nat.find hex, Nat.find_min' hex ⟨limit, h⟩, ?_⟩
  by_cases hinstructions :
      sem.Meets subroutines budget depth c (Nat.find hex) .instructions
  · exact ⟨.instructions, hinstructions, hearlier, fun hne => by cases hne⟩
  · obtain ⟨met, hmet⟩ := Nat.find_spec hex
    exact ⟨met, hmet, hearlier, fun _ => hinstructions⟩

/-- Every execution that runs within limits, whatever the instructions mean, obeys them exactly. -/
theorem isLimited_run {start : Config σ} (hstart : start.depth ≤ depth) :
    sem.IsLimited subroutines budget depth start
      (sem.run subroutines (some depth) budget start) where
  halts := run_ends budget start
  unlimited := ends_of_not_meets
  limited := by
    intro n limit hmeets
    obtain ⟨m, hm, first, hfirst⟩ := exists_meetsFirst hmeets
    exact ⟨m, hm, first, hfirst, run_of_meetsFirst hfirst⟩
  depth_le := fun _ _ => depth_le_of_steps hstart

end Semantics

/-- The limits of a glyph's execution are exact, for any meaning of the instructions and in
particular for theirs on execution states, from which the bounds are taken. -/
theorem glyph_limits_exact (subroutines : Subroutines) (code : Bytes) :
    (∀ {σ : Type} (sem : Semantics σ) (data : σ),
      sem.IsLimited subroutines instructionLimit nestingLimit (.start code data)
        (sem.run subroutines (some nestingLimit) instructionLimit (.start code data))) ∧
    ∀ {α : Type} [Scalar α], ∃ result : Except Error (State α),
      State.semantics.IsLimited subroutines instructionLimit nestingLimit
        (.start code .initial) result ∧
      glyphBounds code subroutines = result >>= fun s => boundsOfOutline s.outline := by
  refine ⟨fun sem data => Semantics.isLimited_run (Nat.zero_le _), fun {α} _ => ?_⟩
  refine ⟨finalState code subroutines, Semantics.isLimited_run (Nat.zero_le _), ?_⟩
  unfold glyphBounds
  cases finalState (α := α) code subroutines <;> rfl

/-- A subroutine that calls itself meets the limit on callers. -/
example : (finalState [32, 10] ⟨#[], .table #[[32, 10]]⟩ : Except Error (State Float)) =
    .error .nestingLimit := rfl

end FontMetrics.Charstring
