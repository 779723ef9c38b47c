import FontMetrics.Charstring.Machine
import FontMetrics.Proofs.Charstring.Encoding

/-!
# Executions on related data

Two semantics whose instructions keep a relation between the data, and fail alike, are executed
alike: control flow depends on the data only through what the relation preserves.
-/

namespace FontMetrics.Charstring

variable {σ τ : Type}

/-- The errors that reading instructions and following calls can cause, whatever the data. -/
inductive Error.IsControl : Error → Prop where
  /-- The bytes are faulty. -/
  | data (cause : DataError) : IsControl (.data cause)
  /-- A byte stands for no operator. -/
  | invalidOperator (escaped : Bool) (code : UInt8) : IsControl (.invalidOperator escaped code)
  /-- Subroutines are nested too deeply. -/
  | nestingLimit : IsControl .nestingLimit
  /-- Too many instructions are executed. -/
  | instructionLimit : IsControl .instructionLimit
  /-- There is no such subroutine. -/
  | subroutineIndex : IsControl .subroutineIndex
  /-- There are no local subroutines. -/
  | noLocalSubroutines : IsControl .noLocalSubroutines
  /-- The local subroutines are not supported. -/
  | cidKeyedFont : IsControl .cidKeyedFont

/-- Both results are values that are related, or both are the same error of a certain kind. -/
inductive Agree (R : σ → τ → Prop) (E : Error → Prop) :
    Except Error σ → Except Error τ → Prop where
  /-- Two values. -/
  | ok {s : σ} {t : τ} (h : R s t) : Agree R E (.ok s) (.ok t)
  /-- One error. -/
  | error {e : Error} (h : E e) : Agree R E (.error e) (.error e)

/-- A function of the second value keeps the error. -/
theorem Agree.map_right {υ : Type} {R : σ → τ → Prop} {Q : σ → υ → Prop} {E : Error → Prop}
    {r : Except Error σ} {r' : Except Error τ} {f : τ → υ} (h : Agree R E r r')
    (hf : ∀ s t, R s t → Q s (f t)) : Agree Q E r (f <$> r') := by
  cases h with
  | ok h => exact .ok (hf _ _ h)
  | error h => exact .error h

/-- Both transitions lead to the same place with related data, or fail alike. -/
inductive Transition.Agree (R : σ → τ → Prop) (E : Error → Prop) :
    Transition σ → Transition τ → Prop where
  /-- The execution goes on. -/
  | next (called : Option Call) (code : Bytes) (callers : List Bytes) {s : σ} {t : τ}
    (h : R s t) : Agree R E (.next called ⟨code, callers, s⟩) (.next called ⟨code, callers, t⟩)
  /-- The glyph has ended. -/
  | done {s : σ} {t : τ} (h : R s t) : Agree R E (.done s) (.done t)
  /-- The execution has failed. -/
  | fail {e : Error} (h : E e) : Agree R E (.fail e) (.fail e)

/-- The instructions of two semantics keep a relation between the data, and fail alike. -/
structure Semantics.Simulates (A : Semantics σ) (B : Semantics τ) (R : σ → τ → Prop)
    (E : Error → Prop) : Prop where
  number {s : σ} {t : τ} (h : R s t) (value : Fixed) :
    Agree R E (A.number value s) (B.number value t)
  declareHints {s : σ} {t : τ} (h : R s t) : R (A.declareHints s) (B.declareHints t)
  maskLength {s : σ} {t : τ} (h : R s t) : A.maskLength s = B.maskLength t
  path {s : σ} {t : τ} (h : R s t) (op : PathOperator) : Agree R E (A.path op s) (B.path op t)
  compute {s : σ} {t : τ} (h : R s t) (op : StackOperator) :
    Agree R E (A.compute op s) (B.compute op t)
  popIndex {s : σ} {t : τ} (h : R s t) (size : Nat) :
    Agree (fun p q => p.1 = q.1 ∧ R p.2 q.2) E (A.popIndex size s) (B.popIndex size t)
  clear {s : σ} {t : τ} (h : R s t) : R (A.clear s) (B.clear t)
  /-- Errors that do not depend on the data are of the kind in question. -/
  control {e : Error} (h : e.IsControl) : E e

/-- Reading an instruction fails only for what the bytes are. -/
theorem Instruction.isControl_of_decode {code : Bytes} {e : Error}
    (h : Instruction.decode code = .error e) : e.IsControl := by
  rcases error_of_decode h with rfl | ⟨escaped, byte, rfl⟩
  · exact .data _
  · exact .invalidOperator escaped byte

/-- A table is absent only for what the font is. -/
theorem Subroutines.isControl_of_table {subroutines : Subroutines} {scope : SubroutineScope}
    {e : Error} (h : subroutines.table scope = .error e) : e.IsControl := by
  unfold Subroutines.table at h
  split at h
  · cases h
  · split at h
    · cases h
    · cases h; exact .noLocalSubroutines
    · cases h; exact .cidKeyedFont

namespace Semantics.Simulates

variable {A : Semantics σ} {B : Semantics τ} {R : σ → τ → Prop} {E : Error → Prop}
  {subroutines : Subroutines} {limit : Option Nat}

private theorem continueWith {r : Except Error σ} {r' : Except Error τ} (h : Agree R E r r')
    (code : Bytes) (callers : List Bytes) (s : σ) (t : τ) :
    Transition.Agree R E ((⟨code, callers, s⟩ : Config σ).continueWith r)
      ((⟨code, callers, t⟩ : Config τ).continueWith r') := by
  cases h with
  | ok h => exact .next none code callers h
  | error h => exact .fail h

/-- Calls into the same table lead to the same subroutine. -/
theorem call (h : A.Simulates B R E) {s : σ} {t : τ} (hst : R s t) (scope : SubroutineScope)
    (code : Bytes) (callers : List Bytes) :
    Transition.Agree R E (A.call subroutines limit scope ⟨code, callers, s⟩)
      (B.call subroutines limit scope ⟨code, callers, t⟩) := by
  simp only [Semantics.call, Config.depth]
  cases htable : subroutines.table scope with
  | error e => exact .fail (h.control (Subroutines.isControl_of_table htable))
  | ok table =>
    simp only
    by_cases hdepth : limit = some callers.length
    · simp only [hdepth, ite_true]
      exact .fail (h.control .nestingLimit)
    · simp only [hdepth, ite_false]
      have hindex := h.popIndex hst table.size
      generalize A.popIndex table.size s = r at hindex ⊢
      generalize B.popIndex table.size t = r' at hindex ⊢
      cases hindex with
      | error he => exact .fail he
      | @ok p q hpq =>
        obtain ⟨i, s'⟩ := p
        obtain ⟨_, t'⟩ := q
        obtain ⟨rfl, hst'⟩ := hpq
        simp only
        cases table[i]? with
        | none => exact .fail (h.control .subroutineIndex)
        | some callee => exact .next _ callee (code :: callers) hst'

/-- Every instruction leads to the same place. -/
theorem execute (h : A.Simulates B R E) {s : σ} {t : τ} (hst : R s t) (code : Bytes)
    (callers : List Bytes) (i : Instruction) :
    Transition.Agree R E (A.execute subroutines limit ⟨code, callers, s⟩ i)
      (B.execute subroutines limit ⟨code, callers, t⟩ i) := by
  cases i with
  | number value => exact continueWith (h.number hst value) code callers s t
  | operator op =>
    cases op with
    | stem op => exact .next none code callers (h.declareHints hst)
    | mask op =>
      have hhints := h.declareHints hst
      simp only [Semantics.execute, skipMask, h.maskLength hhints]
      cases Bytes.slice (B.maskLength (B.declareHints t)) code with
      | error e => exact .fail (h.control (.data e))
      | ok read => exact .next none read.2 callers hhints
    | path op => exact continueWith (h.path hst op) code callers s t
    | stack op => exact continueWith (h.compute hst op) code callers s t
    | call scope => exact h.call hst scope code callers
    | ret =>
      cases callers with
      | nil => exact .done hst
      | cons caller callers => exact .next none caller callers hst
    | endchar => exact .done (h.clear hst)
    | dotsection => exact .next none code callers hst

/-- Every step leads to the same place. -/
theorem step (h : A.Simulates B R E) {s : σ} {t : τ} (hst : R s t) (code : Bytes)
    (callers : List Bytes) :
    Transition.Agree R E (A.step subroutines limit ⟨code, callers, s⟩)
      (B.step subroutines limit ⟨code, callers, t⟩) := by
  simp only [Semantics.step]
  cases Config.resume code callers with
  | none => exact .done hst
  | some place =>
    obtain ⟨code, callers⟩ := place
    simp only
    cases hdecode : Instruction.decode code with
    | error e => exact .fail (h.control (Instruction.isControl_of_decode hdecode))
    | ok read => exact h.execute hst read.2 callers read.1

/-- Executions of two semantics that keep a relation end with related data, or fail alike. -/
theorem run (h : A.Simulates B R E) (budget : Nat) {s : σ} {t : τ} (hst : R s t) (code : Bytes)
    (callers : List Bytes) :
    Agree R E (A.run subroutines limit budget ⟨code, callers, s⟩)
      (B.run subroutines limit budget ⟨code, callers, t⟩) := by
  induction budget generalizing s t code callers with
  | zero =>
    simp only [Semantics.run, Config.isFinished]
    by_cases hfinished : (Config.resume code callers).isNone = true
    · simp only [hfinished, ite_true]
      exact .ok hst
    · simp only [hfinished]
      exact .error (h.control .instructionLimit)
  | succ budget ih =>
    simp only [Semantics.run]
    have hstep : Transition.Agree R E (A.step subroutines limit ⟨code, callers, s⟩)
      (B.step subroutines limit ⟨code, callers, t⟩) := h.step hst code callers
    generalize A.step subroutines limit ⟨code, callers, s⟩ = next at hstep ⊢
    generalize B.step subroutines limit ⟨code, callers, t⟩ = next' at hstep ⊢
    cases hstep with
    | next called code callers hst => exact ih hst code callers
    | done hst => exact .ok hst
    | fail he => exact .error he

end Semantics.Simulates

end FontMetrics.Charstring
