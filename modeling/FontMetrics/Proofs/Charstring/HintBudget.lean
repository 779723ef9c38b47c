import FontMetrics.Binary64
import FontMetrics.Proofs.Charstring.Encoding
import FontMetrics.Proofs.Charstring.Invariant

/-!
# The budget pays for the hints

Nothing tests how many hints are declared.  They are bounded all the same: two operands are spent on
a hint, an instruction adds at most one operand, and every instruction takes one from the budget.
So twice the hints, the operands and what is left of the budget never add up to more than the budget
with which a glyph starts, in whatever subroutine the execution stands.
-/

namespace FontMetrics.Charstring

variable {σ : Type}

namespace Semantics

section Passes

variable (sem : Semantics σ) (subroutines : Subroutines) (limit : Option Nat)

/-- Running with a budget comes to stand at a place between two instructions, with so much of the
budget left. -/
inductive Passes : (budget : Nat) → Config σ → (left : Nat) → Config σ → Prop where
  /-- At the start nothing has been used. -/
  | refl (budget : Nat) (c : Config σ) : Passes budget c budget c
  /-- Every instruction takes one from the budget. -/
  | head {budget left : Nat} {called : Option Call} {c c' c'' : Config σ}
    (first : sem.step subroutines limit c = .next called c') (rest : Passes budget c' left c'') :
    Passes (budget + 1) c left c''

end Passes

variable {sem : Semantics σ} {subroutines : Subroutines} {limit : Option Nat}

/-- What is left of the budget counts the instructions. -/
theorem passes_iff {budget left : Nat} {c c' : Config σ} :
    sem.Passes subroutines limit budget c left c' ↔
      ∃ n, budget = n + left ∧ sem.Steps subroutines limit n c c' := by
  constructor
  · intro h
    induction h with
    | refl budget c => exact ⟨0, (Nat.zero_add budget).symm, .refl c⟩
    | head first _ ih =>
      obtain ⟨n, rfl, hsteps⟩ := ih
      exact ⟨n + 1, Nat.add_right_comm n _ 1, .head first hsteps⟩
  · rintro ⟨n, rfl, hsteps⟩
    induction hsteps with
    | refl c =>
      rw [Nat.zero_add]
      exact .refl left c
    | head first _ ih =>
      rw [Nat.add_right_comm]
      exact .head first ih

/-- From a place that it passes, running goes on with what is left of the budget. -/
theorem Passes.run_eq {budget left : Nat} {c c' : Config σ}
    (h : sem.Passes subroutines limit budget c left c') :
    sem.run subroutines limit budget c = sem.run subroutines limit left c' := by
  obtain ⟨n, rfl, hsteps⟩ := passes_iff.mp h
  exact run_steps hsteps left

/-- A property of the data that every instruction maintains holds at every place, for the number of
instructions that the budget has paid for. -/
theorem Maintains.passes {I : Nat → σ → Prop} (h : sem.Maintains I) {budget left : Nat}
    {c c' : Config σ} (hc : I 0 c.data) (hpasses : sem.Passes subroutines limit budget c left c') :
    I (budget - left) c'.data := by
  obtain ⟨n, rfl, hsteps⟩ := passes_iff.mp hpasses
  have hn := h.steps hc hsteps
  rwa [Nat.zero_add, ← Nat.add_sub_cancel n left] at hn

/-- What is left is a part of the budget. -/
theorem Passes.left_le {budget left : Nat} {c c' : Config σ}
    (h : sem.Passes subroutines limit budget c left c') : left ≤ budget := by
  obtain ⟨n, rfl, -⟩ := passes_iff.mp h
  exact Nat.le_add_left left n

/-- A mask operator passes over as many bytes as its mask has. -/
theorem skips_mask {c c' rest : Config σ} {op : MaskOperator} {called : Option Call}
    (hfetch : c.fetch = some (.ok (.operator (.mask op), rest)))
    (hstep : sem.step subroutines limit c = .next called c') :
    ∃ mask, rest.code = mask ++ c'.code ∧
      mask.length = sem.maskLength (sem.declareHints c.data) := by
  rw [step_of_fetch_ok hfetch] at hstep
  cases executes_of_execute hstep with
  | mask op hslice =>
    rw [← (Config.fetch_frame hfetch).1]
    exact ⟨_, Bytes.slice_eq_ok_iff.mp hslice⟩

/-- The glyph ends with the data at its last place, or with these cleared. -/
theorem eq_or_eq_clear_of_done {c : Config σ} {data : σ}
    (h : sem.step subroutines limit c = .done data) : data = c.data ∨ data = sem.clear c.data := by
  cases hfetch : c.fetch with
  | none =>
    rw [step_of_fetch_none hfetch] at h
    cases h
    exact .inl rfl
  | some read =>
    rcases read with e | ⟨i, rest⟩
    · rw [step_of_fetch_error hfetch] at h
      cases h
    · rw [step_of_fetch_ok hfetch] at h
      rw [← (Config.fetch_frame hfetch).1]
      rcases done_of_execute h with ⟨-, hdata⟩ | ⟨-, -, hdata⟩
      · exact .inr hdata
      · exact .inl hdata

end Semantics

variable {α : Type} [Scalar α]

/-- What holds of the hints at a place where so much of the budget is left. -/
structure PaidByBudget (subroutines : Subroutines) (left : Nat) (c : Config (State α)) : Prop where
  /-- Hints, which cost two, operands and what is left share the budget. -/
  total_le : 2 * c.data.hints + c.data.stack.size + left ≤ 2 ^ 20
  /-- They still do when the glyph ends here. -/
  total_done_le : ∀ data, State.semantics.step subroutines (some nestingLimit) c = .done data →
    2 * data.hints + data.stack.size + left ≤ 2 ^ 20
  /-- There are never more hints than half of the budget, also after those of the next
  instruction. -/
  hints_le : c.data.hints ≤ 2 ^ 19 ∧ c.data.declareHints.hints ≤ 2 ^ 19
  /-- Counting the hints of the next instruction does not leave a word of 32 bits. -/
  sum_lt : c.data.hints + c.data.stack.size / 2 < 2 ^ 32
  /-- A mask has at most 65536 bytes, whether they are there or not. -/
  maskLength_le : c.data.declareHints.maskLength ≤ 65536
  /-- No more are passed over. -/
  skipped_le : ∀ op rest called c', c.fetch = some (.ok (.operator (.mask op), rest)) →
    State.semantics.step subroutines (some nestingLimit) c = .next called c' →
    ∃ mask, rest.code = mask ++ c'.code ∧ mask.length ≤ 65536

/-- The bounds follow from the sum alone. -/
theorem PaidByBudget.of_total_le {subroutines : Subroutines} {left : Nat} {c : Config (State α)}
    (h : 2 * c.data.hints + c.data.stack.size + left ≤ 2 ^ 20) :
    PaidByBudget subroutines left c := by
  have hdeclared : c.data.declareHints.hints = c.data.hints + c.data.stack.size / 2 := rfl
  have hmask : c.data.declareHints.maskLength ≤ 65536 := by
    rw [State.maskLength, hdeclared]
    omega
  constructor
  case total_le => exact h
  case total_done_le =>
    intro data hdone
    rcases Semantics.eq_or_eq_clear_of_done hdone with rfl | rfl
    · exact h
    · change 2 * c.data.hints + 0 + left ≤ 2 ^ 20
      omega
  case hints_le => exact ⟨by omega, by omega⟩
  case sum_lt => omega
  case maskLength_le => exact hmask
  case skipped_le =>
    intro op rest called c' hfetch hstep
    obtain ⟨mask, hcode, hlength⟩ := Semantics.skips_mask hfetch hstep
    exact ⟨mask, hcode, Nat.le_trans (Nat.le_of_eq hlength) hmask⟩

/-- Wherever the execution of a glyph comes to stand, the instructions that were executed have paid
for the hints and the operands. -/
theorem hints_paid_by_budget {subroutines : Subroutines} {code : Bytes} {left : Nat}
    {c : Config (State α)}
    (h : State.semantics.Passes subroutines (some nestingLimit) instructionLimit
      (.start code .initial) left c) :
    PaidByBudget subroutines left c := by
  have hstart : 2 * (State.initial : State α).hints + (State.initial : State α).stack.size ≤ 0 :=
    Nat.le_refl 0
  have htotal : 2 * c.data.hints + c.data.stack.size ≤ 2 ^ 20 - left :=
    State.maintains_hints.passes hstart h
  have hleft : left ≤ 2 ^ 20 := h.left_le
  exact .of_total_le (by omega)

/-- A subroutine copies its operand and draws a random number.  A stem operator makes one hint of
the three operands; two more wait for the mask operator that comes next. -/
theorem hints_paid_by_budget_subroutine :
    let code : Bytes := [144, 32, 29, 14]
    let subroutines : Subroutines :=
      ⟨#[[12, 27, 12, 23, 1, 144, 144, 19, 255, 11]], .missing⟩
    ∃ c rest : Config (State Float),
      State.semantics.Passes subroutines (some nestingLimit) instructionLimit
        (.start code .initial) (2 ^ 20 - 8) c ∧
      c.fetch = some (.ok (.operator (.mask .hintmask), rest)) ∧ c.depth = 1 ∧
      c.data.hints = 1 ∧ c.data.stack.size = 2 ∧ PaidByBudget subroutines (2 ^ 20 - 8) c := by
  intro code subroutines
  obtain ⟨c, rest, hsteps, hfetch, hdepth, hhints, hsize⟩ :
      ∃ c rest : Config (State Float),
        State.semantics.Steps subroutines (some nestingLimit) 8 (.start code .initial) c ∧
        c.fetch = some (.ok (.operator (.mask .hintmask), rest)) ∧ c.depth = 1 ∧
        c.data.hints = 1 ∧ c.data.stack.size = 2 := by
    subst subroutines
    refine ⟨_, _, .head rfl (.head rfl (.head rfl (.head rfl (.head rfl (.head rfl (.head rfl
      (.head rfl (.refl _)))))))), rfl, rfl, ?_, rfl⟩
    decide +kernel
  have hpasses : State.semantics.Passes subroutines (some nestingLimit) instructionLimit
      (.start code .initial) (2 ^ 20 - 8) c := Semantics.passes_iff.mpr ⟨8, rfl, hsteps⟩
  exact ⟨c, rest, hpasses, hfetch, hdepth, hhints, hsize, hints_paid_by_budget hpasses⟩

end FontMetrics.Charstring
