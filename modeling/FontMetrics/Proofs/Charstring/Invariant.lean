import FontMetrics.Proofs.Charstring.Effects
import FontMetrics.Proofs.Charstring.Execution

/-!
# Invariants of executions

A property of the data and of the number of instructions executed so far that every instruction
maintains holds along every execution.  Two such properties of execution states: the outline is only
ever drawn on, and two operands are spent on every hint, each of which took an instruction.
-/

namespace FontMetrics.Charstring

variable {σ : Type}

/-- Every instruction takes data with the property to data with the property, one instruction
later. -/
structure Semantics.Maintains (sem : Semantics σ) (I : Nat → σ → Prop) : Prop where
  /-- Instructions that only move to another place. -/
  idle {n : Nat} {s : σ} (h : I n s) : I (n + 1) s
  number {n : Nat} {s s' : σ} {value : Fixed} (h : I n s) (hs : sem.number value s = .ok s') :
    I (n + 1) s'
  declareHints {n : Nat} {s : σ} (h : I n s) : I (n + 1) (sem.declareHints s)
  path {n : Nat} {s s' : σ} {op : PathOperator} (h : I n s) (hs : sem.path op s = .ok s') :
    I (n + 1) s'
  compute {n : Nat} {s s' : σ} {op : StackOperator} (h : I n s)
    (hs : sem.compute op s = .ok s') : I (n + 1) s'
  popIndex {n size i : Nat} {s s' : σ} (h : I n s) (hs : sem.popIndex size s = .ok (i, s')) :
    I (n + 1) s'
  clear {n : Nat} {s : σ} (h : I n s) : I (n + 1) (sem.clear s)

namespace Semantics.Maintains

variable {sem : Semantics σ} {I : Nat → σ → Prop} {subroutines : Subroutines} {limit : Option Nat}

/-- One instruction maintains the property. -/
theorem step (h : sem.Maintains I) {n : Nat} {c c' : Config σ} {called : Option Call}
    (hc : I n c.data) (hstep : sem.step subroutines limit c = .next called c') :
    I (n + 1) c'.data := by
  obtain ⟨i, rest, hfetch, hexecutes⟩ := exists_step_iff.mp ⟨called, hstep⟩
  rw [← (Config.fetch_frame hfetch).1] at hc
  cases hexecutes with
  | number hs => exact h.number hc hs
  | stem op => exact h.declareHints hc
  | mask op hslice => exact h.declareHints hc
  | path hs => exact h.path hc hs
  | compute hs => exact h.compute hc hs
  | call htable hdepth hindex hcode => exact h.popIndex hc hindex
  | ret hcallers => exact h.idle hc
  | dotsection => exact h.idle hc

/-- Executions maintain the property. -/
theorem steps (h : sem.Maintains I) {m n : Nat} {c c' : Config σ} (hc : I m c.data)
    (hsteps : sem.Steps subroutines limit n c c') : I (m + n) c'.data := by
  induction hsteps generalizing m with
  | refl => exact hc
  | @head n called c mid last first _ ih =>
    have hlast := ih (h.step hc first)
    rwa [Nat.add_right_comm, Nat.add_assoc] at hlast

/-- The data with which a glyph ends have the property. -/
theorem done (h : sem.Maintains I) {n : Nat} {c : Config σ} {data : σ} (hc : I n c.data)
    (hstep : sem.step subroutines limit c = .done data) : I (n + 1) data := by
  cases hfetch : c.fetch with
  | none =>
    rw [step_of_fetch_none hfetch] at hstep
    cases hstep
    exact h.idle hc
  | some read =>
    rcases read with e | ⟨i, rest⟩
    · rw [step_of_fetch_error hfetch] at hstep
      cases hstep
    · rw [step_of_fetch_ok hfetch] at hstep
      rw [← (Config.fetch_frame hfetch).1] at hc
      rcases done_of_execute hstep with ⟨-, rfl⟩ | ⟨-, -, rfl⟩
      · exact h.clear hc
      · exact h.idle hc

/-- What an execution ends with has the property. -/
theorem run (h : sem.Maintains I) {m budget : Nat} {c : Config σ} {data : σ} (hc : I m c.data)
    (hrun : sem.run subroutines limit budget c = .ok data) : ∃ n, I n data := by
  obtain ⟨n, -, ⟨last, hsteps, hresult⟩ | ⟨-, -, herror⟩⟩ := run_ends budget c
  · rw [hrun] at hresult
    have hdone : sem.step subroutines limit last = .done data := by
      cases hstep : sem.step subroutines limit last with
      | next called c' => rw [hstep] at hresult; cases hresult
      | done data' => rw [hstep] at hresult; cases hresult; rfl
      | fail e => rw [hstep] at hresult; cases hresult
    exact ⟨_, h.done (h.steps hc hsteps) hdone⟩
  · rw [hrun] at herror
    cases herror

end Semantics.Maintains

namespace State

variable {α : Type}

variable [Scalar α]

/-- Executions only ever draw on the outline that they start with. -/
theorem maintains_draw (o : Outline α) :
    (semantics : Semantics (State α)).Maintains fun _ s => ∃ path, s.outline = o.draw path where
  idle h := h
  number := by
    rintro n s s' value ⟨path, h⟩ hs
    exact ⟨path, ((computes_push _ s).value hs).outline.trans h⟩
  declareHints h := h
  path := by
    rintro n s s' op ⟨path, h⟩ hs
    obtain ⟨more, rfl⟩ := exists_of_drawPath hs
    exact ⟨path ++ more, by rw [Outline.draw_append, ← h]⟩
  compute := by
    rintro n s s' op ⟨path, h⟩ hs
    exact ⟨path, ((computes_compute op s).value hs).outline.trans h⟩
  popIndex := by
    rintro n size i s s' ⟨path, h⟩ hs
    have hmoves := (computes_popIndex size s).value hs
    exact ⟨path, hmoves.outline.trans h⟩
  clear h := h

/-- An operator that computes leaves at most one operand more than it found. -/
theorem pushed_le_popped (op : StackOperator) : op.pushed ≤ op.popped + 1 := by
  cases op <;> decide

/-- Two operands are spent on every hint, and no instruction adds more than one operand. -/
theorem maintains_hints :
    (semantics : Semantics (State α)).Maintains fun n s => 2 * s.hints + s.stack.size ≤ n where
  idle h := Nat.le_succ_of_le h
  number := by
    intro n s s' value h hs
    have hmoves := (computes_push _ s).value hs
    have hsize := hmoves.size
    rw [hmoves.hints]
    omega
  declareHints := by
    intro n s h
    change 2 * (s.hints + s.stack.size / 2) + 0 ≤ n + 1
    omega
  path := by
    intro n s s' op h hs
    obtain ⟨path, rfl⟩ := exists_of_drawPath hs
    change 2 * s.hints + 0 ≤ n + 1
    omega
  compute := by
    intro n s s' op h hs
    have hmoves := (computes_compute op s).value hs
    have hsize := hmoves.size
    have hop := pushed_le_popped op
    rw [hmoves.hints]
    omega
  popIndex := by
    intro n size i s s' h hs
    have hmoves := (computes_popIndex size s).value hs
    have hsize : s'.stack.size + 1 = s.stack.size + 0 := hmoves.size
    have hhints : s'.hints = s.hints := hmoves.hints
    rw [hhints]
    omega
  clear := by
    intro n s h
    change 2 * s.hints + 0 ≤ n + 1
    omega

end State

end FontMetrics.Charstring
