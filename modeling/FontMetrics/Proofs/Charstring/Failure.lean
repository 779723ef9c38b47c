import FontMetrics.Proofs.Charstring.Encoding
import FontMetrics.Proofs.Charstring.Execution

/-!
# How executions fail

The causes for which an instruction fails, with everything that is known where it does.  Together
with `Executes`, which says how an execution goes on, and `done_of_execute`, which says how a glyph
ends, this is all that an instruction can lead to.
-/

namespace FontMetrics.Charstring

variable {σ : Type}

namespace Semantics

variable (sem : Semantics σ) (subroutines : Subroutines) (limit : Option Nat)

/-- Why an instruction fails in the configuration behind it. -/
inductive Fails : Config σ → Instruction → Error → Prop where
  /-- A number cannot be pushed. -/
  | number {c : Config σ} {value : Fixed} {e : Error} (h : sem.number value c.data = .error e) :
    Fails c (.number value) e
  /-- The mask breaks off. -/
  | mask {c : Config σ} (op : MaskOperator) {e : DataError}
    (h : Bytes.slice (sem.maskLength (sem.declareHints c.data)) c.code = .error e) :
    Fails c (.operator (.mask op)) (.data e)
  /-- The operands are not those of a path. -/
  | path {c : Config σ} {op : PathOperator} {e : Error} (h : sem.path op c.data = .error e) :
    Fails c (.operator (.path op)) e
  /-- The operands are not those of the computation. -/
  | compute {c : Config σ} {op : StackOperator} {e : Error}
    (h : sem.compute op c.data = .error e) : Fails c (.operator (.stack op)) e
  /-- There is no table of subroutines. -/
  | table {c : Config σ} {scope : SubroutineScope} {e : Error}
    (h : subroutines.table scope = .error e) : Fails c (.operator (.call scope)) e
  /-- Too many callers wait. -/
  | nesting {c : Config σ} {scope : SubroutineScope} {table : SubroutineTable}
    (htable : subroutines.table scope = .ok table) (hdepth : limit = some c.depth) :
    Fails c (.operator (.call scope)) .nestingLimit
  /-- The operand of the call is not an index. -/
  | index {c : Config σ} {scope : SubroutineScope} {table : SubroutineTable} {e : Error}
    (htable : subroutines.table scope = .ok table) (hdepth : limit ≠ some c.depth)
    (hindex : sem.popIndex table.size c.data = .error e) : Fails c (.operator (.call scope)) e
  /-- The index is not one of the table. -/
  | subroutine {c : Config σ} {scope : SubroutineScope} {table : SubroutineTable} {index : Nat}
    {data : σ} (htable : subroutines.table scope = .ok table) (hdepth : limit ≠ some c.depth)
    (hindex : sem.popIndex table.size c.data = .ok (index, data)) (hcode : table[index]? = none) :
    Fails c (.operator (.call scope)) .subroutineIndex

variable {sem subroutines limit}

private theorem error_of_continueWith {c : Config σ} {r : Except Error σ} {e : Error}
    (h : c.continueWith r = .fail e) : r = .error e := by
  cases r with
  | ok data => cases h
  | error e' => cases h; rfl

/-- The relation says all the ways in which an instruction can fail. -/
theorem fails_of_execute {c : Config σ} {i : Instruction} {e : Error}
    (h : sem.execute subroutines limit c i = .fail e) : sem.Fails subroutines limit c i e := by
  cases i with
  | number value => exact .number (error_of_continueWith h)
  | operator op =>
    cases op with
    | path op => exact .path (error_of_continueWith h)
    | stack op => exact .compute (error_of_continueWith h)
    | mask op =>
      simp only [execute, skipMask] at h
      split at h
      · next hslice => cases h; exact .mask op hslice
      · cases h
    | call scope =>
      simp only [execute, call] at h
      split at h
      · next htable => cases h; exact .table htable
      · next table htable =>
        split at h
        · next hdepth => cases h; exact .nesting htable hdepth
        · next hdepth =>
          split at h
          · next hindex => cases h; exact .index htable hdepth hindex
          · next hindex =>
            split at h
            · next hcode => cases h; exact .subroutine htable hdepth hindex hcode
            · cases h
    | ret =>
      simp only [execute, ret] at h
      split at h <;> cases h
    | stem op | endchar | dotsection => cases h

/-- An instruction fails in every such way. -/
theorem execute_of_fails {c : Config σ} {i : Instruction} {e : Error}
    (h : sem.Fails subroutines limit c i e) : sem.execute subroutines limit c i = .fail e := by
  cases h with
  | number h | path h | compute h => simp only [execute, h, Config.continueWith]
  | mask op h => simp only [execute, skipMask, h]
  | table h => simp only [execute, call, h]
  | nesting htable hdepth => simp only [execute, call, htable, hdepth, if_pos]
  | index htable hdepth hindex => simp only [execute, call, htable, hdepth, if_false, hindex]
  | subroutine htable hdepth hindex hcode =>
    simp only [execute, call, htable, hdepth, if_false, hindex, hcode]

/-- A step fails for its bytes or for its instruction. -/
theorem fails_of_step {c : Config σ} {e : Error} (h : sem.step subroutines limit c = .fail e) :
    c.fetch = some (.error e) ∨
      ∃ i rest, c.fetch = some (.ok (i, rest)) ∧ sem.Fails subroutines limit rest i e := by
  cases hfetch : c.fetch with
  | none => rw [step_of_fetch_none hfetch] at h; cases h
  | some read =>
    rcases read with e' | ⟨i, rest⟩
    · rw [step_of_fetch_error hfetch] at h
      cases h
      exact Or.inl rfl
    · rw [step_of_fetch_ok hfetch] at h
      exact Or.inr ⟨i, rest, rfl, fails_of_execute h⟩

end Semantics

/-- Reading the next instruction fails as reading its bytes does. -/
theorem Config.error_of_fetch {c : Config σ} {e : Error} (h : c.fetch = some (.error e)) :
    e = .data .endOfData ∨ ∃ escaped code, e = .invalidOperator escaped code := by
  unfold fetch at h
  split at h
  · cases h
  · split at h
    · next hdecode => cases h; exact Instruction.error_of_decode hdecode
    · cases h

end FontMetrics.Charstring
