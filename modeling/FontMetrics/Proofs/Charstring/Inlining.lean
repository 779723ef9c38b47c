import FontMetrics.Charstring.Bounds
import FontMetrics.Proofs.Binary64.Exact
import FontMetrics.Proofs.Charstring.Context

/-!
# Moving code into a subroutine

A stretch of a glyph's charstring may be replaced by a call of a subroutine that consists of it and
a return.  The execution of the shorter charstring follows that of the longer one: up to the
stretch, where the call takes two more instructions; through the stretch, with one more caller
waiting; and behind it, where the return takes a third one.  Nothing but the place in the code
distinguishes the two on the way, so they end alike.
-/

namespace FontMetrics.Charstring

variable {σ : Type}

open Instruction (Encodes)

/-- The byte that calls into a table. -/
def SubroutineScope.callCode : SubroutineScope → UInt8
  | .localScope => 10
  | .globalScope => 29

/-- The byte that returns from a subroutine. -/
def returnCode : UInt8 := 11

theorem encodes_call (scope : SubroutineScope) :
    Encodes [scope.callCode] (.operator (.call scope)) := by
  cases scope <;> rfl

theorem encodes_ret : Encodes [returnCode] (.operator .ret) := rfl

namespace Config

/-- The instruction whose code comes next is read. -/
theorem fetch_append {code : Bytes} {i : Instruction} (h : Encodes code i) (rest : Bytes)
    (callers : List Bytes) (data : σ) :
    (⟨code ++ rest, callers, data⟩ : Config σ).fetch = some (.ok (i, ⟨rest, callers, data⟩)) :=
  fetch_eq_ok_iff.mpr ⟨code, rest, callers, h,
    resume_of_ne_nil callers (List.append_ne_nil_of_left_ne_nil h.ne_nil rest), rfl⟩

end Config

namespace Semantics

variable {sem : Semantics σ} {subroutines : Subroutines} {limit : Option Nat}

/-- One instruction whose code comes next. -/
theorem reaches_of_executes {code rest : Bytes} {callers : List Bytes} {data : σ} {i : Instruction}
    {c' : Config σ} (hcode : Encodes code i)
    (h : sem.Executes subroutines limit ⟨rest, callers, data⟩ i c') :
    sem.Reaches subroutines limit 1 ⟨code ++ rest, callers, data⟩ c'.settle := by
  obtain ⟨called, hstep⟩ := exists_step_iff.mpr
    ⟨i, _, Config.fetch_append hcode rest callers data, h⟩
  exact ⟨c', .head hstep (.refl c'), rfl⟩

/-- What is reached in front of some code is reached in front of any other. -/
theorem Reaches.replace_after {n depth : Nat} {before after : Bytes} {data data' : σ}
    (h : sem.Reaches subroutines (some depth) n (.start (before ++ after) data)
      (.start after data')) (other : Bytes) :
    sem.Reaches subroutines (some depth) n (.start (before ++ other) data)
      (.start other data') := by
  have hown : sem.Reaches subroutines (some depth) n (.start before data) (.start [] data') :=
    Reaches.of_extend (c := .start before data) h
  have hother := hown.extend other [] fun m mid hsteps _ most hmost => by
    cases hmost
    exact depth_le_of_steps (Nat.zero_le _) hsteps
  simpa only [Config.start, Config.extend_top, Config.settle_top, List.nil_append] using hother

/-- A subroutine made of some code has the effect of that code. -/
theorem reaches_of_call {scope : SubroutineScope} {table : SubroutineTable} {index depth n : Nat}
    {code body after : Bytes} {value : Fixed} {data pushed data' : σ}
    (htable : subroutines.table scope = .ok table)
    (hsubroutine : table[index]? = some (body ++ [returnCode]))
    (hcode : Encodes code (.number value)) (hnumber : sem.number value data = .ok pushed)
    (hindex : sem.popIndex table.size pushed = .ok (index, data))
    (hbody : sem.Reaches subroutines (some depth) n (.start (body ++ after) data)
      (.start after data'))
    (hdepth : ∀ m ≤ n, ∀ c, sem.Steps subroutines (some depth) m (.start (body ++ after) data) c →
      c.depth < depth) :
    sem.Reaches subroutines (some depth) (n + 3)
      (.start (code ++ scope.callCode :: after) data) (.start after data') := by
  have hpos : 0 < depth := hdepth 0 (Nat.zero_le _) _ (.refl _)
  have hpush : sem.Reaches subroutines (some depth) 1
      (.start (code ++ scope.callCode :: after) data) (.start (scope.callCode :: after) pushed) :=
    reaches_of_executes hcode (.number hnumber)
  have hcall : sem.Reaches subroutines (some depth) 1 (.start (scope.callCode :: after) pushed)
      ⟨body ++ [returnCode], [after], data⟩ := by
    have hne : some depth ≠ some (Config.start after pushed).depth := by
      simpa [Config.depth, Config.start] using hpos.ne'
    have hsettle := reaches_of_executes (encodes_call scope)
      (.call (c := .start after pushed) htable hne hindex hsubroutine)
    rwa [Config.settle_of_ne_nil _ _ (by simp)] at hsettle
  have hown : sem.Reaches subroutines (some depth) n (.start body data) (.start [] data') :=
    Reaches.of_extend (c := .start body data) hbody
  have hinside : sem.Reaches subroutines (some depth) n ⟨body ++ [returnCode], [after], data⟩
      ⟨[returnCode], [after], data'⟩ := by
    refine hown.extend [returnCode] [after] fun m mid hsteps hm most hmost => ?_
    -- One more caller waits than in front of `after`, where there is room for it.
    have hinline := hsteps.extend after [] fun k late hlate _ most hmost => by
      cases hmost
      exact depth_le_of_steps (Nat.zero_le _) hlate
    have hroom := hdepth m hm _ hinline
    rw [Config.depth_extend] at hroom
    cases hmost
    exact hroom
  have hreturn : sem.Reaches subroutines (some depth) 1 ⟨[returnCode], [after], data'⟩
      (.start after data') := by
    have hexecutes : sem.Executes subroutines (some depth) ⟨[], [after], data'⟩ (.operator .ret)
        (.start after data') := .ret rfl
    have hsettle := reaches_of_executes encodes_ret hexecutes
    rwa [Config.start, Config.settle_top] at hsettle
  have hall := ((hpush.trans hcall).trans hinside).trans hreturn
  rwa [show 1 + 1 + n + 1 = n + 3 by omega] at hall

/-- Two charstrings of which one has a call where the other has the subroutine's code end alike,
if the budget is large enough for the instructions that the call adds. -/
theorem run_call_eq_run {scope : SubroutineScope} {table : SubroutineTable}
    {index depth budget m n : Nat} {before code body after : Bytes} {value : Fixed}
    {start data pushed data' : σ} (htable : subroutines.table scope = .ok table)
    (hsubroutine : table[index]? = some (body ++ [returnCode]))
    (hcode : Encodes code (.number value)) (hnumber : sem.number value data = .ok pushed)
    (hindex : sem.popIndex table.size pushed = .ok (index, data))
    (hbefore : sem.Reaches subroutines (some depth) m (.start (before ++ (body ++ after)) start)
      (.start (body ++ after) data))
    (hbody : sem.Reaches subroutines (some depth) n (.start (body ++ after) data)
      (.start after data'))
    (hdepth : ∀ k ≤ n, ∀ c, sem.Steps subroutines (some depth) k (.start (body ++ after) data) c →
      c.depth < depth)
    (hcount : sem.StartsAtMost subroutines (some depth) budget
      (.start (before ++ (body ++ after)) start)) :
    sem.run subroutines (some depth) (budget + 3)
        (.start (before ++ (code ++ scope.callCode :: after)) start) =
      sem.run subroutines (some depth) (budget + 3) (.start (before ++ (body ++ after)) start) := by
  have hinline := hbefore.trans hbody
  have hcalled := (hbefore.replace_after (code ++ scope.callCode :: after)).trans
    (reaches_of_call htable hsubroutine hcode hnumber hindex hbody hdepth)
  obtain ⟨hle, hrest⟩ := hcount.of_reaches hinline
  obtain ⟨rest, rfl⟩ : ∃ rest, budget = m + n + rest := ⟨budget - (m + n), by omega⟩
  rw [Nat.add_sub_cancel_left] at hrest
  calc
    _ = sem.run subroutines (some depth) (m + (n + 3) + rest)
        (.start (before ++ (code ++ scope.callCode :: after)) start) := by
      rw [show m + n + rest + 3 = m + (n + 3) + rest by omega]
    _ = sem.run subroutines (some depth) rest (.start after data') := run_reaches hcalled rest
    _ = sem.run subroutines (some depth) (rest + 3) (.start after data') :=
      (run_of_startsAtMost hrest (Nat.le_add_right rest 3)).symm
    _ = sem.run subroutines (some depth) (m + n + (rest + 3))
        (.start (before ++ (body ++ after)) start) := (run_reaches hinline (rest + 3)).symm

end Semantics

/-- What was pushed is popped, and the state is as before. -/
theorem State.pop_of_push {α : Type} {x : α} {s pushed : State α} (h : s.push x = .ok pushed) :
    pushed.pop = .ok (x, s) := by
  simp only [State.push, OperandStack.push] at h
  split at h
  · cases h
  · next hstack =>
    split at hstack
    · cases hstack
      cases h
      rfl
    · cases hstack

/-- The operand of a call is on the top. -/
theorem State.popIndex_of_pop {α : Type} [Scalar α] {x : α} {s below : State α}
    (h : s.pop = .ok (x, below)) (size : Nat) :
    s.popIndex size = (Subroutine.index size x).map (·, below) := by
  rw [State.popIndex, h]
  change (do let i ← Subroutine.index size x; return (i, below)) = _
  cases Subroutine.index size x <;> rfl

/-- Popping the operand of a call right after it was pushed restores the state. -/
theorem State.popIndex_of_push {α : Type} [Scalar α] {x : α} {s pushed : State α} {size i : Nat}
    (hpush : s.push x = .ok pushed) (hindex : Subroutine.index size x = .ok i) :
    pushed.popIndex size = .ok (i, s) := by
  rw [State.popIndex_of_pop (State.pop_of_push hpush), hindex]
  rfl

/-- There is room for another operand below the limit. -/
theorem State.exists_push {α : Type} [Scalar α] (x : α) {s : State α}
    (h : s.stack.size < stackLimit) : ∃ pushed, s.push x = .ok pushed := by
  simp only [State.push, OperandStack.push]
  have hlt : s.stack.fromTop.length < stackLimit := h
  rw [dif_pos hlt]
  exact ⟨_, rfl⟩

theorem Subroutine.bias_le (size : Nat) : Subroutine.bias size ≤ 32768 := by
  unfold Subroutine.bias
  split_ifs <;> decide

/-- Every number in a charstring that names a subroutine names it exactly. -/
theorem Subroutine.index_of_encodes {code : Bytes} {size i : Nat}
    (h : Encodes code (.number (.ofInt ((i : Int) - Subroutine.bias size)))) :
    Subroutine.index size ((Fixed.ofInt ((i : Int) - Subroutine.bias size)).toScalar : Float) =
      .ok i := by
  have hbias := Subroutine.bias_le size
  obtain ⟨hlow, hhigh⟩ := Instruction.units_of_decode h
  simp only [Fixed.ofInt] at hlow hhigh
  unfold Subroutine.index
  rw [Binary64.truncate_ofInt (by omega)]
  have hoperand : isInt32 ((i : Int) - Subroutine.bias size) = true := by
    simp only [isInt32, Bool.and_eq_true, decide_eq_true_eq]
    omega
  have hindex : isInt32 i = true := by
    simp only [isInt32, Bool.and_eq_true, decide_eq_true_eq]
    omega
  simp [hoperand, hindex]

/-- Moving a stretch of a glyph's charstring into a subroutine of either table changes neither the
final state nor the bounds, whether the execution succeeds or fails. -/
theorem glyphBounds_call_eq_inline {subroutines : Subroutines} {scope : SubroutineScope}
    {table : SubroutineTable} {i m n : Nat} {before code body after : Bytes} {s s' : State Float}
    (htable : subroutines.table scope = .ok table)
    (hsubroutine : table[i]? = some (body ++ [returnCode]))
    (hcode : Encodes code (.number (.ofInt ((i : Int) - Subroutine.bias table.size))))
    (hbefore : State.semantics.Reaches subroutines (some nestingLimit) m
      (.start (before ++ body ++ after) .initial) (.start (body ++ after) s))
    (hbody : State.semantics.Reaches subroutines (some nestingLimit) n
      (.start (body ++ after) s) (.start after s'))
    (hstack : s.stack.size ≤ 47)
    (hdepth : ∀ k ≤ n, ∀ c, State.semantics.Steps subroutines (some nestingLimit) k
      (.start (body ++ after) s) c → c.depth ≤ 9)
    (hcount : State.semantics.StartsAtMost subroutines (some nestingLimit) (instructionLimit - 3)
      (.start (before ++ body ++ after) (.initial : State Float))) :
    finalState (α := Float) (before ++ code ++ [scope.callCode] ++ after) subroutines =
        finalState (before ++ body ++ after) subroutines ∧
      glyphBounds (α := Float) (before ++ code ++ [scope.callCode] ++ after) subroutines =
        glyphBounds (before ++ body ++ after) subroutines := by
  obtain ⟨pushed, hpush⟩ := State.exists_push
    (Fixed.ofInt ((i : Int) - Subroutine.bias table.size)).toScalar
    (Nat.lt_succ_of_le hstack : s.stack.size < stackLimit)
  have hpop := State.popIndex_of_push hpush (Subroutine.index_of_encodes hcode)
  simp only [List.append_assoc, List.singleton_append] at hbefore hcount ⊢
  have hrun := Semantics.run_call_eq_run htable hsubroutine hcode hpush hpop hbefore hbody
    (fun k hk c hc => Nat.lt_succ_of_le (hdepth k hk c hc)) hcount
  have hstate : finalState (α := Float) (before ++ (code ++ scope.callCode :: after)) subroutines =
      finalState (before ++ (body ++ after)) subroutines := hrun
  exact ⟨hstate, by rw [glyphBounds, glyphBounds, hstate]⟩

/-- A stretch that calls a subroutine itself and leaves operands to the code behind it. -/
theorem glyphBounds_call_eq_inline_nested :
    let subroutines : Subroutines := ⟨#[], .table #[[33, 10, 140, 141, 11], [149, 159, 5, 11]]⟩
    finalState (α := Float) ([239, 4] ++ [32] ++ [10] ++ [5, 14]) subroutines =
        finalState ([239, 4] ++ [33, 10, 140, 141] ++ [5, 14]) subroutines ∧
      glyphBounds (α := Float) ([239, 4] ++ [32] ++ [10] ++ [5, 14]) subroutines =
        glyphBounds ([239, 4] ++ [33, 10, 140, 141] ++ [5, 14]) subroutines := by
  intro subroutines
  have hbefore : ∃ s : State Float, State.semantics.Steps subroutines (some nestingLimit) 2
      (.start [239, 4, 33, 10, 140, 141, 5, 14] .initial) (.start [33, 10, 140, 141, 5, 14] s) ∧
      s.stack.size ≤ 47 ∧ ∃ s' : State Float,
        State.semantics.Steps subroutines (some nestingLimit) 8
          (.start [33, 10, 140, 141, 5, 14] s) (.start [5, 14] s') ∧
        ∃ result, State.semantics.Ends subroutines (some nestingLimit) 1 (.start [5, 14] s')
          result :=
    ⟨_, .head rfl (.head rfl (.refl _)), by decide, _,
      .head rfl (.head rfl (.head rfl (.head rfl (.head rfl (.head rfl (.head rfl
        (.head rfl (.refl _)))))))), _, _, .head rfl (.refl _), rfl⟩
  obtain ⟨s, hm, hstack, s', hn, result, last, hlast, hresult⟩ := hbefore
  have htable : subroutines.table .localScope = .ok _ := rfl
  refine glyphBounds_call_eq_inline (i := 0) htable rfl rfl ⟨_, hm, rfl⟩ ⟨_, hn, rfl⟩ hstack
    (fun k hk c hc => ?_) fun c hc => ?_
  · have hle := hc.depth_le_add
    change c.depth ≤ 0 + k at hle
    omega
  · have hle := Semantics.Ends.le ⟨last, hm.trans (hn.trans hlast), hresult⟩ hc
    simp [instructionLimit] at hle

end FontMetrics.Charstring
