import FontMetrics.Proofs.Charstring.Extension
import FontMetrics.Proofs.Checked.Result

/-!
# Subroutines by recursion

The execution of a glyph in which calling a subroutine is a recursive call, and a suspended caller
is one whose recursive call has not come back yet.  The end of the glyph is then met in some frame,
and the frames around it are told by a flag, which they must look at after every call.

This execution comes to the same end as the one that keeps the suspended callers in a list.  Where
that one stops at `endchar`, all frames are left at once, without another instruction; where it goes
on behind a call, the frame that called does so.
-/

namespace FontMetrics.Charstring

variable {σ : Type}

/-- The instruction neither enters nor leaves a frame. -/
def Instruction.StaysInFrame : Instruction → Prop
  | .operator (.call _) | .operator .ret | .operator .endchar => False
  | _ => True

theorem Instruction.frame_cases (i : Instruction) :
    (∃ scope, i = .operator (.call scope)) ∨ i = .operator .ret ∨ i = .operator .endchar ∨
      i.StaysInFrame := by
  cases i with
  | number value => exact Or.inr (Or.inr (Or.inr trivial))
  | operator op =>
    cases op with
    | call scope => exact Or.inl ⟨scope, rfl⟩
    | ret => exact Or.inr (Or.inl rfl)
    | endchar => exact Or.inr (Or.inr (Or.inl rfl))
    | _ => exact Or.inr (Or.inr (Or.inr trivial))

/-- What the frames of a glyph share. -/
structure Shared (σ : Type) where
  /-- The data. -/
  data : σ
  /-- How many instructions may still be executed. -/
  budget : Nat
  /-- The glyph has ended. -/
  ended : Bool

namespace Semantics

variable (sem : Semantics σ) (subroutines : Subroutines) (nestingLimit : Nat)

/-- The subroutine that is called by a frame of some depth, and the data without the operand. -/
def callee (scope : SubroutineScope) (depth : Nat) (data : σ) : Except Error (Bytes × σ) :=
  match subroutines.table scope with
  | .error e => .error e
  | .ok table =>
    if depth = nestingLimit then .error .nestingLimit
    else match sem.popIndex table.size data with
      | .error e => .error e
      | .ok (i, data) =>
        match table[i]? with
        | none => .error .subroutineIndex
        | some code => .ok (code, data)

/-- Executes the code of a frame, and by recursion that of the subroutines it calls.  Every
instruction and every call takes one of the rounds. -/
def visit : (rounds depth : Nat) → Bytes → Shared σ → Checked Error (Shared σ)
  | 0, _, _, _ => Checked.fault
  | _ + 1, _, [], s => pure s
  | rounds + 1, depth, byte :: code, s =>
    match s.budget with
    | 0 => throw .instructionLimit
    | budget + 1 => do
      let (i, code) ← Instruction.decode (byte :: code)
      let s := { s with budget }
      match i with
      | .operator (.call scope) =>
        let (body, data) ← sem.callee subroutines nestingLimit scope depth s.data
        let s ← visit rounds (depth + 1) body { s with data }
        if s.ended then return s else visit rounds depth code s
      | .operator .ret => return s
      | .operator .endchar => return { s with data := sem.clear s.data, ended := true }
      | i =>
        match sem.execute subroutines none ⟨code, [], s.data⟩ i with
        | .next _ c => visit rounds depth c.code { s with data := c.data }
        | .done data => return { s with data }
        | .fail e => throw e

variable {sem subroutines nestingLimit} {c place : Config σ} {outer : List Bytes} {budget n : Nat}
  {r : Checked Error (Shared σ)}

variable (sem subroutines nestingLimit) in
/-- How the execution of a frame ends for which the given callers wait, in terms of the execution
that goes on from the configuration. -/
inductive FrameEnds (outer : List Bytes) (c : Config σ) (budget : Nat) :
    Checked Error (Shared σ) → Prop where
  /-- There is an error. -/
  | failed {e : Error} (hrun : sem.run subroutines (some nestingLimit) budget c = .error e) :
    FrameEnds outer c budget (throw e)
  /-- The glyph ends, in this frame or in one that it called. -/
  | ended {n left : Nat} {place rest : Config σ}
    (hreaches : sem.Reaches subroutines (some nestingLimit) n c place)
    (hfetch : place.fetch = some (.ok (.operator .endchar, rest)))
    (hbudget : n + (left + 1) = budget) :
    FrameEnds outer c budget (pure ⟨sem.clear place.data, left, true⟩)
  /-- The frame is left by a return, or because its code is used up. -/
  | finished {n left : Nat} {data : σ}
    (hreaches : sem.Reaches subroutines (some nestingLimit) n c (Config.settle ⟨[], outer, data⟩))
    (hbudget : n + left = budget) :
    FrameEnds outer c budget (pure ⟨data, left, false⟩)
  /-- The frame of the glyph itself is left by a return. -/
  | left {n left : Nat} {place rest : Config σ} (houter : outer = [])
    (hreaches : sem.Reaches subroutines (some nestingLimit) n c place)
    (hfetch : place.fetch = some (.ok (.operator .ret, rest))) (hcallers : rest.callers = [])
    (hbudget : n + (left + 1) = budget) :
    FrameEnds outer c budget (pure ⟨place.data, left, false⟩)

/-- What is reached from a place is reached after the used-up subroutines there have returned. -/
theorem Reaches.settle_left {limit : Option Nat} (h : sem.Reaches subroutines limit n c place) :
    sem.Reaches subroutines limit n c.settle place := by
  obtain ⟨last, hsteps, rfl⟩ := h
  cases hsteps with
  | refl => exact ⟨c.settle, .refl _, c.settle_settle⟩
  | head first rest => exact ⟨last, .head (by rwa [step_settle]) rest, rfl⟩

/-- A frame ends as it does from any place that it reaches. -/
theorem FrameEnds.of_reaches
    (hreaches : sem.Reaches subroutines (some nestingLimit) n c place.settle)
    (h : sem.FrameEnds subroutines nestingLimit outer place budget r) :
    sem.FrameEnds subroutines nestingLimit outer c (n + budget) r := by
  cases h with
  | failed hrun =>
    refine .failed ?_
    rw [run_reaches hreaches, run_settle, hrun]
  | ended hmore hfetch hbudget =>
    exact .ended (hreaches.trans hmore.settle_left) hfetch (by omega)
  | finished hmore hbudget => exact .finished (hreaches.trans hmore.settle_left) (by omega)
  | left houter hmore hfetch hcallers hbudget =>
    exact .left houter (hreaches.trans hmore.settle_left) hfetch hcallers (by omega)

/-- One instruction, and then more. -/
theorem FrameEnds.of_step {called : Option Call}
    (hstep : sem.step subroutines (some nestingLimit) c = .next called place)
    (h : sem.FrameEnds subroutines nestingLimit outer place budget r) :
    sem.FrameEnds subroutines nestingLimit outer c (budget + 1) r := by
  rw [Nat.add_comm]
  exact h.of_reaches ⟨place, .head hstep (.refl _), rfl⟩

theorem FrameEnds.of_fail {e : Error}
    (hstep : sem.step subroutines (some nestingLimit) c = .fail e) :
    sem.FrameEnds subroutines nestingLimit outer c (budget + 1) (throw e) :=
  .failed (by rw [run, hstep])

/-- Calling finds the subroutine and lets the caller wait. -/
theorem call_callee (scope : SubroutineScope) (c : Config σ) :
    (∃ e, sem.callee subroutines nestingLimit scope c.depth c.data = .error e ∧
      sem.call subroutines (some nestingLimit) scope c = .fail e) ∨
    ∃ body data called, sem.callee subroutines nestingLimit scope c.depth c.data = .ok (body, data) ∧
      sem.call subroutines (some nestingLimit) scope c =
        .next called ⟨body, c.code :: c.callers, data⟩ := by
  unfold callee call
  cases subroutines.table scope with
  | error e => exact Or.inl ⟨e, rfl, rfl⟩
  | ok table =>
    dsimp only
    by_cases hdepth : c.depth = nestingLimit
    · rw [if_pos hdepth, if_pos (congrArg some hdepth.symm)]
      exact Or.inl ⟨_, rfl, rfl⟩
    · rw [if_neg hdepth, if_neg fun h => hdepth (Option.some.inj h).symm]
      cases sem.popIndex table.size c.data with
      | error e => exact Or.inl ⟨e, rfl, rfl⟩
      | ok popped =>
        dsimp only
        cases table[popped.1]? with
        | none => exact Or.inl ⟨_, rfl, rfl⟩
        | some body => exact Or.inr ⟨body, popped.2, _, rfl, rfl⟩

/-- A frame that calls a subroutine ends with the glyph, or goes on behind the call. -/
theorem FrameEnds.call {rounds : Nat} {body rest : Bytes} {data : σ} {called : Option Call}
    (hstep : sem.step subroutines (some nestingLimit) c = .next called ⟨body, rest :: outer, data⟩)
    (hcallee : sem.FrameEnds subroutines nestingLimit (rest :: outer) ⟨body, rest :: outer, data⟩
      budget r)
    (hrest : ∀ s : Shared σ, s.budget ≤ budget → s.ended = false →
      sem.FrameEnds subroutines nestingLimit outer ⟨rest, outer, s.data⟩ s.budget
        (sem.visit subroutines nestingLimit rounds outer.length rest s)) :
    sem.FrameEnds subroutines nestingLimit outer c (budget + 1)
      (r >>= fun s => if s.ended then pure s
        else sem.visit subroutines nestingLimit rounds outer.length rest s) := by
  refine .of_step hstep ?_
  cases hcallee with
  | failed hrun => exact .failed hrun
  | ended hreaches hfetch hbudget => exact .ended hreaches hfetch hbudget
  | @finished n left data hreaches hbudget =>
    have hends := hrest ⟨data, left, false⟩ (by dsimp only; omega) rfl
    have hback : sem.Reaches subroutines (some nestingLimit) n _
      (Config.settle ⟨rest, outer, data⟩) := hreaches
    rw [← hbudget]
    exact hends.of_reaches hback
  | left houter => cases houter

/-- Within a frame it does not matter which callers wait. -/
theorem execute_in_frame {i : Instruction} (hi : i.StaysInFrame) (c : Config σ) :
    (∃ e, sem.execute subroutines none ⟨c.code, [], c.data⟩ i = .fail e ∧
      sem.execute subroutines (some nestingLimit) c i = .fail e) ∨
    ∃ code data,
      sem.execute subroutines none ⟨c.code, [], c.data⟩ i = .next none ⟨code, [], data⟩ ∧
      sem.execute subroutines (some nestingLimit) c i = .next none ⟨code, c.callers, data⟩ := by
  cases i with
  | number value =>
    simp only [execute]
    cases sem.number value c.data with
    | error e => exact Or.inl ⟨e, rfl, rfl⟩
    | ok data => exact Or.inr ⟨_, data, rfl, rfl⟩
  | operator op =>
    cases op with
    | mask op =>
      simp only [execute, skipMask]
      cases Bytes.slice (sem.maskLength (sem.declareHints c.data)) c.code with
      | error e => exact Or.inl ⟨_, rfl, rfl⟩
      | ok taken => exact Or.inr ⟨_, _, rfl, rfl⟩
    | path op =>
      simp only [execute]
      cases sem.path op c.data with
      | error e => exact Or.inl ⟨e, rfl, rfl⟩
      | ok data => exact Or.inr ⟨_, data, rfl, rfl⟩
    | stack op =>
      simp only [execute]
      cases sem.compute op c.data with
      | error e => exact Or.inl ⟨e, rfl, rfl⟩
      | ok data => exact Or.inr ⟨_, data, rfl, rfl⟩
    | stem op | dotsection => exact Or.inr ⟨_, _, rfl, rfl⟩
    | call scope | ret | endchar => exact hi.elim

theorem visit_in_frame {i : Instruction} (hi : i.StaysInFrame) {rounds depth budget : Nat}
    {byte : UInt8} {code rest : Bytes} (hdecode : Instruction.decode (byte :: code) = .ok (i, rest))
    (data : σ) (ended : Bool) :
    sem.visit subroutines nestingLimit (rounds + 1) depth (byte :: code)
        ⟨data, budget + 1, ended⟩ =
      match sem.execute subroutines none ⟨rest, [], data⟩ i with
      | .next _ c => sem.visit subroutines nestingLimit rounds depth c.code ⟨c.data, budget, ended⟩
      | .done data => pure ⟨data, budget, ended⟩
      | .fail e => throw e := by
  simp only [visit, hdecode, Checked.lift_ok, pure_bind]
  split
  · exact hi.elim
  · exact hi.elim
  · exact hi.elim
  · rfl

/-- One instruction of a frame, if all frames end as they should for a smaller budget. -/
theorem frameEnds_visit_cons {rounds : Nat} {byte : UInt8} {code : Bytes} {data : σ}
    (ih : ∀ (outer : List Bytes) (code : Bytes) (s : Shared σ), s.budget ≤ budget →
      s.ended = false → sem.FrameEnds subroutines nestingLimit outer ⟨code, outer, s.data⟩ s.budget
        (sem.visit subroutines nestingLimit rounds outer.length code s)) :
    sem.FrameEnds subroutines nestingLimit outer ⟨byte :: code, outer, data⟩ (budget + 1)
      (sem.visit subroutines nestingLimit (rounds + 1) outer.length (byte :: code)
        ⟨data, budget + 1, false⟩) := by
  have hresume := Config.resume_of_ne_nil outer (List.cons_ne_nil byte code)
  have hhere : sem.Reaches subroutines (some nestingLimit) 0 ⟨byte :: code, outer, data⟩
      ⟨byte :: code, outer, data⟩ :=
    ⟨_, .refl _, Config.settle_of_ne_nil outer data (List.cons_ne_nil byte code)⟩
  cases hdecode : Instruction.decode (byte :: code) with
  | error e =>
    have hfetch : (⟨byte :: code, outer, data⟩ : Config σ).fetch = some (.error e) := by
      simp only [Config.fetch, hresume, hdecode]
    simp only [visit, hdecode]
    exact .of_fail (step_of_fetch_error hfetch)
  | ok read =>
    obtain ⟨i, rest⟩ := read
    have hfetch : (⟨byte :: code, outer, data⟩ : Config σ).fetch =
        some (.ok (i, ⟨rest, outer, data⟩)) := by
      simp only [Config.fetch, hresume, hdecode]
    have hstep : sem.step subroutines (some nestingLimit) ⟨byte :: code, outer, data⟩ =
      sem.execute subroutines (some nestingLimit) ⟨rest, outer, data⟩ i := step_of_fetch_ok hfetch
    rcases i.frame_cases with ⟨scope, rfl⟩ | rfl | rfl | hi
    · simp only [visit, hdecode, Checked.lift_ok, pure_bind]
      rcases @call_callee _ sem subroutines nestingLimit scope ⟨rest, outer, data⟩ with
        ⟨e, hcallee, hcall⟩ | ⟨body, data', called, hcallee, hcall⟩
      · rw [show sem.callee subroutines nestingLimit scope outer.length data = _ from hcallee]
        exact .of_fail (hstep.trans hcall)
      · rw [show sem.callee subroutines nestingLimit scope outer.length data = _ from hcallee,
          Checked.lift_ok, pure_bind]
        have hbody := ih (rest :: outer) body ⟨data', budget, false⟩ le_rfl rfl
        exact .call (hstep.trans hcall) hbody (ih outer rest)
    · simp only [visit, hdecode, Checked.lift_ok, pure_bind]
      cases outer with
      | nil => exact .left rfl hhere hfetch rfl (Nat.zero_add _)
      | cons caller outer =>
        exact .of_step hstep (.finished (n := 0) ⟨_, .refl _, rfl⟩ (Nat.zero_add _))
    · simp only [visit, hdecode, Checked.lift_ok, pure_bind]
      exact .ended hhere hfetch (Nat.zero_add _)
    · rw [visit_in_frame hi hdecode]
      rcases @execute_in_frame _ sem subroutines nestingLimit i hi ⟨rest, outer, data⟩ with
        ⟨e, hown, hexecute⟩ | ⟨code', data', hown, hexecute⟩
      · rw [hown]
        exact .of_fail (hstep.trans hexecute)
      · rw [hown]
        exact .of_step (hstep.trans hexecute) (ih outer code' ⟨data', budget, false⟩ le_rfl rfl)

/-- Executing by recursion is executing, whatever callers wait, if there are more rounds than
instructions may be executed. -/
theorem frameEnds_visit {rounds : Nat} {code : Bytes} {s : Shared σ} (hrounds : s.budget < rounds)
    (hended : s.ended = false) :
    sem.FrameEnds subroutines nestingLimit outer ⟨code, outer, s.data⟩ s.budget
      (sem.visit subroutines nestingLimit rounds outer.length code s) := by
  induction rounds generalizing outer code s with
  | zero => exact absurd hrounds (Nat.not_lt_zero _)
  | succ rounds ih =>
    obtain ⟨data, budget, ended⟩ := s
    obtain rfl : ended = false := hended
    cases code with
    | nil => exact .finished ⟨_, .refl _, rfl⟩ (Nat.zero_add _)
    | cons byte code =>
      cases budget with
      | zero =>
        refine .failed ?_
        simp [run, Config.isFinished_of_ne_nil]
      | succ budget =>
        have hmore : budget < rounds := Nat.lt_of_succ_lt_succ hrounds
        exact frameEnds_visit_cons fun outer code s hle => ih (Nat.lt_of_le_of_lt hle hmore)

/-- Without callers, a frame ends as the execution does. -/
theorem FrameEnds.agrees (h : sem.FrameEnds subroutines nestingLimit [] c budget r) :
    Checked.Agrees (fun s data => s.data = data) r
      (sem.run subroutines (some nestingLimit) budget c) := by
  cases h with
  | failed hrun =>
    rw [hrun]
    exact .error _
  | ended hreaches hfetch hbudget =>
    rw [← hbudget, run_reaches hreaches, run, step_of_fetch_ok hfetch]
    exact .ok (congrArg sem.clear (Config.fetch_frame hfetch).1.symm)
  | @finished n left data hreaches hbudget =>
    have hrun : sem.run subroutines (some nestingLimit) left ⟨[], [], data⟩ = .ok data :=
      run_of_isFinished rfl left
    rw [← hbudget, run_reaches hreaches, run_settle, hrun]
    exact .ok rfl
  | left houter hreaches hfetch hcallers hbudget =>
    rw [← hbudget, run_reaches hreaches, run, step_of_fetch_ok hfetch]
    simp only [execute, ret, hcallers]
    exact .ok (Config.fetch_frame hfetch).1.symm

/-- An execution comes to one end. -/
theorem Reaches.eq_of_done {m : Nat} {last : Config σ} {data data' : σ}
    (hreaches : sem.Reaches subroutines (some nestingLimit) m c last)
    (hlast : sem.step subroutines (some nestingLimit) last = .done data)
    (hsteps : sem.Steps subroutines (some nestingLimit) n c place)
    (hplace : sem.step subroutines (some nestingLimit) place = .done data') :
    m = n ∧ last.fetch = place.fetch ∧ last.data = place.data := by
  obtain ⟨c', hmore, rfl⟩ := hreaches
  rw [step_settle] at hlast
  have hends : sem.Ends subroutines (some nestingLimit) m c (.ok data) :=
    ⟨c', hmore, by rw [hlast]; rfl⟩
  have hends' : sem.Ends subroutines (some nestingLimit) n c (.ok data') :=
    ⟨place, hsteps, by rw [hplace]; rfl⟩
  obtain rfl : m = n := Nat.le_antisymm (hends'.le hmore) (hends.le hsteps)
  rw [hmore.unique hsteps, Config.fetch_settle, Config.settle_data]
  exact ⟨rfl, rfl, rfl⟩

/-- Where the execution comes to `endchar`, all frames are left, with the data and the budget that
there are then. -/
theorem FrameEnds.eq_of_endchar {rest : Config σ} {left : Nat}
    (h : sem.FrameEnds subroutines nestingLimit [] c budget r)
    (hsteps : sem.Steps subroutines (some nestingLimit) n c place)
    (hfetch : place.fetch = some (.ok (.operator .endchar, rest)))
    (hbudget : n + (left + 1) = budget) : r = pure ⟨sem.clear place.data, left, true⟩ := by
  have hplace : sem.step subroutines (some nestingLimit) place = .done (sem.clear rest.data) :=
    step_of_fetch_ok hfetch
  cases h with
  | failed hrun =>
    rw [← hbudget, run_steps hsteps, run, hplace] at hrun
    cases hrun
  | ended hreaches hfetch' hbudget' =>
    obtain ⟨rfl, -, hdata⟩ := hreaches.eq_of_done (step_of_fetch_ok hfetch') hsteps hplace
    rw [hdata]
    congr 2
    omega
  | finished hreaches hbudget' =>
    rw [Config.settle_top] at hreaches
    obtain ⟨-, hfetch', -⟩ := hreaches.eq_of_done (step_of_isFinished rfl) hsteps hplace
    rw [hfetch] at hfetch'
    cases hfetch'
  | @left _ _ final behind houter hreaches hfetch' hcallers hbudget' =>
    have hdone : sem.step subroutines (some nestingLimit) final =
      sem.execute subroutines (some nestingLimit) behind (.operator .ret) := step_of_fetch_ok hfetch'
    simp only [execute, ret, hcallers] at hdone
    obtain ⟨-, hsame, -⟩ := hreaches.eq_of_done hdone hsteps hplace
    rw [hfetch', hfetch] at hsame
    cases hsame

variable (sem subroutines nestingLimit) in
/-- What a frame that is entered after `n` instructions hands back to its caller: an error or the end
of the glyph, which are those of the whole execution, or else the data with which the execution goes
on behind the call. -/
structure HandsBack (start : Config σ) (n budget : Nat) (behind : Config σ)
    (whole r : Checked Error (Shared σ)) : Prop where
  /-- It comes to an end. -/
  ends : (∃ s, r = pure s) ∨ ∃ e, r = throw e
  /-- An error is passed on. -/
  error : ∀ e, r = throw e → whole = throw e
  /-- The end of the glyph is passed on, without another instruction. -/
  ended : ∀ s, r = pure s → s.ended = true → whole = pure s
  /-- Otherwise the caller is resumed. -/
  resumes : ∀ s, r = pure s → s.ended = false → s.budget ≤ budget ∧
    sem.Reaches subroutines (some nestingLimit) (n + (budget - s.budget)) start
      (Config.settle { behind with data := s.data })

theorem FrameEnds.handsBack {start behind : Config σ} {whole : Checked Error (Shared σ)}
    (hwhole : sem.FrameEnds subroutines nestingLimit [] start (n + budget) whole)
    (hsteps : sem.Steps subroutines (some nestingLimit) n start place)
    (h : sem.FrameEnds subroutines nestingLimit (behind.code :: behind.callers) place budget r) :
    sem.HandsBack subroutines nestingLimit start n budget behind whole r := by
  cases h with
  | @failed e hrun =>
    have hagrees := hwhole.agrees
    rw [run_steps hsteps, hrun] at hagrees
    have hthrow : whole = throw e := by
      cases hagrees
      rfl
    refine ⟨Or.inr ⟨e, rfl⟩, fun e' he => ?_, fun s hs => ?_, fun s hs => ?_⟩
    · rwa [← Checked.throw_inj.mp he]
    · exact absurd hs.symm (Checked.pure_ne_throw s e)
    · exact absurd hs.symm (Checked.pure_ne_throw s e)
  | @ended k left last rest hreaches hfetch hbudget =>
    obtain ⟨c', hmore, rfl⟩ := hreaches
    rw [Config.fetch_settle] at hfetch
    have hpure := hwhole.eq_of_endchar (hsteps.trans hmore) hfetch
      (show n + k + (left + 1) = n + budget by omega)
    rw [Config.settle_data]
    refine ⟨Or.inl ⟨_, rfl⟩, fun e he => ?_, fun s hs hended => ?_, fun s hs hended => ?_⟩
    · exact absurd he (Checked.pure_ne_throw _ e)
    · rw [hpure, hs]
    · rw [← Checked.pure_inj.mp hs] at hended
      cases hended
  | @finished k left data hreaches hbudget =>
    refine ⟨Or.inl ⟨_, rfl⟩, fun e he => ?_, fun s hs hended => ?_, fun s hs hended => ?_⟩
    · exact absurd he (Checked.pure_ne_throw _ e)
    · rw [← Checked.pure_inj.mp hs] at hended
      cases hended
    · obtain rfl := Checked.pure_inj.mp hs
      have hstart : sem.Reaches subroutines (some nestingLimit) n start place.settle :=
        ⟨place, hsteps, rfl⟩
      refine ⟨by dsimp only; omega, ?_⟩
      rw [show budget - left = k by omega]
      exact hstart.trans hreaches.settle_left
  | left houter => cases houter

end Semantics

/-- Callers that wait are resumed, or wait on. -/
theorem Config.suffix_of_resume {code code' : Bytes} {callers outer waiting : List Bytes}
    {caller : Bytes} (houter : (caller :: outer) <:+ callers)
    (h : resume code callers = some (code', waiting)) :
    (caller :: outer) <:+ waiting ∨ resume code callers = resume caller outer := by
  fun_induction resume code callers with
  | case1 => cases h
  | case2 next callers ih =>
    rcases List.suffix_cons_iff.mp houter with heq | hsuffix
    · cases heq
      exact Or.inr rfl
    · exact ih hsuffix h
  | case3 byte code callers =>
    cases h
    exact Or.inl houter

namespace Semantics

variable {sem : Semantics σ} {subroutines : Subroutines} {limit : Option Nat} {c c' : Config σ}
  {caller : Bytes} {outer : List Bytes}

/-- One instruction lets callers wait as they are, or resumes them. -/
theorem waits_or_returns {called : Option Call} (hc : (caller :: outer) <:+ c.callers)
    (h : sem.step subroutines limit c = .next called c') :
    (caller :: outer) <:+ c'.callers ∨
      ∃ k ≤ 1, ∃ data, sem.Reaches subroutines limit k c (Config.settle ⟨caller, outer, data⟩) := by
  obtain ⟨i, rest, hfetch, hexecutes⟩ := exists_step_iff.mp ⟨called, h⟩
  obtain ⟨code, after, waiting, -, hresume, rfl⟩ := Config.fetch_eq_ok_iff.mp hfetch
  rcases Config.suffix_of_resume hc hresume with hwaits | hsame
  · cases hexecutes with
    | call htable hdepth hindex hcode => exact Or.inl (hwaits.trans (List.suffix_cons _ _))
    | ret hcallers =>
      dsimp only at hcallers
      rw [hcallers] at hwaits
      rcases List.suffix_cons_iff.mp hwaits with heq | hsuffix
      · cases heq
        exact Or.inr ⟨1, le_rfl, c.data, _, .head h (.refl _), rfl⟩
      · exact Or.inl hsuffix
    | _ => exact Or.inl hwaits
  · exact Or.inr ⟨0, Nat.zero_le _, c.data, c, .refl c, Config.settle_congr hsame rfl⟩

/-- Callers wait as they are until they are resumed. -/
theorem waits_or_returned {m : Nat} (hc : (caller :: outer) <:+ c.callers)
    (h : sem.Steps subroutines limit m c c') :
    (caller :: outer) <:+ c'.callers ∨
      ∃ k ≤ m, ∃ data, sem.Reaches subroutines limit k c (Config.settle ⟨caller, outer, data⟩) := by
  induction h with
  | refl => exact Or.inl hc
  | head first rest ih =>
    rcases waits_or_returns hc first with hwaits | ⟨k, hk, data, hreaches⟩
    · rcases ih hwaits with hwaits' | ⟨k, hk, data, last, hsteps, hlast⟩
      · exact Or.inl hwaits'
      · exact Or.inr ⟨k + 1, Nat.succ_le_succ hk, data, last, .head first hsteps, hlast⟩
    · exact Or.inr ⟨k, by omega, data, hreaches⟩

end Semantics

variable {α : Type} [Scalar α]

/-- The execution of a glyph by recursion. -/
def visitGlyph (rounds : Nat) (code : Bytes) (subroutines : Subroutines) :
    Checked Error (Shared (State α)) :=
  State.semantics.visit subroutines nestingLimit rounds 0 code ⟨.initial, instructionLimit, false⟩

/-- The frame of the glyph itself ends as it should. -/
theorem frameEnds_visitGlyph {rounds : Nat} (hrounds : instructionLimit < rounds) (code : Bytes)
    (subroutines : Subroutines) :
    State.semantics.FrameEnds subroutines nestingLimit [] (.start code .initial) instructionLimit
      (visitGlyph rounds code subroutines : Checked Error (Shared (State α))) :=
  @Semantics.frameEnds_visit _ State.semantics subroutines nestingLimit [] rounds code
    ⟨.initial, instructionLimit, false⟩ hrounds rfl

/-- What the instruction that comes after `n` others means for the frames of a glyph. -/
structure GuidesFrames (rounds : Nat) (code : Bytes) (subroutines : Subroutines) (n : Nat)
    (c : Config (State α)) (i : Instruction) (rest : Config (State α)) : Prop where
  /-- The execution by recursion, which tells the frames of the end by a flag, is the execution. -/
  agrees : Checked.Agrees (fun s state => s.data = state)
    (visitGlyph rounds code subroutines : Checked Error (Shared (State α)))
    (finalState code subroutines)
  /-- After `endchar` there is no other instruction, in whatever frame it was.  All frames are left
  with the budget and the state that there are then, but for the operands, and the box of this state
  is the result. -/
  endchar : i = .operator .endchar →
    (∀ m (c' : Config (State α)),
      State.semantics.Steps subroutines (some nestingLimit) m (.start code .initial) c' → m ≤ n) ∧
    visitGlyph rounds code subroutines =
      pure ⟨{ c.data with stack := .empty }, instructionLimit - (n + 1), true⟩ ∧
    glyphBounds code subroutines =
      if c.data.outline.overflowed then .error .outlineOverflow else .ok c.data.outline.box
  /-- A return resumes the innermost caller. -/
  ret : ∀ caller callers, i = .operator .ret → rest.callers = caller :: callers →
    State.semantics.step subroutines (some nestingLimit) c = .next none ⟨caller, callers, c.data⟩
  /-- So does the end of a subroutine's code, without an instruction. -/
  used_up : ∀ caller callers, c.code = [] → c.callers = caller :: callers →
    State.semantics.step subroutines (some nestingLimit) c =
      State.semantics.step subroutines (some nestingLimit) ⟨caller, callers, c.data⟩
  /-- After a call, the rest of the calling frame and its own callers wait as they are until they are
  resumed, and the recursive call hands back what they are resumed with. -/
  call : ∀ scope called c', i = .operator (.call scope) →
    State.semantics.step subroutines (some nestingLimit) c = .next called c' →
    c'.callers = rest.code :: rest.callers ∧
    (∀ m d, State.semantics.Steps subroutines (some nestingLimit) m c' d →
      (rest.code :: rest.callers) <:+ d.callers ∨
        ∃ k ≤ m, ∃ data, State.semantics.Reaches subroutines (some nestingLimit) k c'
          (Config.settle { rest with data })) ∧
    State.semantics.HandsBack subroutines nestingLimit (.start code .initial) (n + 1)
      (instructionLimit - (n + 1)) rest (visitGlyph rounds code subroutines)
      (State.semantics.visit subroutines nestingLimit rounds (rest.depth + 1) c'.code
        ⟨c'.data, instructionLimit - (n + 1), false⟩)

/-- The end of the glyph is final in whatever frame it is met, and every other way to leave a frame
resumes its caller. -/
theorem endchar_leaves_all_frames {rounds : Nat} (hrounds : instructionLimit < rounds)
    {code : Bytes} {subroutines : Subroutines} {n : Nat} (hn : n < instructionLimit)
    {c rest : Config (State α)} {i : Instruction}
    (hsteps : State.semantics.Steps subroutines (some nestingLimit) n (.start code .initial) c)
    (hfetch : c.fetch = some (.ok (i, rest))) :
    GuidesFrames rounds code subroutines n c i rest := by
  obtain ⟨hdata, -⟩ := Config.fetch_frame hfetch
  have hstep : State.semantics.step subroutines (some nestingLimit) c =
    State.semantics.execute subroutines (some nestingLimit) rest i :=
      Semantics.step_of_fetch_ok hfetch
  have hwhole := frameEnds_visitGlyph (α := α) hrounds code subroutines
  constructor
  case agrees => exact hwhole.agrees
  case endchar =>
    rintro rfl
    have hends : State.semantics.Ends subroutines (some nestingLimit) n (.start code .initial)
        (.ok (State.clear rest.data)) := ⟨c, hsteps, by rw [hstep]; rfl⟩
    have hbudget : n + (instructionLimit - (n + 1) + 1) = instructionLimit := by omega
    have hfinal := hwhole.eq_of_endchar hsteps hfetch hbudget
    refine ⟨fun m c' => hends.le, hfinal, ?_⟩
    have hstate : finalState code subroutines = .ok (State.clear rest.data) := hends.run_eq hn
    rw [glyphBounds, hstate, hdata]
    rfl
  case ret =>
    rintro caller callers rfl hcallers
    rw [hstep]
    simp only [Semantics.execute, Semantics.ret, hcallers, hdata]
  case used_up =>
    intro caller callers hcode hcallers
    rw [← Semantics.step_settle, ← Semantics.step_settle (⟨caller, callers, c.data⟩)]
    congr 1
    refine Config.settle_congr ?_ rfl
    rw [hcode, hcallers]
    rfl
  case call =>
    rintro scope called c' rfl hnext
    have hcallee := hsteps.trans (.head hnext (.refl c'))
    rw [hstep] at hnext
    cases Semantics.executes_of_execute hnext with
    | @call _ _ _ body data htable hdepth hindex hcode =>
      refine ⟨rfl, fun m d => Semantics.waits_or_returned (List.suffix_refl _), ?_⟩
      have hbudget : n + 1 + (instructionLimit - (n + 1)) = instructionLimit := by omega
      refine Semantics.FrameEnds.handsBack (by rwa [hbudget]) hcallee ?_
      exact @Semantics.frameEnds_visit _ _ _ _ (rest.code :: rest.callers) rounds body
        ⟨data, instructionLimit - (n + 1), false⟩ (by dsimp only; omega) rfl

/-- Two callers wait for a subroutine with `endchar`, both in front of a byte that is no operator. -/
theorem endchar_leaves_all_frames_nested :
    let subroutines : Subroutines := ⟨#[[33, 29, 15], [14, 15]], .missing⟩
    let start : Config (State Float) := .start [32, 29, 15] .initial
    ∃ c rest : Config (State Float),
      State.semantics.Steps subroutines (some nestingLimit) 4 start c ∧
      c.fetch = some (.ok (.operator .endchar, rest)) ∧ c.callers = [[15], [15]] ∧
      (∀ m c', State.semantics.Steps subroutines (some nestingLimit) m start c' → m ≤ 4) ∧
      (glyphBounds [32, 29, 15] subroutines : Except Error (Option (Box Float))) = .ok none := by
  intro subroutines start
  obtain ⟨c, rest, hsteps, hfetch, hcallers, houtline⟩ : ∃ c rest : Config (State Float),
      State.semantics.Steps subroutines (some nestingLimit) 4 start c ∧
      c.fetch = some (.ok (.operator .endchar, rest)) ∧ c.callers = [[15], [15]] ∧
      c.data.outline = Outline.empty := by
    subst subroutines
    exact ⟨_, _, .head rfl (.head rfl (.head rfl (.head rfl (.refl _)))), rfl, rfl, rfl⟩
  obtain ⟨hlast, -, hbounds⟩ := (endchar_leaves_all_frames (Nat.lt_succ_self instructionLimit)
    (by decide) hsteps hfetch).endchar rfl
  rw [houtline] at hbounds
  exact ⟨c, rest, hsteps, hfetch, hcallers, hlast, hbounds⟩

end FontMetrics.Charstring
