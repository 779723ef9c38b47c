import FontMetrics.Proofs.Charstring.Context
import FontMetrics.Proofs.Charstring.Drawing
import FontMetrics.Proofs.Charstring.Failure
import FontMetrics.Proofs.Charstring.Invariant

/-!
# More code behind a charstring

What an execution does with some code, it also does when more code follows, up to the moment when it
reaches the end of its own.  So an error stays the same error, unless the code breaks off in the
middle of an instruction; a glyph that ends before the end of its code ends the same way; and else
the execution goes on from the state in which it would have ended, which can only widen the outline.
-/

namespace FontMetrics.Charstring

variable {σ : Type}

namespace Config

/-- The next instruction ends the glyph: it is `endchar`, in whatever subroutine, or a return
without a caller. -/
def EndsGlyph (c : Config σ) : Prop :=
  ∃ op rest, c.fetch = some (.ok (.operator op, rest)) ∧
    (op = .endchar ∨ op = .ret ∧ rest.callers = [])

/-- A glyph that an instruction ends has not ended before. -/
theorem EndsGlyph.not_isFinished {c : Config σ} (h : c.EndsGlyph) : c.isFinished = false := by
  obtain ⟨op, rest, hfetch, -⟩ := h
  by_contra hne
  rw [c.fetch_eq_none_iff.mpr (by simpa using hne)] at hfetch
  cases hfetch

/-- What is no instruction is none with more code behind, unless the data end there. -/
theorem fetch_extend_of_error (tail : Bytes) (outer : List Bytes) {c : Config σ} {e : Error}
    (h : c.fetch = some (.error e)) (he : e ≠ .data .endOfData) :
    (c.extend tail outer).fetch = some (.error e) := by
  unfold fetch at h
  split at h
  · cases h
  · next code callers hresume =>
    split at h
    · next hdecode =>
      cases h
      have hextended := resume_extendFrames tail outer hresume
      unfold fetch
      simp only [extend, hextended]
      cases callers with
      | nil => simp only [extendFrames, Instruction.decode_append_of_error hdecode he]
      | cons caller callers => simp only [extendFrames, hdecode]
    · cases h

end Config

namespace Semantics

variable {sem : Semantics σ} {subroutines : Subroutines} {limit : Option Nat} {depth : Nat}

/-- An instruction that fails does so with more code behind, unless it was a mask that breaks
off. -/
theorem execute_extend_of_fail (tail : Bytes) {c : Config σ} {i : Instruction} {e : Error}
    (h : sem.execute subroutines limit c i = .fail e) (he : e ≠ .data .endOfData) :
    sem.execute subroutines limit (c.extend tail []) i = .fail e := by
  -- The depth decides whether a call fails, and it is the same.
  have hdepth : (c.extend tail []).depth = c.depth := Config.depth_extend tail [] c
  apply execute_of_fails
  cases fails_of_execute h with
  | number h => exact .number h
  | mask op hslice => exact absurd (congrArg Error.data (Bytes.error_of_slice hslice)) he
  | path h => exact .path h
  | compute h => exact .compute h
  | table h => exact .table h
  | nesting htable hlimit => exact .nesting htable (hdepth ▸ hlimit)
  | index htable hlimit hindex => exact .index htable (hdepth ▸ hlimit) hindex
  | subroutine htable hlimit hindex hcode =>
    exact .subroutine htable (hdepth ▸ hlimit) hindex hcode

/-- Nothing but a call depends on how many callers wait, and only on their number. -/
theorem step_extend_of_fail (tail : Bytes) {c : Config σ} {e : Error}
    (h : sem.step subroutines limit c = .fail e) (he : e ≠ .data .endOfData) :
    sem.step subroutines limit (c.extend tail []) = .fail e := by
  cases hfetch : c.fetch with
  | none => rw [step_of_fetch_none hfetch] at h; cases h
  | some read =>
    rcases read with e' | ⟨i, rest⟩
    · rw [step_of_fetch_error hfetch] at h
      cases h
      exact step_of_fetch_error (Config.fetch_extend_of_error tail [] hfetch he)
    · rw [step_of_fetch_ok hfetch] at h
      rw [step_of_fetch_ok (Config.fetch_extend tail [] hfetch)]
      exact execute_extend_of_fail tail h he

/-- An instruction that ends the glyph does so with more code behind. -/
theorem step_extend_of_endsGlyph (tail : Bytes) {c : Config σ} (h : c.EndsGlyph) :
    ∃ data, sem.step subroutines limit c = .done data ∧
      sem.step subroutines limit (c.extend tail []) = .done data := by
  obtain ⟨op, rest, hfetch, hop⟩ := h
  rw [step_of_fetch_ok hfetch, step_of_fetch_ok (Config.fetch_extend tail [] hfetch)]
  obtain ⟨code, callers, data⟩ := rest
  rcases hop with rfl | ⟨rfl, hcallers⟩
  · exact ⟨_, rfl, rfl⟩
  · obtain rfl : callers = [] := hcallers
    exact ⟨_, rfl, rfl⟩

/-- A glyph ends because its code does, or by an instruction. -/
theorem endsGlyph_of_step {c : Config σ} {data : σ}
    (h : sem.step subroutines limit c = .done data) (hc : c.isFinished = false) : c.EndsGlyph := by
  cases hfetch : c.fetch with
  | none => rw [c.fetch_eq_none_iff.mp hfetch] at hc; cases hc
  | some read =>
    rcases read with e' | ⟨i, rest⟩
    · rw [step_of_fetch_error hfetch] at h
      cases h
    · rw [step_of_fetch_ok hfetch] at h
      rcases done_of_execute h with ⟨rfl, -⟩ | ⟨rfl, hcallers, -⟩
      · exact ⟨.endchar, rest, hfetch, Or.inl rfl⟩
      · exact ⟨.ret, rest, hfetch, Or.inr ⟨rfl, hcallers⟩⟩

/-- An instruction that the execution goes on from leads to the same place, with more code
behind. -/
theorem step_extend_of_next (tail : Bytes) {c c' : Config σ} {called : Option Call}
    (hc : c.depth ≤ depth) (h : sem.step subroutines (some depth) c = .next called c') :
    ∃ called', sem.step subroutines (some depth) (c.extend tail []) =
      .next called' (c'.extend tail []) := by
  obtain ⟨i, rest, hfetch, hexecutes⟩ := exists_step_iff.mp ⟨called, h⟩
  refine exists_step_iff.mpr ⟨i, _, Config.fetch_extend tail [] hfetch, ?_⟩
  refine hexecutes.extend tail [] fun most hmost => ?_
  cases hmost
  exact depth_le_of_step hc h

/-- Code that has been used up is followed by the code behind. -/
theorem settle_extend_of_isFinished (tail : Bytes) {c : Config σ} (h : c.isFinished = true) :
    (c.extend tail []).settle = .start tail c.data := by
  have hresume : Config.resume c.code c.callers = none := Option.isNone_iff_eq_none.mp h
  have hsettle : (Config.start tail c.data).settle = .start tail c.data :=
    Config.settle_top tail c.data
  rw [← hsettle]
  exact Config.settle_congr (Config.resume_extendFrames_of_none tail [] hresume) rfl

/-- Code that has not been used up is not with more code behind. -/
theorem isFinished_extend_of_not (tail : Bytes) {c : Config σ} (h : c.isFinished = false) :
    (c.extend tail []).isFinished = false := by
  unfold Config.isFinished at h ⊢
  cases hresume : Config.resume c.code c.callers with
  | none => rw [hresume] at h; cases h
  | some place =>
    simp only [Config.extend, Config.resume_extendFrames tail [] hresume]
    rfl

/-- An error that is not the end of the data is the same with more code behind. -/
theorem run_extend_of_error (tail : Bytes) {c : Config σ} {budget : Nat} {e : Error}
    (hc : c.depth ≤ depth) (h : sem.run subroutines (some depth) budget c = .error e)
    (he : e ≠ .data .endOfData) :
    sem.run subroutines (some depth) budget (c.extend tail []) = .error e := by
  induction budget generalizing c with
  | zero =>
    cases hfinished : c.isFinished with
    | true => simp [run, hfinished] at h
    | false => simpa [run, hfinished, isFinished_extend_of_not tail hfinished] using h
  | succ budget ih =>
    rw [run] at h ⊢
    cases hstep : sem.step subroutines (some depth) c with
    | next called c' =>
      obtain ⟨called', hextended⟩ := step_extend_of_next tail hc hstep
      rw [hstep] at h
      rw [hextended]
      exact ih (depth_le_of_step hc hstep) h
    | done data => rw [hstep] at h; cases h
    | fail e' =>
      rw [hstep] at h
      cases h
      rw [step_extend_of_fail tail hstep he]

/-- An execution that ends without error does so with more code behind, or goes on into it. -/
theorem run_extend_of_ok (tail : Bytes) {c : Config σ} {budget : Nat} {data : σ}
    (hc : c.depth ≤ depth) (h : sem.run subroutines (some depth) budget c = .ok data) :
    sem.run subroutines (some depth) budget (c.extend tail []) = .ok data ∨
      ∃ left, sem.run subroutines (some depth) budget (c.extend tail []) =
        sem.run subroutines (some depth) left (.start tail data) := by
  induction budget generalizing c with
  | zero =>
    cases hfinished : c.isFinished with
    | true =>
      refine Or.inr ⟨0, ?_⟩
      have hdata : c.data = data := by simpa [run, hfinished] using h
      rw [← run_settle, settle_extend_of_isFinished tail hfinished, hdata]
    | false => simp [run, hfinished] at h
  | succ budget ih =>
    cases hstep : sem.step subroutines (some depth) c with
    | next called c' =>
      obtain ⟨called', hextended⟩ := step_extend_of_next tail hc hstep
      rw [run, hstep] at h
      rw [run, hextended]
      exact ih (depth_le_of_step hc hstep) h
    | done data' =>
      cases hfinished : c.isFinished with
      | true =>
        refine Or.inr ⟨budget + 1, ?_⟩
        rw [run, step_of_isFinished hfinished] at h
        cases h
        rw [← run_settle, settle_extend_of_isFinished tail hfinished]
      | false =>
        obtain ⟨last, hlast, hextended⟩ :=
          step_extend_of_endsGlyph tail (endsGlyph_of_step hstep hfinished)
        rw [run, hlast] at h
        rw [run, hextended]
        exact Or.inl h
    | fail e => rw [run, hstep] at h; cases h

/-- A glyph that ends by an instruction ends alike with more code behind. -/
theorem run_extend_of_endsGlyph (tail : Bytes) {n budget : Nat} {c last : Config σ}
    (hc : c.depth ≤ depth) (h : sem.Steps subroutines (some depth) n c last)
    (hlast : last.EndsGlyph) :
    sem.run subroutines (some depth) budget (c.extend tail []) =
      sem.run subroutines (some depth) budget c := by
  rcases Nat.lt_or_ge n budget with hlt | hle
  · obtain ⟨more, rfl⟩ : ∃ more, budget = n + (more + 1) := ⟨budget - n - 1, by omega⟩
    obtain ⟨data, hdone, hextended⟩ : ∃ data, sem.step subroutines (some depth) last = .done data ∧
        sem.step subroutines (some depth) (last.extend tail []) = .done data :=
      step_extend_of_endsGlyph tail hlast
    have hsteps := h.extend tail [] fun m mid hmid _ most hmost => by
      cases hmost
      exact depth_le_of_steps hc hmid
    rw [run_steps h, run_steps hsteps, run, run, hdone, hextended]
  · have hfinished := hlast.not_isFinished
    have hlimit := run_of_steps_of_le h hle hfinished
    rw [hlimit, run_extend_of_error tail hc hlimit (by simp)]

end Semantics

variable {α : Type} [Scalar α]

/-- With more code behind, a glyph ends with what was drawn before, and perhaps more. -/
theorem finalState_append_of_ok {subroutines : Subroutines} {code tail : Bytes} {s s' : State α}
    (h : finalState code subroutines = .ok s)
    (h' : finalState (code ++ tail) subroutines = .ok s') :
    ∃ path, s'.outline = s.outline.draw path := by
  rcases Semantics.run_extend_of_ok tail (Nat.zero_le _) h with hsame | ⟨left, hleft⟩
  · have heq : Except.ok s' = .ok s := h'.symm.trans hsame
    cases heq
    exact ⟨[], rfl⟩
  · have hstart : ∃ path, s.outline = s.outline.draw path := ⟨[], rfl⟩
    obtain ⟨-, hdrawn⟩ :=
      (State.maintains_draw s.outline).run (m := 0) hstart (hleft.symm.trans h')
    exact hdrawn

/-- With more code behind, a glyph fails as before, unless its code breaks off. -/
theorem finalState_append_of_error {subroutines : Subroutines} {code : Bytes} {e : Error}
    (h : finalState (α := α) code subroutines = .error e) (he : e ≠ .data .endOfData)
    (tail : Bytes) : finalState (α := α) (code ++ tail) subroutines = .error e :=
  Semantics.run_extend_of_error tail (Nat.zero_le _) h he

/-- The outline of a final state keeps track of what was drawn. -/
theorem exists_tracks_of_finalState [Scalar.IsOrdered α] {subroutines : Subroutines}
    {code : Bytes} {s : State α} (h : finalState code subroutines = .ok s) :
    ∃ drawn, s.outline.Tracks drawn := by
  have hstart : ∃ path, (State.initial : State α).outline = Outline.empty.draw path := ⟨[], rfl⟩
  obtain ⟨-, path, hpath⟩ := (State.maintains_draw Outline.empty).run (m := 0) hstart h
  exact ⟨_, hpath ▸ Outline.tracks_draw_empty path⟩

/-- A glyph fails by its execution or for its outline. -/
theorem glyphBounds_eq_error_iff {code : Bytes} {subroutines : Subroutines} {e : Error} :
    (glyphBounds code subroutines : Except Error (Option (Box α))) = .error e ↔
      (finalState code subroutines : Except Error (State α)) = .error e ∨
      ∃ s : State α, finalState code subroutines = .ok s ∧ s.outline.overflowed = true ∧
        e = .outlineOverflow := by
  unfold glyphBounds
  cases finalState (α := α) code subroutines with
  | error e' => simp
  | ok s => simp [boundsOfOutline_eq_error_iff]

/-- A glyph has the box of its outline. -/
theorem glyphBounds_eq_ok_iff {code : Bytes} {subroutines : Subroutines} {box : Option (Box α)} :
    (glyphBounds code subroutines : Except Error (Option (Box α))) = .ok box ↔
      ∃ s : State α, finalState code subroutines = .ok s ∧ s.outline.overflowed = false ∧
        s.outline.box = box := by
  unfold glyphBounds
  cases finalState (α := α) code subroutines with
  | error e' => simp
  | ok s => simp [boundsOfOutline_eq_ok_iff]

/-- What the bounds of a glyph say about those with more code behind. -/
structure BoundsExtend (bounds extended : Except Error (Option (Box α))) : Prop where
  /-- An error stays, unless the code breaks off or the outline is not finite. -/
  error_eq : ∀ e, bounds = .error e → e ≠ .data .endOfData → e ≠ .outlineOverflow →
    extended = .error e
  /-- An outline that is not finite does not become finite. -/
  overflow : bounds = .error .outlineOverflow → ∃ e, extended = .error e
  /-- A box can only be widened. -/
  isWithin : ∀ b box, bounds = .ok (some b) → extended = .ok box →
    ∃ b', box = some b' ∧ b.IsWithin b'

/-- More code behind a charstring refines its bounds. -/
theorem boundsExtend_append [Scalar.IsOrdered α] (subroutines : Subroutines)
    (code tail : Bytes) :
    BoundsExtend (α := α) (glyphBounds code subroutines)
      (glyphBounds (code ++ tail) subroutines) where
  error_eq := by
    intro e hbounds hdata hoverflow
    rcases glyphBounds_eq_error_iff.mp hbounds with hfinal | ⟨-, -, -, rfl⟩
    · exact glyphBounds_eq_error_iff.mpr (Or.inl (finalState_append_of_error hfinal hdata tail))
    · contradiction
  overflow := by
    intro hbounds
    rcases glyphBounds_eq_error_iff.mp hbounds with hfinal | ⟨s, hfinal, hflag, -⟩
    · have herror := finalState_append_of_error hfinal (by simp) tail
      exact ⟨_, glyphBounds_eq_error_iff.mpr (Or.inl herror)⟩
    · cases hextended : finalState (α := α) (code ++ tail) subroutines with
      | error e => exact ⟨e, glyphBounds_eq_error_iff.mpr (Or.inl hextended)⟩
      | ok s' =>
        obtain ⟨path, hpath⟩ := finalState_append_of_ok hfinal hextended
        have hflag' : s'.outline.overflowed = true := by
          rw [hpath]
          exact Outline.overflowed_draw hflag path
        exact ⟨_, glyphBounds_eq_error_iff.mpr (Or.inr ⟨s', hextended, hflag', rfl⟩)⟩
  isWithin := by
    intro b box hbounds hextended
    obtain ⟨s, hfinal, -, hb⟩ := glyphBounds_eq_ok_iff.mp hbounds
    obtain ⟨s', hfinal', hflag', rfl⟩ := glyphBounds_eq_ok_iff.mp hextended
    obtain ⟨path, hpath⟩ := finalState_append_of_ok hfinal hfinal'
    obtain ⟨drawn, htracks⟩ := exists_tracks_of_finalState hfinal
    rw [hpath] at hflag' ⊢
    exact htracks.isWithin_draw hflag' hb

/-- More code behind a charstring refines its bounds, and leaves them as they are if the glyph ends
by an instruction. -/
theorem glyphBounds_append (subroutines : Subroutines) (code tail : Bytes) :
    BoundsExtend (α := Float) (glyphBounds code subroutines)
        (glyphBounds (code ++ tail) subroutines) ∧
      ∀ n c, State.semantics.Steps subroutines (some nestingLimit) n
          (.start code (.initial : State Float)) c → c.EndsGlyph →
        glyphBounds (α := Float) (code ++ tail) subroutines = glyphBounds code subroutines := by
  refine ⟨boundsExtend_append subroutines code tail, ?_⟩
  intro n c hsteps hc
  have hrun : finalState (code ++ tail) subroutines = finalState (α := Float) code subroutines :=
    Semantics.run_extend_of_endsGlyph tail (Nat.zero_le _) hsteps hc
  rw [glyphBounds, glyphBounds, hrun]

/-- A glyph that a subroutine ends before code that would fail, and a line before another one. -/
theorem glyphBounds_append_subroutine :
    glyphBounds (α := Float) ([33, 29] ++ [18, 10]) ⟨#[[11], [149, 159, 5, 14]], .missing⟩ =
        glyphBounds [33, 29] ⟨#[[11], [149, 159, 5, 14]], .missing⟩ ∧
      BoundsExtend (α := Float) (glyphBounds [149, 159, 5] ⟨#[], .missing⟩)
        (glyphBounds ([149, 159, 5] ++ [129, 119, 5]) ⟨#[], .missing⟩) := by
  have hends : ∃ c, State.semantics.Steps ⟨#[[11], [149, 159, 5, 14]], .missing⟩
      (some nestingLimit) 5 (.start [33, 29] (.initial : State Float)) c ∧ c.EndsGlyph :=
    ⟨_, .head rfl (.head rfl (.head rfl (.head rfl (.head rfl (.refl _))))), .endchar, _, rfl,
      Or.inl rfl⟩
  obtain ⟨c, hsteps, hc⟩ := hends
  exact ⟨(glyphBounds_append _ [33, 29] [18, 10]).2 5 c hsteps hc,
    (glyphBounds_append _ [149, 159, 5] [129, 119, 5]).1⟩

end FontMetrics.Charstring
