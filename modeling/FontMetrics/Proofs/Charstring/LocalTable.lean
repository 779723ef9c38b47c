import FontMetrics.Font.Cff
import FontMetrics.Proofs.Charstring.Effects
import FontMetrics.Proofs.Charstring.Failure

/-!
# Glyphs with other local subroutines

Only a call of a local subroutine depends on the local subroutines of a glyph, and where there is no
table it fails before it looks at anything else.  So executions of a glyph with different local
subroutines are the same up to the first such call.  A glyph without one is indifferent to the local
subroutines; any other fails in a font without a table, with the error that says why there is none.
-/

namespace FontMetrics

namespace Charstring

variable {σ β γ : Type}

/-- The error of a call into a local table that is not there. -/
def Error.OfLocals : Error → Prop
  | .noLocalSubroutines | .cidKeyedFont => True
  | _ => False

/-- What becomes of an error in a font without local subroutines if the font selects them for each
glyph instead. -/
def Error.ofCidKeyed : Error → Error
  | .noLocalSubroutines => .cidKeyedFont
  | e => e

theorem Error.ofCidKeyed_eq {e : Error} (h : ¬ e.OfLocals) : e.ofCidKeyed = e := by
  cases e with
  | noLocalSubroutines => exact absurd trivial h
  | _ => rfl

/-- The operands are not to blame for a table that is not there. -/
theorem Error.OfOperands.not_ofLocals {e : Error} (h : e.OfOperands) : ¬ e.OfLocals := by
  cases e with
  | noLocalSubroutines | cidKeyedFont => exact False.elim h
  | _ => exact id

/-- The next instruction calls a local subroutine. -/
def Config.CallsLocal (c : Config σ) : Prop :=
  ∃ rest, c.fetch = some (.ok (.operator (.call .localScope), rest))

/-- How a result depends on the local subroutines. -/
inductive DependsOnLocals (result : LocalSubroutines → Except Error β) : Prop where
  /-- Not at all, and it is not the error of a table that is not there. -/
  | never {r : Except Error β} (h : ∀ locals, result locals = r)
    (hr : ∀ e, r = .error e → ¬ e.OfLocals)
  /-- Without a table it is an error that says why there is none. -/
  | calls (hmissing : result .missing = .error .noLocalSubroutines)
    (hcidKeyed : result .cidKeyed = .error .cidKeyedFont)

namespace DependsOnLocals

variable {result : LocalSubroutines → Except Error β}

/-- What goes on without local subroutines depends on them as what came before. -/
theorem bind (h : DependsOnLocals result) {f : β → Except Error γ}
    (hf : ∀ b e, f b = .error e → ¬ e.OfLocals) :
    DependsOnLocals fun locals => result locals >>= f := by
  cases h with
  | @never r h hr =>
    refine .never (r := r >>= f) (fun locals => by rw [h]) fun e he => ?_
    cases r with
    | error e' => cases he; exact hr _ rfl
    | ok b => exact hf b e he
  | calls hmissing hcidKeyed => exact .calls (by rw [hmissing]; rfl) (by rw [hcidKeyed]; rfl)

/-- The two kinds of fonts without a table differ in the error of a local call. -/
theorem cidKeyed_eq (h : DependsOnLocals result) :
    result .cidKeyed = (result .missing).mapError Error.ofCidKeyed := by
  cases h with
  | @never r h hr =>
    rw [h, h]
    cases r with
    | error e => exact congrArg Except.error (Error.ofCidKeyed_eq (hr e rfl)).symm
    | ok b => rfl
  | calls hmissing hcidKeyed => rw [hmissing, hcidKeyed]; rfl

/-- Without a local call the local subroutines do not matter. -/
theorem eq_missing (h : DependsOnLocals result)
    (hne : result .missing ≠ .error .noLocalSubroutines) (locals : LocalSubroutines) :
    result locals = result .missing := by
  cases h with
  | never h hr => rw [h, h]
  | calls hmissing hcidKeyed => exact absurd hmissing hne

end DependsOnLocals

namespace Semantics

/-- Instructions that act on the data fail for their operands alone. -/
structure BlamesOperands (sem : Semantics σ) : Prop where
  number (value : Fixed) (s : σ) : FailsForOperands (sem.number value s)
  path (op : PathOperator) (s : σ) : FailsForOperands (sem.path op s)
  compute (op : StackOperator) (s : σ) : FailsForOperands (sem.compute op s)
  popIndex (size : Nat) (s : σ) : FailsForOperands (sem.popIndex size s)

variable {sem : Semantics σ} {subroutines : Subroutines} {globals : SubroutineTable}
  {limit : Option Nat}

/-- Where there is no local table, a call into it fails at once. -/
theorem step_of_callsLocal {locals : LocalSubroutines} {c : Config σ} {e : Error}
    (h : c.CallsLocal)
    (htable : (⟨globals, locals⟩ : Subroutines).table .localScope = .error e) :
    sem.step ⟨globals, locals⟩ limit c = .fail e := by
  obtain ⟨rest, hfetch⟩ := h
  rw [step_of_fetch_ok hfetch]
  simp only [execute, call, htable]

/-- No other instruction depends on the local subroutines. -/
theorem step_of_not_callsLocal {c : Config σ} (h : ¬ c.CallsLocal)
    (locals locals' : LocalSubroutines) :
    sem.step ⟨globals, locals⟩ limit c = sem.step ⟨globals, locals'⟩ limit c := by
  cases hfetch : c.fetch with
  | none => rw [step_of_fetch_none hfetch, step_of_fetch_none hfetch]
  | some read =>
    rcases read with e | ⟨i, rest⟩
    · rw [step_of_fetch_error hfetch, step_of_fetch_error hfetch]
    · rw [step_of_fetch_ok hfetch, step_of_fetch_ok hfetch]
      cases i with
      | number value => rfl
      | operator op =>
        cases op with
        | call scope =>
          cases scope with
          | localScope => exact absurd ⟨rest, hfetch⟩ h
          | globalScope => rfl
        | _ => rfl

private theorem not_ofLocals_of_eq_error {r : Except Error β} {e : Error}
    (hr : FailsForOperands r) (h : r = .error e) : ¬ e.OfLocals := by
  subst h
  exact Error.OfOperands.not_ofLocals hr

/-- Nothing but a call of a local subroutine fails for want of a table. -/
theorem callsLocal_of_step (hsem : sem.BlamesOperands) {c : Config σ} {e : Error}
    (h : sem.step subroutines limit c = .fail e) (he : e.OfLocals) : c.CallsLocal := by
  rcases fails_of_step h with hfetch | ⟨i, rest, hfetch, hfails⟩
  · rcases Config.error_of_fetch hfetch with rfl | ⟨escaped, code, rfl⟩ <;> cases he
  · cases hfails with
    | number hs => exact absurd he (not_ofLocals_of_eq_error (hsem.number _ _) hs)
    | path hs => exact absurd he (not_ofLocals_of_eq_error (hsem.path _ _) hs)
    | compute hs => exact absurd he (not_ofLocals_of_eq_error (hsem.compute _ _) hs)
    | index htable hdepth hs => exact absurd he (not_ofLocals_of_eq_error (hsem.popIndex _ _) hs)
    | @table scope _ htable =>
      cases scope with
      | localScope => exact ⟨rest, hfetch⟩
      | globalScope => cases htable
    | mask | nesting | subroutine => cases he

/-- An execution depends on the local subroutines through its first local call. -/
theorem dependsOnLocals_run (hsem : sem.BlamesOperands) (budget : Nat) (c : Config σ) :
    DependsOnLocals fun locals => sem.run ⟨globals, locals⟩ limit budget c := by
  induction budget generalizing c with
  | zero =>
    refine .never (r := if c.isFinished then .ok c.data else .error .instructionLimit)
      (fun _ => rfl) fun e he => ?_
    split at he <;> cases he
    exact id
  | succ budget ih =>
    by_cases hcall : c.CallsLocal
    · refine .calls ?_ ?_
      · rw [run, step_of_callsLocal hcall rfl]
      · rw [run, step_of_callsLocal hcall rfl]
    · have hstep (locals : LocalSubroutines) : sem.step ⟨globals, locals⟩ limit c =
          sem.step ⟨globals, .missing⟩ limit c := step_of_not_callsLocal hcall locals .missing
      cases hmissing : sem.step ⟨globals, .missing⟩ limit c with
      | next called c' =>
        have hrun (locals : LocalSubroutines) : sem.run ⟨globals, locals⟩ limit (budget + 1) c =
            sem.run ⟨globals, locals⟩ limit budget c' := by rw [run, hstep, hmissing]
        simpa only [hrun] using ih c'
      | done data => exact .never (fun locals => by rw [run, hstep, hmissing]) (by simp)
      | fail e =>
        refine .never (fun locals => by rw [run, hstep, hmissing]) ?_
        rintro _ ⟨rfl⟩ he
        exact hcall (callsLocal_of_step hsem hmissing he)

end Semantics

variable {α : Type} [Scalar α]

theorem State.blamesOperands : (State.semantics : Semantics (State α)).BlamesOperands where
  number _ s := (State.computes_push _ s).mono fun _ _ => trivial
  path op s := State.failsForOperands_drawPath op s
  compute op s := (State.computes_compute op s).mono fun _ _ => trivial
  popIndex size s := (State.computes_popIndex size s).mono fun _ _ => trivial

/-- The bounds of a glyph depend on the local subroutines through its first local call. -/
theorem dependsOnLocals_glyphBounds (code : Bytes) (globals : SubroutineTable) :
    DependsOnLocals fun locals =>
      (glyphBounds code ⟨globals, locals⟩ : Except Error (Option (Box α))) := by
  have hbounds (locals : LocalSubroutines) :
      (glyphBounds code ⟨globals, locals⟩ : Except Error (Option (Box α))) =
        finalState code ⟨globals, locals⟩ >>= fun s => boundsOfOutline s.outline := by
    unfold glyphBounds
    cases finalState (α := α) code ⟨globals, locals⟩ <;> rfl
  simp only [hbounds]
  refine (Semantics.dependsOnLocals_run State.blamesOperands _ _).bind fun s e he => ?_
  unfold boundsOfOutline at he
  split at he <;> cases he
  exact id

end Charstring

namespace CffTable

open Charstring (SubroutineTable)

/-- The same outlines in a font with other local subroutines. -/
def withLocals (cff : CffTable) (hasFdSelect : Bool) (localSubrs : Option SubroutineTable) :
    CffTable :=
  { cff with topDict := { cff.topDict with hasFdSelect, privateDict := { localSubrs } } }

/-- A glyph that calls no local subroutine has the same bounds in fonts with any others. -/
theorem glyphBounds_withLocals {cff : CffTable} {glyphId : UInt16}
    (h : (cff.withLocals false none).glyphBounds glyphId ≠ .error .noLocalSubroutines)
    (hasFdSelect : Bool) (localSubrs : Option SubroutineTable) :
    (cff.withLocals hasFdSelect localSubrs).glyphBounds glyphId =
      (cff.withLocals false none).glyphBounds glyphId := by
  have hcharString : (cff.withLocals hasFdSelect localSubrs).charString? glyphId =
    (cff.withLocals false none).charString? glyphId := rfl
  unfold glyphBounds at h ⊢
  rw [hcharString]
  cases hcode : (cff.withLocals false none).charString? glyphId with
  | none => rfl
  | some code =>
    rw [hcode] at h
    exact (Charstring.dependsOnLocals_glyphBounds code cff.globalSubrs).eq_missing h _

end CffTable

namespace Charstring

/-- The local subroutines of a glyph matter only to executions that call one.  Without a table such
an execution fails, and the two kinds of fonts without one differ in the error alone; any other has
the same bounds whatever the local subroutines are.  A font that selects local subroutines glyph by
glyph has none, whatever its private dictionary says. -/
theorem glyphBounds_depends_on_called_locals :
    (∀ {α : Type} [Scalar α] (code : Bytes) (globals : SubroutineTable),
      (glyphBounds code ⟨globals, .cidKeyed⟩ : Except Error (Option (Box α))) =
          (glyphBounds code ⟨globals, .missing⟩).mapError Error.ofCidKeyed ∧
        ((glyphBounds code ⟨globals, .missing⟩ : Except Error (Option (Box α))) ≠
            .error .noLocalSubroutines →
          ∀ table, (glyphBounds code ⟨globals, .table table⟩ : Except Error (Option (Box α))) =
            glyphBounds code ⟨globals, .missing⟩)) ∧
    ∀ (cff : CffTable) (glyphId : UInt16),
      ((cff.withLocals false none).glyphBounds glyphId ≠ .error .noLocalSubroutines →
        ∀ hasFdSelect localSubrs,
          (cff.withLocals hasFdSelect localSubrs).glyphBounds glyphId = cff.glyphBounds glyphId) ∧
      (cff.topDict.hasFdSelect = true →
        ∀ localSubrs, (cff.withLocals true localSubrs).glyphBounds glyphId =
          cff.glyphBounds glyphId) := by
  refine ⟨fun {α} _ code globals => ?_, fun cff glyphId => ⟨fun h hasFdSelect localSubrs => ?_, ?_⟩⟩
  · have hdepends := dependsOnLocals_glyphBounds (α := α) code globals
    exact ⟨hdepends.cidKeyed_eq, fun hne table => hdepends.eq_missing hne _⟩
  · have hown : cff.withLocals cff.topDict.hasFdSelect cff.topDict.privateDict.localSubrs = cff :=
      rfl
    rw [CffTable.glyphBounds_withLocals h, ← CffTable.glyphBounds_withLocals h, hown]
  · intro hselect localSubrs
    have hown : cff.withLocals true cff.topDict.privateDict.localSubrs = cff := by
      rw [← hselect]
      rfl
    rw [← congrArg (CffTable.glyphBounds · glyphId) hown]
    rfl

/-- A glyph that draws in a global subroutine called by another one, in a font with a local
subroutine that would fail. -/
theorem glyphBounds_depends_on_called_locals_nested :
    let globals : SubroutineTable := #[[149, 159, 5, 11], [32, 29, 14]]
    let cff : CffTable := ⟨globals, ⟨false, ⟨some #[[2]]⟩, #[[33, 29]]⟩⟩
    (glyphBounds [33, 29] ⟨globals, .table #[[2]]⟩ : Except Error (Option (Box Float))) =
        glyphBounds [33, 29] ⟨globals, .missing⟩ ∧
      (cff.withLocals true none).glyphBounds 0 = cff.glyphBounds 0 ∧
      ((cff.withLocals true none).withLocals true (some #[])).glyphBounds 0 =
        (cff.withLocals true none).glyphBounds 0 := by
  intro globals cff
  have hends : ∃ (c : Config (State Float)) (s : State Float),
      State.semantics.Steps ⟨#[[149, 159, 5, 11], [32, 29, 14]], .missing⟩ (some nestingLimit) 8
        (.start [33, 29] .initial) c ∧
      State.semantics.step ⟨globals, .missing⟩ (some nestingLimit) c = .done s :=
    ⟨_, _, .head rfl (.head rfl (.head rfl (.head rfl (.head rfl (.head rfl (.head rfl (.head rfl
      (.refl _)))))))), rfl⟩
  have hbounds : (glyphBounds [33, 29] ⟨globals, .missing⟩ : Except Error (Option (Box Float))) ≠
      .error .noLocalSubroutines := by
    obtain ⟨c, s, hsteps, hdone⟩ := hends
    have hs : finalState (α := Float) [33, 29] ⟨globals, .missing⟩ = .ok s := by
      have hrun := Semantics.run_steps hsteps (instructionLimit - 9 + 1)
      rwa [Semantics.run, hdone] at hrun
    intro herror
    simp only [glyphBounds, hs, boundsOfOutline] at herror
    split at herror <;> cases herror
  exact ⟨(glyphBounds_depends_on_called_locals.1 [33, 29] globals).2 hbounds _,
    (glyphBounds_depends_on_called_locals.2 cff 0).1 hbounds true none,
    (glyphBounds_depends_on_called_locals.2 (cff.withLocals true none) 0).2 rfl (some #[])⟩

end Charstring

end FontMetrics
