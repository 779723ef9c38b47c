import Mathlib.Data.List.Infix
import FontMetrics.Proofs.Charstring.Encoding
import FontMetrics.Proofs.Charstring.Execution

/-!
# Code within more code

A configuration is put into a context: more code follows its outermost charstring, and more callers
wait below.  As long as an execution does not use up its own code, it does the same in any context
in which subroutines may be nested deeply enough.  Conversely, an execution in front of more code is
one without that code until the moment it reaches it.
-/

namespace FontMetrics.Charstring

variable {σ : Type}

open Instruction (Encodes)

namespace Config

/-- Puts `tail` behind the outermost of some charstrings, and `outer` below it. -/
def extendFrames (tail : Bytes) (outer : List Bytes) : Bytes → List Bytes → Bytes × List Bytes
  | code, [] => (code ++ tail, outer)
  | code, caller :: callers =>
    let (caller, callers) := extendFrames tail outer caller callers
    (code, caller :: callers)

/-- The configuration with the code `tail` after its outermost charstring, called from `outer`. -/
def extend (tail : Bytes) (outer : List Bytes) (c : Config σ) : Config σ where
  code := (extendFrames tail outer c.code c.callers).1
  callers := (extendFrames tail outer c.code c.callers).2
  data := c.data

/-- What is left of the outermost charstring. -/
def base : Bytes → List Bytes → Bytes
  | code, [] => code
  | _, caller :: callers => base caller callers

variable (tail : Bytes) (outer : List Bytes)

@[simp] theorem extend_top (code : Bytes) (data : σ) :
    (⟨code, [], data⟩ : Config σ).extend tail outer = ⟨code ++ tail, outer, data⟩ := rfl

/-- Extending adds the outer callers to those that wait. -/
@[simp] theorem depth_extend (c : Config σ) :
    (c.extend tail outer).depth = c.depth + outer.length := by
  have hlength (code : Bytes) (callers : List Bytes) :
      (extendFrames tail outer code callers).2.length = callers.length + outer.length := by
    induction callers generalizing code with
    | nil => simp [extendFrames]
    | cons caller callers ih =>
      simp only [extendFrames, List.length_cons, ih]
      omega
  exact hlength c.code c.callers

/-- Code in front of the running charstring is not touched by extending. -/
theorem extendFrames_append (front rest : Bytes) (callers : List Bytes) :
    extendFrames tail outer (front ++ rest) callers =
      (front ++ (extendFrames tail outer rest callers).1,
        (extendFrames tail outer rest callers).2) := by
  cases callers with
  | nil => simp [extendFrames]
  | cons caller callers => rfl

theorem extend_append (front rest : Bytes) (callers : List Bytes) (data : σ) :
    (⟨front ++ rest, callers, data⟩ : Config σ).extend tail outer =
      ⟨front ++ ((⟨rest, callers, data⟩ : Config σ).extend tail outer).code,
        ((⟨rest, callers, data⟩ : Config σ).extend tail outer).callers, data⟩ := by
  simp only [extend, extendFrames_append]

/-- What an extended configuration resumes is the extension of what is resumed without. -/
theorem resume_extendFrames {code : Bytes} {callers : List Bytes} {place : Bytes × List Bytes}
    (h : resume code callers = some place) :
    resume (extendFrames tail outer code callers).1 (extendFrames tail outer code callers).2 =
      some (extendFrames tail outer place.1 place.2) := by
  fun_induction resume code callers with
  | case1 => cases h
  | case2 caller callers ih => exact ih h
  | case3 byte code callers =>
    cases h
    have hcode := extendFrames_append tail outer [byte] code callers
    simp only [List.singleton_append] at hcode
    rw [hcode]
    exact resume_of_ne_nil _ (List.cons_ne_nil _ _)

/-- Once a configuration has used up its code, its context goes on. -/
theorem resume_extendFrames_of_none {code : Bytes} {callers : List Bytes}
    (h : resume code callers = none) :
    resume (extendFrames tail outer code callers).1 (extendFrames tail outer code callers).2 =
      resume tail outer := by
  fun_induction resume code callers with
  | case1 => rfl
  | case2 caller callers ih => exact ih h
  | case3 byte code callers => cases h

/-- Resuming a caller does not touch the outermost charstring. -/
theorem base_resume {code rest : Bytes} {callers waiting : List Bytes}
    (h : resume code callers = some (rest, waiting)) : base rest waiting = base code callers := by
  fun_induction resume code callers with
  | case1 => cases h
  | case2 caller callers ih => exact ih h
  | case3 byte code callers => cases h; rfl

theorem base_of_resume_none {code : Bytes} {callers : List Bytes}
    (h : resume code callers = none) : base code callers = [] := by
  fun_induction resume code callers with
  | case1 => rfl
  | case2 caller callers ih => exact ih h
  | case3 byte code callers => cases h

theorem base_settle (c : Config σ) :
    base c.settle.code c.settle.callers = base c.code c.callers := by
  unfold settle
  split
  · next h => exact (base_of_resume_none h).symm
  · next h => exact base_resume h

/-- Settling is determined by what is resumed. -/
theorem settle_congr {c d : Config σ} (h : resume c.code c.callers = resume d.code d.callers)
    (hdata : c.data = d.data) : c.settle = d.settle := by
  simp only [settle, h, hdata]

/-- Settling an extension may be done in two steps. -/
theorem settle_extend (c : Config σ) :
    (c.settle.extend tail outer).settle = (c.extend tail outer).settle := by
  have hresume : resume (c.settle.extend tail outer).code (c.settle.extend tail outer).callers =
      resume (c.extend tail outer).code (c.extend tail outer).callers := by
    cases h : resume c.code c.callers with
    | none =>
      exact (resume_extendFrames_of_none tail outer (by rw [resume_settle, h])).trans
        (resume_extendFrames_of_none tail outer h).symm
    | some place =>
      exact (resume_extendFrames tail outer (by rw [resume_settle, h])).trans
        (resume_extendFrames tail outer h).symm
  exact settle_congr hresume c.settle_data

variable {tail outer}

/-- A configuration stands in front of its context once all its own code is used up. -/
theorem settle_of_extend {c : Config σ} {data : σ}
    (h : (c.extend tail []).settle = ⟨tail, [], data⟩) : c.settle = ⟨[], [], data⟩ := by
  have hdata : c.data = data := by
    have := congrArg Config.data h
    rwa [settle_data] at this
  subst hdata
  cases hplace : resume c.code c.callers with
  | none => simp only [settle, hplace]
  | some place =>
    obtain ⟨code, callers⟩ := place
    have hextended : resume (c.extend tail []).code (c.extend tail []).callers =
        some (extendFrames tail [] code callers) := resume_extendFrames tail [] hplace
    simp only [settle, hextended, Config.mk.injEq] at h
    cases callers with
    | nil => exact absurd (List.append_left_eq_self.mp h.1) (resume_ne_nil hplace)
    | cons caller callers => simp [extendFrames] at h

/-- The next instruction is the one whose code comes first in what is resumed. -/
theorem fetch_eq_ok_iff {c c' : Config σ} {i : Instruction} :
    c.fetch = some (.ok (i, c')) ↔ ∃ code rest callers, Encodes code i ∧
      resume c.code c.callers = some (code ++ rest, callers) ∧ c' = ⟨rest, callers, c.data⟩ := by
  constructor
  · intro h
    unfold fetch at h
    split at h
    · cases h
    · next bytes callers hresume =>
      split at h
      · cases h
      · next hdecode =>
        cases h
        obtain ⟨code, hcode, rfl⟩ := Instruction.decode_eq_ok_iff.mp hdecode
        exact ⟨code, _, callers, hcode, hresume, rfl⟩
  · rintro ⟨code, rest, callers, hcode, hresume, rfl⟩
    unfold fetch
    rw [hresume]
    simp only [Instruction.decode_append hcode]

/-- An instruction is read in any context. -/
theorem fetch_extend (tail : Bytes) (outer : List Bytes) {c c' : Config σ} {i : Instruction}
    (h : c.fetch = some (.ok (i, c'))) :
    (c.extend tail outer).fetch = some (.ok (i, c'.extend tail outer)) := by
  obtain ⟨code, rest, callers, hcode, hresume, rfl⟩ := fetch_eq_ok_iff.mp h
  have hextended := resume_extendFrames tail outer hresume
  rw [extendFrames_append] at hextended
  exact fetch_eq_ok_iff.mpr ⟨code, _, _, hcode, hextended, rfl⟩

/-- Reading the instruction of an extended configuration that leaves all the code behind is reading
an instruction of the configuration itself. -/
theorem fetch_of_extend {c c₁ : Config σ} {i : Instruction}
    (h : (c.extend tail []).fetch = some (.ok (i, c₁))) (hbase : tail <:+ base c₁.code c₁.callers) :
    ∃ c', c.fetch = some (.ok (i, c')) ∧ c₁ = c'.extend tail [] := by
  obtain ⟨code, rest, callers, hcode, hresume, rfl⟩ := fetch_eq_ok_iff.mp h
  cases hplace : resume c.code c.callers with
  | none =>
    -- All own code is used up, so the instruction was read from the tail.
    have htail := (resume_extendFrames_of_none tail [] hplace).symm.trans
      hresume
    have hbytes := base_resume htail
    have hlength := hbase.length_le
    cases callers with
    | nil =>
      simp only [base] at hbytes hlength
      have hpos := List.length_pos_iff.mpr hcode.ne_nil
      rw [← hbytes, List.length_append] at hlength
      omega
    | cons caller callers => exact absurd (length_resume_le htail) (by simp)
  | some place =>
    obtain ⟨running, waiting⟩ := place
    have hextended := (resume_extendFrames tail [] hplace).symm.trans hresume
    cases waiting with
    | nil =>
      simp only [extendFrames, Option.some.injEq, Prod.mk.injEq] at hextended
      obtain ⟨hbytes, rfl⟩ := hextended
      obtain ⟨own, rfl⟩ := hbase
      rw [← List.append_assoc] at hbytes
      have hown := List.append_cancel_right hbytes
      exact ⟨⟨own, [], c.data⟩, fetch_eq_ok_iff.mpr ⟨code, own, [], hcode, hown ▸ hplace, rfl⟩, rfl⟩
    | cons caller callers' =>
      simp only [extendFrames, Option.some.injEq, Prod.mk.injEq] at hextended
      obtain ⟨rfl, rfl⟩ := hextended
      exact ⟨⟨rest, caller :: callers', c.data⟩,
        fetch_eq_ok_iff.mpr ⟨code, rest, _, hcode, hplace, rfl⟩, rfl⟩

/-- Reading an instruction takes its code off the front. -/
theorem base_fetch {c c' : Config σ} {i : Instruction} (h : c.fetch = some (.ok (i, c'))) :
    base c'.code c'.callers <:+ base c.code c.callers := by
  obtain ⟨code, rest, callers, -, hresume, rfl⟩ := fetch_eq_ok_iff.mp h
  rw [← base_resume hresume]
  cases callers with
  | nil => exact List.suffix_append code rest
  | cons caller callers => exact List.suffix_rfl

end Config

namespace Semantics

open Config (base extendFrames)

variable {sem : Semantics σ} {subroutines : Subroutines} {limit : Option Nat}

/-- An instruction has the same effect in any context that does not nest too deeply. -/
theorem Executes.extend (tail : Bytes) (outer : List Bytes) {c c' : Config σ} {i : Instruction}
    (h : sem.Executes subroutines limit c i c')
    (hdepth : ∀ most, limit = some most → c'.depth + outer.length ≤ most) :
    sem.Executes subroutines limit (c.extend tail outer) i (c'.extend tail outer) := by
  obtain ⟨code, callers, data⟩ := c
  cases h with
  | number h => exact .number h
  | stem op => exact .stem _ op
  | mask op h =>
    obtain ⟨rfl, hlength⟩ := Bytes.slice_eq_ok_iff.mp h
    rw [Config.extend_append]
    exact .mask op (Bytes.slice_eq_ok_iff.mpr ⟨rfl, hlength⟩)
  | path h => exact .path h
  | compute h => exact .compute h
  | call htable hne hindex hcode =>
    refine .call htable (fun he => ?_) hindex hcode
    have hle := hdepth _ he
    rw [Config.depth_extend] at hle
    simp only [Config.depth, List.length_cons] at hle
    omega
  | ret hcallers =>
    subst hcallers
    exact .ret rfl
  | dotsection => exact .dotsection _

/-- An instruction that leaves all the code behind in place does not depend on that code. -/
theorem Executes.of_extend {tail : Bytes} {c c₁ : Config σ} {i : Instruction}
    (h : sem.Executes subroutines limit (c.extend tail []) i c₁)
    (hbase : tail <:+ base c₁.code c₁.callers) :
    ∃ c', sem.Executes subroutines limit c i c' ∧ c₁ = c'.extend tail [] := by
  obtain ⟨code, callers, data⟩ := c
  cases h with
  | number h => exact ⟨_, .number h, rfl⟩
  | stem op => exact ⟨_, .stem _ op, rfl⟩
  | @mask op mask rest h =>
    obtain ⟨hbytes, hlength⟩ := Bytes.slice_eq_ok_iff.mp h
    cases callers with
    | nil =>
      obtain ⟨own, rfl⟩ := hbase
      simp only [Config.extend_top, ← List.append_assoc] at hbytes
      refine ⟨⟨own, [], _⟩, .mask op (Bytes.slice_eq_ok_iff.mpr ⟨?_, hlength⟩), rfl⟩
      exact List.append_cancel_right hbytes
    | cons caller callers =>
      exact ⟨⟨rest, caller :: callers, _⟩, .mask op (Bytes.slice_eq_ok_iff.mpr ⟨hbytes, hlength⟩),
        rfl⟩
  | path h => exact ⟨_, .path h, rfl⟩
  | compute h => exact ⟨_, .compute h, rfl⟩
  | call htable hne hindex hcode =>
    rw [Config.depth_extend] at hne
    exact ⟨_, .call htable hne hindex hcode, rfl⟩
  | ret hcallers =>
    cases callers with
    | nil => cases hcallers
    | cons caller callers =>
      cases hcallers
      exact ⟨_, .ret rfl, rfl⟩
  | dotsection => exact ⟨_, .dotsection _, rfl⟩

/-- The outermost charstring only ever loses bytes at its front. -/
theorem Executes.base_suffix {c c' : Config σ} {i : Instruction}
    (h : sem.Executes subroutines limit c i c') :
    base c'.code c'.callers <:+ base c.code c.callers := by
  obtain ⟨code, callers, data⟩ := c
  cases h with
  | mask op h =>
    obtain ⟨rfl, -⟩ := Bytes.slice_eq_ok_iff.mp h
    cases callers with
    | nil => exact List.suffix_append _ _
    | cons caller callers => exact List.suffix_rfl
  | ret hcallers =>
    subst hcallers
    exact List.suffix_rfl
  | _ => exact List.suffix_rfl

theorem Steps.base_suffix {n : Nat} {c c' : Config σ} (h : sem.Steps subroutines limit n c c') :
    base c'.code c'.callers <:+ base c.code c.callers := by
  induction h with
  | refl => exact List.suffix_rfl
  | head first _ ih =>
    obtain ⟨i, rest, hfetch, hexecutes⟩ := exists_step_iff.mp ⟨_, first⟩
    exact ih.trans (hexecutes.base_suffix.trans (Config.base_fetch hfetch))

/-- An execution does the same in any context that does not nest too deeply. -/
theorem Steps.extend (tail : Bytes) (outer : List Bytes) {n : Nat} {c c' : Config σ}
    (h : sem.Steps subroutines limit n c c')
    (hdepth : ∀ m mid, sem.Steps subroutines limit m c mid → m ≤ n →
      ∀ most, limit = some most → mid.depth + outer.length ≤ most) :
    sem.Steps subroutines limit n (c.extend tail outer) (c'.extend tail outer) := by
  induction h with
  | refl => exact .refl _
  | @head n called c mid c' first rest ih =>
    obtain ⟨i, behind, hfetch, hexecutes⟩ := exists_step_iff.mp ⟨_, first⟩
    have hmid := hdepth 1 mid (.head first (.refl mid)) (by omega)
    obtain ⟨called', hstep⟩ := exists_step_iff.mpr
      ⟨i, _, Config.fetch_extend tail outer hfetch, hexecutes.extend tail outer hmid⟩
    refine .head hstep (ih fun m late hsteps hm => ?_)
    exact hdepth (m + 1) late (.head first hsteps) (by omega)

/-- An execution that leaves all the code behind in place does not depend on that code. -/
theorem Steps.of_extend {tail : Bytes} {n : Nat} {c c₁ : Config σ}
    (h : sem.Steps subroutines limit n (c.extend tail []) c₁)
    (hbase : tail <:+ base c₁.code c₁.callers) :
    ∃ c', sem.Steps subroutines limit n c c' ∧ c₁ = c'.extend tail [] := by
  generalize hstart : c.extend tail [] = start at h
  induction h generalizing c with
  | refl => exact ⟨c, .refl c, hstart.symm⟩
  | head first rest ih =>
    subst hstart
    obtain ⟨i, behind, hfetch, hexecutes⟩ := exists_step_iff.mp ⟨_, first⟩
    have hmid := hbase.trans rest.base_suffix
    obtain ⟨own, hown, rfl⟩ := Config.fetch_of_extend hfetch (hmid.trans hexecutes.base_suffix)
    obtain ⟨next, hnext, rfl⟩ := hexecutes.of_extend hmid
    obtain ⟨called, hstep⟩ := exists_step_iff.mpr ⟨i, own, hown, hnext⟩
    obtain ⟨c', hsteps, hc'⟩ := ih hbase rfl
    exact ⟨c', .head hstep hsteps, hc'⟩

/-- A place reached by an execution is reached in any context that does not nest too deeply. -/
theorem Reaches.extend (tail : Bytes) (outer : List Bytes) {n : Nat} {c place : Config σ}
    (h : sem.Reaches subroutines limit n c place)
    (hdepth : ∀ m mid, sem.Steps subroutines limit m c mid → m ≤ n →
      ∀ most, limit = some most → mid.depth + outer.length ≤ most) :
    sem.Reaches subroutines limit n (c.extend tail outer) (place.extend tail outer).settle := by
  obtain ⟨c', hsteps, rfl⟩ := h
  exact ⟨c'.extend tail outer, hsteps.extend tail outer hdepth,
    (Config.settle_extend tail outer c').symm⟩

/-- An execution that reaches the code behind does so by using up its own code. -/
theorem Reaches.of_extend {tail : Bytes} {n : Nat} {c : Config σ} {data : σ}
    (h : sem.Reaches subroutines limit n (c.extend tail []) ⟨tail, [], data⟩) :
    sem.Reaches subroutines limit n c ⟨[], [], data⟩ := by
  obtain ⟨c₁, hsteps, hsettle⟩ := h
  have hbase : base c₁.code c₁.callers = tail := by rw [← Config.base_settle, hsettle]; rfl
  obtain ⟨c', hown, rfl⟩ := hsteps.of_extend (by rw [hbase])
  exact ⟨c', hown, Config.settle_of_extend hsettle⟩

end Semantics

end FontMetrics.Charstring
