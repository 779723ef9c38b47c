import Mathlib.Algebra.Order.Floor.Div
import Mathlib.GroupTheory.GroupAction.Ring
import FontMetrics.Proofs.Charstring.Effects
import FontMetrics.Proofs.Charstring.Inlining

/-!
# What hints do

The operands of stem and mask operators are counted and forgotten.  Only their number matters, and
only through the length of the masks: a mask has one bit for every hint declared so far, in whatever
subroutine, and its bytes are passed over.
-/

namespace FontMetrics.Charstring

open Instruction (Encodes)

/-- The byte of a stem operator. -/
def StemOperator.code : StemOperator → UInt8
  | .hstem => 1
  | .vstem => 3
  | .hstemhm => 18
  | .vstemhm => 23

/-- The byte of a mask operator. -/
def MaskOperator.code : MaskOperator → UInt8
  | .hintmask => 19
  | .cntrmask => 20

theorem encodes_stem (op : StemOperator) : Encodes [op.code] (.operator (.stem op)) := by
  cases op <;> rfl

theorem encodes_mask (op : MaskOperator) : Encodes [op.code] (.operator (.mask op)) := by
  cases op <;> rfl

/-- The bytes are the codes of so many numbers, one after another. -/
def EncodesNumbers (count : Nat) (code : Bytes) : Prop :=
  ∃ codes : List Bytes, codes.length = count ∧
    (∀ c ∈ codes, ∃ value, Encodes c (.number value)) ∧ codes.flatten = code

variable {α : Type}

/-- The states differ in nothing but the values of their operands. -/
structure State.Resembles (s t : State α) : Prop where
  /-- There are as many operands. -/
  size : s.stack.size = t.stack.size
  hints : s.hints = t.hints
  transient : s.transient = t.transient
  random : s.random = t.random
  outline : s.outline = t.outline

namespace State

variable {s t : State α}

theorem Resembles.refl (s : State α) : s.Resembles s := ⟨rfl, rfl, rfl, rfl, rfl⟩

/-- Hints are declared by the number of operands alone, which are gone then. -/
theorem Resembles.declareHints (h : s.Resembles t) : s.declareHints = t.declareHints := by
  obtain ⟨stack, hints, transient, random, outline⟩ := s
  obtain ⟨stack', hints', transient', random', outline'⟩ := t
  obtain ⟨hsize, rfl, rfl, rfl, rfl⟩ := h
  simp only [State.declareHints]
  rw [show stack.size = stack'.size from hsize]

/-- There is room for another operand in both states or in none. -/
theorem Resembles.push (h : s.Resembles t) (x y : α) :
    (∃ s' t', s.push x = .ok s' ∧ t.push y = .ok t' ∧ s'.Resembles t') ∨
      s.push x = .error .stackOverflow ∧ t.push y = .error .stackOverflow := by
  have hsize : s.stack.fromTop.length = t.stack.fromTop.length := h.size
  unfold State.push OperandStack.push
  by_cases hroom : s.stack.fromTop.length < stackLimit
  · rw [dif_pos hroom, dif_pos (hsize ▸ hroom)]
    refine Or.inl ⟨_, _, rfl, rfl, ⟨?_, h.hints, h.transient, h.random, h.outline⟩⟩
    exact congrArg (· + 1) hsize
  · rw [dif_neg hroom, dif_neg (hsize ▸ hroom)]
    exact Or.inr ⟨rfl, rfl⟩

end State

variable [Scalar α] {subroutines : Subroutines}

/-- Two executions that push as many numbers go on alike if they do so behind the numbers. -/
theorem run_numbers_eq {codes codes' : List Bytes} (hlength : codes.length = codes'.length)
    (hcodes : ∀ c ∈ codes, ∃ value, Encodes c (.number value))
    (hcodes' : ∀ c ∈ codes', ∃ value, Encodes c (.number value)) {limit : Option Nat}
    {rest rest' : Bytes} {callers : List Bytes} {s t : State α} (hst : s.Resembles t)
    (hrest : ∀ (budget : Nat) (s' t' : State α), s'.Resembles t' →
      State.semantics.Steps subroutines limit codes.length ⟨codes.flatten ++ rest, callers, s⟩
        ⟨rest, callers, s'⟩ →
      State.semantics.run subroutines limit budget ⟨rest, callers, s'⟩ =
        State.semantics.run subroutines limit budget ⟨rest', callers, t'⟩) (budget : Nat) :
    State.semantics.run subroutines limit budget ⟨codes.flatten ++ rest, callers, s⟩ =
      State.semantics.run subroutines limit budget ⟨codes'.flatten ++ rest', callers, t⟩ := by
  induction codes generalizing codes' s t budget with
  | nil =>
    obtain rfl : codes' = [] := List.length_eq_zero_iff.mp hlength.symm
    exact hrest budget s t hst (.refl _)
  | cons c codes ih =>
    cases codes' with
    | nil => cases hlength
    | cons c' codes' =>
      obtain ⟨⟨value, hc⟩, hcodes⟩ := List.forall_mem_cons.mp hcodes
      obtain ⟨⟨value', hc'⟩, hcodes'⟩ := List.forall_mem_cons.mp hcodes'
      simp only [List.flatten_cons, List.append_assoc] at hrest ⊢
      have hfetch := Config.fetch_append hc (codes.flatten ++ rest) callers s
      have hfetch' := Config.fetch_append hc' (codes'.flatten ++ rest') callers t
      cases budget with
      | zero =>
        have hne := List.append_ne_nil_of_left_ne_nil hc.ne_nil (codes.flatten ++ rest)
        have hne' := List.append_ne_nil_of_left_ne_nil hc'.ne_nil (codes'.flatten ++ rest')
        simp only [Semantics.run, Config.isFinished_of_ne_nil callers s hne,
          Config.isFinished_of_ne_nil callers t hne']
        rfl
      | succ budget =>
        rw [Semantics.run, Semantics.run, Semantics.step_of_fetch_ok hfetch,
          Semantics.step_of_fetch_ok hfetch']
        rcases hst.push value.toScalar value'.toScalar with
          ⟨s', t', hs', ht', hst'⟩ | ⟨hs', ht'⟩
        · simp only [Semantics.execute, State.semantics, hs', ht', Config.continueWith]
          refine ih (Nat.succ.inj hlength) hcodes hcodes' hst' ?_ budget
          intro budget s'' t'' hlike hsteps
          have hexecutes : State.semantics.Executes subroutines limit
            ⟨codes.flatten ++ rest, callers, s⟩ (.number value)
            ⟨codes.flatten ++ rest, callers, s'⟩ := .number hs'
          obtain ⟨called, hstep⟩ := Semantics.exists_step_iff.mpr ⟨_, _, hfetch, hexecutes⟩
          exact hrest budget s'' t'' hlike (.head hstep hsteps)
        · simp only [Semantics.execute, State.semantics, hs', ht', Config.continueWith]

/-- How many hints the next instruction declares: one for every two operands of a stem or mask
operator. -/
def Config.declaredHints (c : Config (State α)) : Nat :=
  match c.fetch with
  | some (.ok (.operator (.stem _), _)) => c.data.stack.size / 2
  | some (.ok (.operator (.mask _), _)) => c.data.stack.size / 2
  | _ => 0

variable (subroutines) in
/-- How many hints the first `n` instructions of an execution declare, in whatever subroutines. -/
def hintTotal : (n : Nat) → Config (State α) → Nat
  | 0, _ => 0
  | n + 1, c => c.declaredHints +
    match State.semantics.step subroutines (some nestingLimit) c with
    | .next _ c' => hintTotal n c'
    | _ => 0

/-- A step declares the hints of its instruction. -/
theorem hints_of_step {c c' : Config (State α)} {called : Option Call}
    (h : State.semantics.step subroutines (some nestingLimit) c = .next called c') :
    c'.data.hints = c.data.hints + c.declaredHints := by
  obtain ⟨i, rest, hfetch, hexecutes⟩ := Semantics.exists_step_iff.mp ⟨called, h⟩
  rw [Config.declaredHints, hfetch, ← (Config.fetch_frame hfetch).1]
  cases hexecutes with
  | @number value data hs =>
    exact ((State.computes_push _ rest.data).value hs).hints
  | stem op => rfl
  | mask op hslice => rfl
  | @path op data hs =>
    obtain ⟨path, rfl⟩ := State.exists_of_drawPath hs
    rfl
  | @compute op data hs =>
    exact ((State.computes_compute op rest.data).value hs).hints
  | @call scope table index code data htable hdepth hindex hcode =>
    exact ((State.computes_popIndex table.size rest.data).value hindex).hints
  | ret hcallers => rfl
  | dotsection => rfl

/-- The hints of a state are those declared on the way to it. -/
theorem hints_of_steps {n : Nat} {c c' : Config (State α)}
    (h : State.semantics.Steps subroutines (some nestingLimit) n c c') :
    c'.data.hints = c.data.hints + hintTotal subroutines n c := by
  induction h with
  | refl => rfl
  | head first _ ih => rw [ih, hints_of_step first, hintTotal, first, Nat.add_assoc]

/-- One more instruction declares its hints. -/
theorem hintTotal_succ {n : Nat} {c c' : Config (State α)}
    (h : State.semantics.Steps subroutines (some nestingLimit) n c c') :
    hintTotal subroutines (n + 1) c = hintTotal subroutines n c + c'.declaredHints := by
  induction h with
  | refl c =>
    rw [hintTotal, hintTotal, Nat.zero_add]
    split <;> rfl
  | head first _ ih =>
    rw [hintTotal, first]
    dsimp only
    rw [ih, hintTotal, first, Nat.add_assoc]

/-- At a mask operator, the hints are those declared so far, its own included. -/
theorem hints_declareHints {n : Nat} {code : Bytes} {c rest : Config (State α)} {op : MaskOperator}
    (h : State.semantics.Steps subroutines (some nestingLimit) n (.start code .initial) c)
    (hfetch : c.fetch = some (.ok (.operator (.mask op), rest))) :
    c.data.declareHints.hints =
      hintTotal subroutines (n + 1) (.start code (.initial : State α)) := by
  have hhints := hints_of_steps h
  have hown : c.declaredHints = c.data.stack.size / 2 := by simp only [Config.declaredHints, hfetch]
  rw [hintTotal_succ h, hown]
  simp only [State.declareHints, hhints]
  simp [Config.start, State.initial]

/-- A mask has a bit for every hint, in whole bytes. -/
theorem maskLength_declareHints {n : Nat} {code : Bytes} {c rest : Config (State α)}
    {op : MaskOperator}
    (h : State.semantics.Steps subroutines (some nestingLimit) n (.start code .initial) c)
    (hfetch : c.fetch = some (.ok (.operator (.mask op), rest))) :
    c.data.declareHints.maskLength =
      hintTotal subroutines (n + 1) (.start code (.initial : State α)) ⌈/⌉ 8 := by
  rw [State.maskLength, hints_declareHints h hfetch, Nat.ceilDiv_eq_add_pred_div]
  rfl

/-- A mask operator passes over the bytes of its mask, or fails if there are too few. -/
theorem step_mask {n : Nat} {code : Bytes} {c rest : Config (State α)} {op : MaskOperator}
    (h : State.semantics.Steps subroutines (some nestingLimit) n (.start code .initial) c)
    (hfetch : c.fetch = some (.ok (.operator (.mask op), rest))) :
    let length := hintTotal subroutines (n + 1) (.start code (.initial : State α)) ⌈/⌉ 8
    State.semantics.step subroutines (some nestingLimit) c =
      if length ≤ rest.code.length then
        .next none ⟨rest.code.drop length, rest.callers, c.data.declareHints⟩
      else .fail (.data .endOfData) := by
  intro length
  have hlength : length = c.data.declareHints.maskLength := (maskLength_declareHints h hfetch).symm
  have hdata := (Config.fetch_frame hfetch).1
  rw [Semantics.step_of_fetch_ok hfetch]
  simp only [Semantics.execute, Semantics.skipMask, State.semantics, hdata, ← hlength]
  by_cases hle : length ≤ rest.code.length
  · rw [Bytes.slice_eq_ok hle, if_pos hle]
  · rw [Bytes.slice_eq_error (Nat.lt_of_not_le hle), if_neg hle]

/-- What runs alike in a state ends alike behind code that leads to the state. -/
theorem finalState_append_eq {before rest : Bytes} {n : Nat} {s : State α}
    (hbefore : State.semantics.Reaches subroutines (some nestingLimit) n
      (.start (before ++ rest) .initial) (.start rest s)) {one other : Bytes} (hone : one ≠ [])
    (hother : other ≠ [])
    (h : ∀ budget, State.semantics.run subroutines (some nestingLimit) budget (.start one s) =
      State.semantics.run subroutines (some nestingLimit) budget (.start other s)) :
    finalState (α := α) (before ++ one) subroutines = finalState (before ++ other) subroutines :=
  Semantics.run_eq_of_reaches (hbefore.replace_after one) (hbefore.replace_after other)
    (Config.isFinished_of_ne_nil [] s hone) (Config.isFinished_of_ne_nil [] s hother) h
    instructionLimit

/-- The operands of a stem operator matter by their number alone. -/
theorem finalState_stem_eq {before rest numbers numbers' : Bytes} {n k : Nat} {s : State α}
    (hbefore : State.semantics.Reaches subroutines (some nestingLimit) n
      (.start (before ++ rest) .initial) (.start rest s))
    (hnumbers : EncodesNumbers k numbers) (hnumbers' : EncodesNumbers k numbers')
    (op : StemOperator) (after : Bytes) :
    finalState (α := α) (before ++ (numbers ++ ([op.code] ++ after))) subroutines =
      finalState (before ++ (numbers' ++ ([op.code] ++ after))) subroutines := by
  obtain ⟨codes, hlength, hcodes, rfl⟩ := hnumbers
  obtain ⟨codes', hlength', hcodes', rfl⟩ := hnumbers'
  have hstep : ∀ t : State α,
      State.semantics.step subroutines (some nestingLimit) ⟨[op.code] ++ after, [], t⟩ =
        .next none ⟨after, [], t.declareHints⟩ := fun t =>
    Semantics.step_of_fetch_ok (Config.fetch_append (encodes_stem op) after [] t)
  refine finalState_append_eq hbefore (by simp) (by simp) fun budget => ?_
  refine run_numbers_eq (hlength.trans hlength'.symm) hcodes hcodes' (.refl s) ?_ budget
  intro budget s' t' hlike _
  have hs' := hstep s'
  rw [hlike.declareHints] at hs'
  exact Semantics.run_eq_of_step hs' (hstep t') budget

/-- The operands of a mask operator matter by their number alone, and the mask by its length. -/
theorem finalState_mask_eq {before rest numbers numbers' : Bytes} {n k : Nat} {s : State α}
    (hbefore : State.semantics.Reaches subroutines (some nestingLimit) n
      (.start (before ++ rest) .initial) (.start rest s))
    (hnumbers : EncodesNumbers k numbers) (hnumbers' : EncodesNumbers k numbers')
    (op : MaskOperator) {mask mask' after : Bytes}
    (hmask : mask.length = hintTotal subroutines (n + k + 1)
      (.start (before ++ (numbers ++ ([op.code] ++ (mask ++ after)))) (.initial : State α)) ⌈/⌉ 8)
    (hmask' : mask'.length = mask.length) :
    finalState (α := α) (before ++ (numbers ++ ([op.code] ++ (mask ++ after)))) subroutines =
      finalState (before ++ (numbers' ++ ([op.code] ++ (mask' ++ after)))) subroutines := by
  obtain ⟨codes, hlength, hcodes, rfl⟩ := hnumbers
  obtain ⟨codes', hlength', hcodes', rfl⟩ := hnumbers'
  have hfetch : ∀ (bytes : Bytes) (t : State α),
      (⟨[op.code] ++ (bytes ++ after), [], t⟩ : Config (State α)).fetch =
        some (.ok (.operator (.mask op), ⟨bytes ++ after, [], t⟩)) := fun bytes t =>
    Config.fetch_append (encodes_mask op) (bytes ++ after) [] t
  have hstep : ∀ (bytes : Bytes) (t : State α), bytes.length = t.declareHints.maskLength →
      State.semantics.step subroutines (some nestingLimit)
          ⟨[op.code] ++ (bytes ++ after), [], t⟩ = .next none ⟨after, [], t.declareHints⟩ := by
    intro bytes t hbytes
    have hslice := Bytes.slice_append bytes after
    rw [Semantics.step_of_fetch_ok (hfetch bytes t)]
    simp only [Semantics.execute, Semantics.skipMask, State.semantics, ← hbytes, hslice]
  refine finalState_append_eq hbefore (by simp) (by simp) fun budget => ?_
  refine run_numbers_eq (hlength.trans hlength'.symm) hcodes hcodes' (.refl s) ?_ budget
  intro budget s' t' hlike hsteps
  have hreaches := (hbefore.replace_after _).trans ⟨_, hsteps, rfl⟩
  obtain ⟨c, hc, hsettle⟩ := hreaches
  have hcfetch : c.fetch = some (.ok (.operator (.mask op), ⟨mask ++ after, [], s'⟩)) := by
    rw [← Config.fetch_settle, hsettle, Config.fetch_settle, hfetch]
  have hdata : c.data = s' := by
    rw [← Config.settle_data, hsettle, Config.settle_data]
  have hcount := maskLength_declareHints hc hcfetch
  rw [hdata, hlength, ← hmask] at hcount
  have hs' := hstep mask s' hcount.symm
  have ht' := hstep mask' t' (by rw [hmask', ← hlike.declareHints, hcount])
  rw [hlike.declareHints] at hs'
  exact Semantics.run_eq_of_step hs' ht' budget

/-- Hints act on a glyph by the lengths of its masks alone.  The operands of a stem or mask operator
may be replaced by as many others; a mask operator passes over a byte for every eight hints begun
that were declared so far in any subroutine, and these bytes may be replaced too. -/
theorem hints_act_by_mask_length {before rest numbers numbers' : Bytes} {n k : Nat} {s : State α}
    (hbefore : State.semantics.Reaches subroutines (some nestingLimit) n
      (.start (before ++ rest) .initial) (.start rest s))
    (hnumbers : EncodesNumbers k numbers) (hnumbers' : EncodesNumbers k numbers') :
    (∀ (op : StemOperator) (after : Bytes),
      let code := before ++ numbers ++ [op.code] ++ after
      let code' := before ++ numbers' ++ [op.code] ++ after
      finalState (α := α) code subroutines = finalState code' subroutines ∧
        glyphBounds (α := α) code subroutines = glyphBounds code' subroutines) ∧
    (∀ (m : Nat) (code : Bytes) (c place : Config (State α)) (op : MaskOperator),
      State.semantics.Steps subroutines (some nestingLimit) m (.start code .initial) c →
      c.fetch = some (.ok (.operator (.mask op), place)) →
      let length := hintTotal subroutines (m + 1) (.start code (.initial : State α)) ⌈/⌉ 8
      State.semantics.step subroutines (some nestingLimit) c =
        if length ≤ place.code.length then
          .next none ⟨place.code.drop length, place.callers, c.data.declareHints⟩
        else .fail (.data .endOfData)) ∧
    ∀ (op : MaskOperator) (mask mask' after : Bytes),
      let code := before ++ numbers ++ [op.code] ++ mask ++ after
      let code' := before ++ numbers' ++ [op.code] ++ mask' ++ after
      let length := hintTotal subroutines (n + k + 1)
        (.start code (.initial : State α)) ⌈/⌉ 8
      mask.length = length → mask'.length = length →
      finalState (α := α) code subroutines = finalState code' subroutines ∧
        glyphBounds (α := α) code subroutines = glyphBounds code' subroutines := by
  refine ⟨?_, ?_, ?_⟩
  · intro op after
    have hstate := finalState_stem_eq hbefore hnumbers hnumbers' op after
    simp only [← List.append_assoc] at hstate
    exact ⟨hstate, by rw [glyphBounds, glyphBounds, hstate]⟩
  · intro m code c place op hsteps hfetch
    exact step_mask hsteps hfetch
  · intro op mask mask' after code code' length hmask hmask'
    have hassoc : code = before ++ (numbers ++ ([op.code] ++ (mask ++ after))) := by
      simp only [code, List.append_assoc]
    have hassoc' : code' = before ++ (numbers' ++ ([op.code] ++ (mask' ++ after))) := by
      simp only [code', List.append_assoc]
    have hstate : finalState (α := α) code subroutines = finalState code' subroutines := by
      rw [hassoc, hassoc']
      exact finalState_mask_eq hbefore hnumbers hnumbers' op (hassoc ▸ hmask)
        (hmask'.trans hmask.symm)
    exact ⟨hstate, by rw [glyphBounds, glyphBounds, hstate]⟩

/-- A mask for two hints of a subroutine and one of its own, with other operands and other bits. -/
theorem hints_act_by_mask_length_subroutine :
    glyphBounds (α := Float) ([33, 29] ++ [140, 141] ++ [19] ++ [255] ++ [149, 159, 5, 14])
        ⟨#[[11], [140, 141, 142, 143, 18, 11]], .missing⟩ =
      glyphBounds ([33, 29] ++ [28, 0, 5, 247, 0] ++ [19] ++ [5] ++ [149, 159, 5, 14])
        ⟨#[[11], [140, 141, 142, 143, 18, 11]], .missing⟩ := by
  have hbefore : ∃ s : State Float,
      State.semantics.Steps ⟨#[[11], [140, 141, 142, 143, 18, 11]], .missing⟩ (some nestingLimit) 8
        (.start ([33, 29] ++ []) .initial) (.start [] s) :=
    ⟨_, .head rfl (.head rfl (.head rfl (.head rfl (.head rfl (.head rfl (.head rfl
      (.head rfl (.refl _))))))))⟩
  obtain ⟨s, hsteps⟩ := hbefore
  have hnumbers : EncodesNumbers 2 [140, 141] := by
    refine ⟨[[140], [141]], rfl, ?_, rfl⟩
    rintro c (_ | ⟨_, _ | ⟨_, ⟨⟩⟩⟩) <;> exact ⟨_, rfl⟩
  have hnumbers' : EncodesNumbers 2 [28, 0, 5, 247, 0] := by
    refine ⟨[[28, 0, 5], [247, 0]], rfl, ?_, rfl⟩
    rintro c (_ | ⟨_, _ | ⟨_, ⟨⟩⟩⟩) <;> exact ⟨_, rfl⟩
  exact ((hints_act_by_mask_length ⟨_, hsteps, rfl⟩ hnumbers hnumbers').2.2 .hintmask [255] [5]
    [149, 159, 5, 14] rfl rfl).2

end FontMetrics.Charstring
