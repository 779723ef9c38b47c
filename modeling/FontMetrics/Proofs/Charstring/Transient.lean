import FontMetrics.Proofs.Charstring.Addressing
import FontMetrics.Proofs.Charstring.Extension
import FontMetrics.Proofs.Charstring.StackErrors

/-!
# What the transient array recalls

The cells of the transient array are named by integer parts of operands, so different operands may
name the same cell.  A value is recalled from a cell if one was put there before, by an instruction
of the same glyph, and then it is the one that was put there last.  It does not matter which
subroutines the two instructions are in, or what is executed between them.
-/

namespace FontMetrics.Charstring

open Binary64 (IntegerPart)

/-- The operand names a cell of the transient array: its integer part, if that has 31 bits. -/
def NamesCell (x : Float) (cell : Nat) : Prop := IntegerPart x cell ∧ cell < 2 ^ 31

/-- An operand names one cell at most. -/
theorem NamesCell.unique {x : Float} {cell cell' : Nat} (h : NamesCell x cell)
    (h' : NamesCell x cell') : cell = cell' :=
  Int.ofNat.inj (h.1.unique h'.1)

namespace State

section Operands

variable {α : Type} {s s' : State α} {below : List α} {a b : α}

theorem pop_of_toList (h : s.stack.toList = below ++ [a]) :
    ∃ stack, s.pop = .ok (a, { s with stack }) ∧ stack.toList = below := by
  rcases s.pop_cases with ⟨hempty, -⟩ | ⟨x, stack, hpop, hlist⟩
  · rw [hempty] at h
    exact absurd h.symm (List.append_ne_nil_of_right_ne_nil _ (List.cons_ne_nil _ _))
  · obtain ⟨hbelow, htop⟩ := List.append_inj' (hlist.symm.trans h) rfl
    cases htop
    exact ⟨stack, hpop, hbelow⟩

theorem pop2_of_toList (h : s.stack.toList = below ++ [a, b]) :
    ∃ stack, s.pop2 = .ok (a, b, { s with stack }) ∧ stack.toList = below := by
  rw [List.append_cons] at h
  obtain ⟨stack, hpop, hlist⟩ := pop_of_toList h
  obtain ⟨stack', hpop', hlist'⟩ := pop_of_toList (s := { s with stack }) hlist
  refine ⟨stack', ?_, hlist'⟩
  rw [pop2, hpop]
  change ({ s with stack } : State α).pop >>= _ = _
  rw [hpop']
  rfl

/-- The operands of an instruction that pops two. -/
theorem toList_of_pop2 (h : s.pop2 = .ok (a, b, s')) :
    ∃ below, s.stack.toList = below ++ [a, b] := by
  rcases s.pop_cases with ⟨-, hpop⟩ | ⟨x, stack, hpop, hlist⟩
  · rw [pop2, hpop] at h
    cases h
  rw [pop2, hpop] at h
  change ({ s with stack } : State α).pop >>= _ = _ at h
  rcases ({ s with stack } : State α).pop_cases with ⟨-, hpop'⟩ | ⟨y, stack', hpop', hlist'⟩
  · rw [hpop'] at h
    cases h
  rw [hpop'] at h
  cases h
  exact ⟨stack'.toList, by rw [hlist, hlist', List.append_assoc]; rfl⟩

/-- A popped operand leaves room for another one. -/
theorem push_of_concat {stack : Operands α} (hlist : s.stack.toList = stack.toList ++ [a]) (x : α) :
    ∃ stack', ({ s with stack } : State α).push x = .ok { s with stack := stack' } ∧
      stack'.toList = stack.toList ++ [x] := by
  have hsize := OperandStack.size_succ_of_concat hlist
  have hle := s.stack.size_le
  rcases ({ s with stack } : State α).push_cases x with ⟨hfull, -⟩ | ⟨-, stack', hpush, hlist'⟩
  · have hroom : stack.size = stackLimit := hfull
    omega
  · exact ⟨stack', hpush, hlist'⟩

end Operands

theorem transientIndex_eq_ok_iff {x : Float} {cell : Nat} :
    transientIndex x = .ok cell ↔ NamesCell x cell := by
  unfold transientIndex NamesCell
  rw [Binary64.integerPart_iff]
  cases Scalar.truncate x with
  | none => simp
  | some n =>
    simp only [Bool.and_eq_true, isInt32_iff, decide_eq_true_eq, Option.some.injEq]
    split
    · next h =>
      rw [Except.ok.injEq]
      omega
    · next h =>
      refine iff_of_false (fun hok => by cases hok) ?_
      rintro ⟨rfl, hcell⟩
      omega

theorem transientIndex_eq_error_iff {x : Float} {e : Error} :
    transientIndex x = .error e ↔ e = .transientIndex ∧ ∀ cell, ¬ NamesCell x cell := by
  simp only [← transientIndex_eq_ok_iff]
  unfold transientIndex
  split
  · simp [eq_comm]
  · split
    · simp
    · simp [eq_comm]

variable {s s' : State Float} {below : List Float} {value index : Float} {cell : Nat}

/-- Storing under an operand that names a cell. -/
theorem put_of_namesCell (hstack : s.stack.toList = below ++ [value, index])
    (hindex : NamesCell index cell) :
    ∃ stack, s.put = .ok { s with stack, transient := s.transient.insert cell value } ∧
      stack.toList = below := by
  obtain ⟨stack, hpop, hlist⟩ := pop2_of_toList hstack
  refine ⟨stack, ?_, hlist⟩
  rw [put, hpop]
  change transientIndex index >>= _ = _
  rw [transientIndex_eq_ok_iff.mpr hindex]
  rfl

/-- Storing under an operand that names no cell. -/
theorem put_of_not_namesCell (hstack : s.stack.toList = below ++ [value, index])
    (hindex : ∀ cell, ¬ NamesCell index cell) : s.put = .error .transientIndex := by
  obtain ⟨stack, hpop, -⟩ := pop2_of_toList hstack
  rw [put, hpop]
  change transientIndex index >>= _ = _
  rw [transientIndex_eq_error_iff.mpr ⟨rfl, hindex⟩]
  rfl

/-- What is stored was on the stack. -/
theorem exists_of_put (h : s.put = .ok s') :
    ∃ below value index cell, s.stack.toList = below ++ [value, index] ∧ NamesCell index cell ∧
      s'.transient = s.transient.insert cell value := by
  cases hpop : s.pop2 with
  | error e =>
    rw [put, hpop] at h
    cases h
  | ok popped =>
    obtain ⟨value, index, rest⟩ := popped
    obtain ⟨below, hstack⟩ := toList_of_pop2 hpop
    by_cases hindex : ∃ cell, NamesCell index cell
    · obtain ⟨cell, hcell⟩ := hindex
      obtain ⟨stack, hput, -⟩ := put_of_namesCell hstack hcell
      rw [hput] at h
      cases h
      exact ⟨below, value, index, cell, hstack, hcell, rfl⟩
    · rw [put_of_not_namesCell hstack (not_exists.mp hindex)] at h
      cases h

/-- Recalling from a cell in which there is a value. -/
theorem get_of_stored (hstack : s.stack.toList = below ++ [index]) (hindex : NamesCell index cell)
    (hcell : s.transient[cell]? = some value) :
    ∃ stack, s.get = .ok { s with stack } ∧ stack.toList = below ++ [value] := by
  obtain ⟨stack, hpop, hlist⟩ := pop_of_toList hstack
  obtain ⟨stack', hpush, hlist'⟩ := push_of_concat (hlist ▸ hstack) value
  refine ⟨stack', ?_, by rw [hlist', hlist]⟩
  rw [get, hpop]
  change transientIndex index >>= _ = _
  rw [transientIndex_eq_ok_iff.mpr hindex]
  simp only [bind, Except.bind, hcell]
  exact hpush

/-- Recalling from no cell, or from one without a value. -/
theorem get_of_not_stored (hstack : s.stack.toList = below ++ [index])
    (hindex : ∀ cell, NamesCell index cell → s.transient[cell]? = none) :
    s.get = .error .transientIndex := by
  obtain ⟨stack, hpop, -⟩ := pop_of_toList hstack
  rw [get, hpop]
  change transientIndex index >>= _ = _
  by_cases hcell : ∃ cell, NamesCell index cell
  · obtain ⟨cell, hcell⟩ := hcell
    rw [transientIndex_eq_ok_iff.mpr hcell]
    simp only [bind, Except.bind, hindex cell hcell]
  · rw [transientIndex_eq_error_iff.mpr ⟨rfl, not_exists.mp hcell⟩]
    rfl

theorem put_eq_error_iff (hstack : s.stack.toList = below ++ [value, index]) :
    s.put = .error .transientIndex ↔ ∀ cell, ¬ NamesCell index cell := by
  refine ⟨fun hput cell hcell => ?_, put_of_not_namesCell hstack⟩
  obtain ⟨stack, hput', -⟩ := put_of_namesCell hstack hcell
  rw [hput'] at hput
  cases hput

theorem get_eq_error_iff (hstack : s.stack.toList = below ++ [index]) :
    s.get = .error .transientIndex ↔ ∀ cell, NamesCell index cell → s.transient[cell]? = none := by
  refine ⟨fun hget cell hcell => ?_, get_of_not_stored hstack⟩
  rw [Option.eq_none_iff_forall_ne_some]
  intro value hvalue
  obtain ⟨stack, hget', -⟩ := get_of_stored hstack hcell hvalue
  rw [hget'] at hget
  cases hget

end State

namespace Semantics

variable {α : Type} [Scalar α] {subroutines : Subroutines} {limit : Option Nat}
  {c c' : Config (State α)} {i : Instruction}

/-- Only one instruction changes what is stored. -/
theorem transient_of_executes (hi : i ≠ .operator (.stack .put))
    (h : State.semantics.Executes subroutines limit c i c') :
    c'.data.transient = c.data.transient := by
  cases h with
  | @number value data hs =>
    obtain ⟨stack, rfl⟩ := (State.movesOperands_push value.toScalar c.data).value hs
    rfl
  | stem op => rfl
  | mask op hslice => rfl
  | path hs =>
    obtain ⟨path, rfl⟩ := State.exists_of_drawPath hs
    rfl
  | @compute op data hs =>
    have hput : op ≠ .put := by
      rintro rfl
      exact hi rfl
    by_cases hrandom : op = .random
    · subst hrandom
      obtain ⟨stack, rfl⟩ := (State.movesOperands_push _ _).value hs
      rfl
    · obtain ⟨stack, rfl⟩ := (State.movesOperands_compute hput hrandom c.data).value hs
      rfl
  | @call scope table index code data htable hdepth hindex hcode =>
    obtain ⟨stack, rfl⟩ := (State.movesOperands_popIndex table.size c.data).value hindex
    rfl
  | ret hcallers => rfl
  | dotsection => rfl

end Semantics

section History

variable (subroutines : Subroutines) (code : Bytes)

/-- After `n` instructions of a glyph the next one is a `put`, in whatever subroutine, with these
two operands on the top of the stack. -/
def PutsAt (n : Nat) (value index : Float) : Prop :=
  ∃ c rest below,
    State.semantics.Steps subroutines (some nestingLimit) n (.start code .initial) c ∧
      c.fetch = some (.ok (.operator (.stack .put), rest)) ∧
      c.data.stack.toList = below ++ [value, index]

/-- Of the first `n` instructions of a glyph, the last `put` whose index has the given integer part
stores the value. -/
def LastPut (n cell : Nat) (value : Float) : Prop :=
  ∃ m < n, (∃ index, PutsAt subroutines code m value index ∧ IntegerPart index cell) ∧
    ∀ later, m < later → later < n → ∀ value' index',
      PutsAt subroutines code later value' index' → ¬ IntegerPart index' cell

variable {subroutines code} {n : Nat} {c c' rest : Config (State Float)} {value index : Float}
  {cell : Nat} {i : Instruction}

/-- What an instruction stores depends on its number alone. -/
theorem PutsAt.unique {value' index' : Float} (h : PutsAt subroutines code n value index)
    (h' : PutsAt subroutines code n value' index') : value = value' ∧ index = index' := by
  obtain ⟨c, rest, below, hsteps, -, hstack⟩ := h
  obtain ⟨c', rest', below', hsteps', -, hstack'⟩ := h'
  rw [hsteps.unique hsteps', hstack'] at hstack
  obtain ⟨-, htop⟩ := List.append_inj' hstack rfl
  cases htop
  exact ⟨rfl, rfl⟩

/-- Only a `put` stores. -/
theorem PutsAt.eq_put
    (hsteps : State.semantics.Steps subroutines (some nestingLimit) n (.start code .initial) c)
    (hfetch : c.fetch = some (.ok (i, rest))) (h : PutsAt subroutines code n value index) :
    i = .operator (.stack .put) := by
  obtain ⟨c', rest', below, hsteps', hfetch', -⟩ := h
  rw [hsteps.unique hsteps', hfetch'] at hfetch
  cases hfetch
  rfl

/-- Another `put` into the cell is the last one. -/
theorem lastPut_succ_of_putsAt (h : PutsAt subroutines code n value index)
    (hcell : IntegerPart index cell) {value' : Float} :
    LastPut subroutines code (n + 1) cell value' ↔ value' = value := by
  constructor
  · rintro ⟨m, hm, ⟨index', hputs, -⟩, hlater⟩
    have hmn : m = n := by
      by_contra hne
      exact hlater n (by omega) (Nat.lt_succ_self n) value index h hcell
    subst hmn
    exact (hputs.unique h).1
  · rintro rfl
    exact ⟨n, Nat.lt_succ_self n, ⟨index, h, hcell⟩, fun later hlt hle => absurd hle (by omega)⟩

/-- An instruction that puts nothing into the cell makes no difference to it. -/
theorem lastPut_succ_of_not_putsAt
    (h : ∀ value index, PutsAt subroutines code n value index → ¬ IntegerPart index cell) :
    LastPut subroutines code (n + 1) cell value ↔ LastPut subroutines code n cell value := by
  constructor
  · rintro ⟨m, hm, ⟨index, hputs, hcell⟩, hlater⟩
    have hne : m ≠ n := by
      rintro rfl
      exact h value index hputs hcell
    exact ⟨m, by omega, ⟨index, hputs, hcell⟩,
      fun later hlt hlate => hlater later hlt (by omega)⟩
  · rintro ⟨m, hm, hputs, hlater⟩
    refine ⟨m, by omega, hputs, fun later hlt hlate => ?_⟩
    rcases Nat.lt_succ_iff_lt_or_eq.mp hlate with hbefore | rfl
    · exact hlater later hlt hbefore
    · exact h

/-- If anything was put into a cell, something was put there last. -/
theorem exists_lastPut_iff :
    (∃ value, LastPut subroutines code n cell value) ↔
      ∃ m < n, ∃ value index, PutsAt subroutines code m value index ∧ IntegerPart index cell := by
  constructor
  · rintro ⟨value, m, hm, ⟨index, hputs, hcell⟩, -⟩
    exact ⟨m, hm, value, index, hputs, hcell⟩
  · intro h
    induction n with
    | zero =>
      obtain ⟨m, hm, -⟩ := h
      exact absurd hm (Nat.not_lt_zero m)
    | succ n ih =>
      by_cases hlast : ∃ value index, PutsAt subroutines code n value index ∧ IntegerPart index cell
      · obtain ⟨value, index, hputs, hcell⟩ := hlast
        exact ⟨value, (lastPut_succ_of_putsAt hputs hcell).mpr rfl⟩
      · push Not at hlast
        obtain ⟨m, hm, value, index, hputs, hcell⟩ := h
        have hne : m ≠ n := by
          rintro rfl
          exact hlast value index hputs hcell
        obtain ⟨value, hvalue⟩ := ih ⟨m, by omega, value, index, hputs, hcell⟩
        exact ⟨value, (lastPut_succ_of_not_putsAt hlast).mpr hvalue⟩

/-- One more instruction changes the array as it changes what was put last. -/
theorem stored_succ_iff
    (hsteps : State.semantics.Steps subroutines (some nestingLimit) n (.start code .initial) c)
    (hstored : c.data.transient[cell]? = some value ↔ LastPut subroutines code n cell value)
    (hfetch : c.fetch = some (.ok (i, rest)))
    (hexecutes : State.semantics.Executes subroutines (some nestingLimit) rest i c') :
    c'.data.transient[cell]? = some value ↔ LastPut subroutines code (n + 1) cell value := by
  have hdata := (Config.fetch_frame hfetch).1
  by_cases hi : i = .operator (.stack .put)
  · subst hi
    cases hexecutes with
    | compute hs =>
      obtain ⟨below, value', index, cell', hstack, hcell', htransient⟩ := State.exists_of_put hs
      have hputs : PutsAt subroutines code n value' index :=
        ⟨c, rest, below, hsteps, hfetch, hdata ▸ hstack⟩
      rw [htransient, hdata, Std.HashMap.getElem?_insert]
      by_cases heq : cell' = cell
      · subst heq
        rw [lastPut_succ_of_putsAt hputs hcell'.1, if_pos BEq.rfl, Option.some.injEq, eq_comm]
      · rw [if_neg (by simpa using heq), hstored, lastPut_succ_of_not_putsAt]
        intro value'' index'' hputs' hcell
        obtain ⟨-, rfl⟩ := hputs.unique hputs'
        exact heq (Int.ofNat.inj (hcell'.1.unique hcell))
  · rw [Semantics.transient_of_executes hi hexecutes, hdata, hstored, lastPut_succ_of_not_putsAt]
    intro value' index' hputs
    exact absurd (hputs.eq_put hsteps hfetch) hi

/-- At any time, what is in a cell is what was put there last. -/
theorem stored_iff_lastPut
    (hsteps : State.semantics.Steps subroutines (some nestingLimit) n (.start code .initial) c) :
    c.data.transient[cell]? = some value ↔ LastPut subroutines code n cell value := by
  induction n generalizing c with
  | zero =>
    cases hsteps
    refine iff_of_false ?_ ?_
    · rw [show (Config.start code State.initial).data.transient = (∅ : Std.HashMap Nat Float) from
        rfl, Std.HashMap.getElem?_empty]
      exact fun h => by cases h
    · rintro ⟨m, hm, -⟩
      exact absurd hm (Nat.not_lt_zero m)
  | succ n ih =>
    obtain ⟨mid, hmid, hlast⟩ := hsteps.split
    cases hlast with
    | head first hrest =>
      cases hrest
      obtain ⟨i, rest, hfetch, hexecutes⟩ := Semantics.exists_step_iff.mp ⟨_, first⟩
      exact stored_succ_iff hmid (ih hmid) hfetch hexecutes

/-- A cell is empty as long as nothing was put there. -/
theorem not_stored_iff
    (hsteps : State.semantics.Steps subroutines (some nestingLimit) n (.start code .initial) c) :
    c.data.transient[cell]? = none ↔
      ∀ m < n, ∀ value index, PutsAt subroutines code m value index → ¬ IntegerPart index cell := by
  have hnone : c.data.transient[cell]? = none ↔
      ¬ ∃ value, LastPut subroutines code n cell value := by
    simp only [← stored_iff_lastPut hsteps, Option.eq_none_iff_forall_ne_some, not_exists, ne_eq]
  rw [hnone, exists_lastPut_iff]
  push Not
  exact Iff.rfl

end History

/-- How the instruction of a glyph that comes after `n` others uses the transient array. -/
structure RecallsLastPut (subroutines : Subroutines) (code : Bytes) (n : Nat)
    (c : Config (State Float)) (i : Instruction) (rest : Config (State Float)) : Prop where
  /-- A cell holds what this glyph has put there last, if anything. -/
  cells : ∀ cell value,
    c.data.transient[cell]? = some value ↔ LastPut subroutines code n cell value
  /-- This is what is recalled from it. -/
  recalls : ∀ below index cell value, i = .operator (.stack .get) →
    c.data.stack.toList = below ++ [index] → NamesCell index cell →
    LastPut subroutines code n cell value →
    ∃ stack, State.semantics.step subroutines (some nestingLimit) c =
        .next none { rest with data := { c.data with stack } } ∧
      stack.toList = below ++ [value]
  /-- Nothing can be recalled under an operand that names no cell, or one into which nothing was
  put. -/
  misses : ∀ below index, i = .operator (.stack .get) →
    c.data.stack.toList = below ++ [index] →
    (State.semantics.step subroutines (some nestingLimit) c = .fail .transientIndex ↔
      (∀ cell, ¬ NamesCell index cell) ∨
        ∃ cell, NamesCell index cell ∧ ∀ m < n, ∀ value index',
          PutsAt subroutines code m value index' → ¬ IntegerPart index' cell)
  /-- A value is stored in the cell that the operand on the top names. -/
  stores : ∀ below value index cell, i = .operator (.stack .put) →
    c.data.stack.toList = below ++ [value, index] → NamesCell index cell →
    ∃ stack, State.semantics.step subroutines (some nestingLimit) c =
        .next none { rest with
          data := { c.data with stack, transient := c.data.transient.insert cell value } } ∧
      stack.toList = below
  /-- Nothing can be stored under an operand that names no cell. -/
  rejects : ∀ below value index, i = .operator (.stack .put) →
    c.data.stack.toList = below ++ [value, index] →
    (State.semantics.step subroutines (some nestingLimit) c = .fail .transientIndex ↔
      ∀ cell, ¬ NamesCell index cell)
  /-- No other instruction changes what is stored. -/
  others : ∀ called c', i ≠ .operator (.stack .put) →
    State.semantics.step subroutines (some nestingLimit) c = .next called c' →
    c'.data.transient = c.data.transient
  /-- Where the index is to blame, the glyph has no bounds for this reason. -/
  stops : n < instructionLimit →
    State.semantics.step subroutines (some nestingLimit) c = .fail .transientIndex →
    (glyphBounds code subroutines : Except Error (Option (Box Float))) = .error .transientIndex

/-- What instructions recall is what was put there last, in whatever subroutines, by the same glyph
from its first instruction on. -/
theorem recalls_last_put {subroutines : Subroutines} {code : Bytes} {n : Nat}
    {c rest : Config (State Float)} {i : Instruction}
    (hsteps : State.semantics.Steps subroutines (some nestingLimit) n (.start code .initial) c)
    (hfetch : c.fetch = some (.ok (i, rest))) :
    RecallsLastPut subroutines code n c i rest := by
  obtain ⟨hdata, -⟩ := Config.fetch_frame hfetch
  constructor
  case cells =>
    intro cell value
    exact stored_iff_lastPut hsteps
  case recalls =>
    rintro below index cell value rfl hstack hindex hlast
    obtain ⟨stack, hget, hlist⟩ :=
      State.get_of_stored hstack hindex ((stored_iff_lastPut hsteps).mpr hlast)
    refine ⟨stack, ?_, hlist⟩
    rw [Semantics.step_of_fetch_ok hfetch]
    change rest.continueWith rest.data.get = _
    rw [hdata, hget]
    rfl
  case misses =>
    rintro below index rfl hstack
    rw [Semantics.step_of_fetch_ok hfetch, Semantics.execute_stack_eq_fail_iff, hdata]
    refine (State.get_eq_error_iff hstack).trans ?_
    simp only [← not_stored_iff hsteps]
    constructor
    · intro hempty
      refine or_iff_not_imp_left.mpr fun hcell => ?_
      push Not at hcell
      obtain ⟨cell, hcell⟩ := hcell
      exact ⟨cell, hcell, hempty cell hcell⟩
    · rintro (hnone | ⟨cell, hcell, hempty⟩) cell' hcell'
      · exact absurd hcell' (hnone cell')
      · exact hcell.unique hcell' ▸ hempty
  case stores =>
    rintro below value index cell rfl hstack hindex
    obtain ⟨stack, hput, hlist⟩ := State.put_of_namesCell hstack hindex
    refine ⟨stack, ?_, hlist⟩
    rw [Semantics.step_of_fetch_ok hfetch]
    change rest.continueWith rest.data.put = _
    rw [hdata, hput]
    rfl
  case rejects =>
    rintro below value index rfl hstack
    rw [Semantics.step_of_fetch_ok hfetch, Semantics.execute_stack_eq_fail_iff, hdata]
    exact State.put_eq_error_iff hstack
  case others =>
    intro called c' hi hstep
    rw [Semantics.step_of_fetch_ok hfetch] at hstep
    rw [Semantics.transient_of_executes hi (Semantics.executes_of_execute hstep), hdata]
  case stops =>
    intro hn hstep
    have hends : State.semantics.Ends subroutines (some nestingLimit) n (.start code .initial)
        (.error .transientIndex) := ⟨c, hsteps, by rw [hstep]; rfl⟩
    exact glyphBounds_eq_error_iff.mpr (Or.inl (hends.run_eq hn))

/-- A subroutine puts 5 under 2.3.  After its return the glyph recalls it under 2.9; under 3 there is
nothing. -/
theorem recalls_last_put_subroutine :
    let code : Bytes := [32, 29, 255, 0, 2, 0xE6, 0x66, 12, 21]
    let code' : Bytes := [32, 29, 142, 12, 21]
    let subroutines : Subroutines := ⟨#[[144, 255, 0, 2, 0x4C, 0xCD, 12, 20, 11]], .missing⟩
    ∃ (c rest c' : Config (State Float)) (index : Float),
      State.semantics.Steps subroutines (some nestingLimit) 7 (.start code .initial) c ∧
      c.fetch = some (.ok (.operator (.stack .get), rest)) ∧
      c.data.stack.toList = [index] ∧ NamesCell index 2 ∧
      LastPut subroutines code 7 2 (Fixed.ofInt 5).toScalar ∧
      State.semantics.step subroutines (some nestingLimit) c = .next none c' ∧
      c'.data.stack.toList = [(Fixed.ofInt 5).toScalar] ∧
      (glyphBounds code' subroutines : Except Error (Option (Box Float))) =
        .error .transientIndex := by
  intro code code' subroutines
  obtain ⟨c, rest, index, hsteps, hfetch, hstack, hindex, hcells⟩ :
      ∃ (c rest : Config (State Float)) (index : Float),
        State.semantics.Steps subroutines (some nestingLimit) 7 (.start code .initial) c ∧
        c.fetch = some (.ok (.operator (.stack .get), rest)) ∧
        c.data.stack.toList = [index] ∧ NamesCell index 2 ∧
        c.data.transient = (∅ : Std.HashMap Nat Float).insert 2 (Fixed.ofInt 5).toScalar := by
    subst subroutines
    exact ⟨_, _, _, .head rfl (.head rfl (.head rfl (.head rfl (.head rfl (.head rfl (.head rfl
      (.refl _))))))), rfl, rfl, State.transientIndex_eq_ok_iff.mp rfl, rfl⟩
  obtain ⟨d, rest', index', hsteps', hfetch', hstack', hindex', hcells'⟩ :
      ∃ (d rest' : Config (State Float)) (index' : Float),
        State.semantics.Steps subroutines (some nestingLimit) 7 (.start code' .initial) d ∧
        d.fetch = some (.ok (.operator (.stack .get), rest')) ∧
        d.data.stack.toList = [index'] ∧ NamesCell index' 3 ∧
        d.data.transient = (∅ : Std.HashMap Nat Float).insert 2 (Fixed.ofInt 5).toScalar := by
    subst subroutines
    exact ⟨_, _, _, .head rfl (.head rfl (.head rfl (.head rfl (.head rfl (.head rfl (.head rfl
      (.refl _))))))), rfl, rfl, State.transientIndex_eq_ok_iff.mp rfl, rfl⟩
  have hget := recalls_last_put hsteps hfetch
  have hlast : LastPut subroutines code 7 2 (Fixed.ofInt 5).toScalar :=
    (hget.cells _ _).mp (by rw [hcells, Std.HashMap.getElem?_insert_self])
  obtain ⟨stack, hstep, hlist⟩ := hget.recalls [] index 2 _ rfl hstack hindex hlast
  refine ⟨c, rest, _, index, hsteps, hfetch, hstack, hindex, hlast, hstep, hlist, ?_⟩
  have hmiss := recalls_last_put hsteps' hfetch'
  have hempty : d.data.transient[3]? = none := by
    rw [hcells', Std.HashMap.getElem?_insert, if_neg (by decide), Std.HashMap.getElem?_empty]
  exact hmiss.stops (by decide) ((hmiss.misses [] index' rfl hstack').mpr
    (Or.inr ⟨3, hindex', (not_stored_iff hsteps').mp hempty⟩))

end FontMetrics.Charstring
