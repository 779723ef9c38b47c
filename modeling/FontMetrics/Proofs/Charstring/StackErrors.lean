import Mathlib.Order.Basic
import Mathlib.Tactic.ByContra
import FontMetrics.Proofs.Binary64.Truncation
import FontMetrics.Proofs.Charstring.Effects
import FontMetrics.Proofs.Charstring.Failure

/-!
# When the operand stack is to blame

An instruction can find the stack full only if it puts an operand there before it has taken one off:
a number, `dup` and `random`.  An operator that takes a fixed number of operands finds too few of
them exactly if there are fewer, whatever else is wrong.  Operators that declare hints, move the pen
or draw, and the end of the glyph, leave the stack empty.
-/

namespace FontMetrics.Charstring

open Binary64 (IntegerPart)

/-- How many operands an operator needs, where that does not depend on what the operands are. -/
def StackOperator.arity? : StackOperator → Option Nat
  | .index | .roll => none
  | .random => some 0
  | .abs | .neg | .sqrt | .not | .drop | .dup | .get => some 1
  | .add | .sub | .mul | .div | .and | .or | .eq | .exch | .put => some 2
  | .ifelse => some 4

/-- The instruction puts an operand on the stack before it takes any off. -/
def Instruction.PushesFirst : Instruction → Prop
  | .number _ | .operator (.stack .dup) | .operator (.stack .random) => True
  | _ => False

/-- The instruction uses up all operands, and the glyph goes on. -/
def Instruction.UsesUp : Instruction → Prop
  | .operator (.stem _) | .operator (.mask _) | .operator (.path _) => True
  | _ => False

variable {α β : Type}

namespace OperandStack

variable {capacity : Nat}

/-- Pushing fails on a full stack only. -/
theorem push_cases (x : α) (s : OperandStack capacity α) :
    s.size = capacity ∧ s.push x = .error .stackOverflow ∨
      s.size < capacity ∧ ∃ t, s.push x = .ok t ∧ t.toList = s.toList ++ [x] := by
  rcases Nat.lt_or_ge s.size capacity with hroom | hfull
  · exact Or.inr ⟨hroom, _, dif_pos hroom, push_toList (dif_pos hroom)⟩
  · exact Or.inl ⟨Nat.le_antisymm s.size_le hfull, dif_neg (Nat.not_lt.mpr hfull)⟩

/-- Popping fails on an empty stack only. -/
theorem pop_cases (s : OperandStack capacity α) :
    s.toList = [] ∧ s.pop = .error .stackUnderflow ∨
      ∃ x t, s.pop = .ok (x, t) ∧ s.toList = t.toList ++ [x] := by
  obtain ⟨items, hitems⟩ := s
  cases items with
  | nil => exact Or.inl ⟨rfl, rfl⟩
  | cons x below => exact Or.inr ⟨x, _, rfl, pop_toList rfl⟩

/-- An operand more makes the stack larger by one. -/
theorem size_succ_of_concat {x : α} {s t : OperandStack capacity α}
    (h : s.toList = t.toList ++ [x]) : t.size + 1 = s.size := by
  rw [← length_toList, ← length_toList, h, List.length_append, List.length_singleton]

/-- Looking at an operand fails if it would lie below the bottom. -/
theorem peek_eq_error_iff {depth : Nat} {s : OperandStack capacity α} {e : Error} :
    s.peek depth = .error e ↔ s.size ≤ depth ∧ e = .stackUnderflow := by
  unfold peek size
  rw [← List.getElem?_eq_none_iff]
  cases s.fromTop[depth]? with
  | some x => simp
  | none => simp [eq_comm]

end OperandStack

namespace State

variable {s : State α} {count : Nat} {E : Error → Prop}

/-- A push overflows a full stack, and otherwise adds the operand and changes nothing else. -/
theorem push_cases (x : α) (s : State α) :
    s.stack.size = stackLimit ∧ s.push x = .error .stackOverflow ∨
      s.stack.size < stackLimit ∧ ∃ stack, s.push x = .ok { s with stack } ∧
        stack.toList = s.stack.toList ++ [x] := by
  unfold push
  rcases s.stack.push_cases x with ⟨hfull, hpush⟩ | ⟨hroom, t, hpush, hlist⟩
  · rw [hpush]
    exact Or.inl ⟨hfull, rfl⟩
  · rw [hpush]
    exact Or.inr ⟨hroom, t, rfl, hlist⟩

/-- A pop underflows an empty stack, and otherwise takes off the operand and changes nothing else. -/
theorem pop_cases (s : State α) :
    s.stack.toList = [] ∧ s.pop = .error .stackUnderflow ∨
      ∃ x stack, s.pop = .ok (x, { s with stack }) ∧ s.stack.toList = stack.toList ++ [x] := by
  unfold pop
  rcases s.stack.pop_cases with ⟨hempty, hpop⟩ | ⟨x, t, hpop, hlist⟩
  · rw [hpop]
    exact Or.inl ⟨hempty, rfl⟩
  · rw [hpop]
    exact Or.inr ⟨x, t, rfl, hlist⟩

/-- A push fails only where the stack is full. -/
theorem push_eq_error_iff {x : α} {e : Error} :
    s.push x = .error e ↔ s.stack.size = stackLimit ∧ e = .stackOverflow := by
  rcases s.push_cases x with ⟨hfull, hpush⟩ | ⟨hroom, stack, hpush, -⟩
  · rw [hpush, Except.error.injEq, eq_comm]
    exact ⟨fun he => ⟨hfull, he⟩, And.right⟩
  · rw [hpush]
    exact iff_of_false (fun h => by cases h) fun h => hroom.ne h.1

/-- Where there is room an operand can be pushed. -/
theorem satisfies_push (x : α) (hroom : s.stack.size < stackLimit) :
    Satisfies (fun s' : State α => s'.stack.size = s.stack.size + 1) E (s.push x) := by
  rcases s.push_cases x with ⟨hfull, -⟩ | ⟨-, stack, hpush, hlist⟩
  · exact absurd hfull hroom.ne
  · rw [hpush]
    exact (OperandStack.size_succ_of_concat hlist).symm

/-- There is an underflow where there are fewer than `count` operands, and where there are more,
only errors of a certain kind. -/
structure Takes (count : Nat) (E : Error → Prop) (s : State α) (r : Except Error β) : Prop where
  /-- Too few operands. -/
  few (h : s.stack.size < count) : r = .error .stackUnderflow
  /-- As many as are needed. -/
  enough (h : count ≤ s.stack.size) : Satisfies (fun _ => True) E r

namespace Takes

/-- A computation that takes nothing off the stack. -/
theorem of_satisfies {r : Except Error β} (h : Satisfies (fun _ => True) E r) : s.Takes 0 E r where
  few hlt := absurd hlt (Nat.not_lt_zero _)
  enough _ := h

/-- A push takes no operand. -/
theorem push (x : α) (hroom : s.stack.size < stackLimit) : s.Takes 0 E (s.push x) :=
  of_satisfies ((satisfies_push x hroom).mono fun _ _ => trivial)

/-- One operand is taken off first. -/
theorem pop {f : α × State α → Except Error β}
    (h : ∀ (x : α) (s' : State α), s'.stack.size + 1 = s.stack.size →
      s'.Takes count E (f (x, s'))) : s.Takes (count + 1) E (s.pop >>= f) := by
  rcases s.pop_cases with ⟨hempty, hpop⟩ | ⟨x, stack, hpop, hlist⟩
  · have hsize : s.stack.size = 0 := by rw [← OperandStack.length_toList, hempty, List.length_nil]
    rw [hpop]
    exact ⟨fun _ => rfl, fun hle => absurd hle (by omega)⟩
  · have hsize : ({ s with stack } : State α).stack.size + 1 = s.stack.size :=
      OperandStack.size_succ_of_concat hlist
    rw [hpop]
    have hrest := h x { s with stack } hsize
    exact ⟨fun hlt => hrest.few (by omega), fun hle => hrest.enough (by omega)⟩

/-- Two operands are taken off first. -/
theorem pop2 {f : α × α × State α → Except Error β}
    (h : ∀ (a b : α) (s' : State α), s'.stack.size + 2 = s.stack.size →
      s'.Takes count E (f (a, b, s'))) : s.Takes (count + 2) E (s.pop2 >>= f) := by
  simp only [State.pop2, bind_assoc, pure_bind]
  apply Takes.pop
  intro b s₁ h₁
  apply Takes.pop
  intro a s₂ h₂
  exact h a b s₂ (by omega)

/-- A function of an operand takes one. -/
theorem unary (f : α → α) (s : State α) : s.Takes 1 E (s.unary f) := by
  apply Takes.pop
  intro a s' hsize
  have hle := s.stack.size_le
  exact .push _ (by omega)

/-- A function of two operands takes two. -/
theorem binary (f : α → α → α) (s : State α) : s.Takes 2 E (s.binary f) := by
  apply Takes.pop2
  intro a b s' hsize
  have hle := s.stack.size_le
  exact .push _ (by omega)

theorem drop (s : State α) : s.Takes 1 E s.drop := by
  apply Takes.pop
  intro x s' hsize
  exact .of_satisfies trivial

/-- What is pushed was taken off before. -/
theorem exch (s : State α) : s.Takes 2 E s.exch := by
  apply Takes.pop2
  intro a b s' hsize
  have hle := s.stack.size_le
  have hroom : s'.stack.size < stackLimit := by omega
  refine of_satisfies ((satisfies_push b hroom).bind fun s'' hsize' => ?_)
  exact (satisfies_push a (by omega)).mono fun _ _ => trivial

/-- The number of operands decides whether there is an underflow, if nothing else can lead to it. -/
theorem underflow_iff {r : Except Error β} (h : s.Takes count E r) (hE : ¬ E .stackUnderflow) :
    r = .error .stackUnderflow ↔ s.stack.size < count := by
  constructor
  · intro hr
    by_contra hle
    have henough := h.enough (Nat.le_of_not_lt hle)
    rw [hr] at henough
    exact hE henough
  · exact h.few

/-- There is no overflow, if nothing else can lead to it. -/
theorem ne_overflow {r : Except Error β} (h : s.Takes count E r) (hE : ¬ E .stackOverflow) :
    r ≠ .error .stackOverflow := by
  intro hr
  rcases Nat.lt_or_ge s.stack.size count with hlt | hle
  · rw [h.few hlt] at hr
    cases hr
  · have henough := h.enough hle
    rw [hr] at henough
    exact hE henough

end Takes

variable [Scalar α]

private theorem takes_ifelse (s : State α) : s.Takes 4 E s.ifelse := by
  apply Takes.pop2
  intro v1 v2 s₁ h₁
  apply Takes.pop2
  intro s1 s2 s₂ h₂
  have hle := s.stack.size_le
  exact .push _ (by omega)

/-- Storing takes a number and an index, and may refuse the index. -/
private theorem takes_put (s : State α) : s.Takes 2 Error.OfValue s.put := by
  apply Takes.pop2
  intro value i s' hsize
  exact .of_satisfies ((failsForValue_transientIndex i).bind fun _ _ => trivial)

/-- Fetching takes an index, and may refuse it. -/
private theorem takes_get (s : State α) : s.Takes 1 Error.OfValue s.get := by
  apply Takes.pop
  intro i s' hsize
  have hle := s.stack.size_le
  refine .of_satisfies ((failsForValue_transientIndex i).bind fun i _ => ?_)
  split
  · exact (satisfies_push _ (by omega)).mono fun _ _ => trivial
  · trivial

/-- An operator of fixed arity that puts no operand on the stack first. -/
theorem takes_compute {op : StackOperator} (hop : op.arity? = some count) (hdup : op ≠ .dup)
    (hrandom : op ≠ .random) (s : State α) :
    s.Takes count Error.OfValue (State.compute op s) := by
  cases op with
  | abs | neg | sqrt | not =>
    cases hop
    simp only [compute]
    exact .unary _ s
  | add | sub | mul | div | and | or | eq =>
    cases hop
    simp only [compute]
    exact .binary _ s
  | ifelse =>
    cases hop
    exact s.takes_ifelse
  | drop =>
    cases hop
    exact .drop s
  | exch =>
    cases hop
    exact .exch s
  | put =>
    cases hop
    exact s.takes_put
  | get =>
    cases hop
    exact s.takes_get
  | dup => exact absurd rfl hdup
  | random => exact absurd rfl hrandom
  | index | roll => cases hop

/-- A roll may find too few operands for what it has popped, but it puts no operand on the stack. -/
theorem takes_roll (s : State α) : s.Takes 2 (· ≠ .stackOverflow) s.roll := by
  have hvalue : ∀ e : Error, e.OfValue → e ≠ .stackOverflow := by
    rintro _ he rfl
    exact he
  apply Takes.pop2
  intro n j s' hsize
  refine .of_satisfies (((failsForValue_rollCount n).widen hvalue).bind fun count _ => ?_)
  refine ((failsForValue_rollShift count j).widen hvalue).bind fun shift _ => ?_
  unfold OperandStack.roll
  split
  · trivial
  · exact fun h => by cases h

/-- The operand of a call is the only one that it needs. -/
theorem takes_popIndex (size : Nat) (s : State α) :
    s.Takes 1 Error.OfValue (s.popIndex size) := by
  apply Takes.pop
  intro operand s' hsize
  exact .of_satisfies ((failsForValue_index size operand).bind fun _ _ => trivial)

omit [Scalar α] in
/-- A copy needs an operand and room for another one. -/
theorem dup_eq_error_iff {e : Error} :
    s.dup = .error e ↔
      s.stack.size = 0 ∧ e = .stackUnderflow ∨ s.stack.size = stackLimit ∧ e = .stackOverflow := by
  have hlimit : stackLimit = 48 := rfl
  unfold dup
  cases hpeek : s.stack.peek 0 with
  | error e' =>
    obtain ⟨hsize, rfl⟩ := OperandStack.peek_eq_error_iff.mp hpeek
    change Except.error _ = Except.error e ↔ _
    rw [Except.error.injEq, eq_comm]
    constructor
    · intro he
      exact Or.inl ⟨by omega, he⟩
    · rintro (⟨-, he⟩ | ⟨hfull, -⟩)
      · exact he
      · omega
  | ok x =>
    have hsize : s.stack.size ≠ 0 := by
      intro hzero
      rw [OperandStack.peek_eq_error_iff.mpr ⟨hzero.le, rfl⟩] at hpeek
      cases hpeek
    change s.push x = .error e ↔ _
    rw [push_eq_error_iff]
    exact ⟨Or.inr, fun h => h.resolve_left fun hzero => hsize hzero.1⟩

/-- Drawing a random number is a push. -/
theorem drawRandom_eq_error_iff {e : Error} :
    s.drawRandom = .error e ↔ s.stack.size = stackLimit ∧ e = .stackOverflow :=
  push_eq_error_iff

/-- An operand of `index` that names no depth counts as one that names too large a depth. -/
theorem eq_underflow_of_peekDepth {x : α} {e : Error} (h : peekDepth x = .error e) :
    e = .stackUnderflow := by
  unfold peekDepth at h
  split at h
  · cases h
  · split at h
    · cases h
    · cases h
      rfl

/-- With room for a copy, copying an operand fails only if there is none at the depth. -/
theorem copy_eq_error_iff {x : α} {e : Error} (hroom : s.stack.size < stackLimit) :
    (do let depth ← peekDepth x; let y ← s.stack.peek depth; s.push y) = .error e ↔
      e = .stackUnderflow ∧ ∀ depth, peekDepth x = .ok depth → s.stack.size ≤ depth := by
  cases hdepth : peekDepth x with
  | error e' =>
    rw [eq_underflow_of_peekDepth hdepth]
    change Except.error _ = Except.error e ↔ _
    simp [eq_comm]
  | ok depth =>
    change (s.stack.peek depth >>= fun y => s.push y) = .error e ↔ _
    cases hpeek : s.stack.peek depth with
    | error e' =>
      obtain ⟨hle, rfl⟩ := OperandStack.peek_eq_error_iff.mp hpeek
      change Except.error _ = Except.error e ↔ _
      simp [hle, eq_comm]
    | ok y =>
      change s.push y = .error e ↔ _
      rw [push_eq_error_iff]
      refine iff_of_false (fun h => hroom.ne h.1) ?_
      rintro ⟨-, h⟩
      rw [OperandStack.peek_eq_error_iff.mpr ⟨h depth rfl, rfl⟩] at hpeek
      cases hpeek

/-- The operator `index` fails in one way, and then its operand is missing or names none of those
that are below. -/
theorem index_eq_error_iff {e : Error} :
    s.index = .error e ↔ e = .stackUnderflow ∧
      (s.stack.toList = [] ∨ ∃ below x, s.stack.toList = below ++ [x] ∧
        ∀ depth, peekDepth x = .ok depth → below.length ≤ depth) := by
  unfold index
  rcases s.pop_cases with ⟨hempty, hpop⟩ | ⟨x, stack, hpop, hlist⟩
  · rw [hpop]
    change Except.error _ = Except.error e ↔ _
    rw [Except.error.injEq, eq_comm]
    exact ⟨fun he => ⟨he, Or.inl hempty⟩, And.left⟩
  · have hroom : stack.size < stackLimit := by
      have hsize := OperandStack.size_succ_of_concat hlist
      have hle := s.stack.size_le
      omega
    rw [hpop]
    refine (copy_eq_error_iff hroom).trans (and_congr_right fun _ => ?_)
    rw [hlist, ← OperandStack.length_toList]
    constructor
    · intro hmiss
      exact Or.inr ⟨_, x, rfl, hmiss⟩
    · rintro (hnil | ⟨below, y, heq, hmiss⟩)
      · exact absurd hnil (List.append_ne_nil_of_right_ne_nil _ (List.cons_ne_nil _ _))
      · obtain ⟨hfront, hlast⟩ := List.append_inj' heq rfl
        cases hlast
        rwa [hfront]

/-- An overflow is possible only for the two operators that push first. -/
theorem compute_eq_overflow_iff {op : StackOperator} :
    State.compute op s = .error .stackOverflow ↔
      s.stack.size = stackLimit ∧ (op = .dup ∨ op = .random) := by
  by_cases hdup : op = .dup
  · subst hdup
    simp [compute, dup_eq_error_iff]
  by_cases hrandom : op = .random
  · subst hrandom
    simp [compute, drawRandom_eq_error_iff]
  refine iff_of_false ?_ fun h => h.2.elim hdup hrandom
  cases hop : op.arity? with
  | some count => exact (takes_compute hop hdup hrandom s).ne_overflow id
  | none =>
    cases op with
    | index =>
      intro h
      cases (index_eq_error_iff.mp h).1
    | roll => exact s.takes_roll.ne_overflow (fun h => h rfl)
    | _ => cases hop

/-- The arity of an operator decides whether there are too few operands. -/
theorem compute_eq_underflow_iff {op : StackOperator} (hop : op.arity? = some count) :
    State.compute op s = .error .stackUnderflow ↔ s.stack.size < count := by
  by_cases hdup : op = .dup
  · subst hdup
    cases hop
    simp [compute, dup_eq_error_iff]
  by_cases hrandom : op = .random
  · subst hrandom
    cases hop
    simp [compute, drawRandom_eq_error_iff]
  exact (takes_compute hop hdup hrandom s).underflow_iff id

end State

namespace Semantics

variable [Scalar α] {subroutines : Subroutines} {limit : Option Nat} {c c' : Config (State α)}

/-- A computation stops the execution with its own errors. -/
theorem execute_stack_eq_fail_iff {op : StackOperator} {e : Error} :
    State.semantics.execute subroutines limit c (.operator (.stack op)) = .fail e ↔
      State.compute op c.data = .error e := by
  constructor
  · intro h
    cases fails_of_execute h with
    | compute h => exact h
  · intro h
    exact execute_of_fails (.compute h)

/-- Which instructions find the stack full. -/
theorem execute_eq_overflow_iff {i : Instruction} :
    State.semantics.execute subroutines limit c i = .fail .stackOverflow ↔
      c.data.stack.size = stackLimit ∧ i.PushesFirst := by
  constructor
  · intro h
    cases fails_of_execute h with
    | number h => exact ⟨(State.push_eq_error_iff.mp h).1, trivial⟩
    | compute h =>
      obtain ⟨hfull, rfl | rfl⟩ := State.compute_eq_overflow_iff.mp h
      · exact ⟨hfull, trivial⟩
      · exact ⟨hfull, trivial⟩
    | @path op _ h =>
      have hcount := State.failsForCount_drawPath op c.data
      rw [show c.data.drawPath op = .error .stackOverflow from h] at hcount
      exact hcount.elim
    | @table scope _ h =>
      unfold Subroutines.table at h
      split at h
      · cases h
      · split at h <;> cases h
    | @index scope table _ htable hdepth h =>
      exact absurd h ((State.takes_popIndex table.size c.data).ne_overflow id)
  · rintro ⟨hfull, hi⟩
    cases i with
    | number value => exact execute_of_fails (.number (State.push_eq_error_iff.mpr ⟨hfull, rfl⟩))
    | operator op =>
      cases op with
      | stack op =>
        have hop : op = .dup ∨ op = .random := by
          cases op with
          | dup => exact Or.inl rfl
          | random => exact Or.inr rfl
          | _ => exact hi.elim
        rw [execute_stack_eq_fail_iff]
        exact State.compute_eq_overflow_iff.mpr ⟨hfull, hop⟩
      | _ => exact hi.elim

/-- Below the nesting limit a call into a table finds too few operands if there is none. -/
theorem execute_call_eq_underflow_iff {scope : SubroutineScope} {table : SubroutineTable}
    (htable : subroutines.table scope = .ok table) (hdepth : limit ≠ some c.depth) :
    State.semantics.execute subroutines limit c (.operator (.call scope)) =
        .fail .stackUnderflow ↔ c.data.stack.size < 1 := by
  have hindex : c.data.popIndex table.size = .error .stackUnderflow ↔ c.data.stack.size < 1 :=
    (State.takes_popIndex table.size c.data).underflow_iff id
  rw [← hindex]
  constructor
  · intro h
    cases fails_of_execute h with
    | table h =>
      rw [htable] at h
      cases h
    | index htable' hdepth h =>
      rw [htable] at htable'
      cases htable'
      exact h
  · intro h
    exact execute_of_fails (.index htable hdepth h)

/-- What is left on the stack by instructions that use up all operands. -/
theorem toList_of_executes {i : Instruction} (hi : i.UsesUp)
    (h : State.semantics.Executes subroutines limit c i c') : c'.data.stack.toList = [] := by
  cases h with
  | stem op => rfl
  | mask op hslice => rfl
  | path hdraw =>
    obtain ⟨path, rfl⟩ := State.exists_of_drawPath hdraw
    rfl
  | _ => exact hi.elim

end Semantics

/-- The depth below the top that an operand of `index` names: none below the top itself if it is
negative, and else its integer part.  An operand that is not finite has no integer part. -/
def NamesDepth (x : Float) (depth : Nat) : Prop :=
  if Scalar.isLt x Scalar.zero = true then depth = 0 else ∃ n, IntegerPart x n ∧ depth = n.toNat

/-- A depth is named by its integer part, and the top by every negative number. -/
private theorem State.peekDepth_eq_ok_iff {x : Float} {depth : Nat} :
    peekDepth x = .ok depth ↔ NamesDepth x depth := by
  unfold peekDepth NamesDepth
  split
  · rw [Except.ok.injEq, eq_comm]
  · simp only [Binary64.integerPart_iff]
    cases Scalar.truncate x with
    | none => simp
    | some n => simp [eq_comm]

/-- How an instruction that has been read meets the limits of the operand stack. -/
structure MeetsStackLimits (subroutines : Subroutines) (c : Config (State Float))
    (i : Instruction) (rest : Config (State Float)) : Prop where
  /-- It finds the stack full exactly if it pushes first and there is no room. -/
  overflow : State.semantics.step subroutines (some nestingLimit) c = .fail .stackOverflow ↔
    c.data.stack.size = 48 ∧ i.PushesFirst
  /-- An operator of fixed arity finds too few operands exactly if there are fewer than that. -/
  arity : ∀ op count, i = .operator (.stack op) → op.arity? = some count →
    (State.semantics.step subroutines (some nestingLimit) c = .fail .stackUnderflow ↔
      c.data.stack.size < count)
  /-- So does a call, where its table is there and another caller may wait. -/
  call : ∀ scope table, i = .operator (.call scope) → subroutines.table scope = .ok table →
    rest.depth < 10 →
    (State.semantics.step subroutines (some nestingLimit) c = .fail .stackUnderflow ↔
      c.data.stack.size < 1)
  /-- The operator `index` misses its operand, or that names none of the operands below. -/
  index : i = .operator (.stack .index) →
    (State.semantics.step subroutines (some nestingLimit) c = .fail .stackUnderflow ↔
      c.data.stack.toList = [] ∨ ∃ below x, c.data.stack.toList = below ++ [x] ∧
        ∀ depth, NamesDepth x depth → below.length ≤ depth)
  /-- Hints and paths use up all operands. -/
  uses_up : ∀ called c', i.UsesUp →
    State.semantics.step subroutines (some nestingLimit) c = .next called c' →
    c'.data.stack.toList = []
  /-- The end of the glyph removes them. -/
  endchar : i = .operator .endchar →
    ∃ data, State.semantics.step subroutines (some nestingLimit) c = .done data ∧
      data.stack.toList = []

/-- The operand stack is to blame exactly where it is too full or too empty for the next
instruction, in every configuration that an execution may pass through, whatever subroutine it is
in. -/
theorem step_meets_stack_limits {subroutines : Subroutines} {c rest : Config (State Float)}
    {i : Instruction} (hfetch : c.fetch = some (.ok (i, rest))) :
    MeetsStackLimits subroutines c i rest := by
  obtain ⟨hdata, -⟩ := Config.fetch_frame hfetch
  constructor
  case overflow =>
    rw [Semantics.step_of_fetch_ok hfetch, Semantics.execute_eq_overflow_iff, hdata]
    rfl
  case arity =>
    rintro op count rfl hop
    rw [Semantics.step_of_fetch_ok hfetch, Semantics.execute_stack_eq_fail_iff, hdata]
    exact State.compute_eq_underflow_iff hop
  case call =>
    rintro scope table rfl htable hdepth
    have hne : some nestingLimit ≠ some rest.depth := fun h => hdepth.ne' (Option.some.inj h)
    rw [Semantics.step_of_fetch_ok hfetch,
      Semantics.execute_call_eq_underflow_iff htable hne, hdata]
  case index =>
    rintro rfl
    rw [Semantics.step_of_fetch_ok hfetch, Semantics.execute_stack_eq_fail_iff, hdata]
    simp only [← State.peekDepth_eq_ok_iff]
    exact State.index_eq_error_iff.trans ⟨And.right, fun h => ⟨rfl, h⟩⟩
  case uses_up =>
    intro called c' hi hstep
    rw [Semantics.step_of_fetch_ok hfetch] at hstep
    exact Semantics.toList_of_executes hi (Semantics.executes_of_execute hstep)
  case endchar =>
    rintro rfl
    exact ⟨_, Semantics.step_of_fetch_ok hfetch, rfl⟩

/-- A full stack in front of `dup` and of `add`, and a lone operand in front of `exch`. -/
theorem step_meets_stack_limits_full :
    let full : State Float :=
      { State.initial with stack := ⟨List.replicate 48 Scalar.one, List.length_replicate.le⟩ }
    let lone : State Float := { State.initial with stack := ⟨[Scalar.one], by decide⟩ }
    let step := State.semantics.step ⟨#[], .missing⟩ (some nestingLimit)
    (⟨[12, 27], [], full⟩ : Config (State Float)).fetch =
        some (.ok (.operator (.stack .dup), ⟨[], [], full⟩)) ∧
      step ⟨[12, 27], [], full⟩ = .fail .stackOverflow ∧
      step ⟨[12, 10], [], full⟩ ≠ .fail .stackOverflow ∧
      step ⟨[12, 28], [], lone⟩ = .fail .stackUnderflow := by
  intro full lone step
  have hfull : full.stack.size = 48 := List.length_replicate
  have hdup : (⟨[12, 27], [], full⟩ : Config (State Float)).fetch =
      some (.ok (.operator (.stack .dup), ⟨[], [], full⟩)) := rfl
  have hadd : (⟨[12, 10], [], full⟩ : Config (State Float)).fetch =
      some (.ok (.operator (.stack .add), ⟨[], [], full⟩)) := rfl
  have hexch : (⟨[12, 28], [], lone⟩ : Config (State Float)).fetch =
      some (.ok (.operator (.stack .exch), ⟨[], [], lone⟩)) := rfl
  refine ⟨hdup, (step_meets_stack_limits hdup).overflow.mpr ⟨hfull, trivial⟩, ?_, ?_⟩
  · intro h
    exact ((step_meets_stack_limits hadd).overflow.mp h).2
  · exact ((step_meets_stack_limits hexch).arity .exch 2 rfl rfl).mpr (by decide)

end FontMetrics.Charstring
