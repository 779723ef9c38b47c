import FontMetrics.Proofs.Charstring.Rotation
import FontMetrics.Proofs.Checked.Procedure

/-!
# Histories of operand stacks

The operations of a stack, performed in place on a fixed array.  The slots behind the operands keep
what was popped, and later operands are put over it.  Whatever the sequence of operations, the array
answers like a list of bounded length, and no slot behind the operands is ever seen.
-/

namespace FontMetrics.Charstring

open Procedure (check outcome_bind outcome_get_bind outcome_set_bind outcome_check
  outcome_check_bind outcome_check_pure_bind settle)

/-- An operation on a stack. -/
inductive StackOperation (α : Type) where
  /-- Put an operand on the top. -/
  | push (x : α)
  /-- Take the operand on the top. -/
  | pop
  /-- Look at the operand `depth` places below the top. -/
  | peek (depth : Nat)
  /-- Rotate the top `count` operands toward the top by `shift` places. -/
  | roll (count shift : Nat)
  /-- Remove all operands. -/
  | clear

variable {capacity : Nat} {α : Type}

/-- Performs an operation; it answers with the operand that it takes or looks at. -/
def OperandStack.perform :
    StackOperation α → OperandStack capacity α → Except Error (Option α × OperandStack capacity α)
  | .push x, t => do
    let t ← t.push x
    return (none, t)
  | .pop, t => do
    let (x, t) ← t.pop
    return (some x, t)
  | .peek depth, t => do
    let x ← t.peek depth
    return (some x, t)
  | .roll count shift, t => do
    let t ← t.roll count shift
    return (none, t)
  | .clear, _ => return (none, .empty)

namespace ArrayStack

/-- The same in an array, whose accesses are checked. -/
def compute :
    StackOperation α → ArrayStack α → Checked Error (Option α × ArrayStack α)
  | .push x, s => do
    let s ← s.push x
    return (none, s)
  | .pop, s => do
    let (x, s) ← s.pop
    return (some x, s)
  | .peek depth, s => do
    let x ← s.peek depth
    return (some x, s)
  | .roll count shift, s => do
    let s ← s.roll count shift
    return (none, s)
  | .clear, s => return (none, s.clear)

/-! ## Changing the array in place -/

/-- Puts an operand into the first slot that is not in use. -/
def pushInPlace (x : α) : Procedure (ArrayStack α) Error Unit := do
  let s ← get
  if s.len = s.slots.length then
    throw .stackOverflow
  else
    let slots ← check (Checked.set s.slots s.len x)
    set { s with slots }
    let len ← check (Checked.advance slots s.len 1)
    set ({ slots, len } : ArrayStack α)

/-- Takes the operand from the last slot in use, which keeps it. -/
def popInPlace : Procedure (ArrayStack α) Error α := do
  let s ← get
  if s.len = 0 then
    throw .stackUnderflow
  else
    let len ← check (Checked.sub s.len 1)
    set { s with len }
    check (Checked.get s.slots len)

/-- Rotates the last `count` slots in use. -/
def rollInPlace (count shift : Nat) : Procedure (ArrayStack α) Error Unit := do
  let s ← get
  if s.len < count then
    throw .stackUnderflow
  else if 0 < count then
    let first ← check (Checked.sub s.len count)
    let part ← check (Checked.slice s.slots first s.len)
    let places ← check (Checked.mod shift count)
    let part ← check (Checked.rotateRight part places)
    set { s with slots := s.slots.take first ++ part ++ s.slots.drop s.len }

/-- Performs an operation in place. -/
def perform : StackOperation α → Procedure (ArrayStack α) Error (Option α)
  | .push x => do
    pushInPlace x
    return none
  | .pop => do
    let x ← popInPlace
    return some x
  | .peek depth => do
    let s ← get
    let x ← check (s.peek depth)
    return some x
  | .roll count shift => do
    rollInPlace count shift
    return none
  | .clear => do
    let s ← get
    set { s with len := 0 }
    return none

/-! ## Failures change nothing -/

private theorem realizes_push (x : α) : (perform (.push x)).Realizes (compute (.push x)) := by
  intro s
  rw [perform, outcome_bind, pushInPlace, outcome_get_bind, compute, push]
  by_cases hfull : s.len = s.slots.length
  · rw [if_pos hfull, if_pos hfull]
    rfl
  rw [if_neg hfull, if_neg hfull]
  -- A count beyond the array would fault in both; nothing is assumed about the array here.
  by_cases hroom : s.len < s.slots.length
  · have hlen : s.len + 1 ≤ (s.slots.set s.len x).length := by rwa [List.length_set]
    rw [Checked.set_eq x hroom, outcome_check_pure_bind, outcome_set_bind, Checked.advance_eq hlen,
      pure_bind, Checked.advance_eq hroom]
    rfl
  · have hset : (Checked.set s.slots s.len x : Checked Error (List α)) = Checked.fault := by
      rw [Checked.set, Checked.require, if_neg hroom]
      rfl
    rw [hset]
    rfl

private theorem realizes_pop : (perform (.pop : StackOperation α)).Realizes (compute .pop) := by
  intro s
  rw [perform, outcome_bind, popInPlace, outcome_get_bind, compute, pop]
  by_cases hempty : s.len = 0
  · rw [if_pos hempty, if_pos hempty]
    rfl
  · rw [if_neg hempty, if_neg hempty, Checked.sub_eq (by omega), pure_bind,
      outcome_check_pure_bind, outcome_set_bind, outcome_check]
    cases hx : s.slots[s.len - 1]? with
    | none =>
      rw [Checked.get, hx]
      rfl
    | some x =>
      rw [Checked.get, hx]
      rfl

private theorem realizes_peek (depth : Nat) :
    (perform (.peek depth : StackOperation α)).Realizes (compute (.peek depth)) := by
  intro s
  rw [perform, outcome_get_bind]
  exact outcome_check_bind (fun x => rfl) _

/-- The loops of a rotation give what the list of the slots gives. -/
private theorem realizes_roll (count shift : Nat) :
    (perform (.roll count shift : StackOperation α)).Realizes (compute (.roll count shift)) := by
  intro s
  rw [perform, rollInPlace, bind_assoc, outcome_get_bind, compute, roll]
  by_cases hshort : s.len < count
  · rw [if_pos hshort, if_pos hshort]
    rfl
  rw [if_neg hshort, if_neg hshort]
  by_cases hcount : 0 < count
  · rw [if_pos hcount, if_pos hcount]
    simp only [bind_assoc]
    exact outcome_check_bind (fun first => outcome_check_bind (fun part =>
      outcome_check_bind (fun places => outcome_check_bind (fun rotated => rfl) _) _) _) _
  · rw [if_neg hcount, if_neg hcount]
    rfl

/-- An operation in place changes the array into the one that is computed, or not at all. -/
theorem realizes_perform (op : StackOperation α) : (perform op).Realizes (compute op) := by
  cases op with
  | push x => exact realizes_push x
  | pop => exact realizes_pop
  | peek depth => exact realizes_peek depth
  | roll count shift => exact realizes_roll count shift
  | clear => exact fun s => rfl

/-- An operation on an array is one on the operands that it holds. -/
theorem agrees_compute {s : ArrayStack α} {t : OperandStack capacity α} (h : s.Holds t)
    (op : StackOperation α) :
    Checked.Agrees (fun p q => p.1 = q.1 ∧ p.2.Holds q.2) (compute op s) (t.perform op) := by
  cases op with
  | push x => exact (agrees_push h x).bind fun s t h => .ok ⟨rfl, h⟩
  | pop =>
    exact (agrees_pop h).bind fun p q hpq => .ok ⟨congrArg some hpq.1, hpq.2⟩
  | peek depth => exact (agrees_peek h depth).bind fun x y hxy => .ok ⟨congrArg some hxy, h⟩
  | roll count shift => exact (agrees_roll h count shift).bind fun s t h => .ok ⟨rfl, h⟩
  | clear => exact .ok ⟨rfl, h.clear⟩

end ArrayStack

/-! ## The list of operands -/

/-- What an operation on a list of at most `capacity` operands, the top one last, answers and which
list it leaves. -/
inductive StackOperation.Answers (capacity : Nat) :
    List α → StackOperation α → Except Error (Option α) → List α → Prop
  | push {xs ys : List α} {x : α} (hroom : xs.length < capacity) (hys : ys = xs ++ [x]) :
      Answers capacity xs (.push x) (.ok none) ys
  | full {xs : List α} {x : α} (hfull : xs.length = capacity) :
      Answers capacity xs (.push x) (.error .stackOverflow) xs
  | pop {xs ys : List α} {x : α} (hxs : xs = ys ++ [x]) :
      Answers capacity xs .pop (.ok (some x)) ys
  | empty {xs : List α} (hempty : xs = []) :
      Answers capacity xs .pop (.error .stackUnderflow) xs
  | peek {xs : List α} {depth : Nat} {x : α} (hx : xs.reverse[depth]? = some x) :
      Answers capacity xs (.peek depth) (.ok (some x)) xs
  | deep {xs : List α} {depth : Nat} (hdeep : xs.length ≤ depth) :
      Answers capacity xs (.peek depth) (.error .stackUnderflow) xs
  | roll {xs ys : List α} {count shift : Nat} (hcount : count ≤ xs.length)
      (hys : RotatesTop count shift xs ys) : Answers capacity xs (.roll count shift) (.ok none) ys
  | short {xs : List α} {count shift : Nat} (hshort : xs.length < count) :
      Answers capacity xs (.roll count shift) (.error .stackUnderflow) xs
  | clear {xs : List α} : Answers capacity xs .clear (.ok none) []

namespace StackOperation.Answers

variable {xs ys ys' : List α} {op : StackOperation α} {answer answer' : Except Error (Option α)}

/-- There is one right answer. -/
theorem unique (h : Answers capacity xs op answer ys) (h' : Answers capacity xs op answer' ys') :
    answer = answer' ∧ ys = ys' := by
  cases h with
  | push hroom hys =>
    cases h' with
    | push hroom' hys' => exact ⟨rfl, hys.trans hys'.symm⟩
    | full hfull => omega
  | full hfull =>
    cases h' with
    | push hroom hys => omega
    | full hfull' => exact ⟨rfl, rfl⟩
  | pop hxs =>
    cases h' with
    | pop hxs' =>
      obtain ⟨hbelow, htop⟩ := List.append_inj' (hxs.symm.trans hxs') rfl
      cases htop
      exact ⟨rfl, hbelow⟩
    | empty hempty => simp [hempty] at hxs
  | empty hempty =>
    cases h' with
    | pop hxs => simp [hempty] at hxs
    | empty hempty' => exact ⟨rfl, rfl⟩
  | peek hx =>
    cases h' with
    | peek hx' =>
      cases hx.symm.trans hx'
      exact ⟨rfl, rfl⟩
    | deep hdeep => simp [hdeep] at hx
  | deep hdeep =>
    cases h' with
    | peek hx => simp [hdeep] at hx
    | deep hdeep' => exact ⟨rfl, rfl⟩
  | roll hcount hys =>
    cases h' with
    | roll hcount' hys' => exact ⟨rfl, hys.unique hys' hcount⟩
    | short hshort => omega
  | short hshort =>
    cases h' with
    | roll hcount hys => omega
    | short hshort' => exact ⟨rfl, rfl⟩
  | clear =>
    cases h'
    exact ⟨rfl, rfl⟩

/-- The bound is kept. -/
theorem length_le (h : Answers capacity xs op answer ys) (hxs : xs.length ≤ capacity) :
    ys.length ≤ capacity := by
  cases h with
  | push hroom hys =>
    rw [hys, List.length_append, List.length_singleton]
    exact hroom
  | pop hpop =>
    rw [hpop, List.length_append, List.length_singleton] at hxs
    omega
  | roll hcount hys => exact hys.length_eq.trans_le hxs
  | clear => exact Nat.zero_le _
  | full | empty | peek | deep | short => exact hxs

end StackOperation.Answers

namespace OperandStack

/-- The list of operands changes as it should. -/
theorem answers_perform (t : OperandStack capacity α) (op : StackOperation α) :
    op.Answers capacity t.toList (settle t (t.perform op)).1
      (settle t (t.perform op)).2.toList := by
  cases op with
  | push x =>
    rw [perform]
    cases hpush : t.push x with
    | ok t' =>
      refine .push ?_ (push_toList hpush)
      rw [length_toList, ← push_isOk_iff x, hpush]
      rfl
    | error e =>
      rw [push] at hpush
      split at hpush
      · cases hpush
      · next hfull =>
        cases hpush
        exact .full ((length_toList t).trans (le_antisymm t.length_le (Nat.le_of_not_lt hfull)))
  | pop =>
    rw [perform]
    cases hpop : t.pop with
    | ok p => exact .pop (pop_toList hpop)
    | error e =>
      obtain ⟨items, hitems⟩ := t
      cases items with
      | nil =>
        cases hpop
        exact .empty rfl
      | cons x below => cases hpop
  | peek depth =>
    rw [perform]
    cases hpeek : t.peek depth with
    | ok x => exact .peek (peek_eq_ok_iff.mp hpeek)
    | error e =>
      rw [peek] at hpeek
      split at hpeek
      · cases hpeek
      · next hnone =>
        cases hpeek
        exact .deep ((length_toList t).trans_le (List.getElem?_eq_none_iff.mp hnone))
  | roll count shift =>
    rw [perform]
    cases hroll : t.roll count shift with
    | ok t' =>
      refine .roll ?_ (rotatesTop_of_roll hroll)
      rw [length_toList, ← roll_isOk_iff count shift, hroll]
      rfl
    | error e =>
      rw [roll] at hroll
      split at hroll
      · cases hroll
      · next hshort =>
        cases hroll
        exact .short ((length_toList t).trans_lt (Nat.lt_of_not_le hshort))
  | clear => exact .clear

/-- The answers to a sequence of operations, each with the operands that there are then. -/
def history (ops : List (StackOperation α)) (t : OperandStack capacity α) :
    List (Except Error (Option α) × List α) :=
  FontMetrics.history perform toList ops t

/-- From any stack, the answers and views are the right ones after each operation. -/
private theorem obeys_history (t : OperandStack capacity α) (ops : List (StackOperation α)) :
    Obeys (StackOperation.Answers capacity) t.toList ops (t.history ops) :=
  FontMetrics.obeys_history (I := fun _ : OperandStack capacity α => True)
    (fun op t _ => ⟨t.answers_perform op, trivial⟩) ops trivial

end OperandStack

namespace ArrayStack

variable {s s' : ArrayStack α} {t : OperandStack capacity α}

/-- The same of a stack in an array. -/
def history (ops : List (StackOperation α)) (s : ArrayStack α) :
    Checked Error (List (Except Error (Option α) × List α)) :=
  Procedure.history perform all ops s

/-- No access to the array faults, and it answers like the stack whose operands it holds. -/
theorem Holds.history_eq (h : s.Holds t) (ops : List (StackOperation α)) :
    s.history ops = pure (t.history ops) :=
  history_eq_of_correspond
    (fun op _ _ h => (realizes_perform op).exists_outcome h (agrees_compute h op))
    (fun _ _ h => all_eq h) ops h

/-- Slots in use hold the operands of some stack. -/
theorem exists_holds (h : s.len ≤ s.slots.length) :
    ∃ t : OperandStack s.slots.length α, s.Holds t := by
  refine ⟨⟨(s.slots.take s.len).reverse, ?_⟩, rfl, ?_, ?_⟩
  · rw [List.length_reverse, List.length_take]
    exact Nat.min_le_right _ _
  · rw [OperandStack.size, List.length_reverse, List.length_take, Nat.min_eq_left h]
  · rw [OperandStack.toList, List.reverse_reverse]

/-- The slots that are not in use are never seen. -/
theorem history_congr (hlen : s.len ≤ s.slots.length) (hsame : s'.len = s.len)
    (hslots : s'.slots.length = s.slots.length)
    (htake : s'.slots.take s.len = s.slots.take s.len) (ops : List (StackOperation α)) :
    s'.history ops = s.history ops := by
  obtain ⟨t, ht⟩ := exists_holds hlen
  have ht' : s'.Holds t := ⟨hslots, hsame.trans ht.len_eq, hsame ▸ htake.trans ht.take_eq⟩
  rw [ht.history_eq, ht'.history_eq]

end ArrayStack

/-- Whatever is done to a stack in an array, starting without operands, it answers like a list of no
more elements than the array has slots.

The array and the stack of operands have the same history, and the rule for lists leaves no other.
An operation that fails leaves the array as it is, whatever it holds, and arrays that differ only
behind their operands cannot be told apart. -/
theorem array_stack_refines_bounded_list {α : Type} (slots : List α)
    (ops : List (StackOperation α)) :
    ∃ trace : List (Except Error (Option α) × List α),
      (ArrayStack.new slots).history ops = pure trace ∧
      (.empty : OperandStack slots.length α).history ops = trace ∧
      (∀ other, Obeys (StackOperation.Answers slots.length) [] ops other ↔ other = trace) ∧
      (∀ entry ∈ trace, entry.2.length ≤ slots.length) ∧
      (∀ (op : StackOperation α) (s s' : ArrayStack α) (e : Error),
        (ArrayStack.perform op).outcome s = some (.error e, s') → s' = s) ∧
      ∀ s s' : ArrayStack α, s.len ≤ s.slots.length → s'.len = s.len →
        s'.slots.length = s.slots.length → s'.slots.take s.len = s.slots.take s.len →
          s'.history ops = s.history ops := by
  have hobeys := (.empty : OperandStack slots.length α).obeys_history ops
  refine ⟨_, (ArrayStack.holds_new rfl).history_eq ops, rfl, fun other => ⟨fun h => ?_, ?_⟩, ?_, ?_,
    ?_⟩
  · exact hobeys.unique (fun h h' => h.unique h') h
  · rintro rfl
    exact hobeys
  · exact hobeys.invariant (fun h hxs => h.length_le hxs) (Nat.zero_le _)
  · exact fun op s s' e h => (ArrayStack.realizes_perform op).eq_of_error h
  · exact fun s s' hlen hsame hslots htake =>
      ArrayStack.history_congr hlen hsame hslots htake ops

/-- Two slots, of which one is freed and used again. -/
theorem array_stack_refines_bounded_list_reused_slot :
    let ops : List (StackOperation Nat) :=
      [.push 1, .push 2, .push 3, .roll 2 1, .pop, .peek 1, .push 4]
    let trace : List (Except Error (Option Nat) × List Nat) :=
      [(.ok none, [1]), (.ok none, [1, 2]), (.error .stackOverflow, [1, 2]), (.ok none, [2, 1]),
        (.ok (some 1), [2]), (.error .stackUnderflow, [2]), (.ok none, [2, 4])]
    (ArrayStack.new [0, 0]).history ops = pure trace ∧
      Obeys (StackOperation.Answers 2) [] ops trace ∧
      (∃ e s, (ArrayStack.perform .pop).outcome ⟨[7, 8], 0⟩ = some (.error e, s) ∧
        s = (⟨[7, 8], 0⟩ : ArrayStack Nat)) ∧
      (⟨[2, 9], 1⟩ : ArrayStack Nat).history ops = (⟨[2, 1], 1⟩ : ArrayStack Nat).history ops := by
  intro ops trace
  obtain ⟨trace', harray, hstack, hrule, -, hfail, hstale⟩ :=
    array_stack_refines_bounded_list [0, 0] ops
  have htrace : trace = trace' := hstack
  exact ⟨htrace ▸ harray, (hrule trace).mpr htrace,
    ⟨.stackUnderflow, _, rfl, hfail .pop _ _ .stackUnderflow rfl⟩,
    hstale ⟨[2, 1], 1⟩ ⟨[2, 9], 1⟩ (by decide) rfl rfl rfl⟩

end FontMetrics.Charstring
