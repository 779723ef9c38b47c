import FontMetrics.Charstring.OperandStack
import FontMetrics.Proofs.Checked.Result

/-!
# Operand stacks in a fixed array

An array with a count of the slots in use, from the front.  Popping leaves the operand in its slot,
where a later push overwrites it, so the slots behind the count hold stale values.  Every operation
checks its accesses to the array; none of them faults, and the slots in use are the operands of the
stack.
-/

namespace FontMetrics.Charstring

/-- A stack in an array. -/
structure ArrayStack (α : Type) where
  /-- The slots, those in use first. -/
  slots : List α
  /-- The number of slots in use. -/
  len : Nat

namespace ArrayStack

variable {capacity : Nat} {α : Type}

/-- The stack without operands. -/
def new (slots : List α) : ArrayStack α := ⟨slots, 0⟩

/-- Puts an operand on the top. -/
def push (x : α) (s : ArrayStack α) : Checked Error (ArrayStack α) := do
  if s.len = s.slots.length then
    throw .stackOverflow
  else
    let slots ← Checked.set s.slots s.len x
    let len ← Checked.advance s.slots s.len 1
    return ⟨slots, len⟩

/-- Takes the operand on the top. -/
def pop (s : ArrayStack α) : Checked Error (α × ArrayStack α) := do
  if s.len = 0 then
    throw .stackUnderflow
  else
    let len ← Checked.sub s.len 1
    let x ← Checked.get s.slots len
    return (x, ⟨s.slots, len⟩)

/-- The operand `depth` places below the top. -/
def peek (depth : Nat) (s : ArrayStack α) : Checked Error α := do
  if depth < s.len then
    let top ← Checked.sub s.len 1
    let i ← Checked.sub top depth
    Checked.get s.slots i
  else
    throw .stackUnderflow

/-- The operands from the bottom to the top. -/
def all (s : ArrayStack α) : Checked Error (List α) := Checked.slice s.slots 0 s.len

/-- Rotates the top `count` operands toward the top by `shift` places. -/
def roll (count shift : Nat) (s : ArrayStack α) : Checked Error (ArrayStack α) := do
  if s.len < count then
    throw .stackUnderflow
  else if 0 < count then
    let first ← Checked.sub s.len count
    let part ← Checked.slice s.slots first s.len
    let places ← Checked.mod shift count
    let part ← Checked.rotateRight part places
    return ⟨s.slots.take first ++ part ++ s.slots.drop s.len, s.len⟩
  else
    return s

/-- Removes all operands. -/
def clear (s : ArrayStack α) : ArrayStack α := ⟨s.slots, 0⟩

/-- The slots in use are the operands of the stack, bottom first. -/
structure Holds (s : ArrayStack α) (t : OperandStack capacity α) : Prop where
  length_slots : s.slots.length = capacity
  len_eq : s.len = t.size
  take_eq : s.slots.take s.len = t.toList

variable {s : ArrayStack α} {t : OperandStack capacity α}

/-- An array in which no slot is used holds no operands. -/
theorem holds_new {slots : List α} (h : slots.length = capacity) :
    (new slots).Holds (.empty : OperandStack capacity α) := ⟨h, rfl, rfl⟩

/-- Operands are removed by forgetting that their slots are used. -/
theorem Holds.clear (h : s.Holds t) : s.clear.Holds (.empty : OperandStack capacity α) :=
  holds_new h.length_slots

/-- The slots in use lie in the array. -/
theorem Holds.len_le (h : s.Holds t) : s.len ≤ s.slots.length := by
  rw [h.len_eq, h.length_slots]
  exact t.size_le

/-- What a slot in use holds. -/
theorem Holds.getElem? (h : s.Holds t) {i : Nat} (hi : i < s.len) : s.slots[i]? = t.toList[i]? := by
  rw [← h.take_eq, List.getElem?_take, if_pos hi]

/-- A push writes to the slot behind those in use, or overflows if there is none. -/
theorem agrees_push (h : s.Holds t) (x : α) : Checked.Agrees Holds (s.push x) (t.push x) := by
  have hlen : s.len = t.fromTop.length := h.len_eq
  have hslots := h.length_slots
  have hle := t.length_le
  unfold push OperandStack.push
  by_cases hroom : t.fromTop.length < capacity
  · have hlt : s.len < s.slots.length := by omega
    rw [dif_pos hroom, if_neg (by omega), Checked.set_eq x hlt, pure_bind, Checked.advance_eq hlt,
      pure_bind]
    refine .ok ⟨?_, ?_, ?_⟩
    · rw [List.length_set]
      exact hslots
    · exact congrArg (· + 1) hlen
    · have htake := h.take_eq
      rw [OperandStack.toList] at htake ⊢
      rw [List.reverse_cons, List.take_add_one, List.take_set_of_le (Nat.le_refl _), htake,
        List.getElem?_set_self hlt]
      rfl
  · rw [dif_neg hroom, if_pos (by omega)]
    exact .error _

/-- A pop reads the last slot in use, or underflows if there is none. -/
theorem agrees_pop (h : s.Holds t) :
    Checked.Agrees (fun p q => p.1 = q.1 ∧ p.2.Holds q.2) s.pop t.pop := by
  obtain ⟨items, hitems⟩ := t
  unfold pop
  cases items with
  | nil =>
    have hzero : s.len = 0 := h.len_eq
    rw [if_pos hzero]
    exact .error _
  | cons x below =>
    have hlen : s.len = below.length + 1 := h.len_eq
    have htake : s.slots.take (below.length + 1) = below.reverse ++ [x] := by
      rw [← hlen, h.take_eq, OperandStack.toList, List.reverse_cons]
    have hx : s.slots[below.length]? = some x := by
      rw [h.getElem? (by omega), OperandStack.toList, List.reverse_cons,
        List.getElem?_append_right (by simp)]
      simp
    rw [if_neg (by omega), Checked.sub_eq (by omega), pure_bind, hlen, Nat.add_sub_cancel,
      Checked.get_eq hx, pure_bind]
    refine .ok ⟨rfl, h.length_slots, rfl, ?_⟩
    have hbelow := congrArg (List.take below.length) htake
    rw [List.take_take, Nat.min_eq_left (Nat.le_succ _)] at hbelow
    rw [hbelow, OperandStack.toList, List.take_left' (by simp)]

/-- A depth within the stack is a slot in use. -/
theorem agrees_peek (h : s.Holds t) (depth : Nat) :
    Checked.Agrees Eq (s.peek depth) (t.peek depth) := by
  have hlen : s.len = t.fromTop.length := h.len_eq
  unfold peek OperandStack.peek
  by_cases hdepth : depth < s.len
  · have hx : s.slots[s.len - 1 - depth]? = some t.fromTop[depth] := by
      rw [h.getElem? (by omega), OperandStack.toList, List.getElem?_reverse (by omega),
        ← List.getElem?_eq_getElem]
      congr 1
      omega
    rw [if_pos hdepth, Checked.sub_eq (by omega), pure_bind, Checked.sub_eq (by omega), pure_bind,
      Checked.get_eq hx, List.getElem?_eq_getElem (by omega)]
    exact .ok rfl
  · rw [if_neg hdepth, List.getElem?_eq_none (by omega)]
    exact .error _

/-- The slots in use are the operands. -/
theorem all_eq (h : s.Holds t) : s.all = pure t.toList := by
  rw [all, Checked.slice_eq (Nat.zero_le _) h.len_le, ← h.take_eq, List.drop_zero, Nat.sub_zero]

/-- Whole turns of a rotation do not count. -/
theorem rotateRight_mod (xs : List α) (places : Nat) :
    xs.rotateRight (places % xs.length) = xs.rotateRight places := by
  simp only [List.rotateRight, Nat.mod_mod]

/-- Rotating a list keeps its length. -/
theorem length_rotateRight (xs : List α) (places : Nat) :
    (xs.rotateRight places).length = xs.length := by
  have hreverse := OperandStack.reverse_rotateLeft xs.reverse places
  rw [List.reverse_reverse] at hreverse
  rw [← hreverse, List.length_reverse, OperandStack.length_rotateLeft, List.length_reverse]

/-- A rotation of the last slots in use rotates the top operands. -/
theorem agrees_roll (h : s.Holds t) (count shift : Nat) :
    Checked.Agrees Holds (s.roll count shift) (t.roll count shift) := by
  have hlen : s.len = t.fromTop.length := h.len_eq
  have hle := h.len_le
  by_cases hcount : count ≤ s.len
  · obtain ⟨t', ht'⟩ : ∃ t', t.roll count shift = .ok t' := by
      unfold OperandStack.roll
      rw [if_pos (hlen ▸ hcount)]
      exact ⟨_, rfl⟩
    have htoList := OperandStack.roll_toList ht'
    rw [← h.take_eq, ← h.len_eq, List.take_take, Nat.min_eq_left (Nat.sub_le _ _),
      List.drop_take] at htoList
    have hpart : ((s.slots.drop (s.len - count)).take (s.len - (s.len - count))).length =
        count := by
      rw [List.length_take, List.length_drop]
      omega
    have hfront : (s.slots.take (s.len - count)).length = s.len - count := by
      rw [List.length_take]
      omega
    have hsize : t'.size = s.len := by
      rw [← OperandStack.length_toList, htoList, List.length_append, length_rotateRight, hpart,
        hfront]
      omega
    rw [ht', roll, if_neg (by omega)]
    by_cases hzero : count = 0
    · subst hzero
      rw [if_neg (Nat.lt_irrefl 0)]
      refine .ok ⟨h.length_slots, hsize.symm, ?_⟩
      rw [htoList, Nat.sub_zero, Nat.sub_self, List.take_zero]
      simp [List.rotateRight]
    · have hmod := Nat.mod_lt shift (Nat.pos_of_ne_zero hzero)
      rw [if_pos (by omega), Checked.sub_eq hcount, pure_bind, Checked.slice_eq (by omega) hle,
        pure_bind, Checked.mod_eq hzero, pure_bind, Checked.rotateRight_eq (by omega), pure_bind]
      have hrotate := rotateRight_mod
        ((s.slots.drop (s.len - count)).take (s.len - (s.len - count))) shift
      rw [hpart] at hrotate
      rw [hrotate, ← htoList]
      refine .ok ⟨?_, hsize.symm, ?_⟩
      · have hslots := h.length_slots
        rw [List.length_append, OperandStack.length_toList, hsize, List.length_drop]
        omega
      · rw [List.take_left' (by rw [OperandStack.length_toList, hsize])]
  · rw [roll, OperandStack.roll, if_pos (by omega), if_neg (by omega)]
    exact .error _

end ArrayStack

end FontMetrics.Charstring
