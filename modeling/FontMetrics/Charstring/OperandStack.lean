import FontMetrics.Charstring.Error

/-!
# Operand stacks

A stack of bounded size.  Its view `toList` lists the operands from the bottom to the top, which is
the order in which they were pushed and in which operators name them; positions for `peek` count
from the top.
-/

namespace FontMetrics.Charstring

/-- A stack of at most `capacity` operands. -/
structure OperandStack (capacity : Nat) (α : Type) where
  /-- The operands, the top one first. -/
  fromTop : List α
  /-- The stack holds no more than its capacity. -/
  length_le : fromTop.length ≤ capacity

namespace OperandStack

variable {capacity : Nat} {α : Type}

/-- The stack without operands. -/
def empty : OperandStack capacity α := ⟨[], Nat.zero_le _⟩

/-- The operands from the bottom to the top. -/
def toList (s : OperandStack capacity α) : List α := s.fromTop.reverse

/-- The number of operands. -/
def size (s : OperandStack capacity α) : Nat := s.fromTop.length

/-- There is no operand. -/
def isEmpty (s : OperandStack capacity α) : Bool := s.fromTop.isEmpty

/-- Puts an operand on the top. -/
def push (x : α) (s : OperandStack capacity α) : Except Error (OperandStack capacity α) :=
  if h : s.fromTop.length < capacity then .ok ⟨x :: s.fromTop, h⟩ else .error .stackOverflow

/-- Takes the operand on the top. -/
def pop : OperandStack capacity α → Except Error (α × OperandStack capacity α)
  | ⟨[], _⟩ => .error .stackUnderflow
  | ⟨x :: below, h⟩ => .ok (x, ⟨below, Nat.le_of_succ_le h⟩)

/-- The operand `depth` places below the top. -/
def peek (depth : Nat) (s : OperandStack capacity α) : Except Error α :=
  match s.fromTop[depth]? with
  | some x => .ok x
  | none => .error .stackUnderflow

/-- Rotating a list keeps its length. -/
theorem length_rotateLeft (xs : List α) (shift : Nat) :
    (xs.rotateLeft shift).length = xs.length := by
  simp only [List.rotateLeft]
  split
  · rfl
  · simp
    omega

/-- Rotates the top `count` operands toward the top by `shift` places; those that leave at the top
come in again at the bottom of the rotated part. -/
def roll (count shift : Nat) (s : OperandStack capacity α) :
    Except Error (OperandStack capacity α) :=
  if count ≤ s.fromTop.length then
    .ok ⟨(s.fromTop.take count).rotateLeft shift ++ s.fromTop.drop count, by
      rw [List.length_append, length_rotateLeft, ← List.length_append, List.take_append_drop]
      exact s.length_le⟩
  else
    .error .stackUnderflow

/-- The empty stack shows no operands. -/
@[simp] theorem toList_empty : (empty : OperandStack capacity α).toList = [] := rfl

/-- The view has as many operands as the stack. -/
@[simp] theorem length_toList (s : OperandStack capacity α) : s.toList.length = s.size := by
  simp [toList, size]

/-- A stack never holds more than its capacity. -/
theorem size_le (s : OperandStack capacity α) : s.size ≤ capacity := s.length_le

/-- A stack is empty exactly if it shows no operands. -/
theorem isEmpty_iff (s : OperandStack capacity α) : s.isEmpty = true ↔ s.toList = [] := by
  simp [isEmpty, toList]

/-- An operand can be pushed as long as the capacity is not used up. -/
theorem push_isOk_iff (x : α) (s : OperandStack capacity α) :
    (s.push x).isOk = true ↔ s.size < capacity := by
  unfold push size
  split <;> simp_all [Except.isOk, Except.toBool]

/-- A pushed operand is the last of the view. -/
theorem push_toList {x : α} {s t : OperandStack capacity α} (h : s.push x = .ok t) :
    t.toList = s.toList ++ [x] := by
  unfold push at h
  split at h
  · cases h
    simp [toList]
  · cases h

/-- An operand can be popped unless there is none. -/
theorem pop_isOk_iff (s : OperandStack capacity α) : s.pop.isOk = true ↔ s.toList ≠ [] := by
  obtain ⟨items, hitems⟩ := s
  cases items <;> simp [pop, toList, Except.isOk, Except.toBool]

/-- The popped operand was the last of the view. -/
theorem pop_toList {x : α} {s t : OperandStack capacity α} (h : s.pop = .ok (x, t)) :
    s.toList = t.toList ++ [x] := by
  obtain ⟨items, hitems⟩ := s
  cases items with
  | nil => cases h
  | cons y below =>
    cases h
    simp [toList]

/-- Depths count from the end of the view. -/
theorem peek_eq_ok_iff {depth : Nat} {x : α} {s : OperandStack capacity α} :
    s.peek depth = .ok x ↔ s.toList.reverse[depth]? = some x := by
  unfold peek toList
  split <;> simp_all

/-- Operands can be rotated exactly if there are that many. -/
theorem roll_isOk_iff (count shift : Nat) (s : OperandStack capacity α) :
    (s.roll count shift).isOk = true ↔ count ≤ s.size := by
  unfold roll size
  split <;> simp_all [Except.isOk, Except.toBool]

/-- Seen from the other end, a rotation goes the other way. -/
theorem reverse_rotateLeft (xs : List α) (shift : Nat) :
    (xs.rotateLeft shift).reverse = xs.reverse.rotateRight shift := by
  simp only [List.rotateLeft, List.rotateRight, List.length_reverse]
  split
  · rfl
  · rw [List.reverse_append, List.reverse_drop, List.reverse_take]

/-- In the view, the last `count` operands move to the right and come in again at the left. -/
theorem roll_toList {count shift : Nat} {s t : OperandStack capacity α}
    (h : s.roll count shift = .ok t) :
    t.toList = s.toList.take (s.size - count) ++
      (s.toList.drop (s.size - count)).rotateRight shift := by
  unfold roll at h
  split at h
  · cases h
    simp only [toList, size, List.reverse_append, reverse_rotateLeft, List.reverse_take,
      List.reverse_drop]
  · cases h

end OperandStack

end FontMetrics.Charstring
