import FontMetrics.Bytes.Cursor
import FontMetrics.Charstring.Instruction
import FontMetrics.Proofs.Checked.Result

/-!
# Reading instructions with a cursor

Numbers are read byte by byte without further tests once it is known that there are enough bytes;
the arithmetic that makes operands out of them is that of signed words of 16 bits, and the ranges of
the operands are asserted.  No byte is taken from outside the data, no intermediate result leaves
its word and no assertion fails, for any bytes at any position.
-/

namespace FontMetrics

namespace Bytes.Cursor

open Charstring (Error)

variable {ε : Type}

/-- Makes sure that the next `count` bytes are there. -/
def expect (count : Nat) (c : Cursor) : Checked Error Unit :=
  if c.position + count ≤ c.data.length then pure () else throw (.data .endOfData)

/-- Moves on by `count` bytes of the data. -/
def advance (count : Nat) (c : Cursor) : Checked ε Cursor :=
  if h : c.position + count ≤ c.data.length then pure ⟨c.data, c.position + count, h⟩
  else Checked.fault

/-- The next byte, which must be there. -/
def takeByte (c : Cursor) : Checked ε (UInt8 × Cursor) := do
  let byte ← Checked.get c.data c.position
  let c ← c.advance 1
  return (byte, c)

/-- The next two bytes, which must be there. -/
def takeTwo (c : Cursor) : Checked ε (Bytes × Cursor) := do
  let high ← Checked.get c.data c.position
  let second ← Checked.advance c.data c.position 1
  let low ← Checked.get c.data second
  let c ← c.advance 2
  return ([high, low], c)

/-- Reads a byte. -/
def readByte (c : Cursor) : Checked Error (UInt8 × Cursor) := do
  c.expect 1
  c.takeByte

/-- Reads a signed 16-bit number. -/
def readInt16 (c : Cursor) : Checked Error (Int × Cursor) := do
  c.expect 2
  let (bytes, c) ← c.takeTwo
  return (bytes.toInt, c)

/-- Reads a signed 32-bit number, one half after the other. -/
def readInt32 (c : Cursor) : Checked Error (Int × Cursor) := do
  c.expect 4
  let (high, c) ← c.takeTwo
  let (low, c) ← c.takeTwo
  return ((high ++ low).toInt, c)

/-- Reads `count` bytes. -/
def readSlice (count : Nat) (c : Cursor) : Checked Error (Bytes × Cursor) := do
  c.expect count
  let last ← Checked.advance c.data c.position count
  let bytes ← Checked.slice c.data c.position last
  let c ← c.advance count
  return (bytes, c)

/-- A cursor behind what was read, and what is left of the bytes. -/
def Follows {β : Type} (p : β × Cursor) (q : β × Bytes) : Prop := p.1 = q.1 ∧ p.2.rest = q.2

/-- The cursor between the bytes that it has read and those that remain. -/
def between (front rest : Bytes) : Cursor := ⟨front ++ rest, front.length, by simp⟩

/-- A cursor that has read nothing has all the bytes before it. -/
@[simp] theorem rest_start (data : Bytes) : (start data).rest = data := rfl

/-- A cursor stands between the bytes up to its position and those that follow. -/
private theorem eq_between (c : Cursor) : c = between (c.data.take c.position) c.rest := by
  obtain ⟨data, position, hle⟩ := c
  simp [between, rest, Nat.min_eq_left hle]

section Reading

variable (front rest : Bytes) (a b : UInt8)

/-- What is left to read follows the cursor. -/
@[simp] theorem rest_between : (between front rest).rest = rest := by
  simp [between, Cursor.rest]

@[simp] theorem data_between : (between front rest).data = front ++ rest := rfl

@[simp] theorem position_between : (between front rest).position = front.length := rfl

/-- The next bytes are there if the data goes on for as many. -/
private theorem expect_between_of_le {count : Nat} (h : count ≤ rest.length) :
    (between front rest).expect count = pure () := by
  simp [expect, h]

/-- Data that goes on for fewer bytes has ended. -/
private theorem expect_between_of_lt {count : Nat} (h : rest.length < count) :
    (between front rest).expect count = throw (.data .endOfData) := by
  simp [expect, Nat.not_le.mpr h]

/-- Moving on, the cursor leaves behind the bytes that it passes. -/
private theorem advance_between (taken : Bytes) :
    ((between front (taken ++ rest)).advance taken.length : Checked ε Cursor) =
      pure (between (front ++ taken) rest) := by
  have hle : (between front (taken ++ rest)).position + taken.length ≤
      (between front (taken ++ rest)).data.length := by simp
  rw [advance, dif_pos hle]
  simp [between]

/-- A byte that is there is read, and the cursor passes it. -/
@[simp] private theorem takeByte_between :
    ((between front (a :: rest)).takeByte : Checked ε (UInt8 × Cursor)) =
      pure (a, between (front ++ [a]) rest) := by
  have ha : (front ++ a :: rest)[front.length]? = some a := by simp
  have hadvance : ((between front (a :: rest)).advance 1 : Checked ε Cursor) = _ :=
    advance_between front rest [a]
  rw [takeByte, data_between, position_between, Checked.get_eq ha, pure_bind, hadvance, pure_bind]

/-- Two bytes that are there are read in their order, and the cursor passes both. -/
@[simp] private theorem takeTwo_between :
    ((between front (a :: b :: rest)).takeTwo : Checked ε (Bytes × Cursor)) =
      pure ([a, b], between (front ++ [a, b]) rest) := by
  have ha : (front ++ a :: b :: rest)[front.length]? = some a := by simp
  have hb : (front ++ a :: b :: rest)[front.length + 1]? = some b := by
    rw [List.getElem?_append_right (Nat.le_succ _)]
    simp
  have hle : front.length + 1 ≤ (front ++ a :: b :: rest).length := by simp
  have hadvance : ((between front (a :: b :: rest)).advance 2 : Checked ε Cursor) = _ :=
    advance_between front rest [a, b]
  rw [takeTwo, data_between, position_between, Checked.get_eq ha, pure_bind, Checked.advance_eq hle,
    pure_bind, Checked.get_eq hb, pure_bind, hadvance, pure_bind]

/-- No byte is read at the end of the data. -/
@[simp] private theorem readByte_between_nil :
    (between front []).readByte = throw (.data .endOfData) := by
  rw [readByte, expect_between_of_lt front [] Nat.zero_lt_one, Checked.throw_bind]

/-- Before the end, the next byte is read. -/
@[simp] private theorem readByte_between :
    (between front (a :: rest)).readByte = pure (a, between (front ++ [a]) rest) := by
  rw [readByte, expect_between_of_le front _ (by simp), pure_bind, takeByte_between]

/-- Two bytes, put together, are the signed number at the front of the bytes. -/
private theorem agrees_readInt16 {β : Type} (f : Int → β) :
    Checked.Agrees Follows (do let (n, c) ← (between front rest).readInt16; return (f n, c))
      (match rest.signed 2 with
      | .error e => .error (.data e)
      | .ok (n, rest) => .ok (f n, rest)) := by
  match rest with
  | [] | [_] =>
    rw [readInt16, expect_between_of_lt front _ (by simp), Checked.throw_bind, Checked.throw_bind]
    exact .error _
  | a :: b :: rest =>
    have hsigned : Bytes.signed 2 (a :: b :: rest) = .ok (toInt [a, b], rest) := by
      rw [signed, show Bytes.slice 2 (a :: b :: rest) = _ from slice_append [a, b] rest]
    rw [readInt16, expect_between_of_le front _ (by simp), pure_bind, takeTwo_between, pure_bind,
      hsigned]
    exact .ok ⟨rfl, rest_between _ _⟩

/-- Two halves of two bytes each, put together, are the signed number of four bytes. -/
private theorem agrees_readInt32 {β : Type} (f : Int → β) :
    Checked.Agrees Follows (do let (n, c) ← (between front rest).readInt32; return (f n, c))
      (match rest.signed 4 with
      | .error e => .error (.data e)
      | .ok (n, rest) => .ok (f n, rest)) := by
  match rest with
  | [] | [_] | [_, _] | [_, _, _] =>
    rw [readInt32, expect_between_of_lt front _ (by simp), Checked.throw_bind, Checked.throw_bind]
    exact .error _
  | a :: b :: c :: d :: rest =>
    have hsigned : Bytes.signed 4 (a :: b :: c :: d :: rest) = .ok (toInt [a, b, c, d], rest) := by
      rw [signed, show Bytes.slice 4 (a :: b :: c :: d :: rest) = _ from
        slice_append [a, b, c, d] rest]
    rw [readInt32, expect_between_of_le front _ (by simp), pure_bind, takeTwo_between, pure_bind,
      hsigned]
    simp only [takeTwo_between, pure_bind]
    exact .ok ⟨rfl, rest_between _ _⟩

/-- As many bytes are cut out as are asked for, unless the data ends first. -/
private theorem agrees_readSlice_between (count : Nat) :
    Checked.Agrees Follows ((between front rest).readSlice count)
      (match rest.slice count with | .error e => .error (.data e) | .ok p => .ok p) := by
  by_cases h : count ≤ rest.length
  · have htake : (rest.take count).length = count := List.length_take_of_le h
    have hadvance : ((between front (rest.take count ++ rest.drop count)).advance
        (rest.take count).length : Checked Error Cursor) = _ := advance_between front _ _
    rw [List.take_append_drop, htake] at hadvance
    have hle : front.length + count ≤ (front ++ rest).length := by
      rw [List.length_append]
      omega
    rw [readSlice, expect_between_of_le front _ h, pure_bind, data_between, position_between,
      Checked.advance_eq hle, pure_bind, Checked.slice_eq (Nat.le_add_right _ _) hle, pure_bind,
      hadvance, pure_bind, slice_eq_ok h]
    exact .ok ⟨by simp, rest_between _ _⟩
  · have hlt := Nat.lt_of_not_le h
    rw [readSlice, expect_between_of_lt front _ hlt, Checked.throw_bind, slice_eq_error hlt]
    exact .error _

end Reading

/-- A cursor reads as many bytes as asked for exactly if that many are left. -/
theorem agrees_readSlice (c : Cursor) (count : Nat) : Checked.Agrees Follows (c.readSlice count)
    (match c.rest.slice count with | .error e => .error (.data e) | .ok p => .ok p) := by
  rw [c.eq_between, rest_between]
  exact agrees_readSlice_between _ _ count

end Bytes.Cursor

namespace Charstring.Instruction

open Bytes (Cursor)
open Bytes.Cursor (between Follows)

/-- An operand from 108 to 1131, of two bytes. -/
def positiveOperand (lead : UInt8) (c : Cursor) : Checked Error (Instruction × Cursor) := do
  let (low, c) ← c.readByte
  let n ← Checked.signed 16 (lead.toNat - 247)
  let n ← Checked.signed 16 (n * 256)
  let n ← Checked.signed 16 (n + low.toNat)
  let n ← Checked.signed 16 (n + 108)
  Checked.require (108 ≤ n ∧ n ≤ 1131)
  return (.number (.ofInt n), c)

/-- An operand from -1131 to -108, of two bytes. -/
def negativeOperand (lead : UInt8) (c : Cursor) : Checked Error (Instruction × Cursor) := do
  let (low, c) ← c.readByte
  let n ← Checked.signed 16 (lead.toNat - 251)
  let n ← Checked.signed 16 (-n)
  let n ← Checked.signed 16 (n * 256)
  let n ← Checked.signed 16 (n - low.toNat)
  let n ← Checked.signed 16 (n - 108)
  Checked.require (-1131 ≤ n ∧ n ≤ -108)
  return (.number (.ofInt n), c)

/-- Reads an instruction. -/
def read (c : Cursor) : Checked Error (Instruction × Cursor) := do
  let (lead, c) ← c.readByte
  if lead = 28 then
    let (n, c) ← c.readInt16
    return (.number (.ofInt n), c)
  else if 32 ≤ lead ∧ lead ≤ 246 then
    let n ← Checked.signed 16 (lead.toNat - 139)
    return (.number (.ofInt n), c)
  else if 247 ≤ lead ∧ lead ≤ 250 then
    positiveOperand lead c
  else if 251 ≤ lead ∧ lead ≤ 254 then
    negativeOperand lead c
  else if lead = 255 then
    let (units, c) ← c.readInt32
    return (.number ⟨units⟩, c)
  else if lead = escapeByte then
    let (code, c) ← c.readByte
    match Operator.ofEscapedCode? code with
    | some op => return (.operator op, c)
    | none => throw (.invalidOperator true code)
  else
    match Operator.ofCode? lead with
    | some op => return (.operator op, c)
    | none => throw (.invalidOperator false lead)

section Reading

variable {lead : UInt8} (front rest : Bytes)

/-- The signed words of a positive operand of two bytes do not overflow, and its range holds. -/
private theorem agrees_positiveOperand (hlow : 247 ≤ lead.toNat) (hhigh : lead.toNat ≤ 250) :
    Checked.Agrees Follows (positiveOperand lead (between front rest)) (wideNumber lead rest) := by
  cases rest with
  | nil =>
    rw [positiveOperand, Bytes.Cursor.readByte_between_nil, Checked.throw_bind]
    exact .error _
  | cons low rest =>
    have hbyte := low.toNat_lt
    rw [positiveOperand, Bytes.Cursor.readByte_between, pure_bind]
    -- every intermediate result fits, and so does the operand
    simp (disch := omega) only [Checked.signed_sixteen_eq, Checked.require_of, pure_bind]
    simp only [wideNumber, Bytes.byte, if_pos hhigh]
    exact .ok ⟨rfl, Bytes.Cursor.rest_between _ _⟩

/-- The signed words of a negative operand of two bytes do not overflow, and its range holds. -/
private theorem agrees_negativeOperand (hlow : 251 ≤ lead.toNat) (hhigh : lead.toNat ≤ 254) :
    Checked.Agrees Follows (negativeOperand lead (between front rest)) (wideNumber lead rest) := by
  cases rest with
  | nil =>
    rw [negativeOperand, Bytes.Cursor.readByte_between_nil, Checked.throw_bind]
    exact .error _
  | cons low rest =>
    have hbyte := low.toNat_lt
    rw [negativeOperand, Bytes.Cursor.readByte_between, pure_bind]
    simp (disch := omega) only [Checked.signed_sixteen_eq, Checked.require_of, pure_bind]
    simp only [wideNumber, Bytes.byte, if_neg (show ¬lead.toNat ≤ 250 by omega)]
    have hvalue : -((lead.toNat : Int) - 251) * 256 - low.toNat - 108 =
        -((lead.toNat - 251) * 256 + low.toNat + 108) := by omega
    rw [hvalue]
    exact .ok ⟨rfl, Bytes.Cursor.rest_between _ _⟩

/-- The cases by the first byte are those of the code table. -/
private theorem agrees_read_between :
    Checked.Agrees Follows (read (between front rest)) (decode rest) := by
  cases rest with
  | nil =>
    rw [read, Bytes.Cursor.readByte_between_nil, Checked.throw_bind]
    exact .error _
  | cons lead rest =>
    rw [read, Bytes.Cursor.readByte_between, pure_bind]
    unfold decode
    dsimp only
    have hbyte := lead.toNat_lt
    by_cases hshort : lead = 28
    · subst hshort
      exact Bytes.Cursor.agrees_readInt16 _ rest fun n => number (.ofInt n)
    rw [if_neg hshort]
    by_cases hone : 32 ≤ lead ∧ lead ≤ 246
    · rw [if_pos hone, if_neg (by grind), if_neg (by grind), if_pos hone.1,
        Checked.signed_sixteen_eq (by omega) (by omega), pure_bind]
      exact .ok ⟨rfl, Bytes.Cursor.rest_between _ _⟩
    rw [if_neg hone]
    by_cases hpositive : 247 ≤ lead ∧ lead ≤ 250
    · rw [if_pos hpositive, if_neg (by grind), if_pos hpositive.1]
      simp only [UInt8.le_iff_toNat_le] at hpositive
      exact agrees_positiveOperand _ rest hpositive.1 hpositive.2
    rw [if_neg hpositive]
    by_cases hnegative : 251 ≤ lead ∧ lead ≤ 254
    · rw [if_pos hnegative, if_neg (by grind), if_pos (by grind)]
      simp only [UInt8.le_iff_toNat_le] at hnegative
      exact agrees_negativeOperand _ rest hnegative.1 hnegative.2
    rw [if_neg hnegative]
    by_cases hfixed : lead = 255
    · rw [if_pos hfixed, if_pos hfixed]
      exact Bytes.Cursor.agrees_readInt32 _ rest fun units => number ⟨units⟩
    rw [if_neg hfixed, if_neg hfixed, if_neg (show ¬247 ≤ lead by grind),
      if_neg (show ¬32 ≤ lead by grind), if_neg hshort]
    by_cases hescape : lead = escapeByte
    · rw [if_pos hescape, if_pos hescape]
      cases rest with
      | nil =>
        rw [Bytes.Cursor.readByte_between_nil, Checked.throw_bind]
        exact .error _
      | cons code rest =>
        rw [Bytes.Cursor.readByte_between, pure_bind]
        simp only [escapedOperator, Bytes.byte]
        cases Operator.ofEscapedCode? code with
        | none => exact .error _
        | some op => exact .ok ⟨rfl, Bytes.Cursor.rest_between _ _⟩
    · rw [if_neg hescape, if_neg hescape]
      cases Operator.ofCode? lead with
      | none => exact .error _
      | some op => exact .ok ⟨rfl, Bytes.Cursor.rest_between _ _⟩

end Reading

/-- Reading an instruction with a cursor is decoding what is left of the bytes. -/
theorem agrees_read (c : Cursor) : Checked.Agrees Follows (read c) (decode c.rest) := by
  rw [c.eq_between, Bytes.Cursor.rest_between]
  exact agrees_read_between _ _

end Charstring.Instruction

end FontMetrics
