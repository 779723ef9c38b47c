import FontMetrics.Bytes

/-!
# Cursors

A position in a byte string from which numbers and slices are read one after another.  A successful
read advances the position by the size of what it read; a failed one leaves the cursor alone.
-/

namespace FontMetrics.Bytes

/-- A place in a byte string. -/
structure Cursor where
  /-- The whole byte string. -/
  data : Bytes
  /-- How many of its bytes have been read. -/
  position : Nat
  /-- The position lies in the data. -/
  position_le : position ≤ data.length

namespace Cursor

/-- The cursor before the first byte. -/
def start (data : Bytes) : Cursor := ⟨data, 0, Nat.zero_le _⟩

/-- The bytes that have not been read. -/
def rest (c : Cursor) : Bytes := c.data.drop c.position

/-- Some byte has not been read. -/
def bytesAvailable (c : Cursor) : Bool := c.position < c.data.length

/-- Reads the next `count` bytes. -/
def slice (count : Nat) (c : Cursor) : Except DataError (Bytes × Cursor) :=
  if h : c.position + count ≤ c.data.length then
    .ok (c.rest.take count, ⟨c.data, c.position + count, h⟩)
  else
    .error .endOfData

/-- Reads `count` bytes and interprets them. -/
def read {β : Type} (count : Nat) (interpret : Bytes → β) (c : Cursor) :
    Except DataError (β × Cursor) :=
  match c.slice count with
  | .error e => .error e
  | .ok (bytes, next) => .ok (interpret bytes, next)

/-- Reads an unsigned byte. -/
def u8 : Cursor → Except DataError (Nat × Cursor) := read 1 Bytes.toNat

/-- Reads a signed 16-bit number. -/
def i16 : Cursor → Except DataError (Int × Cursor) := read 2 Bytes.toInt

/-- Reads a signed 32-bit number. -/
def i32 : Cursor → Except DataError (Int × Cursor) := read 4 Bytes.toInt

/-- Reads a 16.16 fixed-point number. -/
def fixed : Cursor → Except DataError (Fixed × Cursor) := read 4 fun bytes => ⟨bytes.toInt⟩

/-- Reads a signed 16-bit number at the start of the data, wherever the cursor stands. -/
def leadingI16 (c : Cursor) : Except DataError Int :=
  match (start c.data).i16 with
  | .error e => .error e
  | .ok (n, _) => .ok n

/-- What is left are the bytes behind the position. -/
@[simp] theorem length_rest (c : Cursor) : c.rest.length = c.data.length - c.position := by
  simp [rest]

/-- Bytes are cut out exactly if the data goes on for as many. -/
theorem slice_isOk_iff (count : Nat) (c : Cursor) :
    (c.slice count).isOk = true ↔ c.position + count ≤ c.data.length := by
  unfold slice
  split <;> simp_all [Except.isOk, Except.toBool]

end Cursor

end FontMetrics.Bytes
