import FontMetrics.DataError
import FontMetrics.Fixed

/-!
# Byte strings

Reading from the front of a byte string.  Numbers are big-endian, signed ones in two's complement.
A reader returns what it read and the bytes that follow; it fails, and then reads nothing, exactly
when fewer bytes are left than it needs.
-/

namespace FontMetrics

/-- Bytes in the order in which they are read. -/
abbrev Bytes := List UInt8

namespace Bytes

/-- The natural number whose base-256 digits are the bytes, most significant first. -/
def toNat (bytes : Bytes) : Nat :=
  bytes.foldl (fun n byte => n * 256 + byte.toNat) 0

/-- The bytes as a two's-complement number, most significant first. -/
def toInt (bytes : Bytes) : Int :=
  Int.bmod bytes.toNat (Nat.pow 256 bytes.length)

/-- The first `count` bytes and the rest. -/
def slice (count : Nat) (bytes : Bytes) : Except DataError (Bytes × Bytes) :=
  if count ≤ bytes.length then .ok (bytes.splitAt count) else .error .endOfData

/-- The first byte and the rest. -/
def byte : Bytes → Except DataError (UInt8 × Bytes)
  | [] => .error .endOfData
  | b :: rest => .ok (b, rest)

/-- A signed number of `width` bytes and the rest. -/
def signed (width : Nat) (bytes : Bytes) : Except DataError (Int × Bytes) :=
  match slice width bytes with
  | .error e => .error e
  | .ok (taken, rest) => .ok (taken.toInt, rest)

/-- Bytes that are long enough are cut in two. -/
theorem slice_eq_ok {count : Nat} {bytes : Bytes} (h : count ≤ bytes.length) :
    slice count bytes = .ok (bytes.take count, bytes.drop count) := by
  simp [slice, h]

/-- Nothing can be cut off bytes that are too short. -/
theorem slice_eq_error {count : Nat} {bytes : Bytes} (h : bytes.length < count) :
    slice count bytes = .error .endOfData := by
  simp [slice, Nat.not_le.mpr h]

/-- Cutting undoes the joining of two parts. -/
theorem slice_append (front rest : Bytes) :
    slice front.length (front ++ rest) = .ok (front, rest) := by
  rw [slice_eq_ok (by simp)]
  simp

end Bytes

end FontMetrics
