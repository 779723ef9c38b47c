import FontMetrics.Bytes
import FontMetrics.Charstring.Error
import FontMetrics.Charstring.Operator

/-!
# Charstring instructions

A charstring is a sequence of numbers and operators.  The first byte tells what follows:

* 28: a number of two bytes;
* 32 to 246: a number by itself, from -107 to 107;
* 247 to 250 and 251 to 254: with one more byte, a number from 108 to 1131 or from -1131 to -108;
* 255: a 16.16 fixed-point number of four bytes;
* 12: with one more byte, an operator;
* any other byte: an operator by itself.

Every number of a charstring is a fixed-point number, so decoding is exact.
-/

namespace FontMetrics.Charstring

/-- One instruction of a charstring. -/
inductive Instruction where
  /-- A number, to be pushed on the operand stack. -/
  | number (value : Fixed)
  /-- An operator. -/
  | operator (op : Operator)
  deriving DecidableEq, Repr

namespace Instruction

/-- Reads a number that starts with a byte from 247 to 254: `lead` and the byte after it. -/
def wideNumber (lead : UInt8) (bytes : Bytes) : Except Error (Instruction × Bytes) :=
  match bytes.byte with
  | .error e => .error (.data e)
  | .ok (low, rest) =>
    let value : Int :=
      if lead.toNat ≤ 250 then (lead.toNat - 247) * 256 + low.toNat + 108
      else -((lead.toNat - 251) * 256 + low.toNat + 108)
    .ok (.number (.ofInt value), rest)

/-- Reads the two bytes of a short number. -/
def shortNumber (bytes : Bytes) : Except Error (Instruction × Bytes) :=
  match bytes.signed 2 with
  | .error e => .error (.data e)
  | .ok (value, rest) => .ok (.number (.ofInt value), rest)

/-- Reads the four bytes of a fixed-point number. -/
def fixedNumber (bytes : Bytes) : Except Error (Instruction × Bytes) :=
  match bytes.signed 4 with
  | .error e => .error (.data e)
  | .ok (units, rest) => .ok (.number ⟨units⟩, rest)

/-- Reads the byte after the escape byte. -/
def escapedOperator (bytes : Bytes) : Except Error (Instruction × Bytes) :=
  match bytes.byte with
  | .error e => .error (.data e)
  | .ok (code, rest) =>
    match Operator.ofEscapedCode? code with
    | some op => .ok (.operator op, rest)
    | none => .error (.invalidOperator true code)

/-- Reads the first instruction of a charstring. -/
def decode : Bytes → Except Error (Instruction × Bytes)
  | [] => .error (.data .endOfData)
  | lead :: bytes =>
    if lead = 255 then fixedNumber bytes
    else if 247 ≤ lead then wideNumber lead bytes
    else if 32 ≤ lead then .ok (.number (.ofInt (lead.toNat - 139)), bytes)
    else if lead = 28 then shortNumber bytes
    else if lead = escapeByte then escapedOperator bytes
    else match Operator.ofCode? lead with
      | some op => .ok (.operator op, bytes)
      | none => .error (.invalidOperator false lead)

end Instruction

end FontMetrics.Charstring
