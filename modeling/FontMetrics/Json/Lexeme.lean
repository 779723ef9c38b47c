import FontMetrics.Json.Value

/-!
# Numbers and strings in JSON texts

What the text of a number stands for, and what a string stands for while it is read byte by byte.
-/

namespace FontMetrics.Json

/-- The parts of the text of a number, all of them digits from 0 to 9. -/
structure NumberText where
  /-- There is a minus sign. -/
  negative : Bool
  /-- The digits before the point. -/
  whole : List Nat
  /-- The digits after the point, if there is one. -/
  fraction : Option (List Nat)
  /-- The sign of the exponent and its digits, if there is one. -/
  exponent : Option (Bool × List Nat)
  deriving DecidableEq, Repr

/-- The number with the given decimal digits. -/
def ofDigits (digits : List Nat) : Nat := digits.foldl (fun n d => n * 10 + d) 0

/-- Appends digits to a number as long as it stays below `2 ^ 64`; the digits that are left. -/
def appendDigits (n : Nat) : List Nat → Nat × List Nat
  | [] => (n, [])
  | d :: rest => if n * 10 + d < UInt64.size then appendDigits (n * 10 + d) rest else (n, d :: rest)

/-- The product of a number below `2 ^ 64` and a power of ten is no floating-point number. -/
def exceedsFloat (significand : Nat) (exponent : Int) : Bool :=
  significand ≠ 0 && 0 ≤ exponent &&
    (308 < exponent ||
      !(Float.ofNat significand * Float.ofScientific 1 false exponent.toNat).isFinite)

namespace NumberText

/-- The leading digits of the number, below `2 ^ 64`, and the power of ten they are to be multiplied
with.  Digits that do not fit are dropped. -/
def scientific (t : NumberText) : Nat × Int :=
  let (significand, dropped) := appendDigits 0 t.whole
  let fraction := t.fraction.getD []
  let (significand, unused) := appendDigits significand fraction
  let shift : Int := dropped.length - (fraction.length - unused.length)
  match t.exponent with
  | none => (significand, shift)
  | some (negative, digits) =>
    (significand, if negative then shift - ofDigits digits else shift + ofDigits digits)

/-- The number is written without fraction and exponent. -/
def isWhole (t : NumberText) : Bool := t.fraction.isNone && t.exponent.isNone

/-- The number that a text stands for.  Minus zero is no integer. -/
def toNumber (t : NumberText) : Number :=
  let n := ofDigits t.whole
  if t.isWhole && !t.negative && n < UInt64.size then .integer n
  else if t.isWhole && t.negative && 0 < n && n ≤ UInt64.size / 2 then .integer (-n)
  else
    let (significand, exponent) := t.scientific
    if exceedsFloat significand exponent then .outOfRange else .inexact

end NumberText

/-- A string of which the front has been read.  Escapes of four hexadecimal digits are UTF-16 units,
so a character may be written as a pair of surrogates. -/
structure StringReading where
  /-- The bytes so far, the last one first. -/
  reversed : List UInt8
  /-- A first surrogate whose partner has to come next. -/
  high : Option Nat
  /-- So far every surrogate has its partner. -/
  isPaired : Bool
  deriving DecidableEq, Repr

namespace StringReading

/-- Nothing has been read. -/
def empty : StringReading := ⟨[], none, true⟩

/-- The unit is the first surrogate of a pair. -/
def isHigh (code : Nat) : Bool := 0xd800 ≤ code && code < 0xdc00

/-- The unit is the second surrogate of a pair. -/
def isLow (code : Nat) : Bool := 0xdc00 ≤ code && code < 0xe000

/-- Adds a byte. -/
def addByte (b : UInt8) (r : StringReading) : StringReading :=
  match r.high with
  | none => { r with reversed := b :: r.reversed }
  | some _ => { r with isPaired := false }

/-- Adds the bytes of a character, given by its number. -/
def addCharacter (code : Nat) (r : StringReading) : StringReading :=
  { r with
    reversed := (String.utf8EncodeChar (Char.ofNat code)).reverse ++ r.reversed
    high := none }

/-- Adds a UTF-16 unit. -/
def addUnit (code : Nat) (r : StringReading) : StringReading :=
  match r.high with
  | some high =>
    if isLow code then r.addCharacter (0x10000 + (high - 0xd800) * 0x400 + (code - 0xdc00))
    else { r with isPaired := false }
  | none =>
    if isHigh code then { r with high := some code }
    else if isLow code then { r with isPaired := false }
    else r.addCharacter code

/-- The string, closed where the reading stands: its surrogates must form pairs and its bytes must
be UTF-8. -/
def toText (r : StringReading) : Text :=
  if r.isPaired && r.high.isNone then
    match String.fromUTF8? (ByteArray.mk r.reversed.reverse.toArray) with
    | some s => .ok s
    | none => .error .malformed
  else .error .malformed

/-- What is wrong for those who use a string that breaks off with a fault where the reading stands:
a surrogate without a partner comes first. -/
def faultOr (r : StringReading) (fault : Fault) : Fault :=
  if r.isPaired then fault else .malformed

end StringReading

end FontMetrics.Json
