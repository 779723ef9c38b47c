import FontMetrics.Json.Lexeme

/-!
# JSON tokens

The brackets, separators, words, numbers and strings of a text.  `Token.read` reads one of them;
after one that breaks off nothing is left to be read.
-/

namespace FontMetrics.Json

/-- A unit of the notation. -/
inductive Token where
  /-- A left square bracket. -/
  | openArray
  /-- A right square bracket. -/
  | closeArray
  /-- A left brace. -/
  | openObject
  /-- A right brace. -/
  | closeObject
  /-- A comma. -/
  | comma
  /-- A colon. -/
  | colon
  /-- A value without parts that is no string. -/
  | atom (value : Value)
  /-- A string. -/
  | text (value : Text)
  /-- A string that breaks off. -/
  | brokenText (used skipped : Fault)
  /-- A byte that starts no token. -/
  | stray

namespace Token

/-- The byte of an ASCII character. -/
def ascii (c : Char) : UInt8 := c.toUInt8

/-- The byte separates tokens. -/
def isBlank (b : UInt8) : Bool := b = 32 || b = 10 || b = 9 || b = 13

/-- The byte is a decimal digit. -/
def isDigit (b : UInt8) : Bool := ascii '0' ≤ b && b ≤ ascii '9'

/-- The value of a decimal digit. -/
def digitValue (b : UInt8) : Nat := b.toNat - 48

/-- The value of a hexadecimal digit. -/
def hexValue? (b : UInt8) : Option Nat :=
  if isDigit b then some (digitValue b)
  else if ascii 'a' ≤ b && b ≤ ascii 'f' then some (b.toNat - 87)
  else if ascii 'A' ≤ b && b ≤ ascii 'F' then some (b.toNat - 55)
  else none

/-- The number with four hexadecimal digits. -/
def hex4? (a b c d : UInt8) : Option Nat := do
  let a ← hexValue? a
  let b ← hexValue? b
  let c ← hexValue? c
  let d ← hexValue? d
  return ((a * 16 + b) * 16 + c) * 16 + d

/-- The byte that a simple escape stands for. -/
def simpleEscape? (b : UInt8) : Option UInt8 :=
  if b = ascii '"' || b = ascii '\\' || b = ascii '/' then some b
  else if b = ascii 'b' then some 8
  else if b = ascii 'f' then some 12
  else if b = ascii 'n' then some 10
  else if b = ascii 'r' then some 13
  else if b = ascii 't' then some 9
  else none

/-- A token together with the bytes after it, of which there are at most as many as before. -/
abbrev Read (bytes : List UInt8) := { r : Token × List UInt8 // r.2.length ≤ bytes.length }

/-- A token that breaks off, after which nothing is read. -/
def Read.stop {bytes : List UInt8} (token : Token) : Read bytes := ⟨(token, []), by simp⟩

/-- The same token, read from a longer text. -/
def Read.lift {bytes longer : List UInt8} (h : bytes.length ≤ longer.length) (r : Read bytes) :
    Read longer := ⟨r.1, Nat.le_trans r.2 h⟩

/-- Reads the rest of a word, letter by letter. -/
def word (value : Value) : (letters : List Char) → (bytes : List UInt8) → Read bytes
  | [], bytes => ⟨(.atom value, bytes), Nat.le_refl _⟩
  | _ :: _, [] => .stop (.atom (.broken .truncated .truncated))
  | c :: letters, b :: bytes =>
    if b = ascii c then (word value letters bytes).lift (Nat.le_succ _)
    else .stop (.atom (.broken .malformed .malformed))

/-- A string that breaks off where the reading stands. -/
def stringBreak (r : StringReading) (fault : Fault) : Token :=
  .brokenText (r.faultOr fault) fault

/-- Reads the rest of a string. -/
def string (r : StringReading) : (bytes : List UInt8) → Read bytes
  | [] => .stop (stringBreak r .truncated)
  | b :: bytes =>
    if b = ascii '"' then ⟨(.text r.toText, bytes), Nat.le_succ _⟩
    else if b < 32 then .stop (stringBreak r .malformed)
    else if b ≠ ascii '\\' then (string (r.addByte b) bytes).lift (Nat.le_succ _)
    else match bytes with
      | [] => .stop (stringBreak r .truncated)
      | e :: bytes =>
        if e = ascii 'u' then
          match bytes with
          | h1 :: h2 :: h3 :: h4 :: bytes =>
            match hex4? h1 h2 h3 h4 with
            | some code =>
              (string (r.addUnit code) bytes).lift (by simp only [List.length_cons]; omega)
            | none => .stop (stringBreak r .malformed)
          | _ => .stop (stringBreak r .truncated)
        else match simpleEscape? e with
          | some b => (string (r.addByte b) bytes).lift (by simp only [List.length_cons]; omega)
          | none => .stop (stringBreak r .malformed)

/-- The digits at the front of a text, and the rest. -/
def digits (bytes : List UInt8) : List Nat × List UInt8 :=
  ((bytes.takeWhile isDigit).map digitValue, bytes.dropWhile isDigit)

/-- Reading digits never makes the rest of the text longer. -/
theorem length_digits_le (bytes : List UInt8) : (digits bytes).2.length ≤ bytes.length :=
  (List.dropWhile_suffix _).length_le

/-- A number in which a digit is missing before the given bytes. -/
def missingDigit {longer : List UInt8} (bytes : List UInt8) : Read longer :=
  .stop (.atom (if bytes.isEmpty then .broken .truncated .malformed
    else .broken .malformed .malformed))

/-- A complete number. -/
def finishNumber (text : NumberText) (bytes : List UInt8) : Read bytes :=
  ⟨(.atom (.number text.toNumber), bytes), Nat.le_refl _⟩

/-- Reads the rest of a number after the sign of its exponent. -/
def exponentDigits (text : NumberText) (negative : Bool) (bytes : List UInt8) : Read bytes :=
  let found := digits bytes
  if found.1.isEmpty then missingDigit bytes
  else
    (finishNumber { text with exponent := some (negative, found.1) } found.2).lift
      (length_digits_le bytes)

/-- Reads the rest of a number from where an exponent may start. -/
def exponent (text : NumberText) (bytes : List UInt8) : Read bytes :=
  match bytes with
  | b :: s :: rest =>
    if b = ascii 'e' || b = ascii 'E' then
      if s = ascii '-' then
        (exponentDigits text true rest).lift (by simp only [List.length_cons]; omega)
      else if s = ascii '+' then
        (exponentDigits text false rest).lift (by simp only [List.length_cons]; omega)
      else (exponentDigits text false (s :: rest)).lift (Nat.le_succ _)
    else finishNumber text (b :: s :: rest)
  | [b] =>
    if b = ascii 'e' || b = ascii 'E' then missingDigit [] else finishNumber text [b]
  | [] => finishNumber text []

/-- Reads the rest of a number from where a fraction may start. -/
def fraction (text : NumberText) (bytes : List UInt8) : Read bytes :=
  match bytes with
  | b :: rest =>
    if b = ascii '.' then
      let found := digits rest
      if found.1.isEmpty then missingDigit rest
      else
        (exponent { text with fraction := some found.1 } found.2).lift
          (Nat.le_succ_of_le (length_digits_le rest))
    else exponent text (b :: rest)
  | [] => finishNumber text []

/-- Reads the rest of a number after its first digit.  A leading zero stands alone. -/
def number (negative : Bool) (first : Nat) (bytes : List UInt8) : Read bytes :=
  let found := digits bytes
  if first = 0 && !found.1.isEmpty then .stop (.atom (.broken .malformed .malformed))
  else
    (fraction ⟨negative, first :: found.1, none, none⟩ found.2).lift (length_digits_le bytes)

/-- Reads the rest of a number after its minus sign. -/
def negativeNumber : (bytes : List UInt8) → Read bytes
  | [] => missingDigit []
  | b :: bytes =>
    if isDigit b then (number true (digitValue b) bytes).lift (Nat.le_succ _)
    else missingDigit (b :: bytes)

/-- Reads the token that starts with the byte `b` from that byte and those after it. -/
def read (b : UInt8) (bytes : List UInt8) : Read bytes :=
  let single (token : Token) : Read bytes := ⟨(token, bytes), Nat.le_refl _⟩
  if b = ascii '[' then single .openArray
  else if b = ascii ']' then single .closeArray
  else if b = ascii '\x7b' then single .openObject
  else if b = ascii '\x7d' then single .closeObject
  else if b = ascii ',' then single .comma
  else if b = ascii ':' then single .colon
  else if b = ascii '"' then string .empty bytes
  else if b = ascii 'n' then word .null ['u', 'l', 'l'] bytes
  else if b = ascii 't' then word (.bool true) ['r', 'u', 'e'] bytes
  else if b = ascii 'f' then word (.bool false) ['a', 'l', 's', 'e'] bytes
  else if b = ascii '-' then negativeNumber bytes
  else if isDigit b then number false (digitValue b) bytes
  else single .stray

end Token

end FontMetrics.Json
