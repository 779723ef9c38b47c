import FontMetrics.Decimal.Shortest

/-!
# Decimal texts

How a floating-point number is written: positionally while the position of its first digit lies in
a certain range, and with an exponent outside of it.
-/

namespace FontMetrics.Decimal

/-- The choices that a way of writing numbers makes. -/
structure Layout where
  /-- The least position of the first digit with which numbers are written positionally; the digit
  of the ones has position 0. -/
  leastPosition : Int
  /-- The greatest such position. -/
  greatestPosition : Int
  /-- Exponents that are not negative have a plus sign. -/
  plusSign : Bool
  /-- Which of two equally near decimals is written. -/
  tie : RoundingRange.Tie
  deriving DecidableEq, Repr

namespace Layout

/-- Zeros. -/
def zeros (count : Nat) : List Char := List.replicate count '0'

/-- Digits with a point after the first `whole` of them, and at least one digit on both sides. -/
def positional (digits : List Char) (position : Int) : List Char :=
  if position < 0 then ['0', '.'] ++ zeros (-position - 1).toNat ++ digits
  else
    let whole := position.toNat + 1
    let front := digits.take whole
    let back := digits.drop whole
    front ++ zeros (whole - digits.length) ++ ['.'] ++ (if back.isEmpty then ['0'] else back)

/-- Digits with a point after the first, if there are more, and an exponent. -/
def exponential (layout : Layout) (digits : List Char) (position : Int) : List Char :=
  let front := digits.take 1
  let back := digits.drop 1
  let sign := if position < 0 then ['-'] else if layout.plusSign then ['+'] else []
  front ++ (if back.isEmpty then [] else '.' :: back) ++ ['e'] ++ sign ++
    Nat.toDigits 10 position.natAbs

/-- The text of `significand · 2 ^ exponent`. -/
def magnitude (layout : Layout) (significand : Nat) (exponent : Int) : List Char :=
  let p := shortest layout.tie significand exponent
  let digits := Nat.toDigits 10 p.digits
  let position := p.exponent + digits.length - 1
  if layout.leastPosition ≤ position && position ≤ layout.greatestPosition then
    positional digits position
  else layout.exponential digits position

/-- The text of `± significand · 2 ^ exponent`. -/
def render (layout : Layout) (negative : Bool) (significand : Nat) (exponent : Int) : String :=
  (if negative then "-" else "") ++ String.ofList (layout.magnitude significand exponent)

end Layout

/-- How numbers are written in metrics tables. -/
def tableLayout : Layout where
  leastPosition := -5
  greatestPosition := 15
  plusSign := true
  tie := .toEven

/-- The text of a number in a metrics table, which has none for numbers that are not finite. -/
def tableText : Binary64 → String
  | .finite negative significand exponent => tableLayout.render negative significand exponent
  | _ => "null"

/-- How operands are written for inspection. -/
def operandLayout : Layout where
  leastPosition := -4
  greatestPosition := 15
  plusSign := false
  tie := .up

/-- The text of an operand for inspection. -/
def operandText : Binary64 → String
  | .finite negative significand exponent => operandLayout.render negative significand exponent
  | .infinite negative => if negative then "-inf" else "inf"
  | .nan => "NaN"

/-- Operands for inspection, from the bottom of the stack to the top. -/
def operandsText (operands : List Float) : String :=
  "[" ++ ", ".intercalate (operands.map fun x => operandText (.ofFloat x)) ++ "]"

end FontMetrics.Decimal
