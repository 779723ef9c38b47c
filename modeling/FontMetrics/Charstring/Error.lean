import FontMetrics.DataError

/-!
# Charstring errors

The ways in which executing a charstring fails, and their wording.
-/

namespace FontMetrics.Charstring

/-- Why a charstring could not be executed. -/
inductive Error where
  /-- The bytes of the charstring are faulty. -/
  | data (cause : DataError)
  /-- A byte stands for no operator; `escaped` tells whether it followed the escape byte. -/
  | invalidOperator (escaped : Bool) (code : UInt8)
  /-- An operator needs more operands than there are. -/
  | stackUnderflow
  /-- There is no room for another operand. -/
  | stackOverflow
  /-- An operator does not take this number of operands. -/
  | operandCount
  /-- Subroutines are nested too deeply. -/
  | nestingLimit
  /-- Too many instructions are executed for one glyph. -/
  | instructionLimit
  /-- A subroutine is called that does not exist. -/
  | subroutineIndex
  /-- A local subroutine is called in a font that has none. -/
  | noLocalSubroutines
  /-- A local subroutine is called in a font that selects them glyph by glyph. -/
  | cidKeyedFont
  /-- The glyph has no charstring. -/
  | glyphId
  /-- An element of the transient array is read that was never written, or cannot exist. -/
  | transientIndex
  /-- The outline is not finite. -/
  | outlineOverflow
  deriving DecidableEq, Repr

/-- The first byte of an operator of two bytes. -/
def escapeByte : UInt8 := 12

/-- The wording of an error. -/
def Error.message : Error → String
  | .data cause => "parse error: " ++ cause.message
  | .invalidOperator false code => "an invalid operator occurred: " ++ toString code.toNat
  | .invalidOperator true code =>
    "an invalid operator occurred: " ++ toString escapeByte.toNat ++ " " ++ toString code.toNat
  | .stackUnderflow => "arguments stack underflow"
  | .stackOverflow => "arguments stack limit reached"
  | .operandCount => "an invalid amount of items are in an arguments stack"
  | .nestingLimit => "subroutines nesting limit reached"
  | .instructionLimit => "charstring operation limit reached"
  | .subroutineIndex => "an invalid subroutine index"
  | .noLocalSubroutines => "no local subroutines"
  | .cidKeyedFont => "CID-keyed fonts with FDSelect are not supported"
  | .glyphId => "glyph id has no charstring"
  | .transientIndex => "an invalid transient array index"
  | .outlineOverflow => "outline's bounding box is too large"

end FontMetrics.Charstring
