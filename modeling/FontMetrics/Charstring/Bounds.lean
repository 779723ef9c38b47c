import FontMetrics.Charstring.Machine
import FontMetrics.Charstring.State

/-!
# Glyph bounds

The bounding box of the outline that a charstring describes.
-/

namespace FontMetrics.Charstring

variable {α : Type} [Scalar α]

/-- The meaning of the instructions on execution states. -/
def State.semantics : Semantics (State α) where
  number value := State.push value.toScalar
  declareHints := State.declareHints
  maskLength := State.maskLength
  path := State.drawPath
  compute := State.compute
  popIndex := State.popIndex
  clear := State.clear

/-- The number of callers that may wait for a subroutine. -/
def nestingLimit : Nat := 10

/-- The number of instructions that may be executed for one glyph, subroutines included. -/
def instructionLimit : Nat := 0x100000

/-- Executes the charstring of a glyph. -/
def finalState (code : Bytes) (subroutines : Subroutines) : Except Error (State α) :=
  State.semantics.run subroutines (some nestingLimit) instructionLimit (.start code .initial)

/-- The box of a finished outline: absent if nothing was drawn. -/
def boundsOfOutline (outline : Outline α) : Except Error (Option (Box α)) :=
  if outline.overflowed then .error .outlineOverflow else .ok outline.box

/-- The bounding box of a glyph's outline; a glyph that draws nothing has none. -/
def glyphBounds (code : Bytes) (subroutines : Subroutines) : Except Error (Option (Box α)) :=
  match finalState code subroutines with
  | .error e => .error e
  | .ok s => boundsOfOutline s.outline

variable (α) in
/-- The subroutines that executing a glyph calls, in order. -/
def glyphCalls (code : Bytes) (subroutines : Subroutines) : List Call :=
  ((State.semantics : Semantics (State α)).calls subroutines (some nestingLimit) instructionLimit []
    (.start code .initial)).reverse

end FontMetrics.Charstring
