import FontMetrics.Binary64
import FontMetrics.Charstring.Bounds

/-!
# CFF outlines

The parts of a `CFF` table that describe outlines: a charstring for each glyph and the subroutines
that charstrings share.
-/

namespace FontMetrics

open Charstring (SubroutineTable LocalSubroutines Subroutines Call)

/-- The dictionary of data that belong to one font of a file. -/
structure PrivateDict where
  /-- The local subroutines, if there is a table of them. -/
  localSubrs : Option SubroutineTable
  deriving DecidableEq, Repr

/-- The dictionary at the top of a font. -/
structure TopDict where
  /-- The font has a table that selects a font dictionary for each glyph. -/
  hasFdSelect : Bool
  /-- The private dictionary. -/
  privateDict : PrivateDict
  /-- The charstrings of the glyphs. -/
  charStrings : Array Bytes
  deriving DecidableEq, Repr

/-- The outlines of a font. -/
structure CffTable where
  /-- The global subroutines. -/
  globalSubrs : SubroutineTable
  /-- The top dictionary. -/
  topDict : TopDict
  deriving DecidableEq, Repr

namespace CffTable

/-- The local subroutines of every glyph of the font. -/
def localSubroutines (cff : CffTable) : LocalSubroutines :=
  if cff.topDict.hasFdSelect then .cidKeyed
  else match cff.topDict.privateDict.localSubrs with
    | some table => .table table
    | none => .missing

/-- The subroutines that the glyphs of the font can call. -/
def subroutines (cff : CffTable) : Subroutines := ⟨cff.globalSubrs, cff.localSubroutines⟩

/-- The charstring of a glyph. -/
def charString? (cff : CffTable) (glyphId : UInt16) : Option Bytes :=
  cff.topDict.charStrings[glyphId.toNat]?

/-- The bounding box of a glyph; a glyph that draws nothing has none. -/
def glyphBounds (cff : CffTable) (glyphId : UInt16) :
    Except Charstring.Error (Option (Box Float)) :=
  match cff.charString? glyphId with
  | none => .error .glyphId
  | some code => Charstring.glyphBounds code cff.subroutines

/-- The subroutines that executing a glyph calls, in order. -/
def glyphCalls (cff : CffTable) (glyphId : UInt16) : List Call :=
  match cff.charString? glyphId with
  | none => []
  | some code => Charstring.glyphCalls Float code cff.subroutines

end CffTable

end FontMetrics
