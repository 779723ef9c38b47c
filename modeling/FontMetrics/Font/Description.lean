import FontMetrics.Font.Cff
import FontMetrics.Font.Cmap
import FontMetrics.Json.Decoder

/-!
# Font descriptions

The tables of a font that metrics are taken from, and how they are read from a JSON description.
Everything else that a description may hold is skipped.
-/

namespace FontMetrics

open Json (Decoder Record RecordField Fault)

/-- The `head` table. -/
structure HeadTable where
  /-- The size of the em square in font units. -/
  unitsPerEm : UInt16
  deriving DecidableEq, Repr

/-- The `OS/2` table. -/
structure Os2Table where
  /-- The typographic ascender, which the oldest tables lack. -/
  typoAscender : Option Int16
  /-- The typographic descender, which the oldest tables lack. -/
  typoDescender : Option Int16
  /-- The typographic line gap, which the oldest tables lack. -/
  typoLineGap : Option Int16
  /-- The width of subscripts. -/
  subscriptXSize : Int16
  /-- The height of subscripts. -/
  subscriptYSize : Int16
  /-- The horizontal offset of subscripts. -/
  subscriptXOffset : Int16
  /-- The vertical offset of subscripts. -/
  subscriptYOffset : Int16
  /-- The width of superscripts. -/
  superscriptXSize : Int16
  /-- The height of superscripts. -/
  superscriptYSize : Int16
  /-- The horizontal offset of superscripts. -/
  superscriptXOffset : Int16
  /-- The vertical offset of superscripts. -/
  superscriptYOffset : Int16
  deriving DecidableEq, Repr

/-- The `post` table. -/
structure PostTable where
  /-- The height of the underline. -/
  underlinePosition : Int16
  deriving DecidableEq, Repr

/-- The horizontal metrics of a glyph. -/
structure HorizontalMetric where
  /-- The distance to the next glyph. -/
  advanceWidth : UInt16
  /-- The distance from the origin to the left side. -/
  leftSideBearing : Int16
  deriving DecidableEq, Repr

/-- A font. -/
structure FontDescription where
  /-- The `head` table. -/
  head : HeadTable
  /-- The `OS/2` table. -/
  os2 : Os2Table
  /-- The `post` table. -/
  post : PostTable
  /-- The horizontal metrics of the glyphs. -/
  hmtx : Array HorizontalMetric
  /-- The character map. -/
  cmap : Cmap
  /-- The outlines, if there are any. -/
  cff : Option CffTable
  deriving DecidableEq, Repr

namespace HeadTable

/-- How the table is written. -/
def record : Record HeadTable :=
  .field (.make HeadTable.mk) (.required "unitsPerEm" Decoder.uint16)

end HeadTable

namespace Os2Table

/-- A field that may be null or left out. -/
def optionalField (name : String) : RecordField (Option Int16) :=
  .withDefault name Decoder.int16.optional none

/-- A field that must be there. -/
def field (name : String) : RecordField Int16 := .required name Decoder.int16

/-- How the table is written. -/
def record : Record Os2Table :=
  (Record.make Os2Table.mk)
    |>.field (optionalField "sTypoAscender")
    |>.field (optionalField "sTypoDescender")
    |>.field (optionalField "sTypoLineGap")
    |>.field (field "ySubscriptXSize")
    |>.field (field "ySubscriptYSize")
    |>.field (field "ySubscriptXOffset")
    |>.field (field "ySubscriptYOffset")
    |>.field (field "ySuperscriptXSize")
    |>.field (field "ySuperscriptYSize")
    |>.field (field "ySuperscriptXOffset")
    |>.field (field "ySuperscriptYOffset")

end Os2Table

namespace PostTable

/-- How the table is written. -/
def record : Record PostTable :=
  .field (.make PostTable.mk) (.required "underlinePosition" Decoder.int16)

end PostTable

namespace HorizontalMetric

/-- How the metrics of a glyph are written. -/
def record : Record HorizontalMetric :=
  (Record.make HorizontalMetric.mk)
    |>.field (.required "advanceWidth" Decoder.uint16)
    |>.field (.required "leftSideBearing" Decoder.int16)

end HorizontalMetric

namespace CharGroup

/-- How a group is written. -/
def record : Record CharGroup :=
  (Record.make CharGroup.mk)
    |>.field (.required "startCharCode" Decoder.uint32)
    |>.field (.required "endCharCode" Decoder.uint32)
    |>.field (.required "startGlyphId" Decoder.uint32)

end CharGroup

namespace CharSegment

/-- How a segment is written. -/
def record : Record CharSegment :=
  (Record.make CharSegment.mk)
    |>.field (.required "startCode" Decoder.uint16)
    |>.field (.required "endCode" Decoder.uint16)
    |>.field (.required "idDelta" Decoder.int32)

end CharSegment

namespace CmapSubtable

/-- How a subtable is written. -/
def record : Record CmapSubtable :=
  (Record.make CmapSubtable.mk)
    |>.field (.required "platformId" Decoder.uint16)
    |>.field (.required "format" Decoder.uint16)
    |>.field (.withDefault "groups" (Decoder.list CharGroup.record.decode) [])
    |>.field (.withDefault "segments" (Decoder.list CharSegment.record.decode) [])

end CmapSubtable

namespace Cmap

/-- How a character map is written. -/
def record : Record Cmap :=
  .field (.make Cmap.mk) (.required "tables" (Decoder.list CmapSubtable.record.decode))

/-- Reads a character map. -/
def ofJson : List UInt8 → Except Fault Cmap := Json.decode record.decode

end Cmap

/-- How a list of charstrings is written. -/
def charStringsDecoder : Decoder (Array Bytes) :=
  (Decoder.list (Decoder.list Decoder.uint8)).map List.toArray

namespace PrivateDict

/-- How the dictionary is written. -/
def record : Record PrivateDict :=
  .field (.make PrivateDict.mk)
    (.withDefault "localSubrs" charStringsDecoder.optional none)

end PrivateDict

namespace TopDict

/-- How the dictionary is written.  Of the selecting table only the presence counts. -/
def record : Record TopDict :=
  (Record.make TopDict.mk)
    |>.field (.withDefault "FDSelect" (Decoder.ignored.optional.map Option.isSome) false)
    |>.field (.withDefault "privateDict" PrivateDict.record.decode ⟨none⟩)
    |>.field (.required "charStrings" charStringsDecoder)

end TopDict

namespace CffTable

/-- How outlines are written. -/
def record : Record CffTable :=
  (Record.make CffTable.mk)
    |>.field (.withDefault "globalSubrs" charStringsDecoder #[])
    |>.field (.required "topDict" TopDict.record.decode)

/-- Reads outlines. -/
def ofJson : List UInt8 → Except Fault CffTable := Json.decode record.decode

end CffTable

namespace FontDescription

/-- How a font is written. -/
def record : Record FontDescription :=
  (Record.make FontDescription.mk)
    |>.field (.required "head" HeadTable.record.decode)
    |>.field (.required "OS/2" Os2Table.record.decode)
    |>.field (.required "post" PostTable.record.decode)
    |>.field (.required "hmtx" ((Decoder.list HorizontalMetric.record.decode).map List.toArray))
    |>.field (.required "cmap" Cmap.record.decode)
    |>.field (.withDefault "cff" CffTable.record.decode.optional none)

/-- Reads a font. -/
def ofJson : List UInt8 → Except Fault FontDescription := Json.decode record.decode

end FontDescription

end FontMetrics
