import FontMetrics.DataError

/-!
# Character maps

The `cmap` table tells which glyph shows which character.  Of its subtables two are supported: lists
of character groups (format 12), which are preferred, and lists of segments (format 4), both for the
Unicode platform.
-/

namespace FontMetrics

/-- Consecutive characters that are shown by consecutive glyphs. -/
structure CharGroup where
  /-- The first character. -/
  startCharCode : UInt32
  /-- The last character; a group in which it comes before the first is empty. -/
  endCharCode : UInt32
  /-- The glyph of the first character. -/
  startGlyphId : UInt32
  deriving DecidableEq, Repr

/-- Consecutive characters whose glyphs are found by adding a number modulo `2 ^ 16`. -/
structure CharSegment where
  /-- The first character. -/
  startCode : UInt16
  /-- The last character; a segment in which it comes before the first is empty. -/
  endCode : UInt16
  /-- What is added to a character; only its residue matters. -/
  idDelta : Int32
  deriving DecidableEq, Repr

/-- One subtable of a character map. -/
structure CmapSubtable where
  /-- The platform whose character codes are used. -/
  platformId : UInt16
  /-- The kind of subtable. -/
  format : UInt16
  /-- The groups of a subtable of format 12. -/
  groups : List CharGroup
  /-- The segments of a subtable of format 4. -/
  segments : List CharSegment
  deriving DecidableEq, Repr

/-- A character map. -/
structure Cmap where
  /-- Its subtables. -/
  tables : List CmapSubtable
  deriving DecidableEq, Repr

/-- A glyph, with the character that it shows. -/
structure GlyphMapping where
  /-- The glyph. -/
  glyphId : UInt16
  /-- The character; the glyph for missing characters shows none. -/
  charCode : Option UInt32
  deriving DecidableEq, Repr

/-- The natural numbers from `first` to `last`. -/
def codeRange (first last : Nat) : List Nat := List.range' first (last + 1 - first)

namespace CharGroup

/-- The mapping of a character of the group. -/
def mapping (g : CharGroup) (code : Nat) : GlyphMapping where
  glyphId := UInt16.ofNat (g.startGlyphId.toNat + (code - g.startCharCode.toNat))
  charCode := some (UInt32.ofNat code)

/-- The mappings of all characters of the group.  Glyph ids have 16 bits. -/
def mappings (g : CharGroup) : Except DataError (List GlyphMapping) :=
  let first := g.startCharCode.toNat
  let last := g.endCharCode.toNat
  if last < first then .ok []
  else if g.startGlyphId.toNat + (last - first) < UInt16.size then
    .ok ((codeRange first last).map g.mapping)
  else .error .badValue

end CharGroup

namespace CharSegment

/-- The mapping of a character of the segment. -/
def mapping (s : CharSegment) (code : Nat) : GlyphMapping where
  glyphId := UInt16.ofNat ((code + s.idDelta.toInt) % UInt16.size).toNat
  charCode := some (UInt32.ofNat code)

/-- The mappings of all characters of the segment. -/
def mappings (s : CharSegment) : List GlyphMapping :=
  (codeRange s.startCode.toNat s.endCode.toNat).map s.mapping

end CharSegment

namespace Cmap

/-- The glyph that is shown for missing characters. -/
def notdef : GlyphMapping := ⟨0, none⟩

/-- The platform whose characters are those of Unicode. -/
def unicodePlatform : UInt16 := 0

/-- The first subtable of a platform and format. -/
def find? (cmap : Cmap) (platformId format : UInt16) : Option CmapSubtable :=
  cmap.tables.find? fun table => table.platformId = platformId && table.format = format

/-- The mappings of several groups in their order. -/
def groupMappings : List CharGroup → Except DataError (List GlyphMapping)
  | [] => .ok []
  | g :: rest =>
    match g.mappings with
    | .error e => .error e
    | .ok front =>
      match groupMappings rest with
      | .error e => .error e
      | .ok back => .ok (front ++ back)

/-- The glyph for missing characters, and then the mappings of the preferred Unicode subtable. -/
def glyphMappings (cmap : Cmap) : Except DataError (List GlyphMapping) :=
  match cmap.find? unicodePlatform 12 with
  | some table =>
    match groupMappings table.groups with
    | .error e => .error e
    | .ok mappings => .ok (notdef :: mappings)
  | none =>
    match cmap.find? unicodePlatform 4 with
    | some table => .ok (notdef :: table.segments.flatMap CharSegment.mappings)
    | none => .error .unsuitableCmap

end Cmap

end FontMetrics
