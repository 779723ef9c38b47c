import FontMetrics.Font.Description

/-!
# Metrics tables

The metrics of a font as a whole, and those of every glyph that a character leads to.  `ofFont`
takes from a description everything but the bounds of the glyphs.
-/

namespace FontMetrics

/-- The metrics of a glyph.  Bounds are absent when the glyph draws nothing, and where they could
not be found. -/
structure GlyphMetrics where
  /-- The glyph. -/
  glyphId : UInt16
  /-- The character that leads to it. -/
  charCode : Option UInt32
  /-- The distance to the next glyph. -/
  advanceWidth : UInt16
  /-- The distance from the origin to the left side. -/
  leftSideBearing : Int16
  /-- The left side of the outline. -/
  xMin : Option Float
  /-- The right side of the outline. -/
  xMax : Option Float
  /-- The lower side of the outline. -/
  yMin : Option Float
  /-- The upper side of the outline. -/
  yMax : Option Float
  deriving Repr

namespace GlyphMetrics

/-- The bounding box, if all four sides are there. -/
def bounds (g : GlyphMetrics) : Option (Box Float) := do
  let xMin ← g.xMin
  let xMax ← g.xMax
  let yMin ← g.yMin
  let yMax ← g.yMax
  return ⟨xMin, xMax, yMin, yMax⟩

/-- The same metrics with a bounding box. -/
def withBounds (g : GlyphMetrics) (box : Box Float) : GlyphMetrics :=
  { g with
    xMin := some box.xMin
    xMax := some box.xMax
    yMin := some box.yMin
    yMax := some box.yMax }

/-- Bounds that have been set are there. -/
@[simp] theorem bounds_withBounds (g : GlyphMetrics) (box : Box Float) :
    (g.withBounds box).bounds = some box := rfl

/-- Setting bounds does not change the glyph. -/
@[simp] theorem glyphId_withBounds (g : GlyphMetrics) (box : Box Float) :
    (g.withBounds box).glyphId = g.glyphId := rfl

end GlyphMetrics

/-- The metrics of a font. -/
structure MetricsTable where
  /-- The size of the em square in font units. -/
  unitsPerEm : UInt16
  /-- The typographic ascender. -/
  ascender : Option Int16
  /-- The typographic descender. -/
  descender : Option Int16
  /-- The typographic line gap. -/
  lineGap : Option Int16
  /-- The width of subscripts. -/
  subscriptXSize : Int16
  /-- The height of subscripts. -/
  subscriptYSize : Int16
  /-- The horizontal offset of subscripts. -/
  subscriptXOffset : Int16
  /-- The vertical offset of subscripts. -/
  subscriptYOffset : Int16
  /-- The width of superscripts. -/
  superscriptXSize : Int16
  /-- The height of superscripts. -/
  superscriptYSize : Int16
  /-- The horizontal offset of superscripts. -/
  superscriptXOffset : Int16
  /-- The vertical offset of superscripts. -/
  superscriptYOffset : Int16
  /-- The height of the underline. -/
  underlinePosition : Int16
  /-- The metrics of the glyphs, one entry for each mapping of the character map. -/
  glyphs : List GlyphMetrics
  deriving Repr

namespace MetricsTable

/-- The entry of a mapping, without bounds. -/
def entry (hmtx : Array HorizontalMetric) (mapping : GlyphMapping) :
    Except DataError GlyphMetrics :=
  match hmtx[mapping.glyphId.toNat]? with
  | none => .error .badIndex
  | some metric =>
    .ok {
      glyphId := mapping.glyphId
      charCode := mapping.charCode
      advanceWidth := metric.advanceWidth
      leftSideBearing := metric.leftSideBearing
      xMin := none
      xMax := none
      yMin := none
      yMax := none }

/-- The metrics of a font without the bounds of its glyphs. -/
def ofFont (font : FontDescription) : Except DataError MetricsTable := do
  let mappings ← font.cmap.glyphMappings
  let glyphs ← mappings.mapM (entry font.hmtx)
  return {
    unitsPerEm := font.head.unitsPerEm
    ascender := font.os2.typoAscender
    descender := font.os2.typoDescender
    lineGap := font.os2.typoLineGap
    subscriptXSize := font.os2.subscriptXSize
    subscriptYSize := font.os2.subscriptYSize
    subscriptXOffset := font.os2.subscriptXOffset
    subscriptYOffset := font.os2.subscriptYOffset
    superscriptXSize := font.os2.superscriptXSize
    superscriptYSize := font.os2.superscriptYSize
    superscriptXOffset := font.os2.superscriptXOffset
    superscriptYOffset := font.os2.superscriptYOffset
    underlinePosition := font.post.underlinePosition
    glyphs }

end MetricsTable

end FontMetrics
