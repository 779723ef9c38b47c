import FontMetrics.Json.Output
import FontMetrics.Table.Basic

/-!
# Metrics tables as JSON

A metrics table is written as an object whose members stand in a fixed order.  What is absent has no
member.
-/

namespace FontMetrics

open Json (Output)
open Json.Output (integerMember optionalMember)

/-- The metrics of a glyph as a value to be written. -/
def GlyphMetrics.output (g : GlyphMetrics) : Output :=
  .object
    (integerMember "glyphId" g.glyphId.toNat ++
      optionalMember "charCode" (fun c => .integer c.toNat) g.charCode ++
      integerMember "advanceWidth" g.advanceWidth.toNat ++
      integerMember "leftSideBearing" g.leftSideBearing.toInt ++
      optionalMember "xMin" Output.ofFloat g.xMin ++
      optionalMember "xMax" Output.ofFloat g.xMax ++
      optionalMember "yMin" Output.ofFloat g.yMin ++
      optionalMember "yMax" Output.ofFloat g.yMax)

namespace MetricsTable

/-- The metrics of a font as a value to be written. -/
def output (t : MetricsTable) : Output :=
  .object
    (integerMember "unitsPerEm" t.unitsPerEm.toNat ++
      optionalMember "ascender" Output.ofInt16 t.ascender ++
      optionalMember "descender" Output.ofInt16 t.descender ++
      optionalMember "lineGap" Output.ofInt16 t.lineGap ++
      integerMember "subscriptXSize" t.subscriptXSize.toInt ++
      integerMember "subscriptYSize" t.subscriptYSize.toInt ++
      integerMember "subscriptXOffset" t.subscriptXOffset.toInt ++
      integerMember "subscriptYOffset" t.subscriptYOffset.toInt ++
      integerMember "superscriptXSize" t.superscriptXSize.toInt ++
      integerMember "superscriptYSize" t.superscriptYSize.toInt ++
      integerMember "superscriptXOffset" t.superscriptXOffset.toInt ++
      integerMember "superscriptYOffset" t.superscriptYOffset.toInt ++
      integerMember "underlinePosition" t.underlinePosition.toInt ++
      [("glyphs", .array (t.glyphs.map GlyphMetrics.output))])

/-- The table on one line. -/
def compactText (t : MetricsTable) : String := t.output.compact

/-- The table on several lines. -/
def prettyText (t : MetricsTable) : String := t.output.pretty 0

end MetricsTable

end FontMetrics
