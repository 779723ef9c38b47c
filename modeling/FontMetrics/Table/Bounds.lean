import Std.Data.HashMap
import FontMetrics.Table.Basic

/-!
# Glyph bounds in metrics tables

Fills the bounds of every entry of a metrics table from the outlines of a font.  Several characters
may lead to one glyph; its charstring is executed once, and a glyph that fails is reported once, in
the order in which the glyphs first occur.
-/

namespace FontMetrics

/-- A glyph whose bounds could not be found. -/
structure GlyphFailure where
  /-- The glyph. -/
  glyphId : UInt16
  /-- Why its charstring could not be executed. -/
  error : Charstring.Error
  deriving DecidableEq, Repr

/-- The wording of a failure. -/
def GlyphFailure.message (f : GlyphFailure) : String :=
  "glyph " ++ toString f.glyphId.toNat ++ ": " ++ f.error.message

/-- What is known about the bounds of a glyph. -/
abbrev BoundsResult := Except Charstring.Error (Option (Box Float))

/-- The results for the glyphs that have occurred, and the failures among them, the last one
first. -/
structure BoundsMemo where
  /-- The result for each glyph. -/
  results : Std.HashMap UInt16 BoundsResult
  /-- The failures, the last one first. -/
  failures : List GlyphFailure

namespace BoundsMemo

/-- Nothing is known. -/
def empty : BoundsMemo := ⟨∅, []⟩

/-- The result for a glyph, which is computed if it is not known yet. -/
def lookup (memo : BoundsMemo) (compute : UInt16 → BoundsResult) (glyphId : UInt16) :
    BoundsResult × BoundsMemo :=
  match memo.results[glyphId]? with
  | some result => (result, memo)
  | none =>
    let result := compute glyphId
    let failures :=
      match result with
      | .error error => ⟨glyphId, error⟩ :: memo.failures
      | .ok _ => memo.failures
    (result, ⟨memo.results.insert glyphId result, failures⟩)

end BoundsMemo

namespace GlyphMetrics

/-- The metrics with the bounds of a result, if it has some; otherwise they stay as they are. -/
def applyBounds (g : GlyphMetrics) : BoundsResult → GlyphMetrics
  | .ok (some box) => g.withBounds box
  | _ => g

/-- Fills the bounds of entries, given what is known. -/
def fillBounds (compute : UInt16 → BoundsResult) (memo : BoundsMemo) :
    List GlyphMetrics → List GlyphMetrics × BoundsMemo
  | [] => ([], memo)
  | g :: rest =>
    let (result, memo) := memo.lookup compute g.glyphId
    let (rest, memo) := fillBounds compute memo rest
    (g.applyBounds result :: rest, memo)

end GlyphMetrics

namespace MetricsTable

/-- Fills the bounds of all glyphs; the table and the glyphs that failed, in the order in which they
first occur. -/
def addBounds (table : MetricsTable) (cff : CffTable) : MetricsTable × List GlyphFailure :=
  let (glyphs, memo) := GlyphMetrics.fillBounds cff.glyphBounds .empty table.glyphs
  ({ table with glyphs }, memo.failures.reverse)

/-- The metrics of a font with the bounds of its glyphs, and the glyphs that failed. -/
def ofFontWithBounds (font : FontDescription) :
    Except DataError (MetricsTable × List GlyphFailure) :=
  match ofFont font with
  | .error e => .error e
  | .ok table =>
    match font.cff with
    | some cff => .ok (table.addBounds cff)
    | none => .ok (table, [])

end MetricsTable

end FontMetrics
