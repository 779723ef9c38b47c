import FontMetrics.Table.Bounds

/-!
# Logs

What is worth telling about an execution besides its result: the subroutines that were called, the
glyphs that failed, and how many glyphs there were.
-/

namespace FontMetrics

/-- One line of a log. -/
inductive LogEntry where
  /-- A subroutine starts. -/
  | called (call : Charstring.Call)
  /-- A glyph has failed. -/
  | failed (failure : GlyphFailure)
  /-- A table is complete. -/
  | counted (glyphs withBounds failures : Nat)
  deriving DecidableEq, Repr

namespace LogEntry

/-- The name of the operator that calls into a table of subroutines. -/
def operatorName : Charstring.SubroutineScope → String
  | .localScope => "callsubr"
  | .globalScope => "callgsubr"

/-- The text of a line, after its level. -/
def render : LogEntry → String
  | .called call =>
    "TRACE " ++ operatorName call.scope ++ " " ++ toString call.index ++ " at depth " ++
      toString call.depth
  | .failed failure => "WARN " ++ failure.message
  | .counted glyphs withBounds failures =>
    "DEBUG " ++ toString glyphs ++ " glyphs, " ++ toString withBounds ++ " with bounds, " ++
      toString failures ++ " failed"

end LogEntry

namespace CffTable

/-- What is logged while the bounds of a glyph are computed. -/
def glyphLog (cff : CffTable) (glyphId : UInt16) : List LogEntry :=
  (cff.glyphCalls glyphId).map .called

/-- What is logged when the bounds of a glyph are computed for a table. -/
def entryLog (cff : CffTable) (glyphId : UInt16) : List LogEntry :=
  cff.glyphLog glyphId ++
    match cff.glyphBounds glyphId with
    | .error error => [.failed ⟨glyphId, error⟩]
    | .ok _ => []

end CffTable

namespace MetricsTable

/-- The different glyphs of a table in the order in which they first occur. -/
def distinctGlyphs (t : MetricsTable) : List UInt16 :=
  (t.glyphs.foldl
    (fun (seen, glyphs) g =>
      if seen.contains g.glyphId then (seen, glyphs)
      else (seen.insert g.glyphId (), g.glyphId :: glyphs))
    ((∅ : Std.HashMap UInt16 Unit), ([] : List UInt16))).2.reverse

/-- What is logged while the metrics of a font are computed with bounds. -/
def log (font : FontDescription) : List LogEntry :=
  match ofFont font, ofFontWithBounds font with
  | .ok t, .ok (complete, failures) =>
    (match font.cff with
      | some cff => t.distinctGlyphs.flatMap cff.entryLog
      | none => []) ++
      [.counted complete.glyphs.length
        (complete.glyphs.countP fun g => g.xMin.isSome) failures.length]
  | _, _ => []

end MetricsTable

end FontMetrics
