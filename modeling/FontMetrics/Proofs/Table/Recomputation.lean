import FontMetrics.Proofs.Table.Assembly

/-!
# Filling bounds again

Bounds are filled in place: a box replaces the bounds that an entry had, but where no box is found
the entry keeps them.  So the bounds of a table that had some before are those of the new outlines
exactly if no entry had bounds whose glyph has none now.  The failures that are reported, on the
other hand, never depend on earlier bounds.
-/

namespace FontMetrics

/-- The bounding box of a glyph; absent if it draws nothing or fails. -/
def CffTable.box? (cff : CffTable) (glyphId : UInt16) : Option (Box Float) :=
  (cff.glyphBounds glyphId).toOption.join

namespace GlyphMetrics

/-- What becomes of an entry depends on whether there is a box. -/
theorem applyBounds_eq (g : GlyphMetrics) (result : BoundsResult) :
    g.applyBounds result =
      if result.toOption.join = none then g else g.setBounds result.toOption.join := by
  rcases result with e | _ | box
  · rfl
  · rfl
  · rfl

/-- Computing bounds does not change the glyph. -/
@[simp] theorem glyphId_applyBounds (g : GlyphMetrics) (result : BoundsResult) :
    (g.applyBounds result).glyphId = g.glyphId := by
  rcases result with e | _ | box
  · rfl
  · rfl
  · rfl

/-- Bounds that are set later take the place of computed ones. -/
@[simp] theorem setBounds_applyBounds (g : GlyphMetrics) (result : BoundsResult)
    (box : Option (Box Float)) : (g.applyBounds result).setBounds box = g.setBounds box := by
  rcases result with e | _ | box'
  · rfl
  · rfl
  · rfl

/-- An entry has the bounds of a result unless it keeps earlier ones. -/
theorem applyBounds_eq_setBounds_iff (g : GlyphMetrics) (result : BoundsResult) :
    g.applyBounds result = g.setBounds result.toOption.join ↔
      (result.toOption.join = none → g.setBounds none = g) := by
  rw [applyBounds_eq]
  split
  · next hnone => simp [hnone, eq_comm]
  · next hsome => simp [hsome]

/-- The same result again changes nothing. -/
theorem applyBounds_applyBounds (g : GlyphMetrics) (result : BoundsResult) :
    (g.applyBounds result).applyBounds result = g.applyBounds result := by
  rcases result with e | _ | box
  · rfl
  · rfl
  · rfl

/-- An entry is without bounds after a result if it was before and there is no box. -/
theorem setBounds_none_applyBounds_iff (g : GlyphMetrics) (result : BoundsResult) :
    (g.applyBounds result).setBounds none = g.applyBounds result ↔
      result.toOption.join = none ∧ g.setBounds none = g := by
  rcases result with e | _ | box
  · exact ⟨fun h => ⟨rfl, h⟩, And.right⟩
  · exact ⟨fun h => ⟨rfl, h⟩, And.right⟩
  · refine iff_of_false (fun h => ?_) fun h => by cases h.1
    have hside := congrArg xMin h
    cases hside

/-- What becomes known depends on the glyphs alone. -/
theorem fillBounds_snd_congr {compute : UInt16 → BoundsResult} {memo : BoundsMemo}
    {glyphs glyphs' : List GlyphMetrics} (h : glyphs.map glyphId = glyphs'.map glyphId) :
    (fillBounds compute memo glyphs).2 = (fillBounds compute memo glyphs').2 := by
  induction glyphs generalizing memo glyphs' with
  | nil =>
    obtain rfl := List.map_eq_nil_iff.mp h.symm
    rfl
  | cons g rest ih =>
    cases glyphs' with
    | nil => cases h
    | cons g' rest' =>
      obtain ⟨hg, hrest⟩ := List.cons.inj h
      simp only [fillBounds, hg]
      exact ih hrest

end GlyphMetrics

namespace MetricsTable

/-- The table with the bounds of the outlines, and no others. -/
def withBoundsOf (table : MetricsTable) (cff : CffTable) : MetricsTable :=
  { table with glyphs := table.glyphs.map fun g => g.setBounds (cff.box? g.glyphId) }

/-- The table without bounds. -/
def withoutBounds (table : MetricsTable) : MetricsTable :=
  { table with glyphs := table.glyphs.map fun g => g.setBounds none }

variable (table : MetricsTable) (cff earlier : CffTable)

/-- Bounds are added entry by entry. -/
private theorem fst_addBounds : (table.addBounds cff).1 =
    { table with glyphs := table.glyphs.map fun g => g.applyBounds (cff.glyphBounds g.glyphId) } := by
  obtain ⟨failures, h, -⟩ := table.addBounds_eq cff
  rw [h]

/-- The failures that are reported depend on the glyphs of the table alone. -/
theorem snd_addBounds_congr {table table' : MetricsTable}
    (h : table.glyphs.map GlyphMetrics.glyphId = table'.glyphs.map GlyphMetrics.glyphId) :
    (table.addBounds cff).2 = (table'.addBounds cff).2 := by
  have hmemo := @GlyphMetrics.fillBounds_snd_congr cff.glyphBounds .empty _ _ h
  simp only [addBounds, hmemo]

/-- Adding bounds keeps the glyphs and their order. -/
theorem glyphIds_addBounds : (table.addBounds cff).1.glyphs.map GlyphMetrics.glyphId =
    table.glyphs.map GlyphMetrics.glyphId := by
  simp only [fst_addBounds, List.map_map]
  exact List.map_congr_left fun g _ => g.glyphId_applyBounds _

/-- Removing bounds keeps the glyphs and their order. -/
theorem glyphIds_withoutBounds : table.withoutBounds.glyphs.map GlyphMetrics.glyphId =
    table.glyphs.map GlyphMetrics.glyphId := by
  simp only [withoutBounds, List.map_map]
  rfl

/-- A table without bounds gets those of the outlines. -/
theorem fst_addBounds_withoutBounds :
    (table.withoutBounds.addBounds cff).1 = table.withBoundsOf cff := by
  simp only [fst_addBounds, withoutBounds, withBoundsOf, List.map_map]
  congr 1
  refine List.map_congr_left fun g _ => ?_
  exact applyBounds_eq_setBounds (g := g.setBounds none) rfl _

/-- A table gets the bounds of the outlines, and no others are left, exactly if no entry had some
whose glyph has none. -/
theorem fst_addBounds_eq_iff : (table.addBounds cff).1 = table.withBoundsOf cff ↔
    ∀ g ∈ table.glyphs, cff.box? g.glyphId = none → g.setBounds none = g := by
  have hglyphs : (table.addBounds cff).1 = table.withBoundsOf cff ↔
      table.glyphs.map (fun g => g.applyBounds (cff.glyphBounds g.glyphId)) =
        table.glyphs.map fun g => g.setBounds (cff.box? g.glyphId) := by
    rw [fst_addBounds, withBoundsOf]
    exact ⟨congrArg glyphs, fun h => by rw [h]⟩
  rw [hglyphs, List.map_inj_left]
  exact forall₂_congr fun g _ => g.applyBounds_eq_setBounds_iff _

/-- The bounds that a table should have do not depend on those that it has. -/
theorem withBoundsOf_fst_addBounds :
    (table.addBounds earlier).1.withBoundsOf cff = table.withBoundsOf cff := by
  simp only [fst_addBounds, withBoundsOf, List.map_map]
  congr 1
  refine List.map_congr_left fun g _ => ?_
  simp only [Function.comp_apply, GlyphMetrics.glyphId_applyBounds,
    GlyphMetrics.setBounds_applyBounds]

/-- Filling again with the same outlines changes nothing, and reports the same. -/
theorem addBounds_addBounds :
    (table.addBounds cff).1.addBounds cff = table.addBounds cff := by
  refine Prod.ext ?_ (snd_addBounds_congr cff (table.glyphIds_addBounds cff))
  rw [fst_addBounds, fst_addBounds]
  simp only [List.map_map]
  congr 1
  refine List.map_congr_left fun g _ => ?_
  simp only [Function.comp_apply, GlyphMetrics.glyphId_applyBounds,
    GlyphMetrics.applyBounds_applyBounds]

/-- Filling after other outlines is filling anew, exactly if no entry has bounds from before whose
glyph has none now. -/
theorem addBounds_after_eq_iff :
    (table.addBounds earlier).1.addBounds cff = table.withoutBounds.addBounds cff ↔
      ∀ g ∈ table.glyphs, cff.box? g.glyphId = none →
        earlier.box? g.glyphId = none ∧ g.setBounds none = g := by
  have hfailures : ((table.addBounds earlier).1.addBounds cff).2 =
      (table.withoutBounds.addBounds cff).2 :=
    snd_addBounds_congr cff
      ((table.glyphIds_addBounds earlier).trans table.glyphIds_withoutBounds.symm)
  rw [Prod.ext_iff, and_iff_left hfailures, fst_addBounds_withoutBounds,
    ← withBoundsOf_fst_addBounds table cff earlier, fst_addBounds_eq_iff, fst_addBounds]
  simp only [List.forall_mem_map, GlyphMetrics.glyphId_applyBounds,
    GlyphMetrics.setBounds_none_applyBounds_iff]
  exact Iff.rfl

/-- What filling a table again comes to, whatever bounds it has. -/
structure Refills (table : MetricsTable) (cff : CffTable) : Prop where
  /-- The entries of a glyph that has a box get its bounds, and the others keep theirs. -/
  entries : (table.addBounds cff).1 = { table with
    glyphs := table.glyphs.map fun g =>
      if cff.box? g.glyphId = none then g else g.setBounds (cff.box? g.glyphId) }
  /-- So the bounds are those of the outlines exactly if no entry had some whose glyph has none. -/
  replaces_iff : (table.addBounds cff).1 = table.withBoundsOf cff ↔
    ∀ g ∈ table.glyphs, cff.box? g.glyphId = none → g.setBounds none = g
  /-- Filling after other outlines is filling anew under the same condition on what those left. -/
  after_iff : ∀ earlier : CffTable,
    (table.addBounds earlier).1.addBounds cff = table.withoutBounds.addBounds cff ↔
      ∀ g ∈ table.glyphs, cff.box? g.glyphId = none →
        earlier.box? g.glyphId = none ∧ g.setBounds none = g
  /-- The failures that are reported do not depend on earlier bounds. -/
  failures : (table.addBounds cff).2 = (table.withoutBounds.addBounds cff).2
  /-- Filling twice with the same outlines is filling once. -/
  again : (table.addBounds cff).1.addBounds cff = table.addBounds cff

/-- Filling bounds replaces earlier ones where there are new ones, and only there. -/
theorem refills_addBounds (table : MetricsTable) (cff : CffTable) : Refills table cff where
  entries := by
    rw [fst_addBounds]
    simp only [GlyphMetrics.applyBounds_eq]
    rfl
  replaces_iff := table.fst_addBounds_eq_iff cff
  after_iff := table.addBounds_after_eq_iff cff
  failures := snd_addBounds_congr cff table.glyphIds_withoutBounds.symm
  again := table.addBounds_addBounds cff

/-- The bounds of a glyph that draws nothing in the second outlines, and of one that fails there,
are left over from the first ones. -/
theorem stale_bounds_are_kept :
    let entry (glyphId : UInt16) : GlyphMetrics :=
      ⟨glyphId, none, 500, 0, none, none, none, none⟩
    let table : MetricsTable :=
      ⟨1000, none, none, none, 0, 0, 0, 0, 0, 0, 0, 0, 0, [entry 0, entry 1]⟩
    let earlier : CffTable := ⟨#[], ⟨false, ⟨none⟩, #[[149, 159, 5, 14], [149, 159, 5, 14]]⟩⟩
    let cff : CffTable := ⟨#[], ⟨false, ⟨none⟩, #[[14], [139, 10]]⟩⟩
    cff.box? 0 = none ∧ cff.box? 1 = none ∧
      ((table.addBounds earlier).1.addBounds cff).1.glyphs.map
        (fun g => g.bounds.isSome) = [true, true] ∧
      (table.addBounds cff).1.glyphs.map (fun g => g.bounds.isSome) = [false, false] := by
  intro entry table earlier cff
  refine ⟨rfl, rfl, ?_, ?_⟩
  · rw [fst_addBounds, fst_addBounds]
    decide
  · rw [fst_addBounds]
    decide

end MetricsTable

end FontMetrics
