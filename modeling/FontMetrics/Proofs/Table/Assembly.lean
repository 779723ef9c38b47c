import Mathlib.Data.List.Basic
import FontMetrics.Table.Bounds

/-!
# Tables with bounds, entry by entry

Filling the bounds of a table remembers the result for every glyph that has occurred, so that each
charstring is executed once.  The table that comes out is the one in which every entry is filled by
itself, and the failures are those of the glyphs that occur, in the order of their first occurrence.
-/

namespace FontMetrics

/-- The failures are those of the given glyphs, each of them once, in the order in which the glyphs
first occur. -/
structure ListsFailures (compute : UInt16 → BoundsResult) (glyphIds : List UInt16)
    (failures : List GlyphFailure) : Prop where
  /-- A failure is listed if its glyph occurs and fails with its error. -/
  mem_iff : ∀ f, f ∈ failures ↔ f.glyphId ∈ glyphIds ∧ compute f.glyphId = .error f.error
  /-- A failure precedes another if its glyph occurs before the other one does. -/
  pairwise : failures.Pairwise fun f f' => glyphIds.idxOf f.glyphId < glyphIds.idxOf f'.glyphId

namespace ListsFailures

variable {compute : UInt16 → BoundsResult} {glyphIds : List UInt16}
  {failures : List GlyphFailure} {g : UInt16}

theorem nil : ListsFailures compute [] [] := ⟨by simp, .nil⟩

/-- More glyphs behind those that occurred do not change their order. -/
theorem pairwise_append (h : ListsFailures compute glyphIds failures) (more : List UInt16) :
    failures.Pairwise fun f f' =>
      (glyphIds ++ more).idxOf f.glyphId < (glyphIds ++ more).idxOf f'.glyphId := by
  refine h.pairwise.imp_of_mem fun hf hf' hlt => ?_
  rwa [List.idxOf_append_of_mem ((h.mem_iff _).mp hf).1,
    List.idxOf_append_of_mem ((h.mem_iff _).mp hf').1]

/-- A glyph that occurs again, or does not fail, is not listed. -/
theorem concat (h : ListsFailures compute glyphIds failures)
    (hg : ∀ e, compute g = .error e → g ∈ glyphIds) :
    ListsFailures compute (glyphIds ++ [g]) failures where
  mem_iff f := by
    rw [h.mem_iff f, List.mem_append, List.mem_singleton]
    constructor
    · rintro ⟨hf, herror⟩
      exact ⟨Or.inl hf, herror⟩
    · rintro ⟨hf | rfl, herror⟩
      · exact ⟨hf, herror⟩
      · exact ⟨hg _ herror, herror⟩
  pairwise := h.pairwise_append [g]

/-- A glyph that occurs for the first time and fails is listed last. -/
theorem concat_of_error (h : ListsFailures compute glyphIds failures) (hg : g ∉ glyphIds)
    {e : Charstring.Error} (herror : compute g = .error e) :
    ListsFailures compute (glyphIds ++ [g]) (failures ++ [⟨g, e⟩]) where
  mem_iff f := by
    rw [List.mem_append, List.mem_append, h.mem_iff f, List.mem_singleton, List.mem_singleton]
    constructor
    · rintro (⟨hf, hfail⟩ | rfl)
      · exact ⟨Or.inl hf, hfail⟩
      · exact ⟨Or.inr rfl, herror⟩
    · rintro ⟨hf | hf, hfail⟩
      · exact Or.inl ⟨hf, hfail⟩
      · obtain ⟨glyphId, error⟩ := f
        obtain rfl : glyphId = g := hf
        rw [herror] at hfail
        cases hfail
        exact Or.inr rfl
  pairwise := by
    refine List.pairwise_append.mpr ⟨h.pairwise_append [g], List.pairwise_singleton _ _, ?_⟩
    intro f hf f' hf'
    obtain rfl := List.mem_singleton.mp hf'
    -- The new glyph comes behind all that occurred.
    rw [List.idxOf_append_of_mem ((h.mem_iff f).mp hf).1, List.idxOf_append_of_notMem hg]
    have hlt := List.idxOf_lt_length_iff.mpr ((h.mem_iff f).mp hf).1
    omega

end ListsFailures

/-- The memo holds the results for the glyphs that have occurred, and their failures. -/
structure BoundsMemo.Knows (memo : BoundsMemo) (compute : UInt16 → BoundsResult)
    (glyphIds : List UInt16) : Prop where
  /-- Exactly the results of those glyphs are known. -/
  results : ∀ g, memo.results[g]? = if g ∈ glyphIds then some (compute g) else none
  /-- The failures are theirs. -/
  failures : ListsFailures compute glyphIds memo.failures.reverse

namespace BoundsMemo

variable {compute : UInt16 → BoundsResult} {glyphIds : List UInt16} {memo : BoundsMemo}

theorem knows_empty : empty.Knows compute [] where
  results g := by simp [empty]
  failures := .nil

/-- Looking a glyph up gives its own result, known or not, and makes it known. -/
theorem Knows.lookup (h : memo.Knows compute glyphIds) (g : UInt16) :
    (memo.lookup compute g).1 = compute g ∧
      (memo.lookup compute g).2.Knows compute (glyphIds ++ [g]) := by
  unfold BoundsMemo.lookup
  rw [h.results g]
  by_cases hg : g ∈ glyphIds
  · simp only [hg, ite_true]
    refine ⟨trivial, fun g' => ?_, h.failures.concat fun _ _ => hg⟩
    rw [h.results g']
    by_cases hg' : g' = g
    · simp [hg', hg]
    · simp [hg']
  · simp only [hg, ite_false]
    refine ⟨trivial, fun g' => ?_, ?_⟩
    · rw [Std.HashMap.getElem?_insert, h.results g']
      by_cases hg' : g = g'
      · simp [hg']
      · simp [hg', Ne.symm hg']
    · cases hresult : compute g with
      | ok box => exact h.failures.concat fun e herror => by rw [hresult] at herror; cases herror
      | error e =>
        simpa only [List.reverse_cons] using h.failures.concat_of_error hg hresult

end BoundsMemo

namespace GlyphMetrics

/-- The same metrics with the four bounds of a box, or without any. -/
def setBounds (g : GlyphMetrics) (box : Option (Box Float)) : GlyphMetrics :=
  { g with
    xMin := box.map Box.xMin
    xMax := box.map Box.xMax
    yMin := box.map Box.yMin
    yMax := box.map Box.yMax }

/-- Filling entries one after another fills each by its own result. -/
theorem fillBounds_eq {compute : UInt16 → BoundsResult} {glyphIds : List UInt16}
    {memo : BoundsMemo} (h : memo.Knows compute glyphIds) (glyphs : List GlyphMetrics) :
    (fillBounds compute memo glyphs).1 =
        glyphs.map (fun g => g.applyBounds (compute g.glyphId)) ∧
      (fillBounds compute memo glyphs).2.Knows compute (glyphIds ++ glyphs.map glyphId) := by
  induction glyphs generalizing glyphIds memo with
  | nil => simpa [fillBounds] using h
  | cons g rest ih =>
    obtain ⟨hresult, hknows⟩ := h.lookup g.glyphId
    obtain ⟨hrest, hmemo⟩ := ih hknows
    refine ⟨?_, ?_⟩
    · simp only [fillBounds, List.map_cons, hresult, hrest]
    · simpa only [fillBounds, List.map_cons, List.append_assoc, List.singleton_append] using hmemo

end GlyphMetrics

/-- The bounding box of a glyph; absent if the font has no outlines, and if the glyph draws nothing
or fails. -/
def FontDescription.glyphBox? (font : FontDescription) (glyphId : UInt16) : Option (Box Float) :=
  font.cff.bind fun cff => (cff.glyphBounds glyphId).toOption.join

namespace MetricsTable

/-- Adding bounds fills every entry by itself and lists the failures of the glyphs that occur. -/
theorem addBounds_eq (table : MetricsTable) (cff : CffTable) :
    ∃ failures, table.addBounds cff =
        ({ table with
            glyphs := table.glyphs.map fun g => g.applyBounds (cff.glyphBounds g.glyphId) },
          failures) ∧
      ListsFailures cff.glyphBounds (table.glyphs.map GlyphMetrics.glyphId) failures := by
  have hempty : BoundsMemo.empty.Knows cff.glyphBounds [] := BoundsMemo.knows_empty
  obtain ⟨hglyphs, hknows⟩ := GlyphMetrics.fillBounds_eq hempty table.glyphs
  refine ⟨_, ?_, hknows.failures⟩
  rw [addBounds, ← hglyphs]

/-- What is made of a list one by one consists of what is made of its members. -/
theorem exists_of_mem_mapM {α β ε : Type} {f : α → Except ε β} {xs : List α} {ys : List β}
    (h : xs.mapM f = .ok ys) {y : β} (hy : y ∈ ys) : ∃ x ∈ xs, f x = .ok y := by
  induction xs generalizing ys with
  | nil =>
    cases h
    cases hy
  | cons x xs ih =>
    rw [List.mapM_cons] at h
    cases hx : f x with
    | error e => rw [hx] at h; cases h
    | ok z =>
      cases hxs : xs.mapM f with
      | error e => rw [hx, hxs] at h; cases h
      | ok zs =>
        rw [hx, hxs] at h
        cases h
        rcases List.mem_cons.mp hy with rfl | hy
        · exact ⟨x, List.mem_cons_self, hx⟩
        · obtain ⟨x', hmem, hf⟩ := ih hxs hy
          exact ⟨x', List.mem_cons_of_mem x hmem, hf⟩

/-- The entries of a font's metrics have no bounds at first. -/
theorem setBounds_none_of_ofFont {font : FontDescription} {table : MetricsTable}
    (h : ofFont font = .ok table) : ∀ g ∈ table.glyphs, g.setBounds none = g := by
  intro g hg
  unfold ofFont at h
  cases hmappings : font.cmap.glyphMappings with
  | error e => rw [hmappings] at h; cases h
  | ok mappings =>
    cases hglyphs : mappings.mapM (entry font.hmtx) with
    | error e =>
      simp only [hmappings, bind, Except.bind, hglyphs] at h
      cases h
    | ok glyphs =>
      simp only [hmappings, bind, Except.bind, hglyphs] at h
      cases h
      obtain ⟨mapping, -, hentry⟩ := exists_of_mem_mapM hglyphs hg
      unfold entry at hentry
      split at hentry
      · cases hentry
      · cases hentry
        rfl

/-- Where an entry has no bounds, a result gives it those of its box. -/
theorem applyBounds_eq_setBounds {g : GlyphMetrics} (h : g.setBounds none = g)
    (result : BoundsResult) : g.applyBounds result = g.setBounds result.toOption.join := by
  rcases result with e | _ | box
  · exact h.symm
  · exact h.symm
  · rfl

/-- The metrics of a font with bounds are its metrics without bounds, filled entry by entry, and the
failures of its glyphs; whether there are any metrics does not depend on the outlines. -/
theorem ofFontWithBounds_entrywise (font : FontDescription) :
    (∀ (cff : Option CffTable) (e : DataError),
      ofFontWithBounds { font with cff } = .error e ↔ ofFont font = .error e) ∧
    ∀ table, ofFont font = .ok table → ∃ filled failures,
      ofFontWithBounds font = .ok (filled, failures) ∧
      filled = { table with
        glyphs := table.glyphs.map fun g => g.setBounds (font.glyphBox? g.glyphId) } ∧
      (font.cff = none → failures = []) ∧
      ∀ cff, font.cff = some cff →
        ListsFailures cff.glyphBounds (table.glyphs.map GlyphMetrics.glyphId) failures := by
  refine ⟨fun cff e => ?_, fun table htable => ?_⟩
  · have hplain : ofFont { font with cff } = ofFont font := rfl
    unfold ofFontWithBounds
    rw [hplain]
    cases ofFont font with
    | error e' => simp
    | ok table => cases cff <;> simp
  · have hplain := setBounds_none_of_ofFont htable
    unfold ofFontWithBounds FontDescription.glyphBox?
    rw [htable]
    cases hcff : font.cff with
    | none =>
      have hsame : table.glyphs.map (fun g => g.setBounds none) = table.glyphs := by
        rw [List.map_congr_left hplain, List.map_id']
      refine ⟨table, [], rfl, ?_, fun _ => rfl, fun _ h => by cases h⟩
      simp only [Option.bind_none, hsame]
    | some cff =>
      obtain ⟨failures, hfilled, hfailures⟩ := table.addBounds_eq cff
      refine ⟨_, failures, congrArg Except.ok hfilled, ?_, fun h => (by cases h), fun _ h => ?_⟩
      · rw [List.map_congr_left fun g hg => applyBounds_eq_setBounds (hplain g hg) _]
        rfl
      · cases h
        exact hfailures

/-- A font in which a glyph that fails and one that draws are each shown by two characters. -/
theorem ofFontWithBounds_entrywise_repeated :
    let font : FontDescription :=
      { head := ⟨1000⟩
        os2 := ⟨none, none, none, 0, 0, 0, 0, 0, 0, 0, 0⟩
        post := ⟨0⟩
        hmtx := #[⟨500, 0⟩, ⟨600, 10⟩, ⟨700, 20⟩]
        cmap := ⟨[⟨0, 12, [⟨65, 66, 1⟩, ⟨97, 98, 1⟩], []⟩]⟩
        cff := some ⟨#[], ⟨false, ⟨none⟩, #[[14], [139, 10], [149, 159, 5, 14]]⟩⟩ }
    ∃ table filled failures, ofFont font = .ok table ∧
      table.glyphs.map GlyphMetrics.glyphId = [0, 1, 2, 1, 2] ∧
      ofFontWithBounds font = .ok (filled, failures) ∧
      filled = { table with
        glyphs := table.glyphs.map fun g => g.setBounds (font.glyphBox? g.glyphId) } := by
  intro font
  obtain ⟨table, htable, hids⟩ : ∃ table, ofFont font = .ok table ∧
      table.glyphs.map GlyphMetrics.glyphId = [0, 1, 2, 1, 2] := ⟨_, rfl, rfl⟩
  obtain ⟨filled, failures, hok, hfilled, -⟩ := (ofFontWithBounds_entrywise font).2 table htable
  exact ⟨table, filled, failures, htable, hids, hok, hfilled⟩

end MetricsTable

end FontMetrics
