import FontMetrics.Proofs.Charstring.Drawing
import FontMetrics.Proofs.Json.Printing
import FontMetrics.Proofs.Json.Record
import FontMetrics.Proofs.Table.Assembly
import FontMetrics.Table.Text

/-!
# What the text of a table tells

A metrics table is written with its members in a fixed order, and with no member for what is absent.
So a field is found again as the value of the member that has its key, in either form of the text,
and a table with finite bounds is determined by each of its texts.
-/

namespace FontMetrics

open Json
open Json.Output (integerMember optionalMember)

namespace Json

/-- The values of the members of an object that have a key. -/
def Value.valuesAt (key : String) : Value → List Value
  | .object members _ => valuesOf key members
  | _ => []

instance (name : String) : Decidable (IsPlain name) :=
  decidable_of_iff (name.toList.all isPlain = true) List.all_eq_true

namespace Output

/-- What is written with a key. -/
def lookup (key : String) (members : List (String × Output)) : List Output :=
  members.filterMap fun m => if m.1 = key then some m.2 else none

section Lookup

variable {β : Type} (key name : String)

/-- What is read with a key is what was written with it. -/
theorem valuesAt_value (members : List (String × Output)) :
    (object members).value.valuesAt key = (lookup key members).map value := by
  rw [value, memberValues_eq, Value.valuesAt, valuesOf, lookup, List.filterMap_map,
    List.map_filterMap]
  congr 1
  funext m
  by_cases h : m.1 = key <;> simp [h]

/-- Members behind others are found behind them. -/
@[simp] theorem lookup_append (members members' : List (String × Output)) :
    lookup key (members ++ members') = lookup key members ++ lookup key members' :=
  List.filterMap_append

@[simp] theorem lookup_nil : lookup key [] = [] := rfl

/-- The first member is found first. -/
@[simp] theorem lookup_cons (o : Output) (members : List (String × Output)) :
    lookup key ((name, o) :: members) = (if name = key then [o] else []) ++ lookup key members := by
  by_cases h : name = key <;> simp [lookup, h]

/-- A member that is left out is not found. -/
@[simp] theorem lookup_optionalMember (write : β → Output) (b : Option β) :
    lookup key (optionalMember name write b) = if name = key then (b.map write).toList else [] := by
  cases b <;> simp [optionalMember]

end Lookup

/-- The members can be written. -/
def LegibleMembers (members : List (String × Output)) : Prop :=
  ∀ m ∈ members, IsPlain m.1 ∧ m.2.Legible

namespace LegibleMembers

variable {β : Type} {name : String} {members members' : List (String × Output)}

/-- Two parts of an object that can be written can be written together. -/
theorem append (h : LegibleMembers members) (h' : LegibleMembers members') :
    LegibleMembers (members ++ members') := List.forall_mem_append.mpr ⟨h, h'⟩

/-- A member can be written if its key and its value can. -/
theorem singleton (hname : IsPlain name) {o : Output} (h : o.Legible) :
    LegibleMembers [(name, o)] := List.forall_mem_singleton.mpr ⟨hname, h⟩

/-- A member with an integer can be written. -/
theorem integer (hname : IsPlain name) (n : Int) : LegibleMembers (integerMember name n) :=
  singleton hname (.integer n)

/-- A member that may be left out can be written if its value can. -/
theorem optional (hname : IsPlain name) {write : β → Output} {b : Option β}
    (h : ∀ x ∈ b, (write x).Legible) : LegibleMembers (optionalMember name write b) := by
  cases b with
  | none => nofun
  | some x => exact singleton hname (h x rfl)

/-- An object can be written if its members can. -/
theorem legible (h : LegibleMembers members) : (object members).Legible :=
  .object (fun m hm => (h m hm).1) fun m hm => (h m hm).2

end LegibleMembers

end Output

end Json

open Json.Output (LegibleMembers lookup valuesAt_value)

/-- The side is absent or finite. -/
def IsFiniteSide (side : Option Float) : Prop := ∀ x ∈ side, x.isFinite = true

/-- A finite side can be written. -/
theorem IsFiniteSide.legible {side : Option Float} (h : IsFiniteSide side) :
    ∀ x ∈ side, (Output.ofFloat x).Legible :=
  fun x hx => .decimal (Binary64.isProper_ofFloat (h x hx))

/-- A side is determined by what is written for it, bit for bit. -/
theorem IsFiniteSide.eq_of_map {side side' : Option Float} (h : IsFiniteSide side)
    (heq : side.map Output.ofFloat = side'.map Output.ofFloat) : side = side' := by
  cases side with
  | none => exact (Option.map_eq_none_iff.mp heq.symm).symm
  | some x =>
    obtain ⟨y, rfl, hy⟩ := Option.map_eq_some_iff.mp heq.symm
    have hvalue : Binary64.ofFloat y = Binary64.ofFloat x := Output.decimal.inj hy
    rw [Binary64.eq_of_ofFloat_eq (h x rfl) hvalue.symm]

namespace GlyphMetrics

/-- The sides of the box that are there are finite. -/
structure HasFiniteBounds (g : GlyphMetrics) : Prop where
  /-- The left side. -/
  xMin : IsFiniteSide g.xMin
  /-- The right side. -/
  xMax : IsFiniteSide g.xMax
  /-- The lower side. -/
  yMin : IsFiniteSide g.yMin
  /-- The upper side. -/
  yMax : IsFiniteSide g.yMax

/-- The keys of the fields that may be absent, and whether they are there. -/
def optionalFields (g : GlyphMetrics) : List (String × Bool) :=
  [("charCode", g.charCode.isSome), ("xMin", g.xMin.isSome), ("xMax", g.xMax.isSome),
    ("yMin", g.yMin.isSome), ("yMax", g.yMax.isSome)]

/-- The metrics of a glyph with finite bounds can be written. -/
theorem legible_output {g : GlyphMetrics} (h : g.HasFiniteBounds) : g.output.Legible := by
  refine LegibleMembers.legible ?_
  refine .append (.append (.append (.append (.append (.append (.append ?_ ?_) ?_) ?_) ?_) ?_) ?_) ?_
  · exact .integer (by decide) _
  · exact .optional (by decide) fun _ _ => .integer _
  · exact .integer (by decide) _
  · exact .integer (by decide) _
  · exact .optional (by decide) h.xMin.legible
  · exact .optional (by decide) h.xMax.legible
  · exact .optional (by decide) h.yMin.legible
  · exact .optional (by decide) h.yMax.legible

/-- A field is read back exactly if it is there. -/
theorem valuesAt_output_ne_nil_iff (g : GlyphMetrics) :
    ∀ f ∈ g.optionalFields, g.output.value.valuesAt f.1 ≠ [] ↔ f.2 = true := by
  simp [optionalFields, output, valuesAt_value, integerMember, Option.isSome_iff_ne_none]

/-- The metrics of a glyph are determined by what is written for them. -/
theorem output_inj {g g' : GlyphMetrics} (h : g.HasFiniteBounds) (heq : g.output = g'.output) :
    g = g' := by
  have hlookup (key : String) :=
    congrArg (fun members => (lookup key members).head?) (Output.object.inj heq)
  simp only [integerMember] at hlookup
  have hglyphId : g.glyphId = g'.glyphId := by
    simpa [UInt16.toNat_inj] using hlookup "glyphId"
  have hcharCode : g.charCode.map (fun c => Output.integer c.toNat) =
      g'.charCode.map (fun c => Output.integer c.toNat) := by
    simpa using hlookup "charCode"
  rw [Option.map_inj_right fun c c' h => UInt32.toNat_inj.mp (by simpa using h)] at hcharCode
  have hadvance : g.advanceWidth = g'.advanceWidth := by
    simpa [UInt16.toNat_inj] using hlookup "advanceWidth"
  have hbearing : g.leftSideBearing = g'.leftSideBearing := by
    simpa [Int16.toInt_inj] using hlookup "leftSideBearing"
  have hxMin : g.xMin = g'.xMin := h.xMin.eq_of_map (by simpa using hlookup "xMin")
  have hxMax : g.xMax = g'.xMax := h.xMax.eq_of_map (by simpa using hlookup "xMax")
  have hyMin : g.yMin = g'.yMin := h.yMin.eq_of_map (by simpa using hlookup "yMin")
  have hyMax : g.yMax = g'.yMax := h.yMax.eq_of_map (by simpa using hlookup "yMax")
  exact (GlyphMetrics.mk.injEq ..).mpr
    ⟨hglyphId, hcharCode, hadvance, hbearing, hxMin, hxMax, hyMin, hyMax⟩

/-- So are those of several glyphs. -/
theorem map_output_inj {gs gs' : List GlyphMetrics} (h : ∀ g ∈ gs, g.HasFiniteBounds)
    (heq : gs.map output = gs'.map output) : gs = gs' := by
  induction gs generalizing gs' with
  | nil => exact (List.map_eq_nil_iff.mp heq.symm).symm
  | cons g gs ih =>
    rw [List.forall_mem_cons] at h
    obtain ⟨g', rest, rfl, hg, hrest⟩ := List.map_eq_cons_iff.mp heq.symm
    rw [output_inj h.1 hg.symm, ih h.2 hrest.symm]

/-- The bounds of an entry are finite if they are those of a finite box. -/
theorem hasFiniteBounds_setBounds (g : GlyphMetrics) {box : Option (Box Float)}
    (h : ∀ b ∈ box, b.isFinite = true) : (g.setBounds box).HasFiniteBounds := by
  have hside (side : Box Float → Float)
      (hfinite : ∀ b : Box Float, b.isFinite = true → (side b).isFinite = true) :
      IsFiniteSide (box.map side) := by
    intro x hx
    obtain ⟨b, hb, rfl⟩ := Option.map_eq_some_iff.mp hx
    exact hfinite b (h b hb)
  exact ⟨hside _ fun b hb => (b.isFinite_iff.mp hb).1,
    hside _ fun b hb => (b.isFinite_iff.mp hb).2.1,
    hside _ fun b hb => (b.isFinite_iff.mp hb).2.2.1,
    hside _ fun b hb => (b.isFinite_iff.mp hb).2.2.2⟩

end GlyphMetrics

/-- The bounds that outlines give are finite. -/
theorem CffTable.isFinite_of_glyphBounds {cff : CffTable} {glyphId : UInt16} {b : Box Float}
    (h : cff.glyphBounds glyphId = .ok (some b)) : b.isFinite = true := by
  unfold CffTable.glyphBounds at h
  split at h
  · cases h
  · exact Charstring.isFinite_of_glyphBounds h

namespace MetricsTable

/-- The sides of all boxes that are there are finite. -/
def HasFiniteBounds (t : MetricsTable) : Prop := ∀ g ∈ t.glyphs, g.HasFiniteBounds

/-- The keys of the fields that may be absent, and whether they are there. -/
def optionalFields (t : MetricsTable) : List (String × Bool) :=
  [("ascender", t.ascender.isSome), ("descender", t.descender.isSome),
    ("lineGap", t.lineGap.isSome)]

/-- A table with finite bounds can be written. -/
theorem legible_output {t : MetricsTable} (h : t.HasFiniteBounds) : t.output.Legible := by
  have hglyphs : (Output.array (t.glyphs.map GlyphMetrics.output)).Legible :=
    .array (List.forall_mem_map.mpr fun g hg => GlyphMetrics.legible_output (h g hg))
  refine LegibleMembers.legible ?_
  refine .append ?_ (.singleton (by decide) hglyphs)
  refine .append (.append (.append (.append (.append (.append (.append (.append (.append (.append
    (.append (.append ?_ ?_) ?_) ?_) ?_) ?_) ?_) ?_) ?_) ?_) ?_) ?_) ?_
  all_goals first
    | exact .integer (by decide) _
    | exact .optional (by decide) fun _ _ => .integer _

/-- A field is read back exactly if it is there. -/
theorem valuesAt_output_ne_nil_iff (t : MetricsTable) :
    ∀ f ∈ t.optionalFields, t.output.value.valuesAt f.1 ≠ [] ↔ f.2 = true := by
  simp [optionalFields, output, valuesAt_value, integerMember, Option.isSome_iff_ne_none]

/-- The metrics of the glyphs are read back. -/
theorem valuesAt_output_glyphs (t : MetricsTable) : t.output.value.valuesAt "glyphs" =
    [.array (t.glyphs.map fun g => g.output.value) .closed] := by
  have hvalue : (Output.array (t.glyphs.map GlyphMetrics.output)).value =
      .array (t.glyphs.map fun g => g.output.value) .closed := by
    rw [Output.value, Output.itemValues_eq, List.map_map]
    rfl
  rw [← hvalue, output, valuesAt_value]
  simp [integerMember]

/-- A table is determined by what is written for it. -/
theorem output_inj {t t' : MetricsTable} (h : t.HasFiniteBounds) (heq : t.output = t'.output) :
    t = t' := by
  have hlookup (key : String) :=
    congrArg (fun members => (lookup key members).head?) (Output.object.inj heq)
  simp only [integerMember] at hlookup
  have hsigned {n n' : Int16} (h : n.toInt = n'.toInt) : n = n' := Int16.toInt_inj.mp h
  have hoptional {n n' : Option Int16} (h : n.map Output.ofInt16 = n'.map Output.ofInt16) :
      n = n' := (Option.map_inj_right fun _ _ h => hsigned (Output.integer.inj h)).mp h
  have hglyphs : t.glyphs.map GlyphMetrics.output = t'.glyphs.map GlyphMetrics.output := by
    simpa using hlookup "glyphs"
  refine (MetricsTable.mk.injEq ..).mpr ⟨UInt16.toNat_inj.mp (by simpa using hlookup "unitsPerEm"),
    hoptional (by simpa using hlookup "ascender"), hoptional (by simpa using hlookup "descender"),
    hoptional (by simpa using hlookup "lineGap"),
    hsigned (by simpa using hlookup "subscriptXSize"),
    hsigned (by simpa using hlookup "subscriptYSize"),
    hsigned (by simpa using hlookup "subscriptXOffset"),
    hsigned (by simpa using hlookup "subscriptYOffset"),
    hsigned (by simpa using hlookup "superscriptXSize"),
    hsigned (by simpa using hlookup "superscriptYSize"),
    hsigned (by simpa using hlookup "superscriptXOffset"),
    hsigned (by simpa using hlookup "superscriptYOffset"),
    hsigned (by simpa using hlookup "underlinePosition"), ?_⟩
  exact GlyphMetrics.map_output_inj h hglyphs

/-- The metrics of a font have finite bounds. -/
theorem hasFiniteBounds_of_ofFontWithBounds {font : FontDescription} {t : MetricsTable}
    {failures : List GlyphFailure} (h : ofFontWithBounds font = .ok (t, failures)) :
    t.HasFiniteBounds := by
  unfold ofFontWithBounds at h
  split at h
  · cases h
  · next table htable =>
    have hplain := setBounds_none_of_ofFont htable
    split at h
    · next cff _ =>
      obtain ⟨failures', hfilled, -⟩ := table.addBounds_eq cff
      rw [hfilled] at h
      cases h
      refine List.forall_mem_map.mpr fun g hg => ?_
      rw [applyBounds_eq_setBounds (hplain g hg)]
      refine g.hasFiniteBounds_setBounds fun b hb => ?_
      cases hresult : cff.glyphBounds g.glyphId with
      | error e =>
        rw [hresult] at hb
        cases hb
      | ok box =>
        rw [hresult] at hb
        obtain rfl : box = some b := hb
        exact CffTable.isFinite_of_glyphBounds hresult
    · cases h
      intro g hg
      rw [← hplain g hg]
      exact g.hasFiniteBounds_setBounds nofun

/-- The text of a table in one of its two forms. -/
def text (t : MetricsTable) (compact : Bool) : String :=
  if compact then t.compactText else t.prettyText

/-- The text without blanks is one of the texts of the table. -/
private theorem spells_compactText {t : MetricsTable} (h : t.HasFiniteBounds) :
    Spells t.output.lexemes t.compactText.toList :=
  Output.spells_of_writes (Output.writes_compact (legible_output h))

/-- The text with blanks is one of the texts of the table. -/
private theorem spells_prettyText {t : MetricsTable} (h : t.HasFiniteBounds) :
    Spells t.output.lexemes t.prettyText.toList :=
  Output.spells_of_writes (Output.writes_pretty (legible_output h) 0)

/-- Either text of a table consists of its parts. -/
theorem spells_text {t : MetricsTable} (h : t.HasFiniteBounds) (compact : Bool) :
    Spells t.output.lexemes (t.text compact).toList := by
  rw [text]
  split
  · exact spells_compactText h
  · exact spells_prettyText h

/-- A table with finite bounds is determined by each of its texts. -/
theorem text_inj {t t' : MetricsTable} (h : t.HasFiniteBounds) (h' : t'.HasFiniteBounds)
    {compact compact' : Bool} (heq : t.text compact = t'.text compact') : t = t' := by
  have hspells := spells_text h compact
  rw [heq] at hspells
  exact output_inj h (Output.eq_of_spells (legible_output h) (legible_output h') hspells
    (spells_text h' compact'))

/-- The keys of an object and of the objects in its list of glyphs are those of the fields of a
table that are there; of the other fields there are none. -/
structure KeysIn (t : MetricsTable) (v : Value) : Prop where
  /-- The fields of the table. -/
  fields : ∀ f ∈ t.optionalFields, v.valuesAt f.1 ≠ [] ↔ f.2 = true
  /-- The fields of each of its entries. -/
  glyphs : ∃ items, v.valuesAt "glyphs" = [.array items .closed] ∧
    List.Forall₂ (fun (g : GlyphMetrics) (item : Value) =>
      ∀ f ∈ g.optionalFields, item.valuesAt f.1 ≠ [] ↔ f.2 = true) t.glyphs items

/-- The keys that are read are those of the fields that are there. -/
theorem keysIn_value (t : MetricsTable) : t.KeysIn t.output.value where
  fields := t.valuesAt_output_ne_nil_iff
  glyphs := by
    refine ⟨_, t.valuesAt_output_glyphs, ?_⟩
    rw [List.forall₂_map_right_iff, List.forall₂_same]
    exact fun g _ => g.valuesAt_output_ne_nil_iff

/-- The two texts of a table with finite bounds hold the same value, are the same without the blanks
outside of strings, and have the key of an optional field exactly if the field is there; each of
them determines the table, down to the bits of its bounds.  The tables of fonts have finite bounds,
so different ones have different texts. -/
theorem text_determines_table :
    (∀ t : MetricsTable, t.HasFiniteBounds →
      withoutBlanks t.prettyText = t.compactText ∧ withoutBlanks t.compactText = t.compactText ∧
      ∃ value : Value, Holds t.compactText.toUTF8.data.toList value ∧
        Holds t.prettyText.toUTF8.data.toList value ∧ t.KeysIn value) ∧
    (∀ t t' : MetricsTable, t.HasFiniteBounds → t'.HasFiniteBounds →
      ∀ compact compact', t.text compact = t'.text compact' → t = t') ∧
    ∀ (font font' : FontDescription) (t t' : MetricsTable) (failures failures' : List GlyphFailure),
      ofFontWithBounds font = .ok (t, failures) → ofFontWithBounds font' = .ok (t', failures') →
      ∀ compact compact', t.text compact = t'.text compact' → t = t' := by
  refine ⟨fun t h => ?_, fun t t' h h' _ _ => text_inj h h',
    fun font font' t t' failures failures' h h' _ _ => ?_⟩
  · have hlegible := legible_output h
    have hcompact := spells_compactText h
    have hpretty := spells_prettyText h
    exact ⟨Output.withoutBlanks_of_spells hlegible hpretty,
      Output.withoutBlanks_of_spells hlegible hcompact, t.output.value,
      Output.holds_of_spells hlegible hcompact, Output.holds_of_spells hlegible hpretty,
      t.keysIn_value⟩
  · exact text_inj (hasFiniteBounds_of_ofFontWithBounds h) (hasFiniteBounds_of_ofFontWithBounds h')

/-- Two fonts in which a glyph is drawn by one line and by two have the same text, and so the same
table. -/
theorem text_determines_table_two_drawings :
    let font (code : Bytes) : FontDescription :=
      { head := ⟨1000⟩
        os2 := ⟨some 750, none, some 200, 0, 0, 0, 0, 0, 0, 0, 0⟩
        post := ⟨-100⟩
        hmtx := #[⟨500, 0⟩, ⟨600, 10⟩]
        cmap := ⟨[⟨0, 12, [⟨65, 65, 1⟩], []⟩]⟩
        cff := some ⟨#[], ⟨false, ⟨none⟩, #[[14], code]⟩⟩ }
    ∃ t t' failures failures', ofFontWithBounds (font [149, 159, 5, 14]) = .ok (t, failures) ∧
      ofFontWithBounds (font [149, 6, 159, 7, 14]) = .ok (t', failures') ∧
      t.text true = t'.text true ∧ t = t' ∧
      withoutBlanks t.prettyText = t'.compactText := by
  intro font
  let cff (code : Bytes) : CffTable := ⟨#[], ⟨false, ⟨none⟩, #[[14], code]⟩⟩
  let table : MetricsTable :=
    ⟨1000, some 750, none, some 200, 0, 0, 0, 0, 0, 0, 0, 0, -100,
      [⟨0, none, 500, 0, none, none, none, none⟩, ⟨1, some 65, 600, 10, none, none, none, none⟩]⟩
  let filled (code : Bytes) : MetricsTable := { table with
    glyphs := table.glyphs.map fun g => g.applyBounds ((cff code).glyphBounds g.glyphId) }
  have hfilled (code : Bytes) :
      ∃ failures, ofFontWithBounds (font code) = .ok (filled code, failures) := by
    obtain ⟨failures, hadd, -⟩ := table.addBounds_eq (cff code)
    exact ⟨failures, congrArg Except.ok hadd⟩
  obtain ⟨failures, hline⟩ := hfilled [149, 159, 5, 14]
  obtain ⟨failures', hlines⟩ := hfilled [149, 6, 159, 7, 14]
  have htext : (filled [149, 159, 5, 14]).text true = (filled [149, 6, 159, 7, 14]).text true := by
    decide +kernel
  have hblanks := (text_determines_table.1 _ (hasFiniteBounds_of_ofFontWithBounds hline)).1
  exact ⟨_, _, failures, failures', hline, hlines, htext,
    text_determines_table.2.2 _ _ _ _ _ _ hline hlines true true htext, hblanks.trans htext⟩

end MetricsTable

end FontMetrics
