import Mathlib.Algebra.Ring.Nat
import Mathlib.Data.List.Nodup
import FontMetrics.Proofs.Checked.CharacterMap

/-!
# The mappings of a character map

Which subtable the mappings are taken from, and which mappings these are.  A table of groups gives
the characters of each group in their order, one group after another; characters in several groups
are listed for each of them.  The table is of no use at all if one of its glyphs is impossible.
-/

namespace FontMetrics

/-- The table is one of the platform and format. -/
def CmapSubtable.IsFor (table : CmapSubtable) (platformId format : UInt16) : Prop :=
  table.platformId = platformId ∧ table.format = format

namespace Cmap

/-- The table is the first one of the platform and format. -/
structure IsFirst (cmap : Cmap) (platformId format : UInt16) (table : CmapSubtable) : Prop where
  /-- It is one of the platform and format. -/
  isFor : table.IsFor platformId format
  /-- No table before it is. -/
  none_before : ∃ before after, cmap.tables = before ++ table :: after ∧
    ∀ other ∈ before, ¬ other.IsFor platformId format

/-- No table is of the platform and format. -/
def Lacks (cmap : Cmap) (platformId format : UInt16) : Prop :=
  ∀ table ∈ cmap.tables, ¬ table.IsFor platformId format

variable {cmap : Cmap} {platformId format : UInt16}

/-- The table that the search finds is the first of its platform and format. -/
theorem isFirst_of_find? {table : CmapSubtable} (h : cmap.find? platformId format = some table) :
    cmap.IsFirst platformId format table := by
  obtain ⟨hfor, before, after, htables, hbefore⟩ := List.find?_eq_some_iff_append.mp h
  simp only [Bool.and_eq_true, decide_eq_true_eq] at hfor
  refine ⟨hfor, before, after, htables, fun other hother => ?_⟩
  have hnot := hbefore other hother
  simp only [Bool.not_eq_true', Bool.and_eq_false_iff, decide_eq_false_iff_not] at hnot
  rintro ⟨hplatform, hformat⟩
  exact hnot.elim (· hplatform) (· hformat)

/-- If the search finds no table, none is of the platform and format. -/
theorem lacks_of_find? (h : cmap.find? platformId format = none) :
    cmap.Lacks platformId format := by
  rintro table htable ⟨hplatform, hformat⟩
  have hnot := List.find?_eq_none.mp h table htable
  simp only [Bool.and_eq_true, decide_eq_true_eq] at hnot
  exact hnot ⟨hplatform, hformat⟩

end Cmap

/-- The glyph and the character as numbers. -/
def GlyphMapping.numbers (m : GlyphMapping) : Nat × Option Nat :=
  (m.glyphId.toNat, m.charCode.map UInt32.toNat)

namespace CharGroup

/-- The glyphs and characters of the group in their order. -/
def entries (g : CharGroup) : List (Nat × Option Nat) := g.codes.map fun c => (g.glyph c, some c)

/-- How many characters the group has. -/
def size (g : CharGroup) : Nat := g.endCharCode.toNat + 1 - g.startCharCode.toNat

/-- The group says that the glyph shows the character. -/
def Shows (g : CharGroup) (code glyph : Nat) : Prop :=
  g.startCharCode.toNat ≤ code ∧ code ≤ g.endCharCode.toNat ∧
    glyph = g.startGlyphId.toNat + (code - g.startCharCode.toNat)

instance (g : CharGroup) (code glyph : Nat) : Decidable (g.Shows code glyph) :=
  inferInstanceAs (Decidable (_ ∧ _ ∧ _))

variable {g : CharGroup}

/-- Neither number of a mapping is cut off by its word if the glyph fits. -/
private theorem numbers_mapping {code : Nat} (hcode : code ∈ g.codes)
    (hglyph : g.glyph code ≤ 65535) :
    (g.mapping code).numbers = (g.glyph code, some code) := by
  have hlast : code < 2 ^ 32 := Nat.lt_of_le_of_lt (mem_codeRange.mp hcode).2 g.endCharCode.toNat_lt
  have hcodeNat : (UInt32.ofNat code).toNat = code := UInt32.toNat_ofNat_of_lt hlast
  have hglyphNat : (UInt16.ofNat (g.glyph code)).toNat = g.glyph code :=
    UInt16.toNat_ofNat_of_lt (Nat.lt_succ_of_le hglyph)
  exact Prod.ext hglyphNat (congrArg some hcodeNat)

/-- A group that fits is listed as it is, without a number cut off. -/
private theorem numbers_mappings (h : g.Fits) :
    (g.codes.map g.mapping).map GlyphMapping.numbers = g.entries := by
  rw [List.map_map]
  apply List.map_congr_left
  intro c hc
  exact numbers_mapping hc ((fits_iff g).mp h c hc)

/-- The entries of a group are the pairs that it says. -/
theorem mem_entries {code glyph : Nat} : (glyph, some code) ∈ g.entries ↔ g.Shows code glyph := by
  unfold entries Shows
  rw [List.mem_map]
  constructor
  · rintro ⟨c, hc, heq⟩
    obtain ⟨rfl, rfl⟩ : g.glyph c = glyph ∧ c = code := by simpa using heq
    exact ⟨(mem_codeRange.mp hc).1, (mem_codeRange.mp hc).2, rfl⟩
  · rintro ⟨hfirst, hlast, rfl⟩
    exact ⟨code, mem_codeRange.mpr ⟨hfirst, hlast⟩, rfl⟩

/-- No entry of a group is listed twice, since the characters differ. -/
theorem nodup_entries (g : CharGroup) : g.entries.Nodup := by
  apply List.Nodup.map _ List.nodup_range'
  intro c c' h
  exact Option.some.inj (congrArg Prod.snd h)

/-- A group has one entry for each of its characters. -/
@[simp] theorem length_entries (g : CharGroup) : g.entries.length = g.size := by
  rw [entries, List.length_map, codes, length_codeRange, size]

/-- A group in which the last character comes before the first contributes nothing. -/
theorem entries_of_reversed (h : g.endCharCode.toNat < g.startCharCode.toNat) : g.entries = [] := by
  rw [entries, codes, codeRange_of_lt h, List.map_nil]

/-- An entry occurs in its group once or not at all. -/
theorem count_entries (g : CharGroup) (code glyph : Nat) :
    g.entries.count (glyph, some code) = if g.Shows code glyph then 1 else 0 := by
  rw [g.nodup_entries.count]
  exact if_congr mem_entries rfl rfl

/-- An entry occurs as often as there are groups that say it. -/
private theorem count_flatMap_entries (groups : List CharGroup) (code glyph : Nat) :
    (groups.flatMap entries).count (glyph, some code) = groups.countP (·.Shows code glyph) := by
  induction groups with
  | nil => rfl
  | cons g rest ih =>
    rw [List.flatMap_cons, List.count_append, List.countP_cons, ih, count_entries, Nat.add_comm]
    simp only [decide_eq_true_eq]

end CharGroup

namespace Cmap

/-- All groups are listed one after another, or none if some glyph does not fit. -/
private theorem groupMappings_eq (groups : List CharGroup) :
    groupMappings groups =
      if ∀ g ∈ groups, g.Fits then .ok (groups.flatMap fun g => g.codes.map g.mapping)
      else .error .badValue := by
  induction groups with
  | nil => simp [groupMappings]
  | cons g rest ih =>
    rw [groupMappings, CharGroup.mappings_eq, ih]
    by_cases hg : g.Fits
    · by_cases hrest : ∀ g ∈ rest, g.Fits
      · have hall : ∀ g' ∈ g :: rest, g'.Fits := List.forall_mem_cons.mpr ⟨hg, hrest⟩
        rw [if_pos hg, if_pos hrest, if_pos hall]
        rfl
      · have hnot : ¬ ∀ g' ∈ g :: rest, g'.Fits := fun hall => hrest (List.forall_mem_cons.mp hall).2
        rw [if_pos hg, if_neg hrest, if_neg hnot]
    · have hnot : ¬ ∀ g' ∈ g :: rest, g'.Fits := fun hall => hg (List.forall_mem_cons.mp hall).1
      rw [if_neg hg, if_neg hnot]

/-- The mappings are the glyph for missing characters and all that the groups say. -/
structure Enumerates (groups : List CharGroup) (mappings : List GlyphMapping) : Prop where
  /-- The groups follow one another, each with its characters in their order. -/
  numbers : mappings.map GlyphMapping.numbers = (0, none) :: groups.flatMap CharGroup.entries
  /-- The characters of a group are those from the first to the last one, and go up. -/
  ascending : ∀ g ∈ groups, g.codes.Pairwise (· < ·) ∧
    ∀ c, c ∈ g.codes ↔ g.startCharCode.toNat ≤ c ∧ c ≤ g.endCharCode.toNat
  /-- Groups whose last character comes before the first contribute nothing. -/
  reversed : ∀ g ∈ groups, g.endCharCode.toNat < g.startCharCode.toNat → g.entries = []
  /-- A mapping is listed as often as there are groups with it. -/
  count : ∀ code glyph, (mappings.map GlyphMapping.numbers).count (glyph, some code) =
    groups.countP (·.Shows code glyph)
  /-- Only the glyph for missing characters has no character. -/
  without_code : mappings.countP (·.charCode.isNone) = 1
  /-- There is one mapping more than the groups have characters. -/
  length : mappings.length = 1 + (groups.map CharGroup.size).sum

private theorem numbers_flatMap {groups : List CharGroup} (h : ∀ g ∈ groups, g.Fits) :
    (groups.flatMap fun g => g.codes.map g.mapping).map GlyphMapping.numbers =
      groups.flatMap CharGroup.entries := by
  rw [List.map_flatMap]
  apply List.flatMap_congr
  intro g hg
  exact CharGroup.numbers_mappings (h g hg)

private theorem enumerates_of_fits {groups : List CharGroup} (h : ∀ g ∈ groups, g.Fits) :
    Enumerates groups (notdef :: groups.flatMap fun g => g.codes.map g.mapping) := by
  have hnumbers : (notdef :: groups.flatMap fun g => g.codes.map g.mapping).map
      GlyphMapping.numbers = (0, none) :: groups.flatMap CharGroup.entries := by
    rw [List.map_cons, numbers_flatMap h]
    rfl
  constructor
  case numbers => exact hnumbers
  case ascending =>
    intro g _
    exact ⟨List.pairwise_lt_range', fun c => mem_codeRange⟩
  case reversed =>
    intro g _ hlt
    exact CharGroup.entries_of_reversed hlt
  case count =>
    intro code glyph
    rw [hnumbers, List.count_cons_of_ne (by simp), CharGroup.count_flatMap_entries]
  case without_code =>
    rw [List.countP_cons, List.countP_eq_zero.mpr]
    · rfl
    · intro m hm
      obtain ⟨g, -, hm⟩ := List.mem_flatMap.mp hm
      obtain ⟨c, -, rfl⟩ := List.mem_map.mp hm
      exact Bool.false_ne_true
  case length =>
    rw [← List.length_map GlyphMapping.numbers, hnumbers, List.length_cons, List.length_flatMap]
    simp only [CharGroup.length_entries, Nat.add_comm]

/-- A table of format 12 decides about the mappings, whatever other tables there are. -/
private theorem glyphMappings_of_groups {cmap : Cmap} {table : CmapSubtable}
    (h : cmap.find? 0 12 = some table) :
    cmap.glyphMappings = (notdef :: ·) <$> groupMappings table.groups := by
  unfold glyphMappings unicodePlatform
  rw [h]
  dsimp only
  cases groupMappings table.groups with
  | error e => rfl
  | ok mappings => rfl

/-- Without a table of format 12, one of format 4 decides. -/
theorem glyphMappings_of_segments {cmap : Cmap} {table : CmapSubtable}
    (hgroups : cmap.find? 0 12 = none) (h : cmap.find? 0 4 = some table) :
    cmap.glyphMappings = .ok (notdef :: table.segments.flatMap CharSegment.mappings) := by
  unfold glyphMappings unicodePlatform
  rw [hgroups, h]

private theorem glyphMappings_of_none {cmap : Cmap} (hgroups : cmap.find? 0 12 = none)
    (hsegments : cmap.find? 0 4 = none) : cmap.glyphMappings = .error .unsuitableCmap := by
  unfold glyphMappings unicodePlatform
  rw [hgroups, hsegments]

/-- The mappings are those of the first Unicode table of format 12, if there is one, and else those
of the first one of format 4; without either there are none.  In the first case the table is of use
exactly if every group that is not empty ends with a glyph id of 16 bits.  The loops over its groups
and their characters end, without a fault, with the same mappings or the same error. -/
theorem glyphMappings_enumerates (cmap : Cmap) :
    (∃ table, cmap.IsFirst 0 12 table ∧
      Checked.Agrees Eq (checkedGroupMappings table.groups) cmap.glyphMappings ∧
      if ∀ g ∈ table.groups, g.startCharCode.toNat ≤ g.endCharCode.toNat →
          g.startGlyphId.toNat + (g.endCharCode.toNat - g.startCharCode.toNat) ≤ 65535 then
        ∃ mappings, cmap.glyphMappings = .ok mappings ∧ Enumerates table.groups mappings
      else cmap.glyphMappings = .error .badValue) ∨
    (cmap.Lacks 0 12 ∧ ∃ table, cmap.IsFirst 0 4 table ∧
      cmap.glyphMappings = .ok (notdef :: table.segments.flatMap CharSegment.mappings)) ∨
    (cmap.Lacks 0 12 ∧ cmap.Lacks 0 4 ∧ cmap.glyphMappings = .error .unsuitableCmap) := by
  cases hgroups : cmap.find? 0 12 with
  | some table =>
    left
    have hmappings := glyphMappings_of_groups hgroups
    refine ⟨table, isFirst_of_find? hgroups, ?_, ?_⟩
    · rw [hmappings]
      exact agrees_checkedGroupMappings table.groups
    · rw [groupMappings_eq] at hmappings
      split
      · next hfits =>
        change ∀ g ∈ table.groups, g.Fits at hfits
        rw [if_pos hfits] at hmappings
        exact ⟨_, hmappings, enumerates_of_fits hfits⟩
      · next hnot =>
        change ¬ ∀ g ∈ table.groups, g.Fits at hnot
        rw [if_neg hnot] at hmappings
        exact hmappings
  | none =>
    right
    have hlacks := lacks_of_find? hgroups
    cases hsegments : cmap.find? 0 4 with
    | some table =>
      left
      exact ⟨hlacks, table, isFirst_of_find? hsegments, glyphMappings_of_segments hgroups hsegments⟩
    | none =>
      right
      exact ⟨hlacks, lacks_of_find? hsegments, glyphMappings_of_none hgroups hsegments⟩

end Cmap

end FontMetrics
