import Mathlib.Data.Int.ModEq
import Mathlib.Tactic.SplitIfs
import FontMetrics.Proofs.Font.CharacterMap

/-!
# Character maps with segments

A segment gives its characters glyphs by adding a delta and keeping the low 16 bits of the sum, a
signed word of 32 bits.  This is the residue of the sum modulo `2 ^ 16`, also where the delta is
negative, so that a delta may just as well be written as an unsigned number.
-/

namespace FontMetrics

/-- The low 16 bits of a word in two's complement are its residue, which is never negative. -/
theorem toInt_and_low (n : Int32) : (n &&& 0xFFFF).toInt = n.toInt % 65536 := by
  have hbits : (n &&& 0xFFFF).toBitVec.toNat = n.toBitVec.toNat % 65536 := by
    rw [Int32.toBitVec_and, BitVec.toNat_and]
    exact Nat.and_two_pow_sub_one_eq_mod n.toBitVec.toNat 16
  have hsmall : 2 * (n &&& 0xFFFF).toBitVec.toNat < 2 ^ 32 := by
    have hlt := Nat.mod_lt n.toBitVec.toNat (show 0 < 65536 by decide)
    omega
  -- The two readings of a word, with and without a sign, differ by a multiple of `2 ^ 32`.
  have hsign : (n.toBitVec.toNat : Int) % 65536 = n.toInt % 65536 := by
    rw [← Int32.toInt_toBitVec, BitVec.toInt_eq_toNat_cond]
    split_ifs <;> omega
  rw [← Int32.toInt_toBitVec, BitVec.toInt_eq_toNat_of_lt hsmall, hbits, Int.natCast_mod]
  exact hsign

/-- A number that has to fit into an unsigned word of `bits` bits, or else there is an error. -/
def Checked.fittingUnsigned {ε : Type} (bits : Nat) (e : ε) (n : Int) : Checked ε Nat :=
  if 0 ≤ n then Checked.fitting bits e n.toNat else throw e

/-- A loop that appends something for every element, without fail, comes to all of it in order. -/
theorem Checked.foldlM_append {ε α β : Type} {f : List β → α → Checked ε (List β)}
    {g : α → List β} {xs : List α} (h : ∀ x ∈ xs, ∀ front, f front x = pure (front ++ g x))
    (front : List β) : xs.foldlM f front = pure (front ++ xs.flatMap g) := by
  induction xs generalizing front with
  | nil => rw [List.foldlM_nil, List.flatMap_nil, List.append_nil]
  | cons x rest ih =>
    obtain ⟨hx, hrest⟩ := List.forall_mem_cons.mp h
    rw [List.foldlM_cons, hx, pure_bind, ih hrest, List.flatMap_cons, List.append_assoc]

namespace CharSegment

/-- Appends the mapping of a character.  The sum is a signed word, as is what its low bits give. -/
def checkedMapping (s : CharSegment) (mappings : List GlyphMapping) (code : Nat) :
    Checked DataError (List GlyphMapping) := do
  let sum ← Checked.signed 32 (code + s.idDelta.toInt)
  let glyph ← Checked.fittingUnsigned 16 .badValue (Int32.ofInt sum &&& 0xFFFF).toInt
  return mappings ++ [⟨UInt16.ofNat glyph, some (UInt32.ofNat code)⟩]

/-- Appends the mappings of the characters of a segment, one after another. -/
def checkedMappings (mappings : List GlyphMapping) (s : CharSegment) :
    Checked DataError (List GlyphMapping) :=
  WordRange.forEach 16 s.checkedMapping ⟨s.startCode.toNat, s.endCode.toNat, false⟩ mappings

/-- The characters of the segment. -/
def codes (s : CharSegment) : List Nat := codeRange s.startCode.toNat s.endCode.toNat

/-- The glyph for a character. -/
def glyph (s : CharSegment) (code : Nat) : Nat := ((code + s.idDelta.toInt) % 65536).toNat

/-- The glyphs and characters of the segment in their order. -/
def entries (s : CharSegment) : List (Nat × Option Nat) := s.codes.map fun c => (s.glyph c, some c)

/-- The sums of the delta and the characters are signed words of 32 bits. -/
def SumsFit (s : CharSegment) : Prop :=
  ∀ c : Nat, s.startCode.toNat ≤ c → c ≤ s.endCode.toNat →
    -2 ^ 31 ≤ c + s.idDelta.toInt ∧ c + s.idDelta.toInt < 2 ^ 31

/-- It is enough to look at the first and the last character. -/
theorem sumsFit_iff (s : CharSegment) :
    s.SumsFit ↔ (s.startCode.toNat ≤ s.endCode.toNat →
      -2 ^ 31 ≤ s.startCode.toNat + s.idDelta.toInt ∧
        s.endCode.toNat + s.idDelta.toInt < 2 ^ 31) := by
  constructor
  · intro h hle
    exact ⟨(h _ (Nat.le_refl _) hle).1, (h _ hle (Nat.le_refl _)).2⟩
  · intro h c hfirst hlast
    obtain ⟨hlow, hhigh⟩ := h (Nat.le_trans hfirst hlast)
    omega

instance (s : CharSegment) : Decidable s.SumsFit := decidable_of_iff' _ s.sumsFit_iff

variable {s : CharSegment}

/-- The glyph is the one word of 16 bits that is congruent to the sum. -/
theorem glyph_eq_iff {code glyph : Nat} :
    s.glyph code = glyph ↔ glyph < 65536 ∧ (glyph : Int) ≡ code + s.idDelta.toInt [ZMOD 65536] := by
  unfold CharSegment.glyph Int.ModEq
  omega

/-- A sum that is a word has a glyph, which is its residue. -/
theorem checkedMapping_eq {code : Nat} (hlow : -2 ^ 31 ≤ code + s.idDelta.toInt)
    (hhigh : code + s.idDelta.toInt < 2 ^ 31) (mappings : List GlyphMapping) :
    s.checkedMapping mappings code = pure (mappings ++ [s.mapping code]) := by
  have hsum : (Checked.signed 32 (code + s.idDelta.toInt) : Checked DataError Int) =
      pure (code + s.idDelta.toInt) := by
    rw [Checked.signed, Checked.require_of ⟨hlow, hhigh⟩, pure_bind]
  have hword : (Int32.ofInt (code + s.idDelta.toInt) &&& 0xFFFF).toInt =
      (code + s.idDelta.toInt) % 65536 := by
    rw [toInt_and_low, Int32.toInt_ofInt_of_le hlow hhigh]
  have hnonneg : 0 ≤ (code + s.idDelta.toInt) % 65536 := Int.emod_nonneg _ (by decide)
  have hfits : ((code + s.idDelta.toInt) % 65536).toNat < Nat.pow 2 16 :=
    (glyph_eq_iff.mp rfl).1
  rw [checkedMapping, hsum, pure_bind, hword, Checked.fittingUnsigned, if_pos hnonneg,
    Checked.fitting_bind, if_pos hfits]
  rfl

/-- The loop over the characters of a segment never fails. -/
theorem checkedMappings_eq (h : s.SumsFit) (mappings : List GlyphMapping) :
    checkedMappings mappings s = pure (mappings ++ s.mappings) := by
  have hlast : s.endCode.toNat < Nat.pow 2 16 := s.endCode.toNat_lt
  have hround : ∀ c ∈ s.codes, ∀ front,
      s.checkedMapping front c = pure (front ++ [s.mapping c]) := by
    intro c hc front
    obtain ⟨hfirst, hle⟩ := mem_codeRange.mp hc
    obtain ⟨hlow, hhigh⟩ := h c hfirst hle
    exact checkedMapping_eq hlow hhigh front
  rw [checkedMappings, WordRange.forEach_eq_foldlM hlast]
  change s.codes.foldlM s.checkedMapping mappings = _
  rw [Checked.foldlM_append hround, ← List.map_eq_flatMap]
  rfl

/-- Neither number of a mapping is cut off by its word. -/
private theorem numbers_mapping {code : Nat} (hcode : code ∈ s.codes) :
    (s.mapping code).numbers = (s.glyph code, some code) := by
  have hlast : code < 2 ^ 32 := by
    have hle := (mem_codeRange.mp hcode).2
    have hword := s.endCode.toNat_lt
    omega
  have hcodeNat : (UInt32.ofNat code).toNat = code := UInt32.toNat_ofNat_of_lt hlast
  have hglyphNat : (UInt16.ofNat (s.glyph code)).toNat = s.glyph code :=
    UInt16.toNat_ofNat_of_lt (glyph_eq_iff.mp rfl).1
  exact Prod.ext hglyphNat (congrArg some hcodeNat)

private theorem numbers_mappings (s : CharSegment) :
    s.mappings.map GlyphMapping.numbers = s.entries := by
  rw [mappings, List.map_map]
  exact List.map_congr_left fun c hc => numbers_mapping hc

/-- Which glyph shows which character, with nothing said of how the residue is found. -/
theorem mem_entries {code glyph : Nat} :
    (glyph, some code) ∈ s.entries ↔
      (s.startCode.toNat ≤ code ∧ code ≤ s.endCode.toNat) ∧
        glyph < 65536 ∧ (glyph : Int) ≡ code + s.idDelta.toInt [ZMOD 65536] := by
  rw [entries, List.mem_map, ← glyph_eq_iff, ← mem_codeRange]
  constructor
  · rintro ⟨c, hc, heq⟩
    obtain ⟨hglyph, rfl⟩ : s.glyph c = glyph ∧ c = code := by simpa using heq
    exact ⟨hc, hglyph⟩
  · rintro ⟨hcode, rfl⟩
    exact ⟨code, hcode, rfl⟩

/-- The segments have the same characters, and deltas with the same residue. -/
structure Congruent (s s' : CharSegment) : Prop where
  startCode : s.startCode = s'.startCode
  endCode : s.endCode = s'.endCode
  idDelta : s.idDelta.toInt ≡ s'.idDelta.toInt [ZMOD 65536]

instance (s s' : CharSegment) : Decidable (s.Congruent s') :=
  decidable_of_iff (s.startCode = s'.startCode ∧ s.endCode = s'.endCode ∧
      s.idDelta.toInt ≡ s'.idDelta.toInt [ZMOD 65536])
    ⟨fun ⟨hstart, hend, hdelta⟩ => ⟨hstart, hend, hdelta⟩,
      fun h => ⟨h.startCode, h.endCode, h.idDelta⟩⟩

/-- Only the residue of the delta matters. -/
theorem Congruent.mappings_eq {s s' : CharSegment} (h : s.Congruent s') :
    s.mappings = s'.mappings := by
  have hglyph : s.mapping = s'.mapping := by
    funext code
    have hsum : (code + s.idDelta.toInt) % UInt16.size = (code + s'.idDelta.toInt) % UInt16.size :=
      h.idDelta.add_left code
    rw [mapping, mapping, hsum]
  rw [mappings, mappings, hglyph, h.startCode, h.endCode]

end CharSegment

namespace Cmap

variable {cmap : Cmap} {platformId format : UInt16}

/-- The first table of a platform and format is the one that is found. -/
theorem find?_of_isFirst {table : CmapSubtable} (h : cmap.IsFirst platformId format table) :
    cmap.find? platformId format = some table := by
  obtain ⟨⟨hplatform, hformat⟩, before, after, htables, hbefore⟩ := h
  refine List.find?_eq_some_iff_append.mpr
    ⟨by simp [hplatform, hformat], before, after, htables, fun other hother => ?_⟩
  have hnot := hbefore other hother
  simpa [CmapSubtable.IsFor, imp_iff_not_or] using hnot

/-- No table is found if none is of the platform and format. -/
theorem find?_of_lacks (h : cmap.Lacks platformId format) :
    cmap.find? platformId format = none := by
  refine List.find?_eq_none.mpr fun table htable => ?_
  simpa [CmapSubtable.IsFor] using h table htable

/-- The glyph for missing characters, followed by the mappings of the segments one after another. -/
def checkedSegmentMappings (segments : List CharSegment) : Checked DataError (List GlyphMapping) :=
  segments.foldlM CharSegment.checkedMappings [notdef]

/-- The loops over segments and characters do not fault, and come to the mappings of all segments
in order. -/
theorem checkedSegmentMappings_eq {segments : List CharSegment}
    (h : ∀ s ∈ segments, s.SumsFit) :
    checkedSegmentMappings segments = pure (notdef :: segments.flatMap CharSegment.mappings) :=
  Checked.foldlM_append (fun s hs => CharSegment.checkedMappings_eq (h s hs)) [notdef]

/-- The mappings are the glyph for missing characters and all that the segments say. -/
structure EnumeratesSegments (segments : List CharSegment) (mappings : List GlyphMapping) :
    Prop where
  /-- The segments follow one another, each with its characters in their order. -/
  numbers : mappings.map GlyphMapping.numbers = (0, none) :: segments.flatMap CharSegment.entries
  /-- The characters of a segment are those from the first to the last one, which may be the last
  word of all, and go up. -/
  ascending : ∀ s ∈ segments, s.entries.map Prod.snd = s.codes.map some ∧
    s.codes.Pairwise (· < ·) ∧
    ∀ c, c ∈ s.codes ↔ s.startCode.toNat ≤ c ∧ c ≤ s.endCode.toNat
  /-- The glyph of a character is the residue of its sum with the delta. -/
  modular : ∀ s ∈ segments, ∀ code glyph, (glyph, some code) ∈ s.entries ↔
    (s.startCode.toNat ≤ code ∧ code ≤ s.endCode.toNat) ∧
      glyph < 65536 ∧ (glyph : Int) ≡ code + s.idDelta.toInt [ZMOD 65536]
  /-- Segments whose last character comes before the first contribute nothing. -/
  reversed : ∀ s ∈ segments, s.endCode.toNat < s.startCode.toNat → s.entries = []

private theorem enumeratesSegments (segments : List CharSegment) :
    EnumeratesSegments segments (notdef :: segments.flatMap CharSegment.mappings) where
  numbers := by
    rw [List.map_cons, List.map_flatMap]
    simp only [CharSegment.numbers_mappings]
    rfl
  ascending := by
    intro s _
    refine ⟨?_, List.pairwise_lt_range', fun c => mem_codeRange⟩
    rw [CharSegment.entries, List.map_map]
    rfl
  modular _ _ _ _ := CharSegment.mem_entries
  reversed := by
    intro s _ hlt
    rw [CharSegment.entries, CharSegment.codes, codeRange_of_lt hlt, List.map_nil]

/-- Segments with congruent deltas have the same mappings, one by one. -/
private theorem flatMap_mappings_congr {segments segments' : List CharSegment}
    (h : List.Forall₂ CharSegment.Congruent segments segments') :
    segments.flatMap CharSegment.mappings = segments'.flatMap CharSegment.mappings := by
  induction h with
  | nil => rfl
  | cons hs _ ih => rw [List.flatMap_cons, List.flatMap_cons, hs.mappings_eq, ih]

/-- Where there is no Unicode table of format 12, the mappings are those of the first one of format
4, if there is one.  Provided that the sums of its deltas and characters are words of 32 bits, the
loops over its segments and their characters end, without a fault or an error, with the glyph for
missing characters and, one segment after another, the characters with their sums modulo `2 ^ 16`.
Tables whose deltas are congruent have the same mappings, whatever other tables are there. -/
theorem glyphMappings_add_modulo {table : CmapSubtable} (hgroups : cmap.Lacks 0 12)
    (hsegments : cmap.IsFirst 0 4 table) (hfits : ∀ s ∈ table.segments, s.SumsFit) :
    (∃ mappings, cmap.glyphMappings = .ok mappings ∧
      checkedSegmentMappings table.segments = pure mappings ∧
      EnumeratesSegments table.segments mappings) ∧
    ∀ (cmap' : Cmap) (table' : CmapSubtable), cmap'.Lacks 0 12 → cmap'.IsFirst 0 4 table' →
      (∀ s ∈ table'.segments, s.SumsFit) →
      List.Forall₂ CharSegment.Congruent table.segments table'.segments →
      cmap'.glyphMappings = cmap.glyphMappings ∧
        checkedSegmentMappings table'.segments = checkedSegmentMappings table.segments := by
  have hmappings := glyphMappings_of_segments (find?_of_lacks hgroups) (find?_of_isFirst hsegments)
  have hloops := checkedSegmentMappings_eq hfits
  constructor
  · exact ⟨_, hmappings, hloops, enumeratesSegments table.segments⟩
  · intro cmap' table' hgroups' hsegments' hfits' hcongruent
    have hmappings' :=
      glyphMappings_of_segments (find?_of_lacks hgroups') (find?_of_isFirst hsegments')
    have hsame := flatMap_mappings_congr hcongruent
    exact ⟨by rw [hmappings', hmappings, hsame],
      by rw [checkedSegmentMappings_eq hfits', hloops, hsame]⟩

/-- A negative delta, a segment without characters and the last character of all, with the deltas
written with and without a sign and between other tables. -/
theorem glyphMappings_add_modulo_signed_unsigned :
    let signed : CmapSubtable := ⟨0, 4, [], [⟨97, 98, -96⟩, ⟨10, 9, 5⟩, ⟨65535, 65535, 1⟩]⟩
    let unsigned : CmapSubtable :=
      ⟨0, 4, [], [⟨97, 98, 65440⟩, ⟨10, 9, -65531⟩, ⟨65535, 65535, 65537⟩]⟩
    let cmap : Cmap := ⟨[⟨3, 12, [⟨65, 65, 9⟩], []⟩, ⟨3, 4, [], [⟨32, 32, 0⟩]⟩, signed,
      ⟨0, 4, [], [⟨48, 57, 0⟩]⟩]⟩
    let cmap' : Cmap := ⟨[⟨0, 6, [], []⟩, unsigned]⟩
    ∃ mappings, cmap.glyphMappings = .ok mappings ∧ cmap'.glyphMappings = .ok mappings ∧
      mappings.map GlyphMapping.numbers =
        [(0, none), (1, some 97), (2, some 98), (0, some 65535)] := by
  intro signed unsigned cmap cmap'
  have hgroups : cmap.Lacks 0 12 := lacks_of_find? rfl
  have hsegments : cmap.IsFirst 0 4 signed := isFirst_of_find? rfl
  obtain ⟨⟨mappings, hmappings, -, henumerates⟩, hsame⟩ :=
    glyphMappings_add_modulo hgroups hsegments (by decide)
  refine ⟨mappings, hmappings, ?_, henumerates.numbers⟩
  rw [← hmappings]
  have hcongruent : List.Forall₂ CharSegment.Congruent signed.segments unsigned.segments := by
    decide
  exact (hsame cmap' unsigned (lacks_of_find? rfl) (isFirst_of_find? rfl) (by decide)
    hcongruent).1

end Cmap

end FontMetrics
