import FontMetrics.Font.Cmap
import FontMetrics.Proofs.Checked.Result

/-!
# Character maps in machine words

The mappings of a table of groups are computed by two nested loops, over the groups and over the
characters of each group.  Characters are words of 32 bits, and so are glyph ids before they are
narrowed to 16 bits.  The loop over the characters includes the last one, which may be the last word
of all.
-/

namespace FontMetrics

/-- No code is in a range whose last code comes before the first. -/
theorem codeRange_of_lt {first last : Nat} (h : last < first) : codeRange first last = [] := by
  rw [codeRange, Nat.sub_eq_zero_of_le h, List.range'_zero]

/-- The first code of a range comes before the others. -/
theorem codeRange_cons {first last : Nat} (h : first ≤ last) :
    codeRange first last = first :: codeRange (first + 1) last := by
  have hlength : last + 1 - first = (last + 1 - (first + 1)) + 1 := by omega
  rw [codeRange, hlength, List.range'_succ, codeRange]

/-- A range goes from its first code to its last. -/
theorem mem_codeRange {first last code : Nat} :
    code ∈ codeRange first last ↔ first ≤ code ∧ code ≤ last := by
  rw [codeRange, List.mem_range'_1]
  omega

/-- A range has the last code too. -/
@[simp] theorem length_codeRange (first last : Nat) :
    (codeRange first last).length = last + 1 - first := List.length_range'

/-- What is left of a range of words that includes its last one.  There may be no word behind that
one, so the range has a flag that tells when it has been taken. -/
structure WordRange where
  /-- The first word that is left. -/
  first : Nat
  /-- The last word. -/
  last : Nat
  /-- The last word has been taken. -/
  exhausted : Bool
  deriving DecidableEq, Repr

namespace WordRange

variable {ε σ : Type}

/-- The words that are left. -/
def words (r : WordRange) : List Nat := if r.exhausted then [] else codeRange r.first r.last

/-- Takes the first of the words of `bits` bits that are left. -/
def next (bits : Nat) (r : WordRange) : Checked ε (Option (Nat × WordRange)) :=
  if r.exhausted || r.last < r.first then
    pure none
  else if r.first < r.last then do
    let second ← Checked.add bits r.first 1
    return some (r.first, { r with first := second })
  else
    pure (some (r.first, { r with exhausted := true }))

/-- No more words are left than come up to the last one. -/
theorem length_words_le (r : WordRange) : r.words.length ≤ r.last + 1 := by
  unfold words
  split
  · exact Nat.zero_le _
  · rw [length_codeRange]
    omega

private theorem next_of_nil {bits : Nat} {r : WordRange} (h : r.words = []) :
    (r.next bits : Checked ε (Option (Nat × WordRange))) = pure none := by
  obtain ⟨first, last, exhausted⟩ := r
  cases exhausted with
  | true => rfl
  | false =>
    change codeRange first last = [] at h
    have hlt : last < first := by
      apply Nat.lt_of_not_le
      intro hle
      rw [codeRange_cons hle] at h
      cases h
    simp [next, hlt]

/-- Taking a word does not leave the words, whether or not it is the last one. -/
theorem next_of_cons {bits w : Nat} {r : WordRange} {rest : List Nat} (h : r.words = w :: rest)
    (hlast : r.last < Nat.pow 2 bits) :
    ∃ r' : WordRange, (r.next bits : Checked ε (Option (Nat × WordRange))) = pure (some (w, r')) ∧
      r'.words = rest ∧ r'.last = r.last := by
  obtain ⟨first, last, exhausted⟩ := r
  cases exhausted with
  | true => cases h
  | false =>
    change codeRange first last = w :: rest at h
    change last < _ at hlast
    have hle : first ≤ last := by
      apply Nat.le_of_not_lt
      intro hlt
      rw [codeRange_of_lt hlt] at h
      cases h
    rw [codeRange_cons hle] at h
    obtain ⟨rfl, rfl⟩ := List.cons.inj h
    -- The word behind the first one is only needed, and only sure to exist, if that is not the last.
    by_cases hlt : first < last
    · refine ⟨⟨first + 1, last, false⟩, ?_, rfl, rfl⟩
      have hadd : (Checked.add bits first 1 : Checked ε Nat) = pure (first + 1) :=
        Checked.add_eq (by omega)
      simp [next, hlt, Nat.not_lt.mpr hle, hadd]
    · refine ⟨⟨first, last, true⟩, ?_, ?_, rfl⟩
      · simp [next, hlt, Nat.not_lt.mpr hle]
      · exact (codeRange_of_lt (by omega)).symm

/-- One round of a loop over a range: the computation is done for the next word. -/
def round (bits : Nat) (f : σ → Nat → Checked ε σ) (state : WordRange × σ) :
    Checked ε (ForInStep (WordRange × σ)) := do
  match ← state.1.next bits with
  | none => return .done state
  | some (w, r) => return .yield (r, ← f state.2 w)

/-- Repeats a computation for every word that is left.  No range has more words than there are. -/
def forEach (bits : Nat) (f : σ → Nat → Checked ε σ) (r : WordRange) (s : σ) : Checked ε σ := do
  let state ← Checked.loop (round bits f) (Nat.pow 2 bits + 1) (r, s)
  return state.2

variable {bits rounds : Nat} {f : σ → Nat → Checked ε σ}

/-- With a round more than words, the loop goes through the words and ends. -/
private theorem loop_round {words : List Nat} {r : WordRange} (hwords : r.words = words)
    (hlast : r.last < Nat.pow 2 bits) (hrounds : words.length < rounds) (s : σ) :
    (Checked.loop (round bits f) rounds (r, s) >>= fun state => pure state.2) =
      words.foldlM f s := by
  -- Every round takes one of the words that are left, and one more round notices that none is.
  induction words generalizing r s rounds with
  | nil =>
    obtain _ | rounds := rounds
    · cases hrounds
    · have hround : round bits f (r, s) = pure (.done (r, s)) := by
        rw [round, next_of_nil hwords, pure_bind]
      rw [Checked.loop_of_done hround, pure_bind, List.foldlM_nil]
  | cons w rest ih =>
    obtain _ | rounds := rounds
    · cases hrounds
    · obtain ⟨r', hnext, hrest, hlast'⟩ := next_of_cons (ε := ε) hwords hlast
      have hround : round bits f (r, s) = f s w >>= fun s' => pure (.yield (r', s')) := by
        rw [round, hnext, pure_bind]
      rw [Checked.loop, hround, List.foldlM_cons, bind_assoc, bind_assoc]
      refine congrArg (f s w >>= ·) (funext fun s' => ?_)
      rw [pure_bind]
      exact ih hrest (hlast'.symm ▸ hlast) (Nat.lt_of_succ_lt_succ hrounds) s'

/-- The loop comes to its end by itself, after it has gone through the words in their order. -/
theorem forEach_eq_foldlM {r : WordRange} (hlast : r.last < Nat.pow 2 bits) (s : σ) :
    forEach bits f r s = r.words.foldlM f s := by
  have hlength := r.length_words_le
  exact loop_round rfl hlast (by omega) s

example : forEach 2 (fun s w => pure (s ++ [w])) ⟨1, 3, false⟩ [] =
    (pure [1, 2, 3] : Checked Unit (List Nat)) := rfl

end WordRange

/-- A number that has to fit into a word of `bits` bits, or else there is an error. -/
def Checked.fitting {ε : Type} (bits : Nat) (e : ε) (n : Nat) : Checked ε Nat :=
  if n < Nat.pow 2 bits then pure n else throw e

/-- A computation goes on with a number that fits into a word, and fails with the error
otherwise. -/
theorem Checked.fitting_bind {ε β : Type} {bits : Nat} {e : ε} {n : Nat}
    (f : Nat → Checked ε β) :
    (Checked.fitting bits e n >>= f) = if n < Nat.pow 2 bits then f n else throw e := by
  unfold Checked.fitting
  split
  · rw [pure_bind]
  · rfl

namespace CharGroup

/-- Appends the mapping of a character. -/
def checkedMapping (g : CharGroup) (mappings : List GlyphMapping) (code : Nat) :
    Checked DataError (List GlyphMapping) := do
  let offset ← Checked.sub code g.startCharCode.toNat
  let glyph ← Checked.fitting 32 .badValue (offset + g.startGlyphId.toNat)
  let glyph ← Checked.fitting 16 .badValue glyph
  return mappings ++ [⟨UInt16.ofNat glyph, some (UInt32.ofNat code)⟩]

/-- Appends the mappings of the characters of a group, one after another. -/
def checkedMappings (mappings : List GlyphMapping) (g : CharGroup) :
    Checked DataError (List GlyphMapping) :=
  WordRange.forEach 32 g.checkedMapping ⟨g.startCharCode.toNat, g.endCharCode.toNat, false⟩ mappings

/-- The characters of the group. -/
def codes (g : CharGroup) : List Nat := codeRange g.startCharCode.toNat g.endCharCode.toNat

/-- The glyph for a character, which may lie behind the last possible one. -/
def glyph (g : CharGroup) (code : Nat) : Nat :=
  g.startGlyphId.toNat + (code - g.startCharCode.toNat)

/-- The last glyph of the group, if it has any, is a word of 16 bits. -/
def Fits (g : CharGroup) : Prop :=
  g.startCharCode.toNat ≤ g.endCharCode.toNat →
    g.startGlyphId.toNat + (g.endCharCode.toNat - g.startCharCode.toNat) ≤ 65535

instance (g : CharGroup) : Decidable g.Fits := inferInstanceAs (Decidable (_ → _))

variable {g : CharGroup}

/-- The sum that gives a glyph is compared with the range of glyphs before it is narrowed. -/
private theorem checkedMapping_eq {code : Nat} (hcode : g.startCharCode.toNat ≤ code)
    (mappings : List GlyphMapping) :
    g.checkedMapping mappings code =
      if g.glyph code ≤ 65535 then pure (mappings ++ [g.mapping code]) else throw .badValue := by
  have hcomm : code - g.startCharCode.toNat + g.startGlyphId.toNat = g.glyph code :=
    Nat.add_comm _ _
  rw [checkedMapping, Checked.sub_eq hcode, pure_bind, hcomm, Checked.fitting_bind,
    Checked.fitting_bind]
  by_cases hglyph : g.glyph code ≤ 65535
  · have hsixteen : g.glyph code < Nat.pow 2 16 := Nat.lt_succ_of_le hglyph
    have hthirtytwo : g.glyph code < Nat.pow 2 32 := Nat.lt_trans hsixteen (by decide)
    rw [if_pos hthirtytwo, if_pos hsixteen, if_pos hglyph]
    rfl
  · have hsixteen : ¬ g.glyph code < Nat.pow 2 16 := fun h => hglyph (Nat.le_of_lt_succ h)
    rw [if_neg hsixteen, ite_self, if_neg hglyph]

/-- The first character without a glyph ends the loop with an error. -/
theorem foldlM_checkedMapping {codes : List Nat} (hcodes : ∀ c ∈ codes, g.startCharCode.toNat ≤ c)
    (mappings : List GlyphMapping) :
    codes.foldlM g.checkedMapping mappings =
      if ∀ c ∈ codes, g.glyph c ≤ 65535 then pure (mappings ++ codes.map g.mapping)
      else throw .badValue := by
  induction codes generalizing mappings with
  | nil => simp
  | cons c rest ih =>
    obtain ⟨hc, hrest⟩ := List.forall_mem_cons.mp hcodes
    rw [List.foldlM_cons, checkedMapping_eq hc]
    by_cases hglyph : g.glyph c ≤ 65535
    · rw [if_pos hglyph, pure_bind, ih hrest]
      simp only [List.forall_mem_cons, hglyph, true_and, List.map_cons, List.append_assoc,
        List.singleton_append]
    · have hnot : ¬ ∀ c' ∈ c :: rest, g.glyph c' ≤ 65535 :=
        fun hall => hglyph (hall c List.mem_cons_self)
      rw [if_neg hglyph, if_neg hnot]
      rfl

/-- The glyphs of a group go up, so that the last one tells whether all of them are possible. -/
theorem fits_iff (g : CharGroup) : g.Fits ↔ ∀ c ∈ g.codes, g.glyph c ≤ 65535 := by
  constructor
  · intro h c hc
    have hrange := mem_codeRange.mp hc
    have hlast := h (Nat.le_trans hrange.1 hrange.2)
    unfold glyph
    omega
  · intro h hle
    exact h g.endCharCode.toNat (mem_codeRange.mpr ⟨hle, Nat.le_refl _⟩)

/-- The mappings of a group, if its glyphs are possible. -/
theorem mappings_eq (g : CharGroup) :
    g.mappings = if g.Fits then .ok (g.codes.map g.mapping) else .error .badValue := by
  unfold mappings
  by_cases hlt : g.endCharCode.toNat < g.startCharCode.toNat
  · have hfits : g.Fits := fun hle => absurd hlt (Nat.not_lt.mpr hle)
    rw [if_pos hlt, if_pos hfits, codes, codeRange_of_lt hlt, List.map_nil]
  · rw [if_neg hlt]
    refine ite_congr (propext ?_) (fun _ => rfl) (fun _ => rfl)
    constructor
    · intro hlast _
      exact Nat.le_of_lt_succ hlast
    · intro hfits
      exact Nat.lt_succ_of_le (hfits (Nat.not_lt.mp hlt))

/-- The loop over the characters of a group neither faults nor goes on for ever. -/
theorem agrees_checkedMappings (g : CharGroup) (mappings : List GlyphMapping) :
    Checked.Agrees Eq (checkedMappings mappings g) ((mappings ++ ·) <$> g.mappings) := by
  have hlast : g.endCharCode.toNat < Nat.pow 2 32 := g.endCharCode.toNat_lt
  rw [checkedMappings, WordRange.forEach_eq_foldlM hlast]
  change Checked.Agrees Eq (g.codes.foldlM g.checkedMapping mappings) _
  have hcodes : ∀ c ∈ g.codes, g.startCharCode.toNat ≤ c := fun c hc => (mem_codeRange.mp hc).1
  rw [foldlM_checkedMapping hcodes, mappings_eq]
  simp only [fits_iff]
  split
  · exact .ok rfl
  · exact .error _

end CharGroup

namespace Cmap

/-- The glyph for missing characters, followed by the mappings of the groups one after another. -/
def checkedGroupMappings (groups : List CharGroup) : Checked DataError (List GlyphMapping) :=
  groups.foldlM CharGroup.checkedMappings [notdef]

private theorem groupMappings_cons (g : CharGroup) (rest : List CharGroup)
    (mappings : List GlyphMapping) :
    (mappings ++ ·) <$> groupMappings (g :: rest) =
      (mappings ++ ·) <$> g.mappings >>= fun front => (front ++ ·) <$> groupMappings rest := by
  rw [groupMappings]
  cases g.mappings with
  | error e => rfl
  | ok front =>
    cases groupMappings rest with
    | error e => rfl
    | ok back => exact congrArg Except.ok (List.append_assoc mappings front back).symm

/-- The loop over the groups adds the mappings of each, by induction on the groups. -/
private theorem agrees_foldlM_checkedMappings (groups : List CharGroup)
    (mappings : List GlyphMapping) :
    Checked.Agrees Eq (groups.foldlM CharGroup.checkedMappings mappings)
      ((mappings ++ ·) <$> groupMappings groups) := by
  induction groups generalizing mappings with
  | nil =>
    rw [List.foldlM_nil]
    exact .ok (List.append_nil _).symm
  | cons g rest ih =>
    rw [List.foldlM_cons, groupMappings_cons]
    apply (g.agrees_checkedMappings mappings).bind
    rintro front _ rfl
    exact ih front

/-- The loops over groups and characters do not fault, and come to the mappings of the groups. -/
theorem agrees_checkedGroupMappings (groups : List CharGroup) :
    Checked.Agrees Eq (checkedGroupMappings groups) ((notdef :: ·) <$> groupMappings groups) :=
  agrees_foldlM_checkedMappings groups [notdef]

end Cmap

end FontMetrics
