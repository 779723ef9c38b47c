import FontMetrics.Json.Decoder
import FontMetrics.Proofs.Json.Acceptance

/-!
# Decoders that look at everything

A decoder is strict if it only accepts values that keep the rules of the notation down to their
innermost parts, including those that it skips.  All decoders that are made from strict ones are
strict, and so are records with strict fields.  To decode a text strictly is to decode the value that
it holds.
-/

namespace FontMetrics.Json

variable {β γ : Type}

/-- Only what is closed may be used. -/
private theorem Ending.use_eq_ok_iff {ending : Ending} :
    ending.use = .ok () ↔ ending = .closed := by
  cases ending with
  | closed => exact iff_of_true rfl rfl
  | broken used skipped => exact iff_of_false nofun nofun

namespace Decoder

/-- Whatever is decoded keeps the rules of the notation. -/
def Strict (decoder : Decoder β) : Prop := ∀ value b, decoder value = .ok b → value.Complete

/-- An integer that is decoded is a complete number. -/
@[simp]
theorem strict_integer (lo hi : Int) : (integer lo hi).Strict := by
  intro value n h
  cases value with
  | number number => exact .number number
  | _ => cases h

/-- What is made of a decoded value has been decoded from a complete one. -/
@[simp]
theorem Strict.map {decoder : Decoder β} (h : decoder.Strict) (f : β → γ) :
    (decoder.map f).Strict := by
  intro value c hc
  rw [Decoder.map] at hc
  cases hb : decoder value with
  | error fault => simp [hb] at hc
  | ok b => exact h value b hb

/-- An absent value is complete, and a present one was decoded. -/
@[simp]
private theorem Strict.optional {decoder : Decoder β} (h : decoder.Strict) :
    decoder.optional.Strict := by
  intro value b hb
  cases value with
  | null => exact .null
  | _ => exact h.map some _ b hb

/-- Even what is ignored has to be complete. -/
@[simp]
private theorem strict_ignored : ignored.Strict := fun _ _ h => Value.skip_eq_ok_iff.mp h

/-- All items that a list has taken are complete, by induction on those to come. -/
private theorem Strict.of_itemsAfter {decoder : Decoder β} (h : decoder.Strict) {items : List Value}
    {earlier found : List β} (hfound : decoder.itemsAfter earlier items = .ok found) :
    ∀ value ∈ items, value.Complete := by
  induction items generalizing earlier with
  | nil => simp
  | cons value rest ih =>
    rw [itemsAfter] at hfound
    cases hb : decoder value with
    | error fault => simp [hb] at hfound
    | ok b =>
      rw [hb] at hfound
      exact List.forall_mem_cons.mpr ⟨h value b hb, ih hfound⟩

/-- A list that is decoded consists of complete items and is closed. -/
@[simp]
theorem Strict.list {decoder : Decoder β} (h : decoder.Strict) : decoder.list.Strict := by
  intro value found hfound
  cases value with
  | array items ending =>
    rw [Decoder.list] at hfound
    split at hfound
    · cases hfound
    · next reversed hitems =>
      split at hfound
      · cases hfound
      · next hending =>
        rw [Ending.use_eq_ok_iff.mp hending]
        exact .array (h.of_itemsAfter hitems)
  | _ => cases hfound

end Decoder

/-- A required field decodes as its decoder does. -/
@[simp]
theorem RecordField.required_decode (name : String) (decoder : Decoder β) :
    (required name decoder).decode = decoder := rfl

/-- A default does not change how a field that is there is decoded. -/
@[simp]
theorem RecordField.withDefault_decode (name : String) (decoder : Decoder β) (b : β) :
    (withDefault name decoder b).decode = decoder := rfl

namespace Record

/-- All fields are strict. -/
@[simp]
def Strict : {β : Type} → Record β → Prop
  | _, .make _ => True
  | _, .field fields last => fields.Strict ∧ last.decode.Strict

variable {r : Record β}

/-- The value that fills a slot is complete, whichever field takes it. -/
private theorem Strict.of_fill (h : r.Strict) {key : String} {value : Value}
    {slots slots' : r.Slots} (hfill : r.fill key value slots = some (.ok slots')) :
    value.Complete := by
  induction r with
  | make => cases hfill
  | @field β γ fields last ih =>
    obtain ⟨earlier, slot⟩ : fields.Slots × Option γ := slots
    by_cases hkey : key = last.name
    · simp only [fill, hkey, ite_true, Option.some.injEq] at hfill
      split at hfill
      · cases hfill
      · split at hfill
        · cases hfill
        · next b hb => exact h.2 value b hb
    · simp only [fill, hkey, ite_false] at hfill
      split at hfill
      · cases hfill
      · cases hfill
      · next hearlier => exact ih h.1 hearlier

/-- All members of an object that fills the slots are complete, unknown ones included. -/
private theorem Strict.of_fillAll (h : r.Strict) {members : List (Text × Value)}
    {slots slots' : r.Slots}
    (hfill : r.fillAll slots members = .ok slots') : ∀ m ∈ members, m.2.Complete := by
  fun_induction fillAll r slots members with
  | case1 => simp
  | case2 => cases hfill
  | case3 => cases hfill
  | case4 slots key value rest filled hvalue ih =>
    exact List.forall_mem_cons.mpr ⟨h.of_fill hvalue, ih hfill⟩
  | case5 => cases hfill
  | case6 slots key value rest hnone hskip ih =>
    exact List.forall_mem_cons.mpr ⟨Value.skip_eq_ok_iff.mp hskip, ih hfill⟩

/-- The items that the fields take from an array are complete, and the first of it. -/
private theorem Strict.of_takeItems (h : r.Strict) {ending : Ending} {items rest : List Value}
    {b : β} (htake : r.takeItems ending items = .ok (b, rest)) :
    ∃ taken, items = taken ++ rest ∧ ∀ value ∈ taken, value.Complete := by
  induction r generalizing rest with
  | make =>
    cases htake
    exact ⟨[], rfl, by simp⟩
  | @field β γ fields last ih =>
    rw [takeItems] at htake
    split at htake
    · cases htake
    · next f value rest' hearlier =>
      obtain ⟨taken, rfl, htaken⟩ := ih h.1 hearlier
      split at htake
      · cases htake
      · next x hx =>
        cases htake
        refine ⟨taken ++ [value], by simp, List.forall_mem_append.mpr ⟨htaken, ?_⟩⟩
        exact List.forall_mem_singleton.mpr (h.2 value x hx)
    · next f hearlier =>
      split at htake
      · cases htake
      · cases htake
        exact ih h.1 hearlier
      · cases htake

/-- A record with strict fields is strict, written as an object or as an array. -/
@[simp]
theorem strict_decode (h : r.Strict) : r.decode.Strict := by
  intro value b hb
  cases value with
  | object members ending =>
    rw [decode, ofMembers] at hb
    split at hb
    · cases hb
    · next slots hslots =>
      split at hb
      · cases hb
      · next hending =>
        rw [Ending.use_eq_ok_iff.mp hending]
        exact .object (h.of_fillAll hslots)
  | array items ending =>
    rw [decode, ofItems] at hb
    split at hb
    · cases hb
    · cases hb
    · next b' htake =>
      obtain ⟨taken, rfl, htaken⟩ := h.of_takeItems htake
      split at hb
      · cases hb
      · next hending =>
        rw [Ending.use_eq_ok_iff.mp hending, List.append_nil]
        exact .array htaken
  | _ => cases hb

end Record

/-- A strict decoder decodes the texts that hold a value which it decodes. -/
theorem Decoder.Strict.decode_eq_ok_iff {decoder : Decoder β} (h : decoder.Strict)
    {text : List UInt8} {b : β} :
    Json.decode decoder text = .ok b ↔ ∃ value, Holds text value ∧ decoder value = .ok b := by
  rw [Json.decode]
  constructor
  · intro hb
    cases hdecode : decoder (Document.ofBytes text).value with
    | error fault => simp [hdecode] at hb
    | ok found =>
      simp only [hdecode] at hb
      split at hb
      · cases hb
      · next htrailed =>
        cases hb
        refine ⟨_, holds_iff.mpr ⟨?_, h _ b hdecode⟩, hdecode⟩
        exact congrArg (Document.mk _) (eq_false_of_ne_true htrailed)
  · rintro ⟨value, htext, hb⟩
    rw [htext.ofBytes_eq, hb]
    rfl

end FontMetrics.Json
