import Mathlib.Data.List.Nodup
import FontMetrics.Json.Decoder

/-!
# What a record is read from

Reading a record from the members of an object fills its fields one by one, in the order of the
members.  What comes out does not depend on that order: every field is read from the one value that
has its key, or is its default if there is none.  Read from an array, every field is read from the
item at its position, or is its default if the array is too short.  `Describes` says both.
-/

namespace FontMetrics.Json

variable {β γ δ : Type}

/-- The values of the members with a key, in their order. -/
def valuesOf (key : String) (members : List (Text × Value)) : List Value :=
  members.filterMap fun m => if m.1 = .ok key then some m.2 else none

/-- The first value with a key comes first. -/
theorem valuesOf_cons_self (key : String) (value : Value) (members : List (Text × Value)) :
    valuesOf key ((.ok key, value) :: members) = value :: valuesOf key members := by
  simp [valuesOf]

/-- A member with another key is passed over. -/
theorem valuesOf_cons_of_ne {key name : String} (h : name ≠ key) (value : Value)
    (members : List (Text × Value)) :
    valuesOf name ((.ok key, value) :: members) = valuesOf name members := by
  simp [valuesOf, h.symm]

/-- The values of two parts follow one another. -/
theorem valuesOf_append (key : String) (members members' : List (Text × Value)) :
    valuesOf key (members ++ members') = valuesOf key members ++ valuesOf key members' :=
  List.filterMap_append

/-- What a field may be read from: one value, or none if there is a default. -/
inductive RecordField.Reads (field : RecordField γ) : List Value → γ → Prop where
  /-- Its value is given. -/
  | given {value : Value} {x : γ} (h : field.decode value = .ok x) : Reads field [value] x
  /-- It is left out. -/
  | left_out {x : γ} (h : field.default? = some x) : Reads field [] x

/-- How reading some values changes what is known about a field. -/
inductive RecordField.Fills (field : RecordField γ) : Option γ → List Value → Option γ → Prop where
  /-- Without a value nothing changes. -/
  | nothing (slot : Option γ) : Fills field slot [] slot
  /-- One value makes the field known. -/
  | once {value : Value} {x : γ} (h : field.decode value = .ok x) : Fills field none [value] (some x)

namespace RecordField

variable {field : RecordField γ} {slot slot' : Option γ} {values values' : List Value} {x : γ}

/-- A field that is left out has its default. -/
theorem reads_nil_iff : field.Reads [] x ↔ field.default? = some x := by
  constructor
  · rintro (_ | h)
    exact h
  · exact .left_out

/-- A field that is given once has the value that it decodes to. -/
theorem reads_singleton_iff {value : Value} : field.Reads [value] x ↔ field.decode value = .ok x := by
  constructor
  · rintro (h | _)
    exact h
  · exact .given

/-- Without a value nothing is learnt about a field. -/
theorem fills_nil_iff : field.Fills slot [] slot' ↔ slot' = slot := by
  constructor
  · rintro ⟨⟩
    rfl
  · rintro rfl
    exact .nothing _

/-- A value is taken only for a field that is not known yet. -/
theorem fills_singleton_iff {value : Value} :
    field.Fills slot [value] slot' ↔
      slot = none ∧ ∃ x, field.decode value = .ok x ∧ slot' = some x := by
  constructor
  · rintro (_ | h)
    exact ⟨rfl, _, h, rfl⟩
  · rintro ⟨rfl, x, h, rfl⟩
    exact .once h

/-- Values may be read in two goes. -/
theorem fills_append_iff :
    field.Fills slot (values ++ values') slot' ↔
      ∃ mid, field.Fills slot values mid ∧ field.Fills mid values' slot' := by
  cases values with
  | nil => simp [fills_nil_iff]
  | cons value rest =>
    constructor
    · intro h
      generalize hall : value :: rest ++ values' = all at h
      cases h with
      | nothing => cases hall
      | once h =>
        obtain ⟨rfl, hnil⟩ := List.cons.inj hall
        obtain ⟨rfl, rfl⟩ := List.append_eq_nil_iff.mp hnil
        exact ⟨_, .once h, .nothing _⟩
    · rintro ⟨mid, hfirst, hsecond⟩
      cases hfirst with
      | once h =>
        cases hsecond with
        | nothing => exact .once h

/-- What is known in the end, or else the default, is what the field is read from. -/
theorem exists_fills_none_iff :
    (∃ slot, field.Fills none values slot ∧ (slot <|> field.default?) = some x) ↔
      field.Reads values x := by
  constructor
  · rintro ⟨slot, hfills, hvalue⟩
    cases hfills with
    | nothing => exact .left_out hvalue
    | once h =>
      cases hvalue
      exact .given h
  · rintro (h | h)
    · exact ⟨_, .once h, rfl⟩
    · exact ⟨_, .nothing _, h⟩

end RecordField

namespace Record

/-- The keys of the fields in their order. -/
def names : {β : Type} → Record β → List String
  | _, .make _ => []
  | _, .field fields last => fields.names ++ [last.name]

/-- The record has a field at a position. -/
inductive HasField : {β γ : Type} → Record β → Nat → RecordField γ → Prop where
  /-- The last one. -/
  | last {β γ : Type} (fields : Record (γ → β)) (last : RecordField γ) :
    HasField (.field fields last) fields.names.length last
  /-- One in front of the last one. -/
  | earlier {β γ δ : Type} {fields : Record (γ → β)} {n : Nat} {field : RecordField δ}
    (h : HasField fields n field) (last : RecordField γ) : HasField (.field fields last) n field

/-- The record that has its fields from the given values, which are looked up by the position or by
the key of a field. -/
def Describes : {β : Type} → Record β → (Nat → String → List Value) → β → Prop
  | _, .make value, _, b => b = value
  | _, .field fields last, values, b =>
    ∃ f x, fields.Describes values f ∧ last.Reads (values fields.names.length last.name) x ∧ b = f x

/-- How reading some values, looked up by keys, changes what is known about the fields. -/
def Fills : {β : Type} → (r : Record β) → r.Slots → (String → List Value) → r.Slots → Prop
  | _, .make _, _, _, _ => True
  | _, @Record.field _ γ fields last, slots, values, slots' =>
    let (earlier, slot) : fields.Slots × Option γ := slots
    let (earlier', slot') : fields.Slots × Option γ := slots'
    fields.Fills earlier values earlier' ∧ last.Fills slot (values last.name) slot'

/-- A member that can be read: its key is a string, and its value is looked at by a field or can be
skipped. -/
def Accepts (r : Record β) (member : Text × Value) : Prop :=
  ∃ key, member.1 = .ok key ∧ (key ∈ r.names ∨ member.2.skip = .ok ())

/-- The names of a record are those of its fields, in their order. -/
theorem HasField.getElem?_names {r : Record β} {n : Nat} {field : RecordField γ}
    (h : r.HasField n field) : r.names[n]? = some field.name := by
  induction h with
  | last fields last => simp [names]
  | earlier h last ih =>
    rw [names, List.getElem?_append_left (List.getElem?_eq_some_iff.mp ih).1, ih]

/-- The name of a field is one of the names of the record. -/
theorem HasField.mem_names {r : Record β} {n : Nat} {field : RecordField γ}
    (h : r.HasField n field) : field.name ∈ r.names :=
  List.mem_of_getElem? h.getElem?_names

/-- A record is read from any values that all its fields are read from. -/
theorem Describes.imp {r : Record β} {values values' : Nat → String → List Value} {b : β}
    (h : r.Describes values b)
    (hfields : ∀ (γ : Type) (n : Nat) (field : RecordField γ) (x : γ), r.HasField n field →
      field.Reads (values n field.name) x → field.Reads (values' n field.name) x) :
    r.Describes values' b := by
  induction r with
  | make value => exact h
  | field fields last ih =>
    obtain ⟨f, x, hf, hx, rfl⟩ := h
    refine ⟨f, x, ih hf ?_, hfields _ _ last x (.last fields last) hx, rfl⟩
    exact fun γ n field x hfield => hfields γ n field x (hfield.earlier last)

section Slots

/-- What is known about all fields is what is known about the earlier ones and about the last. -/
theorem slots_field_eq_iff {fields : Record (γ → β)} {last : RecordField γ}
    {earlier earlier' : fields.Slots} {slot slot' : Option γ} :
    @Eq (field fields last).Slots (earlier, slot) (earlier', slot') ↔
      earlier' = earlier ∧ slot' = slot :=
  (Prod.mk.injEq ..).to_iff.trans (and_congr eq_comm eq_comm)

variable {r : Record β} {slots slots' : r.Slots} {values values' : String → List Value}

/-- Without values nothing is learnt about any field. -/
theorem fills_nil_iff : r.Fills slots (fun _ => []) slots' ↔ slots' = slots := by
  induction r with
  | make value => exact ⟨fun _ => rfl, fun _ => trivial⟩
  | @field β γ fields last ih =>
    obtain ⟨earlier, slot⟩ : fields.Slots × Option γ := slots
    obtain ⟨earlier', slot'⟩ : fields.Slots × Option γ := slots'
    simp only [Fills, ih, RecordField.fills_nil_iff]
    exact (eq_comm.trans slots_field_eq_iff).symm

/-- Only the values of the record's own keys matter. -/
theorem fills_congr (h : ∀ name ∈ r.names, values name = values' name) :
    r.Fills slots values slots' ↔ r.Fills slots values' slots' := by
  induction r with
  | make value => exact Iff.rfl
  | @field β γ fields last ih =>
    have hlast : values last.name = values' last.name := h _ (by simp [names])
    have hearlier : ∀ name ∈ fields.names, values name = values' name :=
      fun name hname => h name (by simp [names, hname])
    simp only [Fills, ih hearlier, hlast]

/-- Values may be read in two goes. -/
theorem fills_append_iff :
    r.Fills slots (fun name => values name ++ values' name) slots' ↔
      ∃ mid, r.Fills slots values mid ∧ r.Fills mid values' slots' := by
  induction r with
  | make value => exact ⟨fun _ => ⟨(), trivial, trivial⟩, fun _ => trivial⟩
  | @field β γ fields last ih =>
    obtain ⟨earlier, slot⟩ : fields.Slots × Option γ := slots
    obtain ⟨earlier', slot'⟩ : fields.Slots × Option γ := slots'
    simp only [Fills, ih, RecordField.fills_append_iff]
    constructor
    · rintro ⟨⟨mid, hfirst, hsecond⟩, mid', hfirst', hsecond'⟩
      exact ⟨(mid, mid'), ⟨hfirst, hfirst'⟩, hsecond, hsecond'⟩
    · rintro ⟨⟨mid, mid'⟩, ⟨hfirst, hfirst'⟩, hsecond, hsecond'⟩
      exact ⟨⟨mid, hfirst, hsecond⟩, mid', hfirst', hsecond'⟩

/-- What is known in the end, or else the defaults, make the record. -/
theorem exists_fills_noSlots_iff {b : β} :
    (∃ slots, r.Fills r.noSlots values slots ∧ r.build? slots = some b) ↔
      r.Describes (fun _ => values) b := by
  induction r with
  | make value =>
    constructor
    · rintro ⟨slots, -, hbuild⟩
      exact (Option.some.inj hbuild).symm
    · rintro rfl
      exact ⟨(), trivial, rfl⟩
  | @field β γ fields last ih =>
    constructor
    · rintro ⟨⟨earlier, slot⟩, ⟨hearlier, hlast⟩, hbuild⟩
      simp only [build?] at hbuild
      split at hbuild
      · next f x hf hx =>
        cases hbuild
        exact ⟨f, x, ih.mp ⟨earlier, hearlier, hf⟩,
          RecordField.exists_fills_none_iff.mp ⟨slot, hlast, hx⟩, rfl⟩
      · cases hbuild
    · rintro ⟨f, x, hf, hx, rfl⟩
      obtain ⟨earlier, hearlier, hbuild⟩ := ih.mpr hf
      obtain ⟨slot, hlast, hvalue⟩ := RecordField.exists_fills_none_iff.mpr hx
      refine ⟨(earlier, slot), ⟨hearlier, hlast⟩, ?_⟩
      simp only [build?, hbuild, hvalue]

/-- Exactly the keys that the record does not have fill nothing. -/
theorem fill_eq_none_iff {key : String} {value : Value} :
    r.fill key value slots = none ↔ key ∉ r.names := by
  induction r with
  | make => simp [fill, names]
  | @field β γ fields last ih =>
    obtain ⟨earlier, slot⟩ : fields.Slots × Option γ := slots
    by_cases hkey : key = last.name
    · simp [fill, names, hkey]
    · simp only [fill, hkey, ite_false, names, List.mem_append, List.mem_singleton, or_false,
        ← @ih earlier]
      cases fields.fill key value earlier with
      | none => simp
      | some filled => cases filled <;> simp

/-- One of the record's own keys fills its field. -/
theorem fill_eq_ok_iff (hr : r.names.Nodup) {key : String} {value : Value} (h : key ∈ r.names) :
    r.fill key value slots = some (.ok slots') ↔
      r.Fills slots (fun name => if name = key then [value] else []) slots' := by
  induction r with
  | make => cases h
  | @field β γ fields last ih =>
    obtain ⟨earlier, slot⟩ : fields.Slots × Option γ := slots
    obtain ⟨earlier', slot'⟩ : fields.Slots × Option γ := slots'
    obtain ⟨hfields, hlast⟩ : fields.names.Nodup ∧ last.name ∉ fields.names := by
      rw [names, List.nodup_append] at hr
      exact ⟨hr.1, fun hmem => hr.2.2 _ hmem _ (List.mem_singleton_self _) rfl⟩
    by_cases hkey : key = last.name
    · subst hkey
      have hnothing : ∀ name ∈ fields.names,
          (if name = last.name then [value] else []) = ([] : List Value) :=
        fun name hname => if_neg (by rintro rfl; exact hlast hname)
      simp only [fill, ite_true, Fills, fills_congr hnothing, fills_nil_iff,
        RecordField.fills_singleton_iff, Option.some.injEq]
      cases slot with
      | some x => simp
      | none =>
        cases last.decode value with
        | error fault => simp
        | ok x =>
          simp only [true_and, Except.ok.injEq, exists_eq_left']
          exact (Except.ok.injEq ..).to_iff.trans slots_field_eq_iff
    · have hmem : key ∈ fields.names := by simpa [names, hkey] using h
      simp only [fill, hkey, ite_false, Fills, Ne.symm hkey, RecordField.fills_nil_iff,
        ← ih hfields hmem]
      rcases fields.fill key value earlier with _ | (fault | filled)
      · simp
      · simp
      · simp only [Option.some.injEq]
        rw [Except.ok.injEq filled, @eq_comm _ filled]
        exact (Except.ok.injEq ..).to_iff.trans slots_field_eq_iff

end Slots

/-- Reading members fills the fields that they name, whatever the order. -/
theorem fillAll_eq_ok_iff {r : Record β} (hr : r.names.Nodup) {slots slots' : r.Slots}
    {members : List (Text × Value)} :
    r.fillAll slots members = .ok slots' ↔
      (∀ m ∈ members, r.Accepts m) ∧ r.Fills slots (fun name => valuesOf name members) slots' := by
  induction members generalizing slots with
  | nil =>
    simp only [fillAll, Except.ok.injEq, List.not_mem_nil, false_imp_iff, implies_true, true_and]
    exact eq_comm.trans fills_nil_iff.symm
  | cons m rest ih =>
    obtain ⟨key, value⟩ := m
    rw [List.forall_mem_cons]
    cases key with
    | error fault =>
      simp only [fillAll]
      refine iff_of_false (fun h => by cases h) ?_
      rintro ⟨⟨⟨key, hkey, -⟩, -⟩, -⟩
      cases hkey
    | ok key =>
      have hvalues : (fun name => valuesOf name ((.ok key, value) :: rest)) =
          fun name => (if name = key then [value] else []) ++ valuesOf name rest := by
        funext name
        split
        · next heq => rw [heq, valuesOf_cons_self, List.singleton_append]
        · next hne => rw [valuesOf_cons_of_ne hne, List.nil_append]
      rw [hvalues, fills_append_iff]
      by_cases hkey : key ∈ r.names
      · have haccepts : r.Accepts (.ok key, value) := ⟨key, rfl, .inl hkey⟩
        simp only [fillAll, haccepts, true_and, ← fill_eq_ok_iff hr hkey]
        rcases hfill : r.fill key value slots with _ | (fault | filled)
        · exact absurd hkey (fill_eq_none_iff.mp hfill)
        · simp
        · simp [ih]
      · have hnothing : ∀ name ∈ r.names,
            (if name = key then [value] else []) = ([] : List Value) :=
          fun name hname => if_neg (by rintro rfl; exact hkey hname)
        have haccepts : r.Accepts (.ok key, value) ↔ value.skip = .ok () := by
          simp [Accepts, hkey]
        simp only [fillAll, fill_eq_none_iff.mpr hkey, haccepts, fills_congr hnothing,
          fills_nil_iff, exists_eq_left]
        cases value.skip with
        | error fault => simp
        | ok => simp [ih]

/-- A record is read from an object, whatever the order of its members, whose values its fields are
read from. -/
theorem decode_object_eq_ok_iff {r : Record β} (hr : r.names.Nodup)
    {members : List (Text × Value)} {b : β} :
    r.decode (.object members .closed) = .ok b ↔
      (∀ m ∈ members, r.Accepts m) ∧ r.Describes (fun _ name => valuesOf name members) b := by
  rw [← exists_fills_noSlots_iff, ← exists_and_left]
  simp only [← and_assoc, ← fillAll_eq_ok_iff hr, decode, ofMembers, Ending.use]
  cases r.fillAll r.noSlots members with
  | error fault => simp
  | ok slots =>
    simp only [Except.ok.injEq, exists_eq_left']
    cases r.build? slots <;> simp

/-- The front of an array is read as the record that has its fields from the items in their order. -/
theorem takeItems_eq_ok_iff {r : Record β} {items rest : List Value} {b : β} :
    r.takeItems .closed items = .ok (b, rest) ↔
      rest = items.drop r.names.length ∧ r.Describes (fun n _ => items[n]?.toList) b := by
  induction r generalizing rest with
  | make value =>
    simp only [takeItems, Except.ok.injEq, Prod.mk.injEq, names, List.length_nil, List.drop_zero,
      Describes]
    exact and_comm.trans (and_congr eq_comm eq_comm)
  | @field β γ fields last ih =>
    have hfields : ∀ f, fields.Describes (fun n _ => items[n]?.toList) f ↔
        fields.takeItems .closed items = .ok (f, items.drop fields.names.length) :=
      fun f => by rw [ih, and_iff_right rfl]
    have hdrop : items.drop (field fields last).names.length =
        (items.drop fields.names.length).tail := by
      simp [names]
    have hnext : items[fields.names.length]? = (items.drop fields.names.length).head? :=
      List.head?_drop.symm
    simp only [takeItems, Describes, hfields, hdrop, hnext]
    cases htake : fields.takeItems .closed items with
    | error fault => simp
    | ok taken =>
      obtain ⟨f, left⟩ := taken
      obtain ⟨rfl, -⟩ := ih.mp htake
      -- the last field is read from the next item, or is left out where no item is left
      cases items.drop fields.names.length with
      | nil =>
        cases hdefault : last.default? with
        | none => simp [Ending.use, RecordField.reads_nil_iff, hdefault]
        | some x => simp [Ending.use, RecordField.reads_nil_iff, hdefault, eq_comm, and_comm]
      | cons value rest' =>
        cases hvalue : last.decode value with
        | error fault => simp [RecordField.reads_singleton_iff, hvalue]
        | ok x => simp [RecordField.reads_singleton_iff, hvalue, eq_comm, and_comm]

/-- A record is read from an array whose items its fields are read from, each at its position. -/
theorem decode_array_eq_ok_iff {r : Record β} {items : List Value} {b : β} :
    r.decode (.array items .closed) = .ok b ↔
      items.length ≤ r.names.length ∧ r.Describes (fun n _ => items[n]?.toList) b := by
  have hitems : r.Describes (fun n _ => items[n]?.toList) b ↔
      r.takeItems .closed items = .ok (b, items.drop r.names.length) := by
    rw [takeItems_eq_ok_iff, and_iff_right rfl]
  rw [hitems, ← List.drop_eq_nil_iff]
  simp only [decode, ofItems, Ending.use]
  cases htake : r.takeItems .closed items with
  | error fault => simp
  | ok taken =>
    obtain ⟨b', left⟩ := taken
    obtain ⟨rfl, -⟩ := takeItems_eq_ok_iff.mp htake
    cases items.drop r.names.length <;> simp

end Record

end FontMetrics.Json
