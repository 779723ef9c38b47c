import Mathlib.Data.List.Perm.Basic
import FontMetrics.Proofs.Json.Grammar
import FontMetrics.Proofs.Json.Record

/-!
# Rearranging records

A record can be written in many ways: its members may come in any order, among members that nobody
asks for, without those that only give a default, and it may be the array of its fields.  None of
this changes what is decoded, at whatever depth the record lies.
-/

namespace FontMetrics.Json

variable {β : Type}

/-- A change of how a record is written that leaves the values of its fields as they are. -/
inductive Record.Rewrites (r : Record β) : Value → Value → Prop where
  /-- The members of an object come in another order. -/
  | reorder {members members' : List (Text × Value)} (h : members.Perm members') :
    Rewrites r (.object members .closed) (.object members' .closed)
  /-- A member with an unknown key is added. -/
  | add {front back : List (Text × Value)} {key : String} {value : Value} (hkey : key ∉ r.names)
    (hvalue : value.Complete) :
    Rewrites r (.object (front ++ back) .closed) (.object (front ++ (.ok key, value) :: back) .closed)
  /-- A member with an unknown key is removed. -/
  | remove {front back : List (Text × Value)} {key : String} {value : Value}
    (hkey : key ∉ r.names) :
    Rewrites r (.object (front ++ (.ok key, value) :: back) .closed) (.object (front ++ back) .closed)
  /-- A member that gives the default of its field is left out. -/
  | leaveOut {γ : Type} {n : Nat} {field : RecordField γ} {x : γ} {value : Value}
    {front back : List (Text × Value)} (hfield : r.HasField n field)
    (hdefault : field.default? = some x) (hvalue : field.decode value = .ok x) :
    Rewrites r (.object (front ++ (.ok field.name, value) :: back) .closed)
      (.object (front ++ back) .closed)
  /-- The default of a field that was left out is given. -/
  | writeOut {γ : Type} {n : Nat} {field : RecordField γ} {x : γ} {value : Value}
    {front back : List (Text × Value)} (hfield : r.HasField n field)
    (hdefault : field.default? = some x) (hvalue : field.decode value = .ok x)
    (hmissing : valuesOf field.name (front ++ back) = []) :
    Rewrites r (.object (front ++ back) .closed)
      (.object (front ++ (.ok field.name, value) :: back) .closed)
  /-- The values of the fields are listed in the order of the fields. -/
  | list {members : List (Text × Value)} {items : List Value}
    (hlength : items.length ≤ r.names.length)
    (hitems : ∀ (n : Nat) (name : String), r.names[n]? = some name →
      items[n]?.toList = valuesOf name members) :
    Rewrites r (.object members .closed) (.array items .closed)

/-- Changes of how the records in a value are written, by the way in which the value is decoded. -/
inductive Rearranges : {β : Type} → Decoder β → Value → Value → Prop where
  /-- Nothing changes. -/
  | refl {β : Type} (decoder : Decoder β) (value : Value) : Rearranges decoder value value
  /-- One change follows another. -/
  | trans {β : Type} {decoder : Decoder β} {value value' value'' : Value}
    (h : Rearranges decoder value value') (h' : Rearranges decoder value' value'') :
    Rearranges decoder value value''
  /-- A record is written differently. -/
  | record {β : Type} {r : Record β} {value value' : Value} (hr : r.names.Nodup)
    (h : r.Rewrites value value') : Rearranges r.decode value value'
  /-- Something changes in the field of a record, where the record is an object. -/
  | member {β γ : Type} {r : Record β} {n : Nat} {field : RecordField γ} {value value' : Value}
    {front back : List (Text × Value)} (hr : r.names.Nodup) (hfield : r.HasField n field)
    (h : Rearranges field.decode value value') :
    Rearranges r.decode (.object (front ++ (.ok field.name, value) :: back) .closed)
      (.object (front ++ (.ok field.name, value') :: back) .closed)
  /-- Something changes in the field of a record, where the record is an array. -/
  | element {β γ : Type} {r : Record β} {field : RecordField γ} {value value' : Value}
    {front back : List Value} (hfield : r.HasField front.length field)
    (h : Rearranges field.decode value value') :
    Rearranges r.decode (.array (front ++ value :: back) .closed)
      (.array (front ++ value' :: back) .closed)
  /-- Something changes in one of many values. -/
  | item {β : Type} {decoder : Decoder β} {value value' : Value} {front back : List Value}
    (h : Rearranges decoder value value') :
    Rearranges decoder.list (.array (front ++ value :: back) .closed)
      (.array (front ++ value' :: back) .closed)
  /-- Something changes in a value of which the image counts. -/
  | map {β γ : Type} {decoder : Decoder β} {value value' : Value} (f : β → γ)
    (h : Rearranges decoder value value') : Rearranges (decoder.map f) value value'
  /-- Something changes in a value that might have been null. -/
  | optional {β : Type} {decoder : Decoder β} {value value' : Value}
    (h : Rearranges decoder value value') (hvalue : value ≠ .null) (hvalue' : value' ≠ .null) :
    Rearranges decoder.optional value value'

section Members

variable {r : Record β} {key name : String} {value : Value} {front back : List (Text × Value)}

/-- A member adds its value to those with its key. -/
private theorem valuesOf_insert_self :
    valuesOf key (front ++ (.ok key, value) :: back) =
      valuesOf key front ++ value :: valuesOf key back := by
  rw [valuesOf_append, valuesOf_cons_self]

/-- A member does not change the values with other keys. -/
private theorem valuesOf_insert_of_ne (h : name ≠ key) :
    valuesOf name (front ++ (.ok key, value) :: back) = valuesOf name (front ++ back) := by
  rw [valuesOf_append, valuesOf_cons_of_ne h, valuesOf_append]

/-- A member is accepted or not, wherever it stands. -/
private theorem Record.accepts_insert_iff :
    (∀ m ∈ front ++ (.ok key, value) :: back, r.Accepts m) ↔
      r.Accepts (.ok key, value) ∧ ∀ m ∈ front ++ back, r.Accepts m := by
  rw [← List.forall_mem_cons]
  exact forall_congr' fun m => imp_congr_left List.perm_middle.mem_iff

end Members

namespace RecordField

variable {γ : Type} {field : RecordField γ} {x : γ}

/-- The order of several values does not matter, as there is only one. -/
theorem Reads.perm {values values' : List Value} (h : field.Reads values x)
    (hperm : values.Perm values') : field.Reads values' x := by
  cases h with
  | given h =>
    obtain rfl := List.singleton_perm.mp hperm
    exact .given h
  | left_out h =>
    obtain rfl := List.nil_perm.mp hperm
    exact .left_out h

/-- A value among others is the only one. -/
theorem reads_insert_iff {value : Value} {front back : List Value} :
    field.Reads (front ++ value :: back) x ↔
      front = [] ∧ back = [] ∧ field.decode value = .ok x := by
  constructor
  · intro h
    generalize hvalues : front ++ value :: back = values at h
    cases h with
    | given h =>
      obtain ⟨rfl, rfl, rfl⟩ : front = [] ∧ value = _ ∧ back = [] := by
        simpa [List.append_eq_cons_iff] using hvalues
      exact ⟨rfl, rfl, h⟩
    | left_out => simp at hvalues
  · rintro ⟨rfl, rfl, h⟩
    exact .given h

end RecordField

namespace Record

/-- A field is at one of the places of the record. -/
theorem HasField.lt_length {r : Record β} {n : Nat} {γ : Type} {field : RecordField γ}
    (h : r.HasField n field) : n < r.names.length :=
  (List.getElem?_eq_some_iff.mp h.getElem?_names).1

/-- At one position there is one field. -/
theorem HasField.unique {r : Record β} {n : Nat} {γ γ' : Type} {field : RecordField γ}
    {field' : RecordField γ'} (h : r.HasField n field) (h' : r.HasField n field') :
    (⟨γ, field⟩ : Σ γ, RecordField γ) = ⟨γ', field'⟩ := by
  induction h with
  | last fields last =>
    cases h' with
    | last => rfl
    | earlier h' => exact absurd h'.lt_length (Nat.lt_irrefl _)
  | earlier h last ih =>
    cases h' with
    | last => exact absurd h.lt_length (Nat.lt_irrefl _)
    | earlier h' => exact ih h'

/-- If no key occurs twice, there is one field with a key. -/
theorem HasField.unique_of_name {r : Record β} (hr : r.names.Nodup) {n n' : Nat} {γ γ' : Type}
    {field : RecordField γ} {field' : RecordField γ'} (h : r.HasField n field)
    (h' : r.HasField n' field') (hname : field'.name = field.name) :
    (⟨γ, field⟩ : Σ γ, RecordField γ) = ⟨γ', field'⟩ := by
  obtain rfl : n = n' := by
    refine (List.getElem?_inj h.lt_length hr).mp ?_
    rw [h.getElem?_names, h'.getElem?_names, hname]
  exact h.unique h'

variable {r : Record β} {b : β} {value value' : Value}

/-- Changing the member of a field does not matter to the other fields. -/
theorem decode_object_of_member (hr : r.names.Nodup) {n : Nat} {γ : Type} {field : RecordField γ}
    (hfield : r.HasField n field) {members members' : List (Text × Value)}
    (haccepts : (∀ m ∈ members, r.Accepts m) → ∀ m ∈ members', r.Accepts m)
    (hothers : ∀ name ≠ field.name, valuesOf name members' = valuesOf name members)
    (hself : ∀ x, field.Reads (valuesOf field.name members) x →
      field.Reads (valuesOf field.name members') x)
    (h : r.decode (.object members .closed) = .ok b) :
    r.decode (.object members' .closed) = .ok b := by
  rw [decode_object_eq_ok_iff hr] at h ⊢
  refine ⟨haccepts h.1, h.2.imp fun γ' n' field' x hfield' hreads => ?_⟩
  by_cases hname : field'.name = field.name
  · cases hfield.unique_of_name hr hfield' hname
    exact hself x hreads
  · rw [hothers _ hname]
    exact hreads

/-- How a record is written does not change what is decoded. -/
theorem Rewrites.decode_eq (hr : r.names.Nodup) (h : r.Rewrites value value')
    (hb : r.decode value = .ok b) : r.decode value' = .ok b := by
  cases h with
  | @reorder members members' h =>
    rw [decode_object_eq_ok_iff hr] at hb ⊢
    refine ⟨fun m hm => hb.1 m (h.mem_iff.mpr hm), hb.2.imp ?_⟩
    exact fun γ n field x _ hreads => hreads.perm (h.filterMap _)
  | @add front back key value hkey hvalue =>
    rw [decode_object_eq_ok_iff hr] at hb ⊢
    refine ⟨accepts_insert_iff.mpr ⟨⟨key, rfl, .inr (Value.skip_eq_ok_iff.mpr hvalue)⟩, hb.1⟩, hb.2.imp ?_⟩
    intro γ n field x hfield hreads
    rwa [valuesOf_insert_of_ne (ne_of_mem_of_not_mem hfield.mem_names hkey)]
  | @remove front back key value hkey =>
    rw [decode_object_eq_ok_iff hr] at hb ⊢
    refine ⟨(accepts_insert_iff.mp hb.1).2, hb.2.imp ?_⟩
    intro γ n field x hfield hreads
    rwa [valuesOf_insert_of_ne (ne_of_mem_of_not_mem hfield.mem_names hkey)] at hreads
  | @leaveOut γ n field x value front back hfield hdefault hvalue =>
    refine decode_object_of_member hr hfield (fun h => (accepts_insert_iff.mp h).2)
      (fun name hname => (valuesOf_insert_of_ne hname).symm) (fun x' hreads => ?_) hb
    rw [valuesOf_insert_self, RecordField.reads_insert_iff] at hreads
    obtain ⟨hfront, hback, hvalue'⟩ := hreads
    cases hvalue.symm.trans hvalue'
    rw [valuesOf_append, hfront, hback]
    exact .left_out hdefault
  | @writeOut γ n field x value front back hfield hdefault hvalue hmissing =>
    refine decode_object_of_member hr hfield
      (fun h => accepts_insert_iff.mpr ⟨⟨_, rfl, .inl hfield.mem_names⟩, h⟩)
      (fun name hname => valuesOf_insert_of_ne hname) (fun x' hreads => ?_) hb
    rw [hmissing, RecordField.reads_nil_iff, hdefault] at hreads
    cases hreads
    rw [valuesOf_append, List.append_eq_nil_iff] at hmissing
    rw [valuesOf_insert_self, RecordField.reads_insert_iff]
    exact ⟨hmissing.1, hmissing.2, hvalue⟩
  | @list members items hlength hitems =>
    rw [decode_object_eq_ok_iff hr] at hb
    refine decode_array_eq_ok_iff.mpr ⟨hlength, hb.2.imp ?_⟩
    intro γ n field x hfield hreads
    rwa [hitems n field.name hfield.getElem?_names]

end Record

namespace Decoder

variable {γ : Type} {decoder : Decoder β} {value value' : Value}

/-- The image of a value is that of another from which the same is decoded. -/
theorem map_replace (h : ∀ b, decoder value = .ok b → decoder value' = .ok b) {f : β → γ} {c : γ}
    (hc : decoder.map f value = .ok c) : decoder.map f value' = .ok c := by
  rw [map] at hc ⊢
  cases hb : decoder value with
  | error fault => simp [hb] at hc
  | ok b =>
    rw [hb] at hc
    rw [h b hb]
    exact hc

/-- A value that is not null is decoded as what it is. -/
theorem optional_of_ne_null (h : value ≠ .null) :
    decoder.optional value = decoder.map some value := by
  cases value with
  | null => exact absurd rfl h
  | _ => rfl

/-- A list is collected in reverse. -/
theorem list_eq_ok_iff {items : List Value} {found : List β} :
    decoder.list (.array items .closed) = .ok found ↔
      ∃ reversed, decoder.itemsAfter [] items = .ok reversed ∧ reversed.reverse = found := by
  rw [list]
  cases decoder.itemsAfter [] items <;> simp [Ending.use]

/-- A value among many may be replaced by one from which the same is decoded. -/
theorem itemsAfter_replace (h : ∀ b, decoder value = .ok b → decoder value' = .ok b)
    {front back : List Value} {earlier found : List β}
    (hfound : decoder.itemsAfter earlier (front ++ value :: back) = .ok found) :
    decoder.itemsAfter earlier (front ++ value' :: back) = .ok found := by
  induction front generalizing earlier with
  | nil =>
    rw [List.nil_append, itemsAfter] at hfound ⊢
    cases hb : decoder value with
    | error fault => simp [hb] at hfound
    | ok b =>
      rw [hb] at hfound
      rw [h b hb]
      exact hfound
  | cons first front ih =>
    rw [List.cons_append, itemsAfter] at hfound ⊢
    cases hb : decoder first with
    | error fault => simp [hb] at hfound
    | ok b =>
      rw [hb] at hfound
      exact ih hfound

end Decoder

private theorem getElem?_replace_of_ne {value value' : Value} {front back : List Value} {n : Nat}
    (h : n ≠ front.length) : (front ++ value' :: back)[n]? = (front ++ value :: back)[n]? := by
  rw [List.getElem?_append, List.getElem?_append]
  split
  · rfl
  · rw [List.getElem?_cons, List.getElem?_cons, if_neg (by omega), if_neg (by omega)]

/-- What is decoded does not depend on how the records in a value are written. -/
theorem Rearranges.decode_eq {decoder : Decoder β} {value value' : Value}
    (h : Rearranges decoder value value') {b : β} (hb : decoder value = .ok b) :
    decoder value' = .ok b := by
  induction h with
  | refl => exact hb
  | trans _ _ ih ih' => exact ih' (ih hb)
  | record hr h => exact h.decode_eq hr hb
  | @member β γ r n field value value' front back hr hfield _ ih =>
    refine Record.decode_object_of_member hr hfield (fun h => ?_) (fun name hname => ?_)
      (fun x hreads => ?_) hb
    · exact Record.accepts_insert_iff.mpr
        ⟨⟨_, rfl, .inl hfield.mem_names⟩, (Record.accepts_insert_iff.mp h).2⟩
    · rw [valuesOf_insert_of_ne hname, valuesOf_insert_of_ne hname]
    · rw [valuesOf_insert_self, RecordField.reads_insert_iff] at hreads ⊢
      exact ⟨hreads.1, hreads.2.1, ih hreads.2.2⟩
  | @element β γ r field value value' front back hfield _ ih =>
    rw [Record.decode_array_eq_ok_iff] at hb ⊢
    refine ⟨by simpa using hb.1, hb.2.imp fun γ' n field' x hfield' hreads => ?_⟩
    by_cases hn : n = front.length
    · subst hn
      cases hfield.unique hfield'
      rw [List.getElem?_append_right (Nat.le_refl _), Nat.sub_self, List.getElem?_cons_zero,
        Option.toList_some, RecordField.reads_singleton_iff] at hreads ⊢
      exact ih hreads
    · rwa [getElem?_replace_of_ne hn]
  | item _ ih =>
    rw [Decoder.list_eq_ok_iff] at hb ⊢
    obtain ⟨reversed, hreversed, rfl⟩ := hb
    exact ⟨reversed, Decoder.itemsAfter_replace (fun b => ih) hreversed, rfl⟩
  | map f _ ih => exact Decoder.map_replace (fun b => ih) hb
  | optional _ hvalue hvalue' ih =>
    rw [Decoder.optional_of_ne_null hvalue] at hb
    rw [Decoder.optional_of_ne_null hvalue']
    exact Decoder.map_replace (fun b => ih) hb

end FontMetrics.Json
