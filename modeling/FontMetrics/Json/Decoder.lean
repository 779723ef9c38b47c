import FontMetrics.Json.Document

/-!
# Decoding JSON

Decoders turn a value into what it stands for, or report the first fault of the text that matters
to them.

A record can be written in two ways: as an object, whose members may come in any order and include
unknown ones, or as the array of its fields in their order.  `Record` describes the fields once, and
`Record.decode` reads both forms.  Fields that have a default may be left out of an object, or off
the end of an array.
-/

namespace FontMetrics.Json

/-- A way to decode values. -/
abbrev Decoder (β : Type) := Value → Except Fault β

namespace Decoder

/-- An integer from `lo` to `hi`. -/
def integer (lo hi : Int) : Decoder Int
  | .number (.integer n) => if lo ≤ n && n ≤ hi then .ok n else .error .mismatched
  | value => .error value.unexpected

/-- The image of what another decoder finds. -/
def map {β γ : Type} (f : β → γ) (decoder : Decoder β) : Decoder γ := fun value =>
  match decoder value with
  | .ok b => .ok (f b)
  | .error fault => .error fault

/-- A byte. -/
def uint8 : Decoder UInt8 := (integer 0 255).map fun n => UInt8.ofNat n.toNat

/-- An unsigned integer of 16 bits. -/
def uint16 : Decoder UInt16 := (integer 0 65535).map fun n => UInt16.ofNat n.toNat

/-- An unsigned integer of 32 bits. -/
def uint32 : Decoder UInt32 := (integer 0 4294967295).map fun n => UInt32.ofNat n.toNat

/-- A signed integer of 16 bits. -/
def int16 : Decoder Int16 := (integer (-32768) 32767).map Int16.ofInt

/-- A signed integer of 32 bits. -/
def int32 : Decoder Int32 := (integer (-2147483648) 2147483647).map Int32.ofInt

/-- Decodes values one after another; the last result comes first. -/
def itemsAfter {β : Type} (decoder : Decoder β) (earlier : List β) :
    List Value → Except Fault (List β)
  | [] => .ok earlier
  | value :: rest =>
    match decoder value with
    | .error fault => .error fault
    | .ok b => itemsAfter decoder (b :: earlier) rest

/-- An array of values that are decoded alike. -/
def list {β : Type} (decoder : Decoder β) : Decoder (List β)
  | .array items ending =>
    match itemsAfter decoder [] items with
    | .error fault => .error fault
    | .ok reversed =>
      match ending.use with
      | .error fault => .error fault
      | .ok () => .ok reversed.reverse
  | value => .error value.unexpected

/-- A value that may be null. -/
def optional {β : Type} (decoder : Decoder β) : Decoder (Option β)
  | .null => .ok none
  | value => decoder.map some value

/-- Any value, which is skipped. -/
def ignored : Decoder Unit := Value.skip

end Decoder

/-- A field of a record. -/
structure RecordField (β : Type) where
  /-- The key of the field in an object. -/
  name : String
  /-- How its value is decoded. -/
  decode : Decoder β
  /-- What it is when it is left out. -/
  default? : Option β

/-- A field that must not be left out. -/
def RecordField.required {β : Type} (name : String) (decode : Decoder β) : RecordField β :=
  ⟨name, decode, none⟩

/-- A field that may be left out. -/
def RecordField.withDefault {β : Type} (name : String) (decode : Decoder β) (value : β) :
    RecordField β :=
  ⟨name, decode, some value⟩

/-- The fields of a record in their order, and how the record is made from them. -/
inductive Record : Type → Type 1 where
  /-- Without fields. -/
  | make {β : Type} (value : β) : Record β
  /-- With one more field at the end. -/
  | field {β γ : Type} (fields : Record (γ → β)) (last : RecordField γ) : Record β

namespace Record

/-- What is known about the fields of a record while its members are read. -/
def Slots : {β : Type} → Record β → Type
  | _, .make _ => Unit
  | _, @Record.field _ γ fields _ => fields.Slots × Option γ

/-- Nothing is known yet. -/
def noSlots : {β : Type} → (r : Record β) → r.Slots
  | _, .make _ => ()
  | _, .field fields _ => (fields.noSlots, none)

/-- Reads the member with the given key and value; a key that was there before is a fault, and so is
a faulty value.  The result is `none` where the record has no such field. -/
def fill (key : String) (value : Value) :
    {β : Type} → (r : Record β) → r.Slots → Option (Except Fault r.Slots)
  | _, .make _, _ => none
  | _, @Record.field _ γ fields last, slots =>
    let (earlier, slot) : fields.Slots × Option γ := slots
    if key = last.name then
      some (match slot with
        | some _ => .error .mismatched
        | none =>
          match last.decode value with
          | .error fault => .error fault
          | .ok b => .ok (earlier, some b))
    else
      match fields.fill key value earlier with
      | none => none
      | some (.error fault) => some (.error fault)
      | some (.ok earlier) => some (.ok (earlier, slot))

/-- The record with the fields that were read, and defaults for the others. -/
def build? : {β : Type} → (r : Record β) → r.Slots → Option β
  | _, .make value, _ => some value
  | _, @Record.field _ γ fields last, slots =>
    let (earlier, slot) : fields.Slots × Option γ := slots
    match fields.build? earlier, slot <|> last.default? with
    | some f, some b => some (f b)
    | _, _ => none

/-- Reads members in their order. -/
def fillAll {β : Type} (r : Record β) (slots : r.Slots) :
    List (Text × Value) → Except Fault r.Slots
  | [] => .ok slots
  | (.error fault, _) :: _ => .error fault
  | (.ok key, value) :: rest =>
    match r.fill key value slots with
    | some (.error fault) => .error fault
    | some (.ok slots) => r.fillAll slots rest
    | none =>
      match value.skip with
      | .error fault => .error fault
      | .ok () => r.fillAll slots rest

/-- Reads a record from the members of an object. -/
def ofMembers {β : Type} (r : Record β) (members : List (Text × Value)) (ending : Ending) :
    Except Fault β :=
  match r.fillAll r.noSlots members with
  | .error fault => .error fault
  | .ok slots =>
    match ending.use with
    | .error fault => .error fault
    | .ok () =>
      match r.build? slots with
      | some b => .ok b
      | none => .error .mismatched

/-- Reads a record from the front of an array: the record and the items that are left. -/
def takeItems (ending : Ending) :
    {β : Type} → Record β → List Value → Except Fault (β × List Value)
  | _, .make value, items => .ok (value, items)
  | _, .field fields last, items =>
    match fields.takeItems ending items with
    | .error fault => .error fault
    | .ok (f, value :: rest) =>
      match last.decode value with
      | .error fault => .error fault
      | .ok b => .ok (f b, rest)
    | .ok (f, []) =>
      match ending.use, last.default? with
      | .error fault, _ => .error fault
      | .ok (), some b => .ok (f b, [])
      | .ok (), none => .error .mismatched

/-- Reads a record from the items of an array.  An item too many breaks the notation. -/
def ofItems {β : Type} (r : Record β) (items : List Value) (ending : Ending) : Except Fault β :=
  match r.takeItems ending items with
  | .error fault => .error fault
  | .ok (_, _ :: _) => .error .malformed
  | .ok (b, []) =>
    match ending.use with
    | .error fault => .error fault
    | .ok () => .ok b

/-- Reads a record. -/
def decode {β : Type} (r : Record β) : Decoder β
  | .object members ending => r.ofMembers members ending
  | .array items ending => r.ofItems items ending
  | value => .error value.unexpected

end Record

/-- Decodes a text that holds one value and nothing else. -/
def decode {β : Type} (decoder : Decoder β) (text : List UInt8) : Except Fault β :=
  let document := Document.ofBytes text
  match decoder document.value with
  | .error fault => .error fault
  | .ok b => if document.isTrailed then .error .malformed else .ok b

end FontMetrics.Json
