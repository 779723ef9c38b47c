/-!
# JSON values

A JSON value as it was read from a text that may be faulty.  Where the text goes wrong the value
holds a fault in place of what could not be read, and nothing that comes later in the text; so a
decoder that walks a value from left to right meets the problems of the text in their order.

Some parts of a text are only skipped: the values of members that nobody asks for.  Skipping is less
strict about strings and numbers than using them, so a fault is recorded for either case.
-/

namespace FontMetrics.Json

/-- Why a text could not be decoded. -/
inductive Fault where
  /-- The text breaks the rules of the notation. -/
  | malformed
  /-- The text ends too early. -/
  | truncated
  /-- A value is not of the kind that is expected in its place. -/
  | mismatched
  deriving DecidableEq, Repr

/-- A complete number. -/
inductive Number where
  /-- An integer of at most 64 bits, written without fraction or exponent. -/
  | integer (value : Int)
  /-- A number that is no such integer. -/
  | inexact
  /-- A number too large for a floating-point number. -/
  | outOfRange
  deriving DecidableEq, Repr

/-- A complete string, or what is wrong with it for those who use it. -/
abbrev Text := Except Fault String

/-- How a list of items or members ends. -/
inductive Ending where
  /-- With its closing bracket. -/
  | closed
  /-- With a fault, for those who use the list and for those who skip it. -/
  | broken (used skipped : Fault)
  deriving DecidableEq, Repr

/-- A value. -/
inductive Value where
  /-- The null value. -/
  | null
  /-- A truth value. -/
  | bool (value : Bool)
  /-- A number. -/
  | number (value : Number)
  /-- A string. -/
  | text (value : Text)
  /-- A list of values. -/
  | array (items : List Value) (ending : Ending)
  /-- A list of keys and their values. -/
  | object (members : List (Text × Value)) (ending : Ending)
  /-- A value that could not be read, with what is wrong for those who use it and for those who skip
  it. -/
  | broken (used skipped : Fault)

/-- What a reader who uses a list meets at its end. -/
def Ending.use : Ending → Except Fault Unit
  | .closed => .ok ()
  | .broken used _ => .error used

/-- What a reader who skips a list meets at its end. -/
def Ending.skip : Ending → Except Fault Unit
  | .closed => .ok ()
  | .broken _ skipped => .error skipped

mutual

/-- What a reader who skips a value meets. -/
def Value.skip : Value → Except Fault Unit
  | .array items ending =>
    match skipItems items with
    | .error fault => .error fault
    | .ok () => ending.skip
  | .object members ending =>
    match skipMembers members with
    | .error fault => .error fault
    | .ok () => ending.skip
  | .broken _ skipped => .error skipped
  | .null | .bool _ | .number _ | .text _ => .ok ()

/-- What a reader who skips several values meets. -/
def skipItems : List Value → Except Fault Unit
  | [] => .ok ()
  | value :: rest =>
    match value.skip with
    | .error fault => .error fault
    | .ok () => skipItems rest

/-- What a reader who skips several members meets. -/
def skipMembers : List (Text × Value) → Except Fault Unit
  | [] => .ok ()
  | (_, value) :: rest =>
    match value.skip with
    | .error fault => .error fault
    | .ok () => skipMembers rest

end

/-- The fault of a value of which another kind was expected: a scalar is read to its end first. -/
def Value.unexpected : Value → Fault
  | .broken used _ => used
  | .number .outOfRange => .malformed
  | .text (.error fault) => fault
  | _ => .mismatched

end FontMetrics.Json
