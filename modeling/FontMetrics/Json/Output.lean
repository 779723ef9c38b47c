import FontMetrics.Decimal.Layout

/-!
# Writing JSON

Values to be written, and their two written forms: on one line without blanks, and with one item or
member on each line, indented by two blanks for each level.
-/

namespace FontMetrics.Json

/-- A value to be written. -/
inductive Output where
  /-- An integer. -/
  | integer (value : Int)
  /-- A floating-point number; one that is not finite is written as null. -/
  | decimal (value : Binary64)
  /-- A list of values. -/
  | array (items : List Output)
  /-- A list of keys and values.  Keys hold no characters that need escapes. -/
  | object (members : List (String × Output))

namespace Output

/-- A signed integer as a value to be written. -/
def ofInt16 (n : Int16) : Output := .integer n.toInt

/-- A coordinate as a value to be written. -/
def ofFloat (x : Float) : Output := .decimal (.ofFloat x)

/-- A member that is always written. -/
def integerMember (key : String) (n : Int) : List (String × Output) := [(key, .integer n)]

/-- A member that is left out if its value is absent. -/
def optionalMember {β : Type} (key : String) (write : β → Output) :
    Option β → List (String × Output)
  | some b => [(key, write b)]
  | none => []

/-- A key with its quotes. -/
def keyText (key : String) : String := "\"" ++ key ++ "\""

mutual

/-- The value on one line. -/
def compact : Output → String
  | .integer n => toString n
  | .decimal x => Decimal.tableText x
  | .array items => "[" ++ ",".intercalate (compactItems items) ++ "]"
  | .object members => "\x7b" ++ ",".intercalate (compactMembers members) ++ "\x7d"

/-- The items of an array, each on one line. -/
def compactItems : List Output → List String
  | [] => []
  | item :: rest => compact item :: compactItems rest

/-- The members of an object, each on one line. -/
def compactMembers : List (String × Output) → List String
  | [] => []
  | (key, value) :: rest => (keyText key ++ ":" ++ compact value) :: compactMembers rest

end

/-- The start of a line at a level. -/
def lineStart (level : Nat) : String := "\n" ++ String.ofList (List.replicate (2 * level) ' ')

/-- Parts between brackets, each on a line of its own one level further in. -/
def block (opening closing : String) (level : Nat) : List String → String
  | [] => opening ++ closing
  | parts =>
    opening ++ lineStart (level + 1) ++ ("," ++ lineStart (level + 1)).intercalate parts ++
      lineStart level ++ closing

mutual

/-- The value on several lines, of which the first is at the given level. -/
def pretty (level : Nat) : Output → String
  | .integer n => toString n
  | .decimal x => Decimal.tableText x
  | .array items => block "[" "]" level (prettyItems (level + 1) items)
  | .object members => block "\x7b" "\x7d" level (prettyMembers (level + 1) members)

/-- The items of an array. -/
def prettyItems (level : Nat) : List Output → List String
  | [] => []
  | item :: rest => pretty level item :: prettyItems level rest

/-- The members of an object. -/
def prettyMembers (level : Nat) : List (String × Output) → List String
  | [] => []
  | (key, value) :: rest => (keyText key ++ ": " ++ pretty level value) :: prettyMembers level rest

end

end Output

end FontMetrics.Json
