import FontMetrics.Json.Token

/-!
# JSON documents

Builds the value of a text from its tokens.  The builder keeps the containers that are open and what
may come next; it takes one token at a time and never looks back.  Where a token does not fit, the
open containers are closed around the fault, and the rest of the text is left alone.
-/

namespace FontMetrics.Json

/-- A text as a value. -/
structure Document where
  /-- The value at the front of the text. -/
  value : Value
  /-- Something follows the value. -/
  isTrailed : Bool

/-- A container that is not closed yet.  What it holds is listed from the last to the first. -/
inductive Container where
  /-- An array. -/
  | array (items : List Value)
  /-- An object between two members. -/
  | object (members : List (Text × Value))
  /-- An object in the middle of a member. -/
  | member (members : List (Text × Value)) (key : Text)

/-- What may come next in the innermost container. -/
inductive Expectation where
  /-- A value. -/
  | value
  /-- A value, or the end of an array without items. -/
  | firstItem
  /-- A key, or the end of an object without members. -/
  | firstKey
  /-- A key. -/
  | key
  /-- The colon after a key. -/
  | colon
  /-- A comma or the end. -/
  | separator
  deriving DecidableEq, Repr

namespace Container

/-- Adds a value. -/
def add (value : Value) : Container → Container
  | .array items => .array (value :: items)
  | .object members => .object members
  | .member members key => .object ((key, value) :: members)

/-- The container as a value with the given ending. -/
def finish (ending : Ending) : Container → Value
  | .array items => .array items.reverse ending
  | .object members => .object members.reverse ending
  | .member members _ => .object members.reverse ending

end Container

/-- Closes the open containers around a value in which a fault lies. -/
def enclose (value : Value) (unreached : Ending) : List Container → Value
  | [] => value
  | container :: outer => enclose ((container.add value).finish unreached) unreached outer

/-- Closes the open containers where something else was expected. -/
def interrupt (expected : Expectation) (used skipped : Fault) (containers : List Container) :
    Value :=
  let ending : Ending := .broken used skipped
  match expected, containers with
  | .separator, container :: outer | .key, container :: outer | .firstKey, container :: outer =>
    enclose (container.finish ending) ending outer
  | _, containers => enclose (.broken used skipped) ending containers

/-- The state of the builder. -/
inductive Builder where
  /-- The value is not complete; the innermost open container comes first. -/
  | reading (expected : Expectation) (containers : List Container)
  /-- The value is complete. -/
  | complete (value : Value)
  /-- The rest of the text does not matter. -/
  | ended (document : Document)

namespace Builder

/-- The builder at the start of a text. -/
def start : Builder := .reading .value []

/-- Goes on after a complete value. -/
def placed (value : Value) : List Container → Builder
  | [] => .complete value
  | container :: outer => .reading .separator (container.add value :: outer)

/-- Ends the document at a fault. -/
def fail (expected : Expectation) (used skipped : Fault) (containers : List Container) : Builder :=
  .ended ⟨interrupt expected used skipped containers, false⟩

/-- Takes a token where a value may stand. -/
def takeValue (expected : Expectation) (containers : List Container) : Token → Builder
  | .openArray => .reading .firstItem (.array [] :: containers)
  | .openObject => .reading .firstKey (.object [] :: containers)
  | .atom (.broken used skipped) => fail expected used skipped containers
  | .atom value => placed value containers
  | .text value => placed (.text value) containers
  | .brokenText used skipped => fail expected used skipped containers
  | _ => fail expected .malformed .malformed containers

/-- Takes a token where a key may stand. -/
def takeKey (expected : Expectation) (containers : List Container) : Token → Builder
  | .text key =>
    match containers with
    | .object members :: outer => .reading .colon (.member members key :: outer)
    | _ => fail expected .malformed .malformed containers
  | .brokenText used skipped => fail expected used skipped containers
  | _ => fail expected .malformed .malformed containers

/-- Takes a token. -/
def take (builder : Builder) (token : Token) : Builder :=
  match builder with
  | .ended document => .ended document
  | .complete value => .ended ⟨value, true⟩
  | .reading expected containers =>
    match expected, containers, token with
    | .firstItem, .array items :: outer, .closeArray
    | .separator, .array items :: outer, .closeArray =>
      placed (.array items.reverse .closed) outer
    | .firstKey, .object members :: outer, .closeObject
    | .separator, .object members :: outer, .closeObject =>
      placed (.object members.reverse .closed) outer
    | .separator, .array items :: outer, .comma => .reading .value (.array items :: outer)
    | .separator, .object members :: outer, .comma => .reading .key (.object members :: outer)
    | .colon, _, .colon => .reading .value containers
    | .value, _, _ | .firstItem, _, _ => takeValue expected containers token
    | .key, _, _ | .firstKey, _, _ => takeKey expected containers token
    | _, _, _ => fail expected .malformed .malformed containers

/-- The document at the end of the text. -/
def finish : Builder → Document
  | .ended document => document
  | .complete value => ⟨value, false⟩
  | .reading expected containers => ⟨interrupt expected .truncated .truncated containers, false⟩

end Builder

/-- Takes the tokens of a text. -/
def Builder.takeAll (builder : Builder) : (text : List UInt8) → Builder
  | [] => builder
  | b :: bytes =>
    if Token.isBlank b then builder.takeAll bytes
    else
      let r := Token.read b bytes
      (builder.take r.1.1).takeAll r.1.2
termination_by text => text.length
decreasing_by
  · exact Nat.lt_succ_self _
  · exact Nat.lt_succ_of_le r.2

/-- Reads a text. -/
def Document.ofBytes (text : List UInt8) : Document :=
  (Builder.start.takeAll text).finish

end FontMetrics.Json
