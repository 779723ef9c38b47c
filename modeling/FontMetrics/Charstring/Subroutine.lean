import FontMetrics.Bytes
import FontMetrics.Charstring.Error
import FontMetrics.Charstring.Operator

/-!
# Subroutines

Charstrings share code through tables of subroutines.  A call names a subroutine by its index less a
bias that depends on the size of the table, so that the numbers with the shortest encodings are
used; `Subroutine.index` undoes this.
-/

namespace FontMetrics.Charstring

/-- A table of subroutines. -/
abbrev SubroutineTable := Array Bytes

/-- The local subroutines of a glyph. -/
inductive LocalSubroutines where
  /-- The glyph may call these. -/
  | table (table : SubroutineTable)
  /-- The font has none. -/
  | missing
  /-- The font selects a table for each glyph, which is not supported. -/
  | cidKeyed
  deriving DecidableEq, Repr

/-- The subroutines that a charstring can call. -/
structure Subroutines where
  /-- The global subroutines. -/
  globals : SubroutineTable
  /-- The local subroutines. -/
  locals : LocalSubroutines
  deriving DecidableEq, Repr

/-- The table that a call refers to. -/
def Subroutines.table (subroutines : Subroutines) :
    SubroutineScope → Except Error SubroutineTable
  | .globalScope => .ok subroutines.globals
  | .localScope =>
    match subroutines.locals with
    | .table table => .ok table
    | .missing => .error .noLocalSubroutines
    | .cidKeyed => .error .cidKeyedFont

/-- The bias of a table with `size` subroutines. -/
def Subroutine.bias (size : Nat) : Nat :=
  if size < 1240 then 107 else if size < 33900 then 1131 else 32768

/-- A number of 32 bits in two's complement. -/
def isInt32 (n : Int) : Bool := -0x80000000 ≤ n && n < 0x80000000

/-- A number of 64 bits in two's complement. -/
def isInt64 (n : Int) : Bool := -0x8000000000000000 ≤ n && n < 0x8000000000000000

/-- The index of the subroutine that an operand names.  The operand and the index must both fit into
32 bits, and the index must not be negative. -/
def Subroutine.index {α : Type} [Scalar α] (size : Nat) (operand : α) : Except Error Nat :=
  match Scalar.truncate operand with
  | none => .error .subroutineIndex
  | some n =>
    let index := n + Subroutine.bias size
    if isInt32 n && isInt32 index && 0 ≤ index then .ok index.toNat else .error .subroutineIndex

end FontMetrics.Charstring
