/-!
# Charstring operators

The operators of Type 2 charstrings, grouped by what they act on, and the byte codes that stand for
them.  Codes without an operator are reserved.
-/

namespace FontMetrics.Charstring

/-- Operators that declare stem hints. -/
inductive StemOperator where
  | hstem
  | vstem
  | hstemhm
  | vstemhm
  deriving DecidableEq, Repr

/-- Operators that are followed by a mask with one bit for every stem hint. -/
inductive MaskOperator where
  | hintmask
  | cntrmask
  deriving DecidableEq, Repr

/-- Operators that move the pen or draw. -/
inductive PathOperator where
  | rmoveto
  | hmoveto
  | vmoveto
  | rlineto
  | hlineto
  | vlineto
  | rrcurveto
  | rcurveline
  | rlinecurve
  | hhcurveto
  | vvcurveto
  | hvcurveto
  | vhcurveto
  | flex
  | hflex
  | hflex1
  | flex1
  deriving DecidableEq, Repr

/-- Operators that compute with the operand stack and the transient array. -/
inductive StackOperator where
  | abs
  | add
  | sub
  | mul
  | div
  | neg
  | sqrt
  | and
  | or
  | not
  | eq
  | ifelse
  | drop
  | dup
  | exch
  | index
  | roll
  | put
  | get
  | random
  deriving DecidableEq, Repr

/-- The two tables from which subroutines are called. -/
inductive SubroutineScope where
  /-- The subroutines of the glyph's own font dictionary. -/
  | localScope
  /-- The subroutines shared by all fonts of a file. -/
  | globalScope
  deriving DecidableEq, Repr

/-- An operator. -/
inductive Operator where
  /-- Declares stem hints. -/
  | stem (operator : StemOperator)
  /-- Is followed by a mask over the stem hints. -/
  | mask (operator : MaskOperator)
  /-- Moves the pen or draws. -/
  | path (operator : PathOperator)
  /-- Computes. -/
  | stack (operator : StackOperator)
  /-- Calls a subroutine. -/
  | call (scope : SubroutineScope)
  /-- Ends the running subroutine. -/
  | ret
  /-- Ends the glyph. -/
  | endchar
  /-- Has no effect any more. -/
  | dotsection
  deriving DecidableEq, Repr

namespace Operator

/-- The operator of one byte. -/
def ofCode? (code : UInt8) : Option Operator :=
  match code.toNat with
  | 1 => some (.stem .hstem)
  | 3 => some (.stem .vstem)
  | 4 => some (.path .vmoveto)
  | 5 => some (.path .rlineto)
  | 6 => some (.path .hlineto)
  | 7 => some (.path .vlineto)
  | 8 => some (.path .rrcurveto)
  | 10 => some (.call .localScope)
  | 11 => some .ret
  | 14 => some .endchar
  | 18 => some (.stem .hstemhm)
  | 19 => some (.mask .hintmask)
  | 20 => some (.mask .cntrmask)
  | 21 => some (.path .rmoveto)
  | 22 => some (.path .hmoveto)
  | 23 => some (.stem .vstemhm)
  | 24 => some (.path .rcurveline)
  | 25 => some (.path .rlinecurve)
  | 26 => some (.path .vvcurveto)
  | 27 => some (.path .hhcurveto)
  | 29 => some (.call .globalScope)
  | 30 => some (.path .vhcurveto)
  | 31 => some (.path .hvcurveto)
  | _ => none

/-- The operator of a byte that follows the escape byte. -/
def ofEscapedCode? (code : UInt8) : Option Operator :=
  match code.toNat with
  | 0 => some .dotsection
  | 3 => some (.stack .and)
  | 4 => some (.stack .or)
  | 5 => some (.stack .not)
  | 9 => some (.stack .abs)
  | 10 => some (.stack .add)
  | 11 => some (.stack .sub)
  | 12 => some (.stack .div)
  | 14 => some (.stack .neg)
  | 15 => some (.stack .eq)
  | 18 => some (.stack .drop)
  | 20 => some (.stack .put)
  | 21 => some (.stack .get)
  | 22 => some (.stack .ifelse)
  | 23 => some (.stack .random)
  | 24 => some (.stack .mul)
  | 26 => some (.stack .sqrt)
  | 27 => some (.stack .dup)
  | 28 => some (.stack .exch)
  | 29 => some (.stack .index)
  | 30 => some (.stack .roll)
  | 34 => some (.path .hflex)
  | 35 => some (.path .flex)
  | 36 => some (.path .hflex1)
  | 37 => some (.path .flex1)
  | _ => none

end Operator

end FontMetrics.Charstring
