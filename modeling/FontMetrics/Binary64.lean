import FontMetrics.Scalar

/-!
# Binary64 numbers

The exact value behind the 64 bits of a floating-point number, and the instance by which charstrings
run on such numbers.  A finite number is `± significand · 2 ^ exponent` with both factors integers,
so integer parts and decimal digits are computed without rounding.
-/

namespace FontMetrics

/-- What the 64 bits of a floating-point number stand for. -/
inductive Binary64 where
  /-- No number. -/
  | nan
  /-- An infinity and its sign. -/
  | infinite (negative : Bool)
  /-- The number `significand · 2 ^ exponent` and its sign, which a zero has too. -/
  | finite (negative : Bool) (significand : Nat) (exponent : Int)
  deriving DecidableEq, Repr

namespace Binary64

/-- Splits 64 bits into sign, exponent and fraction, and adds the implicit leading bit. -/
def ofBits (bits : Nat) : Binary64 :=
  let negative := bits / 0x8000000000000000 % 2 == 1
  let scale : Nat := bits / 0x10000000000000 % 0x800
  let fraction : Nat := bits % 0x10000000000000
  if scale = 2047 then
    if fraction = 0 then .infinite negative else .nan
  else if scale = 0 then
    .finite negative fraction (-1074)
  else
    .finite negative (0x10000000000000 + fraction) ((scale : Int) - 1075)

/-- The exact value of a floating-point number. -/
def ofFloat (x : Float) : Binary64 := ofBits x.toBits.toNat

/-- The integer part, rounded toward zero; only a finite number has one. -/
def truncate : Binary64 → Option Int
  | .finite negative significand exponent =>
    let magnitude :=
      if 0 ≤ exponent then significand * Nat.pow 2 exponent.toNat
      else significand / Nat.pow 2 (-exponent).toNat
    some (if negative then -magnitude else magnitude)
  | _ => none

end Binary64

instance : Scalar Float where
  ofInt := Float.ofInt
  abs := Float.abs
  sqrt := Float.sqrt
  isEq x y := x == y
  isLt x y := x < y
  isLe x y := x ≤ y
  isFinite := Float.isFinite
  truncate x := (Binary64.ofFloat x).truncate

end FontMetrics
