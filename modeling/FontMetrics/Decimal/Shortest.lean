import FontMetrics.Binary64

/-!
# Shortest decimals

The shortest decimal that reads back as a given binary number.  A positive number
`significand · 2 ^ exponent` is the nearest one to every real number between the points halfway to
its two neighbours, and to these points themselves if its significand is even.  Decimals are tried
on ever finer grids, the powers of ten; the first grid with a point in that range gives the digits.
A grid with a point in the range has one beside the number itself, so only two points have to be
looked at on each grid.
-/

namespace FontMetrics.Decimal

/-- The decimal `digits · 10 ^ exponent`. -/
structure Point where
  /-- The digits, read as a natural number. -/
  digits : Nat
  /-- The power of ten. -/
  exponent : Int
  deriving DecidableEq, Repr

/-- The real numbers that round to a binary number, all of them multiples of one unit. -/
structure RoundingRange where
  /-- The lower end. -/
  lower : Nat
  /-- The number itself. -/
  center : Nat
  /-- The upper end. -/
  upper : Nat
  /-- The power of two that is the unit. -/
  unit : Int
  /-- The ends belong to the range. -/
  isClosed : Bool
  deriving DecidableEq, Repr

namespace RoundingRange

/-- The range of `significand · 2 ^ exponent`.  Below a power of two the neighbours are closer. -/
def ofBinary (significand : Nat) (exponent : Int) : RoundingRange where
  lower := 4 * significand - (if significand = 0x10000000000000 && exponent ≠ -1074 then 1 else 2)
  center := 4 * significand
  upper := 4 * significand + 2
  unit := exponent - 2
  isClosed := significand % 2 = 0

/-- Numerators, over one denominator, of `n` units and of a decimal with the given power of ten as a
multiple of its digits: `n · first` and `digits · second` can be compared. -/
def scales (r : RoundingRange) (exponent : Int) : Nat × Nat :=
  (Nat.pow 2 r.unit.toNat * Nat.pow 10 (-exponent).toNat,
    Nat.pow 2 (-r.unit).toNat * Nat.pow 10 exponent.toNat)

/-- A decimal lies in the range. -/
def contains (r : RoundingRange) (p : Point) : Bool :=
  let (units, tens) := r.scales p.exponent
  let value := p.digits * tens
  if r.isClosed then r.lower * units ≤ value && value ≤ r.upper * units
  else r.lower * units < value && value < r.upper * units

/-- How ties between two decimals at the same distance are broken. -/
inductive Tie where
  /-- The one with the even last digit wins. -/
  | toEven
  /-- The larger one wins. -/
  | up
  deriving DecidableEq, Repr

/-- The nearest point of a grid in the range, of the two points beside the number. -/
def nearest? (r : RoundingRange) (tie : Tie) (exponent : Int) : Option Point :=
  let (units, tens) := r.scales exponent
  let value := r.center * units
  let below : Point := ⟨value / tens, exponent⟩
  let above : Point := ⟨value / tens + 1, exponent⟩
  if r.contains below then
    if r.contains above then
      let gapBelow := value - below.digits * tens
      let gapAbove := above.digits * tens - value
      if gapBelow < gapAbove then some below
      else if gapAbove < gapBelow then some above
      else if tie = .toEven && below.digits % 2 = 0 then some below
      else some above
    else some below
  else if r.contains above then some above
  else none

/-- The first point in the range on the grids from `exponent` downwards. -/
def search (r : RoundingRange) (tie : Tie) : (grids : Nat) → (exponent : Int) → Option Point
  | 0, _ => none
  | grids + 1, exponent =>
    match r.nearest? tie exponent with
    | some p => some p
    | none => r.search tie grids (exponent - 1)

/-- A power of ten at least as large as the number. -/
def startExponent (r : RoundingRange) : Int :=
  let (units, tens) := r.scales 0
  ((Nat.toDigits 10 (r.center * units)).length : Int) - (Nat.toDigits 10 tens).length + 1

end RoundingRange

namespace Point

/-- Drops zeros at the end of the digits. -/
def trim : (fuel : Nat) → Point → Point
  | 0, p => p
  | fuel + 1, p =>
    if p.digits ≠ 0 && p.digits % 10 = 0 then trim fuel ⟨p.digits / 10, p.exponent + 1⟩ else p

end Point

/-- The decimal with the fewest digits that reads back as `significand · 2 ^ exponent`; of several,
the nearest.  Seventeen digits are always enough. -/
def shortest (tie : RoundingRange.Tie) (significand : Nat) (exponent : Int) : Point :=
  if significand = 0 then ⟨0, 0⟩
  else
    let r := RoundingRange.ofBinary significand exponent
    match r.search tie 20 r.startExponent with
    | some p => p.trim p.digits
    | none => ⟨0, 0⟩

end FontMetrics.Decimal
