import FontMetrics.Scalar

/-!
# Random numbers

The source of the numbers that the `random` operator pushes: the generator xoshiro256++, whose
state is filled by the permuted congruential generator PCG32 from a fixed seed.  Every execution
starts from the same state, so the outline of a glyph is the same each time.
-/

namespace FontMetrics.Charstring

/-- The state of the generator. -/
structure RandomSource where
  /-- The first word. -/
  s0 : UInt64
  /-- The second word. -/
  s1 : UInt64
  /-- The third word. -/
  s2 : UInt64
  /-- The fourth word. -/
  s3 : UInt64
  deriving DecidableEq, Repr

namespace RandomSource

/-- Rotates a word to the left by less than 64 places. -/
def rotateLeft (x : UInt64) (places : UInt64) : UInt64 :=
  (x <<< places) ||| (x >>> (64 - places))

/-- The next state of the generator that fills the words. -/
def advance (state : UInt64) : UInt64 := state * 6364136223846793005 + 11634580027462260723

/-- The half of a word that a state of the filling generator gives: some of its bits, rotated by the
number in its highest bits. -/
def halfWord (state : UInt64) : UInt64 :=
  let bits := ((((state >>> 18) ^^^ state) >>> 27) &&& 0xffffffff)
  let places := state >>> 59
  ((bits >>> places) ||| (bits <<< (32 - places))) &&& 0xffffffff

/-- The state two half words after `state`, and the word they make, the lower half first. -/
def fillWord (state : UInt64) : UInt64 × UInt64 :=
  let lower := advance state
  let upper := advance lower
  (upper, halfWord lower ||| (halfWord upper <<< 32))

/-- The generator whose words are filled from a seed. -/
def ofSeed (seed : UInt64) : RandomSource :=
  let (state, s0) := fillWord seed
  let (state, s1) := fillWord state
  let (state, s2) := fillWord state
  let (_, s3) := fillWord state
  ⟨s0, s1, s2, s3⟩

/-- The generator with which every execution starts. -/
def initial : RandomSource := ofSeed 0x5eedc0de

/-- The next word and the generator after it. -/
def next (r : RandomSource) : UInt64 × RandomSource :=
  let word := rotateLeft (r.s0 + r.s3) 23 + r.s0
  let s2 := r.s2 ^^^ r.s0
  let s3 := r.s3 ^^^ r.s1
  (word,
    { s0 := r.s0 ^^^ s3
      s1 := r.s1 ^^^ s2
      s2 := s2 ^^^ (r.s1 <<< 17)
      s3 := rotateLeft s3 45 })

/-- The next number, greater than 0 and at most 1, from the upper 53 bits of a word. -/
def draw {α : Type} [Scalar α] (r : RandomSource) : α × RandomSource :=
  let (word, rest) := r.next
  (Scalar.one - Scalar.ofInt (word >>> 11).toNat / Scalar.ofInt 0x20000000000000, rest)

end RandomSource

end FontMetrics.Charstring
