import FontMetrics.Scalar

/-!
# Fixed-point numbers

The 16.16 fixed-point numbers of font files, kept exactly as a count of 65536ths.  Every number
that can be written in a charstring is one.
-/

namespace FontMetrics

/-- A number with sixteen binary places. -/
structure Fixed where
  /-- The number as a count of 65536ths. -/
  units : Int
  deriving DecidableEq, Repr

namespace Fixed

/-- An integer as a fixed-point number. -/
def ofInt (n : Int) : Fixed := ⟨n * 65536⟩

/-- The scalar that a fixed-point number stands for. -/
def toScalar {α : Type} [Scalar α] (x : Fixed) : α :=
  Scalar.ofInt x.units / Scalar.ofInt 65536

/-- Different integers are different fixed-point numbers. -/
theorem ofInt_injective {m n : Int} (h : ofInt m = ofInt n) : m = n := by
  have hunits : m * 65536 = n * 65536 := congrArg units h
  omega

end Fixed

end FontMetrics
