/-!
# Data errors

What can be wrong with the data of a font table, whichever table it is.
-/

namespace FontMetrics

/-- A fault in the data of a font table. -/
inductive DataError where
  /-- The data ends before the value that is read from it. -/
  | endOfData
  /-- A value is outside the range of what it stands for. -/
  | badValue
  /-- An index points behind the end of a table. -/
  | badIndex
  /-- No character mapping of a supported kind is present. -/
  | unsuitableCmap
  deriving DecidableEq, Repr

/-- The wording of a data error. -/
def DataError.message : DataError → String
  | .endOfData => "end of data reached unexpectedly"
  | .badValue => "invalid value"
  | .badIndex => "invalid data index"
  | .unsuitableCmap => "no suitable cmap subtable"

/-- Different errors have different messages. -/
theorem DataError.message_injective {d e : DataError} (h : d.message = e.message) : d = e := by
  cases d <;> cases e <;> simp [DataError.message] at h ⊢

end FontMetrics
