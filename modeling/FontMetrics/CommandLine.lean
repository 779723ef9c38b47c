import FontMetrics.Table.Bounds
import FontMetrics.Table.Text

/-!
# Command line

What the program prints and how it exits, given the contents of the font file.
-/

namespace FontMetrics

/-- Why no metrics table can be printed. -/
inductive MetricsError where
  /-- The tables of the font do not fit together. -/
  | data (cause : DataError)
  /-- The description of the font cannot be read. -/
  | json (cause : Json.Fault)
  /-- The file cannot be read. -/
  | file (cause : String)
  deriving DecidableEq, Repr

/-- The wording of an error, up to the cause of a description that cannot be read. -/
def MetricsError.message : MetricsError → String
  | .data cause => "metrics: " ++ cause.message
  | .json _ => "font description: "
  | .file cause => "i/o error: " ++ cause

namespace CommandLine

/-- The cause of an error with a file that does not exist. -/
def missingFile : String := "No such file or directory (os error 2)"

/-- The result of running the program. -/
structure Outcome where
  /-- The exit code. -/
  exitCode : Nat
  /-- What is printed to standard output. -/
  output : String
  /-- What is printed to standard error. -/
  errorOutput : String
  deriving DecidableEq, Repr

/-- The text of the metrics table of a font. -/
def tableText (contents : Option (List UInt8)) (compact : Bool) : Except MetricsError String :=
  match contents with
  | none => .error (.file missingFile)
  | some bytes =>
    match FontDescription.ofJson bytes with
    | .error fault => .error (.json fault)
    | .ok font =>
      match MetricsTable.ofFontWithBounds font with
      | .error e => .error (.data e)
      | .ok (table, _) => .ok (if compact then table.compactText else table.prettyText)

/-- Runs the program on a file with the given name and contents. -/
def run (name : String) (contents : Option (List UInt8)) (compact : Bool) : Outcome :=
  match tableText contents compact with
  | .ok text => ⟨0, text ++ "\n", ""⟩
  | .error (.json fault) => ⟨1, "", name ++ ": " ++ (MetricsError.json fault).message⟩
  | .error e => ⟨1, "", name ++ ": " ++ e.message ++ "\n"⟩

end CommandLine

end FontMetrics
