import FontMetrics.CommandLine

/-!
# The program

Prints the metrics table of a font description: `font-metrics FILE [--compact]`.
-/

open FontMetrics

/-- The contents of a file, unless it cannot be read. -/
def readContents (name : String) : IO (Option (List UInt8)) := do
  try
    return some (← IO.FS.readBinFile name).toList
  catch _ =>
    return none

/-- Runs the program on the file that the arguments name. -/
def main (arguments : List String) : IO UInt32 := do
  let compact := arguments.contains "--compact"
  match arguments.filter (· != "--compact") with
  | [name] =>
    let outcome := CommandLine.run name (← readContents name) compact
    IO.print outcome.output
    IO.eprint outcome.errorOutput
    return UInt32.ofNat outcome.exitCode
  | _ =>
    IO.eprintln "usage: font-metrics FILE [--compact]"
    return 2
