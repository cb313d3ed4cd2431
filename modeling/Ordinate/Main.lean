import Ordinate.CommandLine

/-!
# The program

* `main` : runs the command with the program's arguments and standard input.
-/

open Ordinate in
/-- Run the command. Standard input is read only if the arguments give no expression. -/
def main (args : List String) : IO UInt32 := do
  let needsInput := match CommandLine.readOptions {} args with
    | .ok options => options.text.isNone
    | .error _ => false
  let input ← if needsInput then (← IO.getStdin).readToEnd else pure ""
  let outcome := CommandLine.run args input
  IO.print outcome.stdout
  IO.eprint outcome.stderr
  return outcome.exit.toUInt32
