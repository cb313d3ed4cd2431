import Ordinate.Expression.Text
import Ordinate.Number.FixedPlaces
import Ordinate.Sampling.Curve

/-!
# The command line

The command prints the tree of an expression, that of its derivative if asked to, and a table of
values. Without an expression among its arguments it takes one from each line of its input.

* `CommandLine.Options`, `CommandLine.readOptions` : the arguments;
* `CommandLine.report` : what is printed for one expression;
* `CommandLine.run` : what the command prints, and its exit code.
-/

namespace Ordinate.CommandLine

/-! ## Arguments -/

structure Options where
  withDerivative : Bool := false
  sweep : Sweep Float := { Sweep.standard with step := 1 }
  text : Option String := none

inductive Fault where
  | missingValue (option : String)
  | emptyNumber
  | invalidNumber
deriving DecidableEq

def Fault.message : Fault → String
  | missingValue option => "\"" ++ option ++ " needs a value\""
  | emptyNumber => "ParseFloatError \x7b kind: Empty \x7d"
  | invalidNumber => "ParseFloatError \x7b kind: Invalid \x7d"

def readNumber (text : String) : Except Fault Float :=
  if text = "" then .error .emptyNumber
  else
    match Literal.readFloat text.toList with
    | some v => .ok v
    | none => .error .invalidNumber

/-- The sweep with the number `v` in the part which the option `name` is for, if it is for one. -/
def setter? (name : String) : Option (Float → Sweep Float → Sweep Float) :=
  if name = "--from" then some fun v s => { s with start := v }
  else if name = "--to" then some fun v s => { s with stop := v }
  else if name = "--step" then some fun v s => { s with step := v }
  else none

/-- What the arguments ask for beyond `options`. An argument which is no option is the text of the
expression, and the last such argument wins. -/
def readOptions (options : Options) : List String → Except Fault Options
  | [] => .ok options
  | "--derivative" :: args => readOptions { options with withDerivative := true } args
  | arg :: args =>
    match setter? arg, args with
    | none, args => readOptions { options with text := some arg } args
    | some _, [] => .error (.missingValue arg)
    | some set, value :: args =>
      match readNumber value with
      | .ok v => readOptions { options with sweep := set v options.sweep } args
      | .error fault => .error fault

/-! ## Reports -/

def cell (width places : Nat) (v : Float) : String :=
  String.ofList (padLeft width (fixedPlaces places v))

def row (p : Point) (derivative : Option Point) : String :=
  let values := cell 10 4 p.x ++ " " ++ cell 16 6 p.y
  match derivative with
  | some d => values ++ " " ++ cell 16 6 d.y ++ "\n"
  | none => values ++ "\n"

def table (curves : Curves) : List String :=
  match curves.derivative with
  | some derivative => (curves.function.zip derivative).map fun (p, d) => row p (some d)
  | none => curves.function.map fun p => row p none

/-- The derivative's tree, and a warning for each gap in it. -/
def derivativeReport (e : Expression) : String :=
  let (derivative, record) := e.derivativeWith e.root {}
  let warnings := record.gaps.toList.map fun g =>
    "Warning: no rule for " ++ g.describe ++ ", derivative may be incomplete\n"
  "Derivative:\n" ++ derivative.render derivative.root 0 ++ "\n" ++ String.join warnings

def report (options : Options) (text : String) : String :=
  match Expression.ofText text with
  | .error failure => failure.message ++ "\n"
  | .ok e =>
    "Tree:\n" ++ e.render e.root 0 ++ "\n" ++
      (if options.withDerivative then derivativeReport e else "") ++
      String.join (table (e.curves options.sweep options.withDerivative))

/-! ## The command -/

/-- A line, given backwards, without the carriage return at its end if it has one. -/
def closeLine : List Char → List Char
  | '\r' :: line => line.reverse
  | line => line.reverse

def linesBehind (line : List Char) : List Char → List (List Char)
  | [] => if line = [] then [] else [line.reverse]
  | '\n' :: rest => closeLine line :: linesBehind [] rest
  | c :: rest => linesBehind (c :: line) rest

/-- The lines of a text, each without its end, which is a line feed or a carriage return and a line
feed; what follows the last end is a line if there is anything. -/
def linesOf (text : List Char) : List (List Char) :=
  linesBehind [] text

structure Outcome where
  stdout : String := ""
  stderr : String := ""
  exit : Nat := 0

/-- The command with the given arguments and standard input. -/
def run (args : List String) (stdin : String) : Outcome :=
  match readOptions {} args with
  | .error fault => { stderr := "Error: " ++ fault.message ++ "\n", exit := 1 }
  | .ok options =>
    match options.text with
    | some text => { stdout := report options text }
    | none =>
      let lines := (linesOf stdin.toList).filter fun line => !Text.isBlankText line
      { stdout := String.join (lines.map fun line => report options (String.ofList line)) }

end Ordinate.CommandLine
