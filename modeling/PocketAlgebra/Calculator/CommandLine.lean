import PocketAlgebra.Approximation.Text
import PocketAlgebra.Calculator.Session
import PocketAlgebra.Layout.Expression

/-!
# The command line

Options begin with two hyphens, and those that take a value have it behind an equals sign or as the
next argument. All other arguments, and all that follow two hyphens alone, are expressions. Without
expressions, lines are read from the input.
-/

namespace PocketAlgebra

/-!
## What is shown for a line

A result is shown as it is, and on a second line by its approximation, where that says something
else.
-/

/-- How results are shown. -/
structure Display where
  /-- Whether approximations are left out. -/
  exactOnly : Bool := false
  /-- Whether results are laid out for a terminal. -/
  pretty : Bool := false
  /-- Whether the terminal shows colors. -/
  colored : Bool := false
  /-- The columns of the terminal. -/
  width : Nat := 80

namespace Display

/-- A result, as it is. -/
def showExact (display : Display) (p : Preferences) (x : Expr) : String :=
  if display.pretty then
    let document := x.document p.numberStyle
    if display.colored then
      document.renderColored display.width
    else
      document.render display.width
  else
    x.toText p.numberStyle

/-- An approximation: a number, or a list of them. Matrices are not shown. -/
def showApproximate? (p : Preferences) : Evaluation Float → Option String
  | .scalar z => some (z.toText p.complexFormat p.numberStyle)
  | .list zs =>
    let texts := zs.map fun z => z.toText p.complexFormat p.numberStyle
    some ("\x7b" ++ ",".intercalate texts ++ "\x7d")
  | .matrix _ => none

/-- The lines that are shown for a result. -/
def lines (display : Display) (p : Preferences) (x : Expr) (value : Evaluation Float) :
    List String :=
  let exact := display.showExact p x
  let approximate :=
    if display.exactOnly then
      none
    else
      (showApproximate? p value).filter fun text => text ≠ x.toText p.numberStyle
  exact :: (approximate.map ("≈ " ++ ·)).toList

/-- What is shown for a line. -/
def output (display : Display) (p : Preferences) : LineResult → String
  | .done x value => String.join ((display.lines p x value).map (· ++ "\n"))
  | _ => ""

end Display

/-! ## Arguments -/

namespace CommandLine

/-- The options and the expressions of a command line. -/
structure Arguments where
  expressions : List String := []
  configuration : Option String := none
  angleUnit : Option AngleUnit := none
  complexFormat : Option ComplexFormat := none
  significantDigits : Option Nat := none
  floatMode : Option FloatMode := none
  capacity : Option Nat := none
  exactOnly : Bool := false
  pretty : Bool := false

/-- What a command line asks for. -/
inductive Request where
  | evaluate (arguments : Arguments)
  | help
  | version

/-- A command line that cannot be understood, and why. -/
structure UsageError where
  message : String
  deriving DecidableEq, Repr

/-! ## Reading arguments -/

/-- The greatest number that an option can have. -/
def maxCount : Nat :=
  UInt64.size - 1

/-- The number that an argument writes. -/
def count? (text : String) : Option Nat :=
  let digits := if text.startsWith "+" then text.toList.tail else text.toList
  if digits.isEmpty || !digits.all Char.isDigit then
    none
  else
    ((String.ofList digits).toNat?).filter (· ≤ maxCount)

/-- A value that an option takes, unless it has got one before. -/
def once {α : Type} (name : String) (former value : Option α) : Except UsageError (Option α) :=
  match former, value with
  | some _, _ => .error ⟨"the argument '" ++ name ++ "' cannot be used multiple times"⟩
  | none, none => .error ⟨"invalid value for '" ++ name ++ "'"⟩
  | none, some value => .ok (some value)

/-- Sets a flag, unless it has been set before. -/
def flag (name : String) (former : Bool) : Except UsageError Bool :=
  if former then .error ⟨"the argument '" ++ name ++ "' cannot be used multiple times"⟩
  else .ok true

/-- The options that take a value. -/
def valueOptions : List String :=
  ["--config", "--angle", "--complex", "--digits", "--mode", "--capacity"]

/-- Arguments with the value of an option. -/
def setOption (a : Arguments) (name value : String) : Except UsageError Arguments :=
  match name with
  | "--config" => do
    let path := if value.isEmpty then none else some value
    return { a with configuration := ← once name a.configuration path }
  | "--angle" => do
    return { a with angleUnit := ← once name a.angleUnit (Choice.ofName? value) }
  | "--complex" => do
    return { a with complexFormat := ← once name a.complexFormat (Choice.ofName? value) }
  | "--digits" => do
    return { a with significantDigits := ← once name a.significantDigits (count? value) }
  | "--mode" => do
    return { a with floatMode := ← once name a.floatMode (Choice.ofName? value) }
  | "--capacity" => do
    return { a with capacity := ← once name a.capacity (count? value) }
  | _ => .error ⟨"unexpected argument '" ++ name ++ "' found"⟩

/-- An option and the value that is written behind an equals sign, if there is one. -/
def splitOption (argument : String) : String × Option String :=
  let cs := argument.toList
  match cs.dropWhile (· ≠ '=') with
  | [] => (argument, none)
  | _ :: value => (String.ofList (cs.takeWhile (· ≠ '=')), some (String.ofList value))

/-- Whether an argument is not an expression but an option. -/
def isOption (argument : String) : Bool :=
  argument.startsWith "-" && argument ≠ "-"

/-- Arguments with an expression behind the others. -/
def addExpression (a : Arguments) (text : String) : Arguments :=
  { a with expressions := a.expressions ++ [text] }

/-- Takes an option, with the argument behind it if that is its value, and tells how many arguments
the value takes. -/
def takeOption (a : Arguments) (argument : String) (next : Option String) :
    Except UsageError (Arguments × Nat) :=
  let (name, value?) := splitOption argument
  if valueOptions.contains name then
    match value?, next.filter (! isOption ·) with
    | some value, _ => (setOption a name value).map (·, 0)
    | none, some value => (setOption a name value).map (·, 1)
    | none, none => .error ⟨"a value is required for '" ++ name ++ "' but none was supplied"⟩
  else
    match argument with
    | "--exact-only" => do return ({ a with exactOnly := ← flag argument a.exactOnly }, 0)
    | "--pretty" => do return ({ a with pretty := ← flag argument a.pretty }, 0)
    | _ => .error ⟨"unexpected argument '" ++ name ++ "' found"⟩

/-- Reads arguments one after the other. -/
def readFrom (a : Arguments) : List String → Except UsageError Request
  | [] => .ok (.evaluate a)
  | argument :: rest =>
    if argument = "--" then
      .ok (.evaluate (rest.foldl addExpression a))
    else if !isOption argument then
      readFrom (addExpression a argument) rest
    else if argument = "-h" || argument = "--help" then
      .ok .help
    else if argument = "-V" || argument = "--version" then
      .ok .version
    else
      match takeOption a argument rest.head? with
      | .ok (a, used) => readFrom a (rest.drop used)
      | .error e => .error e
termination_by arguments => arguments.length
decreasing_by
  all_goals
    simp only [List.length_cons, List.length_drop]
    omega

/-- Reads a command line. -/
def read (arguments : List String) : Except UsageError Request :=
  readFrom {} arguments

/-! ## Preferences -/

/-- Preferences with those that are told as options. -/
def Arguments.override (a : Arguments) (p : Preferences) : Preferences :=
  { p with
    angleUnit := a.angleUnit.getD p.angleUnit
    complexFormat := a.complexFormat.getD p.complexFormat
    significantDigits := a.significantDigits.getD p.significantDigits
    floatMode := a.floatMode.getD p.floatMode
    poolCapacity := a.capacity.getD p.poolCapacity }

/-- The preferences that a command line asks for, from the contents of the file that it names or of
the usual one. -/
def Arguments.preferences (a : Arguments) (named usual : Option String) :
    Except PreferencesError Preferences := do
  let p ← match a.configuration with
    | some _ => Preferences.ofFile named
    | none => Preferences.ofFileOrUsual usual
  (a.override p).validate

/-- How results are shown on a terminal. -/
def Arguments.display (a : Arguments) (colored : Bool) : Display :=
  { exactOnly := a.exactOnly, pretty := a.pretty, colored }

/-! ## Running -/

/-- Whether a line fails, other than by being rejected by the parser. -/
def fails : LineResult → Bool
  | .failed (.parsing _) => false
  | .failed _ => true
  | _ => false

/-- The number that a program ends with when it fails. -/
def failureExitCode : Nat :=
  1

/-- The number that a program ends with when it is not used as it should be. -/
def usageExitCode : Nat :=
  2

/-- The number that a program ends with when it breaks off. -/
def breakExitCode : Nat :=
  101

/-- The output for expressions that are arguments, and the number that the program ends with. It
ends with the first expression that fails or breaks off. -/
def runExpressions (display : Display) (s : Session) : List String → String × Nat
  | [] => ("", 0)
  | text :: texts =>
    if s.breaksOff text then
      ("", breakExitCode)
    else
      let (s, result) := s.evaluate text
      if fails result then
        ("", failureExitCode)
      else
        let (output, code) := runExpressions display s texts
        (display.output s.preferences result ++ output, code)

/-- The output for lines of input, and the number that the program ends with. It ends with the
first line that breaks off. -/
def runLines (display : Display) (s : Session) : List String → String × Nat
  | [] => ("", 0)
  | line :: lines =>
    if s.breaksOff line then
      ("", breakExitCode)
    else
      let (s, result) := s.evaluate line
      let (output, code) := runLines display s lines
      (display.output s.preferences result ++ output, code)

/-- The output of the calculator and the number that it ends with, from its arguments, the lines of
its input, and the contents of files, by their paths. -/
def run (arguments : List String) (input : List String) (file : String → Option String)
    (usualPath : String) (colored : Bool) : String × Nat :=
  match read arguments with
  | .error _ => ("", usageExitCode)
  | .ok .help | .ok .version => ("", 0)
  | .ok (.evaluate a) =>
    match a.preferences (a.configuration.bind file) (file usualPath) with
    | .error _ => ("", failureExitCode)
    | .ok p =>
      let display := a.display colored
      if a.expressions.isEmpty then
        runLines display { preferences := p } input
      else
        runExpressions display { preferences := p } a.expressions

end CommandLine

end PocketAlgebra
