import PocketAlgebra.Preferences.Toml
import PocketAlgebra.Settings
import PocketAlgebra.Text.Printer

/-!
# Preferences

The choices that a user makes once for all calculations. They are kept as a text in which every
preference has a key; those that are missing are as usual.
-/

namespace PocketAlgebra

/-- The bytes that expressions may take unless told otherwise. -/
def defaultCapacity : Nat :=
  131072

/-- The least number of bytes that can be asked for. -/
def minCapacity : Nat :=
  1024

/-- What a user prefers. -/
structure Preferences where
  angleUnit : AngleUnit := .radian
  complexFormat : ComplexFormat := .real
  unitFormat : UnitFormat := .metric
  floatMode : FloatMode := .decimal
  significantDigits : Nat := defaultSignificantDigits
  poolCapacity : Nat := defaultCapacity
  symbolic : SymbolicComputation := .replaceAllDefinedSymbols
  deriving DecidableEq, Repr

/-- Why preferences are refused. -/
inductive PreferencesError where
  /-- There is no text to read. -/
  | missing
  /-- The text cannot be read, or does not consist of preferences. -/
  | malformed
  | invalidDigits (count : Nat)
  | invalidCapacity (bytes : Nat)
  deriving DecidableEq, Repr

namespace PreferencesError

/-- The text that reports why preferences are refused. -/
def message : PreferencesError → String
  | missing => "preferences cannot be read"
  | malformed => "preferences cannot be understood"
  | invalidDigits count =>
    s!"invalid value for `significant-digits`: {count} is not between 1 and {maxSignificantDigits}"
  | invalidCapacity bytes =>
    s!"invalid value for `pool-capacity`: {bytes} is below the minimum of {minCapacity} bytes"

end PreferencesError

namespace Preferences

/-! ## The range of values -/

/-- Preferences whose numbers are in range. -/
def validate (p : Preferences) : Except PreferencesError Preferences :=
  if p.significantDigits < 1 || maxSignificantDigits < p.significantDigits then
    .error (.invalidDigits p.significantDigits)
  else if p.poolCapacity < minCapacity then
    .error (.invalidCapacity p.poolCapacity)
  else
    .ok p

/-! ## Reading -/

/-- The choice that a value names. -/
def choice? {α : Type} [Choice α] : Toml.Value → Option α
  | .text name => Choice.ofName? name
  | .integer _ => none

/-- The number that a value is, where it is not below zero. -/
def count? : Toml.Value → Option Nat
  | .integer n => if 0 ≤ n then some n.toNat else none
  | .text _ => none

/-- Preferences with one of them set. -/
def set? (p : Preferences) (key : String) (value : Toml.Value) : Option Preferences :=
  match key with
  | "angle-unit" => (choice? value).map fun c => { p with angleUnit := c }
  | "complex-format" => (choice? value).map fun c => { p with complexFormat := c }
  | "unit-format" => (choice? value).map fun c => { p with unitFormat := c }
  | "print-float-mode" => (choice? value).map fun c => { p with floatMode := c }
  | "significant-digits" => (count? value).map fun n => { p with significantDigits := n }
  | "pool-capacity" => (count? value).map fun n => { p with poolCapacity := n }
  | "symbolic-computation" => (choice? value).map fun c => { p with symbolic := c }
  | _ => none

/-- Usual preferences with some of them set. -/
def ofEntries? (entries : List (String × Toml.Value)) : Option Preferences :=
  entries.foldlM (fun p entry => p.set? entry.1 entry.2) {}

/-- The preferences in a text. -/
def ofText (text : String) : Except PreferencesError Preferences :=
  match (Toml.read? text).bind ofEntries? with
  | some p => p.validate
  | none => .error .malformed

/-- The preferences in a file, which may be missing. -/
def ofFile (content : Option String) : Except PreferencesError Preferences :=
  match content with
  | some text => ofText text
  | none => .error .missing

/-- The preferences in a file; those that are usual where it is missing. -/
def ofFileOrUsual (content : Option String) : Except PreferencesError Preferences :=
  match content with
  | some text => ofText text
  | none => .ok {}

/-! ## Writing -/

/-- A line with a key and a text. -/
def textLine (key value : String) : String :=
  key ++ " = \"" ++ value ++ "\"\n"

/-- A line with a key and a number. -/
def numberLine (key : String) (value : Nat) : String :=
  key ++ " = " ++ Nat.repr value ++ "\n"

/-- Preferences as a text, with a line for each. -/
def toText (p : Preferences) : String :=
  textLine "angle-unit" (Choice.name p.angleUnit) ++
    textLine "complex-format" (Choice.name p.complexFormat) ++
    textLine "unit-format" (Choice.name p.unitFormat) ++
    textLine "print-float-mode" (Choice.name p.floatMode) ++
    numberLine "significant-digits" p.significantDigits ++
    numberLine "pool-capacity" p.poolCapacity ++
    textLine "symbolic-computation" (Choice.name p.symbolic)

/-! ## Using -/

/-- The settings of a reduction. -/
def settings (p : Preferences) (target : Target) : Settings :=
  ⟨target, p.complexFormat, p.angleUnit, p.unitFormat, p.symbolic⟩

/-- How numbers are written. -/
def numberStyle (p : Preferences) : NumberStyle :=
  ⟨p.floatMode, p.significantDigits⟩

end Preferences

/-!
## Where preferences are kept

The path of the file with the preferences, unless it is told in the environment, is below the
directory for configuration files, or below that of the user.
-/

/-- What the environment tells about paths. -/
structure Environment where
  preferencesFile : Option String := none
  configurationDirectory : Option String := none
  homeDirectory : Option String := none

/-- A path continued by another one, which replaces it if it is absolute. -/
def joinPaths (path next : String) : String :=
  if path.isEmpty || next.startsWith "/" then next
  else if path.endsWith "/" then path ++ next
  else path ++ "/" ++ next

namespace Environment

/-- The directory for configuration files. -/
def configurationPath (env : Environment) : String :=
  match env.configurationDirectory, env.homeDirectory with
  | some directory, _ => directory
  | none, some home => joinPaths home ".config"
  | none, none => ""

/-- The path of the file with the preferences. -/
def preferencesPath (env : Environment) : String :=
  match env.preferencesFile with
  | some path => path
  | none => joinPaths (joinPaths env.configurationPath "hycas") "preferences.toml"

end Environment

end PocketAlgebra
