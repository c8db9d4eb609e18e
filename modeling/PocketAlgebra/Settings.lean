/-!
# Settings of a calculation

Each setting is one of a few choices, and every choice has a name in lower case with hyphens, which
preferences and the command line use.
-/

namespace PocketAlgebra

/-- What a reduced expression is for. -/
inductive Target where
  | user
  | systemForAnalysis
  | systemForApproximation
  deriving DecidableEq, Repr

/-- How complex results are shown. The real format rejects them. -/
inductive ComplexFormat where
  | real
  | cartesian
  | polar
  deriving DecidableEq, Repr

/-- The unit of angles. -/
inductive AngleUnit where
  | radian
  | degree
  | gradian
  deriving DecidableEq, Repr

/-- The system of units of measure. -/
inductive UnitFormat where
  | metric
  | imperial
  deriving DecidableEq, Repr

/-- Which names reduction replaces by their definitions. -/
inductive SymbolicComputation where
  | replaceAllDefinedSymbols
  | replaceAllSymbolsOrUndefined
  | replaceDefinedFunctions
  | doNotReplaceAnySymbol
  deriving DecidableEq, Repr

/-- How floating-point numbers are printed. -/
inductive FloatMode where
  | decimal
  | scientific
  | engineering
  deriving DecidableEq, Repr

/-- A setting that is chosen by name. -/
class Choice (α : Type) where
  /-- All choices; the first one is the default. -/
  all : List α
  /-- The name of a choice. -/
  name : α → String

/-- The choice of a given name. -/
def Choice.ofName? {α : Type} [Choice α] (text : String) : Option α :=
  (@Choice.all α _).find? fun c => Choice.name c = text

instance : Choice Target where
  all := [.user, .systemForAnalysis, .systemForApproximation]
  name
    | .user => "user"
    | .systemForAnalysis => "system-for-analysis"
    | .systemForApproximation => "system-for-approximation"

instance : Choice ComplexFormat where
  all := [.real, .cartesian, .polar]
  name
    | .real => "real"
    | .cartesian => "cartesian"
    | .polar => "polar"

instance : Choice AngleUnit where
  all := [.radian, .degree, .gradian]
  name
    | .radian => "radian"
    | .degree => "degree"
    | .gradian => "gradian"

instance : Choice UnitFormat where
  all := [.metric, .imperial]
  name
    | .metric => "metric"
    | .imperial => "imperial"

instance : Choice SymbolicComputation where
  all := [.replaceAllDefinedSymbols, .replaceAllSymbolsOrUndefined, .replaceDefinedFunctions,
    .doNotReplaceAnySymbol]
  name
    | .replaceAllDefinedSymbols => "replace-all-defined-symbols-with-definition"
    | .replaceAllSymbolsOrUndefined => "replace-all-symbols-with-definitions-or-undefined"
    | .replaceDefinedFunctions => "replace-defined-functions-with-definitions"
    | .doNotReplaceAnySymbol => "do-not-replace-any-symbol"

instance : Choice FloatMode where
  all := [.decimal, .scientific, .engineering]
  name
    | .decimal => "decimal"
    | .scientific => "scientific"
    | .engineering => "engineering"

/-- The measure of a half turn, where it is a whole number of units. -/
def AngleUnit.halfTurn? : AngleUnit → Option Nat
  | radian => none
  | degree => some 180
  | gradian => some 200

/-- The significant digits that numbers are printed with unless told otherwise. -/
def defaultSignificantDigits : Nat :=
  10

/-- The most significant digits that can be asked for. -/
def maxSignificantDigits : Nat :=
  14

/-- The settings that a reduction depends on. -/
structure Settings where
  target : Target := .user
  complexFormat : ComplexFormat := .real
  angleUnit : AngleUnit := .radian
  unitFormat : UnitFormat := .metric
  symbolic : SymbolicComputation := .replaceAllDefinedSymbols
  deriving DecidableEq, Repr

end PocketAlgebra
