import PocketAlgebra.Approximation.Checked
import PocketAlgebra.Approximation.Floating
import PocketAlgebra.Preferences.Basic
import PocketAlgebra.Reduction.Engine
import PocketAlgebra.Text.Parser

/-!
# Sessions of the calculator

A session evaluates lines one after the other. A line is reduced for the user, and the result is
approximated. Assignments define a name by the reduced value, or a function by its body as it is
written; the result of every line is what `ans` stands for in the next one. A session ends at a
line whose approximation breaks off.
-/

namespace PocketAlgebra

/-- A session: what the user prefers, and what has been defined so far. -/
structure Session where
  preferences : Preferences
  definitions : Definitions := {}

/-- Why a line has no result. -/
inductive LineError where
  | parsing (error : ParseError)
  | reduction (failure : Reduction.Failure)
  | storing (error : StoreError)

/-- What a line gives. -/
inductive LineResult where
  /-- The line is blank. -/
  | nothing
  /-- The line is rejected or fails. -/
  | failed (error : LineError)
  /-- The line has a value, and is approximated by another one. -/
  | done (exact : Expr) (approximate : Evaluation Float)

namespace Session

/-- The name that stands for the result of the line before. -/
def answerName : String :=
  "ans"

/-- The bytes that definitions leave free. -/
def free (s : Session) : Nat :=
  s.preferences.poolCapacity - s.definitions.charge

/-- A session with a name defined, while so many other bytes are taken. -/
def define (s : Session) (taken : Nat) (name : String) (value : Expr) :
    Except StoreError Session :=
  (s.definitions.define (s.free - taken) name (.value value)).map fun definitions =>
    { s with definitions }

/-- A session after an assignment, whose value has been reduced; other expressions change
nothing. -/
def store (s : Session) (taken : Nat) (line reduced : Expr) : Except StoreError Session :=
  match line with
  | .apply .store (_ :: .symbol name :: _) => s.define taken name reduced
  | .apply .store _ =>
    (s.definitions.store (s.free - taken) line).map fun result =>
      { s with definitions := result.2 }
  | _ => .ok s

/-- The settings and definitions that a line is reduced with. -/
def reductionContext (s : Session) (line : Expr) : Reduction.Context :=
  ⟨s.preferences.settings .user, s.definitions, s.free - line.charge, []⟩

/-- The settings and definitions that a result is approximated with. -/
def approximationContext (s : Session) : Approximation.Context :=
  ⟨⟨s.preferences.complexFormat, s.preferences.angleUnit⟩, s.definitions⟩

/-- Keeps the definitions that a line makes and its result. What has been defined before one of
them does not fit into memory stays defined. -/
def keep (s : Session) (line reduced : Expr) : Session × Except StoreError Unit :=
  let taken := line.charge + reduced.charge
  match s.store taken line reduced with
  | .error error => (s, .error error)
  | .ok stored =>
    match stored.define taken answerName reduced with
    | .error error => (stored, .error error)
    | .ok answered => (answered, .ok ())

/-- Evaluates a line. -/
def evaluate (s : Session) (text : String) : Session × LineResult :=
  let text := trimBlanks text
  if text.isEmpty then
    (s, .nothing)
  else
    match Expr.parse s.free text with
    | .error error => (s, .failed (.parsing error))
    | .ok line =>
      match line.reduce (s.reductionContext line) {} with
      | .error failure => (s, .failed (.reduction failure))
      | .ok reduced =>
        let value : Evaluation Float := reduced.approximate s.approximationContext {}
        match s.keep line reduced with
        | (s, .ok ()) => (s, .done reduced value)
        | (s, .error error) => (s, .failed (.storing error))

/-- Whether a line is reduced to a result whose approximation breaks off. -/
def breaksOff (s : Session) (text : String) : Bool :=
  match Expr.parse s.free (trimBlanks text) with
  | .error _ => false
  | .ok line =>
    match line.reduce (s.reductionContext line) {} with
    | .error _ => false
    | .ok reduced =>
      let value? : Option (Evaluation Float) := reduced.approximateChecked? s.approximationContext
      value?.isNone

end Session

end PocketAlgebra
