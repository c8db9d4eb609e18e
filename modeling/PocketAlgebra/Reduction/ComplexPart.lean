import PocketAlgebra.Reduction.Trigonometry

/-!
# Parts of complex numbers

An expression whose sign is known is real. Real part, imaginary part and conjugate also see through
sums of real terms and real multiples of the imaginary unit.
-/

namespace PocketAlgebra

namespace Reduction

/-- Whether an expression is the imaginary unit. -/
def isImaginaryUnit (x : Expr) : Bool :=
  x.constant? = some .imaginaryUnit

/-- A reduced sum, which is zero where there are no terms. -/
def sumOrZero (node : NodeReducer) (terms : List Expr) : ReduceM Expr :=
  if terms.isEmpty then return .integer 0 else add node terms

/-- The coefficient of the imaginary unit in a term, where the unit is a factor exactly once and
all other factors are known to be real. -/
def imaginaryCoefficient? (node : NodeReducer) (term : Expr) : Option (ReduceM Expr) :=
  if isImaginaryUnit term then
    some (return .integer 1)
  else
    match term with
    | .apply .multiplication factors =>
      let others := factors.filter fun x => !isImaginaryUnit x
      if others.length + 1 = factors.length && others.all (·.sign.isKnown) then
        some (multiply node others)
      else
        none
    | _ => none

/-- Terms split into real ones and the coefficients of imaginary ones, where each is one or the
other. -/
def splitTerms? (node : NodeReducer) : List Expr → ReduceM (Option (List Expr × List Expr))
  | [] => return some ([], [])
  | term :: terms =>
    if term.sign.isKnown then do
      return (← splitTerms? node terms).map fun (real, imaginary) => (term :: real, imaginary)
    else
      match imaginaryCoefficient? node term with
      | none => return none
      | some coefficient => do
        let b ← coefficient
        return (← splitTerms? node terms).map fun (real, imaginary) => (real, b :: imaginary)

/-- The real and imaginary terms of an expression. -/
def cartesianParts? (node : NodeReducer) (x : Expr) : ReduceM (Option (List Expr × List Expr)) :=
  match x with
  | .apply .addition terms => splitTerms? node terms
  | x => splitTerms? node [x]

/-- A complex part of an expression whose sign tells it, or of the imaginary unit. -/
def simplePart? (ctx : Context) (node : NodeReducer) (f : Operator) (x : Expr) :
    Option (ReduceM Expr) :=
  let sign := x.sign
  let unit := isImaginaryUnit x
  match f with
  | .absoluteValue =>
    if x.kind == .absoluteValue || sign == .positive || sign == .null then
      some (return x)
    else if sign == .negative then
      some (negate node x)
    else if unit then
      some (return .integer 1)
    else
      none
  | .complexArgument =>
    match sign with
    | .positive => some (return .integer 0)
    | .negative => some (angle ctx node 1)
    | .null => some (return .undefined)
    | .unknown => if unit then some (angle ctx node (mkRat 1 2)) else none
  | .realPart =>
    if sign.isKnown then some (return x) else if unit then some (return .integer 0) else none
  | .imaginaryPart =>
    if sign.isKnown then
      some (return .integer 0)
    else if unit then
      some (return .integer 1)
    else
      none
  | .conjugate =>
    match x with
    | .apply .conjugate xs =>
      match xs with
      | y :: _ => some (return y)
      | [] => none
    | x =>
      if sign.isKnown then some (return x) else if unit then some (negate node x) else none
  | _ => none

/-- A complex part of a sum of the given real terms and imaginary coefficients. -/
def partOfTerms (node : NodeReducer) (f : Operator) (real imaginary : List Expr) :
    ReduceM Expr := do
  match f with
  | .realPart => sumOrZero node real
  | .imaginaryPart => sumOrZero node imaginary
  | _ =>
    let b ← sumOrZero node imaginary
    add node (real ++ [← multiply node [.integer (-1), b, .i]])

/-- The canonical form of a part of a complex number. -/
def complexPart (ctx : Context) (node : NodeReducer) (f : Operator) (xs : List Expr) :
    ReduceM Expr :=
  match xs with
  | [x] =>
    match simplePart? ctx node f x with
    | some result => result
    | none =>
      match f with
      | .realPart | .imaginaryPart | .conjugate => do
        match ← cartesianParts? node x with
        | some (real, imaginary) => partOfTerms node f real imaginary
        | none => return .apply f [x]
      | _ => return .apply f [x]
  | _ => return .undefined

end Reduction

end PocketAlgebra
