import PocketAlgebra.Reduction.Basic
import PocketAlgebra.Reduction.Root

/-!
# Powers and roots

The rules for powers are tried in order, and the first that applies gives the result. Where none
applies, the power is kept.
-/

namespace PocketAlgebra

namespace Reduction

/-- The greatest exponent with which a power of a sum is multiplied out. -/
def maxExpandedExponent : Nat :=
  8

/-- A power that is kept. -/
def rawPower (base exponent : Expr) : Expr :=
  .apply .power [base, exponent]

/-- The power of the imaginary unit. -/
def imaginaryUnitPower (node : NodeReducer) (n : Int) : ReduceM Expr :=
  match n % 4 with
  | 0 => return .integer 1
  | 1 => return .i
  | 2 => return .integer (-1)
  | _ => multiply node [.integer (-1), .i]

/-- A power of a negative base with an exponent that is not whole. Even roots are imaginary, and
square roots are written with the imaginary unit; odd roots are real in the real format, and
elsewhere the principal value is not. -/
def negativeBasePower (ctx : Context) (node : NodeReducer) (base exponent : Rat) :
    ReduceM Expr := do
  let kept := rawPower (.rational base) (.rational exponent)
  let magnitude := Expr.rational (-base)
  if exponent.den % 2 = 0 then
    if ctx.settings.complexFormat = .real then
      return .nonreal
    else if exponent.den ≠ 2 then
      return kept
    else
      let rotation ← power node .i (.integer exponent.num)
      let root ← power node magnitude (.rational exponent)
      multiply node [rotation, root]
  else if ctx.settings.complexFormat ≠ .real then
    return kept
  else
    let sign : Int := if exponent.num % 2 = 0 then 1 else -1
    let root ← power node magnitude (.rational exponent)
    multiply node [.integer sign, root]

/-- A power of rational numbers, neither of them zero. -/
def rationalPower (ctx : Context) (node : NodeReducer) (base exponent : Rat) : ReduceM Expr :=
  let kept := rawPower (.rational base) (.rational exponent)
  if exponent.isInt then
    return ((wholePower? base exponent.num).map Expr.rational).getD kept
  else if UInt32.size ≤ exponent.den then
    return kept
  else if base < 0 then
    negativeBasePower ctx node base exponent
  else
    return ((radical? base exponent).map Radical.toExpr).getD kept

/-- A power of an infinity with a rational exponent other than zero. -/
def infinitePower (negative : Bool) (exponent : Rat) : Expr :=
  if exponent < 0 then
    .integer 0
  else if !negative then
    .infinity false
  else if exponent.isInt then
    .infinity (exponent.num % 2 ≠ 0)
  else
    rawPower (.infinity true) (.rational exponent)

/-- The product of two sums, term by term. -/
def multiplyOut (node : NodeReducer) (left : Expr) (right : List Expr) : ReduceM Expr := do
  let products ← (flatten .addition left).mapM fun x => right.mapM fun y => multiply node [x, y]
  add node products.flatten

/-- A sum multiplied out with itself so many times more. -/
def expandPower (node : NodeReducer) (terms : List Expr) : Nat → Expr → ReduceM Expr
  | 0, expanded => return expanded
  | times + 1, expanded => do
    expandPower node terms times (← multiplyOut node expanded terms)

/-- A power with a whole exponent of a product or a sum: a product is raised factor by factor, a
sum is multiplied out if the exponent is small. -/
def compoundPower? (node : NodeReducer) (base : Expr) (n : Int) : Option (ReduceM Expr) :=
  match base with
  | .apply .multiplication factors =>
    some do
      let powers ← (flattenAll .multiplication factors).mapM fun x => power node x (.integer n)
      multiply node powers
  | .apply .addition terms =>
    if 2 ≤ n && n ≤ maxExpandedExponent then
      some (expandPower node terms (n.toNat - 1) base)
    else
      none
  | _ => none

/-- A power of a power: the exponents are multiplied where the outer one is whole or the base is
positive. -/
def nestedPower? (node : NodeReducer) (base exponent : Expr) : Option (ReduceM Expr) :=
  match base with
  | .apply .power xs =>
    if exponent.integer?.isSome || xs.head?.any (·.sign == .positive) then
      match xs with
      | [inner, innerExponent] =>
        some do power node inner (← multiply node [innerExponent, exponent])
      | _ => some (return .undefined)
    else
      none
  | _ => none

/-- A power whose exponent is a logarithm in the base is the argument of the logarithm. -/
def logarithmicPower? (base exponent : Expr) : Option Expr :=
  match exponent with
  | .apply .logarithm (argument :: logarithmBase :: _) =>
    if logarithmBase.same base then some argument else none
  | _ => none

/-- A power for which no rule on numbers is left to try. -/
def symbolicPower (node : NodeReducer) (base exponent : Expr) : ReduceM Expr :=
  match nestedPower? node base exponent with
  | some result => result
  | none =>
    match exponent.integer?.bind (compoundPower? node base) with
    | some result => result
    | none => return (logarithmicPower? base exponent).getD (rawPower base exponent)

/-- A power whose base is neither zero nor one, and whose exponent is neither. -/
def properPower (ctx : Context) (node : NodeReducer) (base exponent : Expr) : ReduceM Expr :=
  match base, exponent with
  | .rational b, .rational x => rationalPower ctx node b x
  | .infinity negative, .rational x => return infinitePower negative x
  | .constant .imaginaryUnit, _ =>
    match exponent.integer? with
    | some n => imaginaryUnitPower node n
    | none => symbolicPower node base exponent
  | _, _ => symbolicPower node base exponent

/-- The canonical form of a power of expressions that are not matrices. -/
def powerOfScalars (ctx : Context) (node : NodeReducer) (base exponent : Expr) : ReduceM Expr :=
  if exponent.isRational 0 then
    return if base.isRational 0 || base.kind == .infinity then .undefined else .integer 1
  else if exponent.isRational 1 then
    return base
  else if base.isRational 0 then
    match exponent.sign with
    | .positive => return .integer 0
    | .negative | .null => return .undefined
    | .unknown => return rawPower base exponent
  else if base.isRational 1 && exponent.kind ≠ .infinity then
    return .integer 1
  else
    properPower ctx node base exponent

/-- The reciprocal of the index of a root; there is none of zero. -/
def rootExponent? (node : NodeReducer) : Expr → ReduceM (Option Expr)
  | .rational q => return if q = 0 then none else some (.rational q⁻¹)
  | index => do return some (← invert node index)

/-- A square root, as a power. -/
def squareRoot (node : NodeReducer) : List Expr → ReduceM Expr
  | radicand :: _ => power node radicand (.rational (mkRat 1 2))
  | [] => return .undefined

/-- A root with an index, as a power. -/
def nthRoot (node : NodeReducer) : List Expr → ReduceM Expr
  | radicand :: index :: _ => do
    match ← rootExponent? node index with
    | some exponent => power node radicand exponent
    | none => return .undefined
  | _ => return .undefined

end Reduction

end PocketAlgebra
