import PocketAlgebra.Reduction.Basic

/-!
# Logarithms

Natural and common logarithms are written with their bases first. The logarithm of a rational
number is computed where it is whole.
-/

namespace PocketAlgebra

namespace Reduction

/-- How often a positive number can be divided by a base of at least 2 until 1 is left, where
nothing else is left on the way. -/
def powerCount? (base n : Nat) : Option Nat :=
  if n = 1 then
    some 0
  else if 1 < base ∧ 0 < n ∧ n % base = 0 then
    (powerCount? base (n / base)).map (· + 1)
  else
    none
termination_by n
decreasing_by
  rename_i h
  exact Nat.div_lt_self h.2.1 h.1

/-- The whole number `k` with `x = base ^ k`, for a whole base of at least 2. -/
def wholeLogarithm? (x base : Rat) : Option Int :=
  if base.isInt && 2 ≤ base && 0 < x then
    if x.isInt then
      (powerCount? base.num.natAbs x.num.natAbs).map Int.ofNat
    else if x.num = 1 then
      (powerCount? base.num.natAbs x.den).map fun k => -Int.ofNat k
    else
      none
  else
    none

/-- The logarithm of infinity in a base, where its sign is known. -/
def infiniteLogarithm? (base : Expr) : Option Expr :=
  match base with
  | .rational b => if base.sign == .positive then some (.infinity (b < 1)) else none
  | .constant .e => some (.infinity false)
  | _ => none

/-- A logarithm whose argument is a power of a positive base: the exponent becomes a factor. -/
def logarithmOfPower? (node : NodeReducer) (x base : Expr) : Option (ReduceM Expr) :=
  match x with
  | .apply .power [y, p] =>
    if y.sign == .positive then
      some do multiply node [p, ← node (.apply .logarithm [y, base])]
    else
      none
  | _ => none

/-- A logarithm that is neither 0 nor 1 by the looks of its argument. -/
def properLogarithm (ctx : Context) (node : NodeReducer) (x base : Expr) : ReduceM Expr :=
  if ctx.settings.complexFormat = .real && x.sign == .negative && base.sign == .positive then
    return .nonreal
  else
    match (x.rational?.bind fun q => base.rational?.bind (wholeLogarithm? q)) with
    | some k => return .integer k
    | none =>
      let infinite := if x.infinity? = some false then infiniteLogarithm? base else none
      match infinite with
      | some result => return result
      | none => (logarithmOfPower? node x base).getD (return .apply .logarithm [x, base])

/-- The canonical form of a logarithm with a base. The base may be neither 1 nor a rational number
that is not positive. -/
def logarithm (ctx : Context) (node : NodeReducer) : List Expr → ReduceM Expr
  | x :: base :: _ =>
    if base.rational?.any fun b => b ≤ 0 || b = 1 then
      return .undefined
    else if x.isRational 0 then
      return .undefined
    else if x.isRational 1 then
      return .integer 0
    else if x.same base then
      return .integer 1
    else
      properLogarithm ctx node x base
  | _ => return .undefined

/-- A natural or common logarithm, written with its base. -/
def logarithmInBase (node : NodeReducer) (base : Expr) : List Expr → ReduceM Expr
  | x :: _ => node (.apply .logarithm [x, base])
  | [] => return .undefined

end Reduction

end PocketAlgebra
