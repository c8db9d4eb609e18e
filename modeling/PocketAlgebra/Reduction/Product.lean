import PocketAlgebra.Expr.Order
import PocketAlgebra.Reduction.Basic

/-!
# Products

The factors of a product are collected: rational numbers are multiplied, and powers of one base are
merged by adding their exponents. A product with a sum among its factors is multiplied out.
-/

namespace PocketAlgebra

namespace Reduction

/-- The powers of one base among the factors of a product. There is at least one exponent. -/
structure PowerGroup where
  base : Expr
  exponents : List Expr

namespace PowerGroup

/-- The groups with a further power: in the group of the same base, or in one of its own at the
end. -/
def insert (base exponent : Expr) : List PowerGroup → List PowerGroup
  | [] => [⟨base, [exponent]⟩]
  | g :: gs =>
    if g.base.same base then
      ⟨g.base, g.exponents ++ [exponent]⟩ :: gs
    else
      g :: insert base exponent gs

/-- The product of the powers of a group. -/
def merge (node : NodeReducer) (g : PowerGroup) : ReduceM Expr :=
  match g.exponents with
  | [exponent] =>
    return if exponent.isRational 1 then g.base else .apply .power [g.base, exponent]
  | exponents => do power node g.base (← add node exponents)

end PowerGroup

/-- A product of a rational number and powers of different bases. -/
structure PowerProduct where
  coefficient : Rat := 1
  groups : List PowerGroup := []

namespace PowerProduct

/-- The product with another factor. There is none where the factor is a power without a base and
an exponent. -/
def multiply? (p : PowerProduct) : Expr → Option PowerProduct
  | .rational q => some { p with coefficient := p.coefficient * q }
  | .apply .power xs =>
    match xs with
    | [base, exponent] => some { p with groups := PowerGroup.insert base exponent p.groups }
    | _ => none
  | x => some { p with groups := PowerGroup.insert x (.integer 1) p.groups }

end PowerProduct

/-- Factors on their way into a product. -/
structure Factors where
  coefficient : Rat
  /-- The factors other than rational numbers. -/
  others : List Expr := []
  /-- Whether some factor was a product whose factors have been taken in. -/
  spliced : Bool := false

/-- Merges the groups of a product one by one; a poisoned one is the result at once. -/
def mergeGroups (node : NodeReducer) : List PowerGroup → Factors → ReduceM (Except Expr Factors)
  | [], factors => return .ok factors
  | g :: gs, factors => do
    let merged ← g.merge node
    match merged with
    | .rational q => mergeGroups node gs { factors with coefficient := factors.coefficient * q }
    | .apply .multiplication xs =>
      mergeGroups node gs { factors with others := factors.others ++ xs, spliced := true }
    | x =>
      if x.kind.isPoison then
        return .error x
      else
        mergeGroups node gs { factors with others := factors.others ++ [x] }

/-- The first sum among factors, with the factors before it and behind it. -/
def splitAtSum? : List Expr → Option (List Expr × List Expr × List Expr)
  | [] => none
  | .apply .addition terms :: xs => some ([], terms, xs)
  | x :: xs => (splitAtSum? xs).map fun (before, terms, behind) => (x :: before, terms, behind)

/-- The product of a rational number and factors of which at least one is a sum, multiplied out
over that sum. -/
def distribute (node : NodeReducer) (coefficient : Rat) (others terms : List Expr) :
    ReduceM Expr := do
  let products ← terms.mapM fun term =>
    multiply node (.rational coefficient :: others ++ [term])
  add node products

/-- The canonical form of a product of merged factors. -/
def finishProduct (node : NodeReducer) (factors : Factors) : ReduceM Expr :=
  if factors.coefficient = 0 then
    return .integer 0
  else if factors.spliced then
    multiply node (.rational factors.coefficient :: factors.others)
  else
    match splitAtSum? factors.others with
    | some (before, terms, behind) =>
      distribute node factors.coefficient (before ++ behind) terms
    | none =>
      let sorted := Expr.sort factors.others
      let coefficient := if factors.coefficient = 1 then [] else [.rational factors.coefficient]
      return assemble .multiplication 1 (coefficient ++ sorted)

/-- The canonical form of a product of factors that are not matrices. -/
def productOfScalars (node : NodeReducer) (factors : List Expr) : ReduceM Expr := do
  let infinite := factors.any (·.kind == .infinity)
  if factors.any (·.isRational 0) then
    return if infinite then .undefined else .integer 0
  else if infinite && factors.all (·.sign.isStrict) then
    return .infinity (Sign.product (factors.map Expr.sign) == .negative)
  else
    match factors.foldlM PowerProduct.multiply? {} with
    | none => return .undefined
    | some product =>
      match ← mergeGroups node product.groups ⟨product.coefficient, [], false⟩ with
      | .error poison => return poison
      | .ok factors => finishProduct node factors

end Reduction

end PocketAlgebra
