import PocketAlgebra.Expr.Substitution
import PocketAlgebra.Reduction.Basic

/-!
# Derivatives

Symbolic differentiation of canonical expressions. Where a function has no derivative in closed
form here, there is none.
-/

namespace PocketAlgebra

namespace Reduction

/-- A reduced natural logarithm. -/
def naturalLogarithm (node : NodeReducer) (x : Expr) : ReduceM Expr :=
  node (.apply .logarithm [x, .e])

/-- A reduced function of one operand. -/
def apply1 (node : NodeReducer) (f : Operator) (x : Expr) : ReduceM Expr :=
  node (.apply f [x])

/-- A reduced square. -/
def square (node : NodeReducer) (x : Expr) : ReduceM Expr :=
  power node x (.integer 2)

/-- The measure of one unit of angles in radians, where it is not 1. -/
def radiansPerUnit? (ctx : Context) (node : NodeReducer) : Option (ReduceM Expr) :=
  ctx.settings.angleUnit.halfTurn?.map fun measure =>
    multiply node [.rational (mkRat 1 measure), .pi]

/-- The product rule: the sum, over the factors whose derivative is not zero, of the derivative
times the other factors. -/
def productRule (node : NodeReducer) (before : List Expr) :
    List Expr → List Expr → ReduceM (List Expr)
  | factor :: factors, derivative :: derivatives => do
    let others := before ++ factors
    let terms ←
      if derivative.isRational 0 then pure [] else pure [← multiply node (derivative :: others)]
    return terms ++ (← productRule node (before ++ [factor]) factors derivatives)
  | _, _ => return []

/-- The derivative of a power, from those of its base and its exponent. -/
def powerRule (node : NodeReducer) (x : String) (base exponent db dp : Expr) : ReduceM Expr := do
  let whole := Expr.apply .power [base, exponent]
  if !exponent.mentions x then
    let lowered ← add node [exponent, .integer (-1)]
    multiply node [exponent, ← power node base lowered, db]
  else if !base.mentions x then
    multiply node [whole, ← naturalLogarithm node base, dp]
  else
    let first ← multiply node [dp, ← naturalLogarithm node base]
    let second ← multiply node [exponent, db, ← invert node base]
    multiply node [whole, ← add node [first, second]]

/-- The derivative of a function of one operand at that operand, where angles are in radians. -/
def outerDerivative? (node : NodeReducer) (f : Operator) (u : Expr) : Option (ReduceM Expr) :=
  match f with
  | .sine => some (apply1 node .cosine u)
  | .cosine => some do negate node (← apply1 node .sine u)
  | .tangent => some do power node (← apply1 node .cosine u) (.integer (-2))
  | .arcTangent => some do invert node (← add node [.integer 1, ← square node u])
  | .arcSine => some (arcSineDerivative u)
  | .arcCosine => some do negate node (← arcSineDerivative u)
  | .hyperbolicSine => some (apply1 node .hyperbolicCosine u)
  | .hyperbolicCosine => some (apply1 node .hyperbolicSine u)
  | .hyperbolicTangent => some do power node (← apply1 node .hyperbolicCosine u) (.integer (-2))
  | _ => none
where
  /-- The reciprocal root of `1 - u²`. -/
  arcSineDerivative (u : Expr) : ReduceM Expr := do
    let radicand ← add node [.integer 1, ← negate node (← square node u)]
    power node radicand (.rational (mkRat (-1) 2))

/-- The factor by which a unit of angles other than the radian changes the derivative of a
function. -/
def unitFactor? (ctx : Context) (node : NodeReducer) (f : Operator) : Option (ReduceM Expr) :=
  match f with
  | .sine | .cosine | .tangent => radiansPerUnit? ctx node
  | .arcSine | .arcCosine | .arcTangent =>
    (radiansPerUnit? ctx node).map fun scale => do invert node (← scale)
  | _ => none

/-- The chain rule. -/
def chainRule (ctx : Context) (node : NodeReducer) (f : Operator) (outer : ReduceM Expr)
    (du : Expr) : ReduceM Expr := do
  let outer ← outer
  match unitFactor? ctx node f with
  | some factor => multiply node [outer, du, ← factor]
  | none => multiply node [outer, du]

/-- The derivative of a logarithm with a constant base. -/
def logarithmRule (node : NodeReducer) (u base du : Expr) : ReduceM Expr := do
  let inverse ← invert node u
  let scale ← invert node (← naturalLogarithm node base)
  multiply node [du, inverse, scale]

mutual

/-- The derivative of an expression with respect to a symbol. -/
def derivative? (ctx : Context) (node : NodeReducer) (x : String) :
    Expr → ReduceM (Option Expr)
  | .symbol y => return some (.integer (if y = x then 1 else 0))
  | .apply f xs => do
    if !Expr.mentionsAny x xs then
      return some (.integer 0)
    else
      match f, xs with
      | .addition, terms =>
        match ← derivatives? ctx node x terms with
        | some ds => return some (← add node ds)
        | none => return none
      | .multiplication, factors =>
        match ← derivatives? ctx node x factors with
        | some ds => return some (← add node (← productRule node [] factors ds))
        | none => return none
      | .power, [base, exponent] =>
        match ← derivative? ctx node x base with
        | none => return none
        | some db =>
          match ← derivative? ctx node x exponent with
          | none => return none
          | some dp => return some (← powerRule node x base exponent db dp)
      | .logarithm, [u, base] =>
        if base.mentions x then
          return none
        else
          match ← derivative? ctx node x u with
          | some du => return some (← logarithmRule node u base du)
          | none => return none
      | f, [u] =>
        match outerDerivative? node f u with
        | none => return none
        | some outer =>
          match ← derivative? ctx node x u with
          | some du => return some (← chainRule ctx node f outer du)
          | none => return none
      | _, _ => return none
  | _ => return some (.integer 0)

/-- The derivatives of several expressions, where all of them have one. -/
def derivatives? (ctx : Context) (node : NodeReducer) (x : String) :
    List Expr → ReduceM (Option (List Expr))
  | [] => return some []
  | e :: es => do
    match ← derivative? ctx node x e with
    | none => return none
    | some d => return (← derivatives? ctx node x es).map (d :: ·)

end

/-- A derivative at a point, brought into canonical form: the derivative is formed, the point put
in, and the result reduced as a whole. -/
def derivativeAt (ctx : Context) (node tree : NodeReducer) (xs : List Expr) : ReduceM Expr := do
  match xs with
  | [body, .symbol x, point] =>
    match ← derivative? ctx node x body with
    | some d => tree (Expr.substitute x point d)
    | none => return .apply .derivative xs
  | _ => return .undefined

end Reduction

end PocketAlgebra
