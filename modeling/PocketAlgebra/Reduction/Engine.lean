import PocketAlgebra.Reduction.Beautify
import PocketAlgebra.Reduction.ComplexPart
import PocketAlgebra.Reduction.Derivative
import PocketAlgebra.Reduction.Integer
import PocketAlgebra.Reduction.ListFunction
import PocketAlgebra.Reduction.Logarithm
import PocketAlgebra.Reduction.Matrix
import PocketAlgebra.Reduction.Name
import PocketAlgebra.Reduction.Power
import PocketAlgebra.Reduction.Product
import PocketAlgebra.Reduction.Sum
import PocketAlgebra.Reduction.Trigonometry

/-!
# Reduction

An expression is reduced from its leaves up: the operands first, and then the node over them by the
rule for its operator. The breaker is asked once for every node that is reduced with its operands.
No node may be charged more than the bytes that are free.

Rules call for the reduction of further nodes, and names for that of their definitions. How deep
such calls may be nested is limited, so far out that no expression comes near the limit; where one
did, the reduction would count as interrupted.
-/

namespace PocketAlgebra

namespace Reduction

/-! ## Operands that no rule admits -/

/-- Whether an expression of this kind may have lists as operands. -/
def admitsLists (kind : Kind) : Bool :=
  kind.isListFunction || kind == .parenthesis

/-- Whether an expression of this kind may have matrices as operands. -/
def admitsMatrices (kind : Kind) : Bool :=
  kind == .matrix || kind.isMatrixFunction ||
    match kind with
    | .addition | .multiplication | .power | .opposite | .subtraction | .division => true
    | .parenthesis => true
    | _ => false

/-- The result for a compound expression with an operand that spoils it. Matrices and lists may
hold poisoned entries. -/
def spoiled? (f : Operator) (xs : List Expr) : Option Expr :=
  if !admitsLists f.kind && xs.any Expr.isList then
    some .undefined
  else
    let poison := if f = .list || f.kind == .matrix then none else poison? xs
    poison.or (if !admitsMatrices f.kind && xs.any Expr.isMatrix then some .undefined else none)

/-! ## The rules for arithmetic, with matrices and without -/

/-- A sum. -/
def reduceSum (node : NodeReducer) (xs : List Expr) : ReduceM Expr :=
  let terms := flattenAll .addition xs
  match poison? terms with
  | some poison => return poison
  | none => if terms.any Expr.isMatrix then sumOfMatrices node terms else return sumOfScalars terms

/-- A product. -/
def reduceProduct (node : NodeReducer) (xs : List Expr) : ReduceM Expr :=
  let factors := flattenAll .multiplication xs
  match poison? factors with
  | some poison => return poison
  | none =>
    if factors.any Expr.isMatrix then
      productOfMatrices node factors
    else
      productOfScalars node factors

/-- A power. -/
def reducePower (ctx : Context) (node : NodeReducer) (xs : List Expr) : ReduceM Expr :=
  match xs with
  | [base, exponent] =>
    if exponent.isMatrix then
      return .undefined
    else
      match Grid.ofExpr? base with
      | some m =>
        match exponent.integer? with
        | some n => powerOfMatrix node m n
        | none => return .undefined
      | none => powerOfScalars ctx node base exponent
  | _ => return .undefined

/-- A difference, as a sum. -/
def reduceDifference (node : NodeReducer) (xs : List Expr) : ReduceM Expr := do
  match xs with
  | [x, y] => add node [x, ← negate node y]
  | _ => return .undefined

/-- An opposite, as a product. -/
def reduceOpposite (node : NodeReducer) (xs : List Expr) : ReduceM Expr :=
  match xs with
  | [x] => negate node x
  | _ => return .undefined

/-- A quotient, as a product. With a denominator of zero it is an infinity of the sign of the
numerator, where that is known and not zero. -/
def reduceQuotient (node : NodeReducer) (xs : List Expr) : ReduceM Expr := do
  match xs with
  | [x, y] =>
    if y.isRational 0 then
      match x.sign with
      | .positive => return .infinity false
      | .negative => return .infinity true
      | _ => return .undefined
    else
      multiply node [x, ← invert node y]
  | _ => return .undefined

/-- A comparison; identical expressions are equal. -/
def reduceComparison (relation : Relation) (xs : List Expr) : Expr :=
  match xs with
  | x :: y :: _ =>
    if relation = .equal && x.same y then .integer 1 else .apply (.comparison relation) xs
  | _ => .apply (.comparison relation) xs

/-- A decimal literal, as a rational number or what it is taken for. -/
def reduceDecimal (d : Decimal) : Expr :=
  match d.value with
  | .overflow negative => .infinity negative
  | .underflow => .integer 0
  | .finite q => .rational q

/-- A constant; in the real format there is no imaginary unit. -/
def reduceConstant (ctx : Context) (c : Constant) : Expr :=
  if c = .imaginaryUnit && ctx.settings.complexFormat = .real then .nonreal else .constant c

/-! ## All rules -/

/-- The rule for an operator. -/
def reduceApply (ctx : Context) (node tree : NodeReducer) (f : Operator) (xs : List Expr) :
    ReduceM Expr :=
  match f with
  | .undefined | .nonreal | .matrix _ _ | .list => return .apply f xs
  | .integral | .sum | .product => return .apply f xs
  | .function name => userFunction ctx tree name xs
  | .addition => reduceSum node xs
  | .subtraction => reduceDifference node xs
  | .multiplication => reduceProduct node xs
  | .division => reduceQuotient node xs
  | .power => reducePower ctx node xs
  | .opposite => reduceOpposite node xs
  | .factorial =>
    match xs with
    | [x] => return (factorial x).toExpr (.apply f xs)
    | _ => return .undefined
  | .parenthesis | .store => return xs.headD .undefined
  | .comparison relation => return reduceComparison relation xs
  | .absoluteValue | .complexArgument | .realPart | .imaginaryPart | .conjugate =>
    complexPart ctx node f xs
  | .squareRoot => squareRoot node xs
  | .nthRoot => nthRoot node xs
  | .naturalLogarithm => logarithmInBase node .e xs
  | .commonLogarithm => logarithmInBase node (.integer 10) xs
  | .logarithm => logarithm ctx node xs
  | .sine | .cosine | .tangent | .arcSine | .arcCosine | .arcTangent => trigonometric ctx node f xs
  | .hyperbolicSine | .hyperbolicCosine | .hyperbolicTangent => trigonometric ctx node f xs
  | .hyperbolicArcSine | .hyperbolicArcCosine | .hyperbolicArcTangent =>
    trigonometric ctx node f xs
  | .floor | .ceiling | .fractionalPart | .round => return integerResult
  | .greatestCommonDivisor | .leastCommonMultiple | .quotient | .remainder => return integerResult
  | .binomial | .permutations => return integerResult
  | .determinant | .matrixInverse | .trace | .transpose | .dimension => matrixFunction node f xs
  | .listSum | .listMean => listFunction node f xs
  | .derivative => derivativeAt ctx node tree xs
where
  /-- What a rounding or integer function gives. -/
  integerResult : Expr :=
    (integerFunction f xs).toExpr (.apply f xs)

/-- The rule for a node whose operands are reduced. -/
def reduceNode (ctx : Context) (node tree : NodeReducer) (x : Expr) : ReduceM Expr :=
  match x with
  | .decimal d => return reduceDecimal d
  | .constant c => return reduceConstant ctx c
  | .symbol name => symbol ctx tree name
  | .apply f xs =>
    match spoiled? f xs with
    | some result => return result
    | none => reduceApply ctx node tree f xs
  | x => return x

/-! ## Closing the recursion -/

/-- What is to be reduced: a node whose operands are reduced, or a whole tree. -/
inductive Task where
  | node (x : Expr)
  | tree (x : Expr)

/-- The context inside the scope of a function that binds a variable. -/
def Context.binding (ctx : Context) (xs : List Expr) : Context :=
  { ctx with bound := (xs[1]?.bind Expr.name?).getD "" :: ctx.bound }

/-- Reduces the operands of an expression. Of a function that binds a variable, the first operand
is in its scope, and the second one, which names it, is left alone. -/
def reduceOperands (ctx : Context) (tree : Context → NodeReducer) (f : Operator)
    (xs : List Expr) : ReduceM (List Expr) := do
  if f.kind.isParametered then
    match xs with
    | [] => return []
    | body :: others =>
      let body ← tree (ctx.binding xs) body
      let rest ← (others.drop 1).mapM (tree ctx)
      return body :: others.take 1 ++ rest
  else
    xs.mapM (tree ctx)

/-- Fails where a node does not fit into memory. -/
def checkRoom (ctx : Context) (x : Expr) : ReduceM Unit :=
  if x.charge ≤ ctx.room then return () else throw .outOfMemory

/-- Asks the breaker. -/
def checkBreaker : ReduceM Unit := do
  let (stop, breaker) := (← get).poll
  set breaker
  if stop then throw .interrupted

/-- Reduces an expression by calls that are nested at most so deep. -/
def reduceWithin : Nat → Context → Task → ReduceM Expr
  | 0, _, _ => throw .interrupted
  | nesting + 1, ctx, task => do
    let node : NodeReducer := fun x => reduceWithin nesting ctx (.node x)
    let tree : Context → NodeReducer := fun ctx x => reduceWithin nesting ctx (.tree x)
    match task with
    | .node x =>
      checkRoom ctx x
      reduceNode ctx node (tree ctx) x
    | .tree x =>
      checkBreaker
      match x with
      | .apply .store xs =>
        match xs with
        | [] => node x
        | value :: _ => tree ctx value
      | .apply f xs =>
        if xs.isEmpty then
          node x
        else
          node (.apply f (← reduceOperands ctx tree f xs))
      | x => node x

/-- How deep the calls of a reduction may be nested. -/
def maxNesting : Nat :=
  0x10000000000

/-- Reduces an expression, where there is room for a copy of it and for the result. For the user it
is brought into the form that is expected. -/
def run (ctx : Context) (x : Expr) : ReduceM Expr := do
  checkRoom ctx x
  let reduced ← reduceWithin maxNesting ctx (.tree x)
  let result := if ctx.settings.target = .user then beautify reduced else reduced
  checkRoom ctx result
  return result

end Reduction

/-- The canonical form of an expression in a context, under a breaker. -/
def Expr.reduce (x : Expr) (ctx : Reduction.Context) (breaker : Breaker) :
    Except Reduction.Failure Expr :=
  (Reduction.run ctx x breaker).map Prod.fst

end PocketAlgebra
