import PocketAlgebra.Reduction.Basic

/-!
# Circular and hyperbolic functions

Angles are counted in half turns, so that the tables of exact values do not depend on the unit. The
tables hold the multiples of a sixth and of a quarter of a half turn.
-/

namespace PocketAlgebra

namespace Reduction

/-! ## Angles -/

/-- An angle of so many half turns, in the unit of angles. -/
def angle (ctx : Context) (node : NodeReducer) (halfTurns : Rat) : ReduceM Expr :=
  match ctx.settings.angleUnit.halfTurn? with
  | some measure => return .rational (halfTurns * measure)
  | none => multiply node [.rational halfTurns, .pi]

/-- The number of half turns of an angle that is a rational multiple of one. -/
def halfTurns? (unit : AngleUnit) (x : Expr) : Option Rat :=
  match unit.halfTurn? with
  | some measure => x.rational?.map (· / measure)
  | none =>
    match x with
    | .rational q => if q = 0 then some 0 else none
    | .constant .pi => some 1
    | .apply .multiplication [.rational q, .constant .pi] => some q
    | _ => none

/-! ## Exact values -/

/-- The number `coefficient · √radicand`. -/
structure Surd where
  coefficient : Rat
  radicand : Nat
  deriving DecidableEq

/-- The number as a canonical expression, for radicands up to 3. -/
def Surd.toExpr (s : Surd) : Expr :=
  if s.radicand = 1 || s.coefficient = 0 then
    .rational s.coefficient
  else
    let root := Expr.apply .power [.integer s.radicand, .rational (mkRat 1 2)]
    if s.coefficient = 1 then
      root
    else
      .apply .multiplication [.rational s.coefficient, root]

/-- The opposite number. -/
def Surd.negate (s : Surd) : Surd :=
  ⟨-s.coefficient, s.radicand⟩

/-- The sines of the angles up to a quarter turn, in half turns, that have a table entry. -/
def sines : List (Rat × Surd) :=
  [(0, ⟨0, 1⟩), (mkRat 1 6, ⟨mkRat 1 2, 1⟩), (mkRat 1 4, ⟨mkRat 1 2, 2⟩),
    (mkRat 1 3, ⟨mkRat 1 2, 3⟩), (mkRat 1 2, ⟨1, 1⟩)]

/-- The tangents of the angles up to a third of a half turn that have a table entry. -/
def tangents : List (Rat × Surd) :=
  [(0, ⟨0, 1⟩), (mkRat 1 4, ⟨1, 1⟩), (mkRat 1 3, ⟨1, 3⟩), (mkRat 1 6, ⟨mkRat 1 3, 3⟩)]

/-- The sine of so many half turns, where it has a table entry up to periods and symmetries. -/
def exactSine? (turns : Rat) : Option Surd :=
  let t := turns - (turns / 2).floor * 2
  let negative := 1 ≤ t
  let t := if negative then t - 1 else t
  let t := if mkRat 1 2 < t then 1 - t else t
  (sines.lookup t).map fun s => if negative then s.negate else s

/-- The cosine of so many half turns. -/
def exactCosine? (turns : Rat) : Option Surd :=
  exactSine? (turns + mkRat 1 2)

/-- The tangent of so many half turns, as the quotient of sine and cosine. -/
def exactTangent? (node : NodeReducer) (turns : Rat) : Option (ReduceM Expr) :=
  match exactSine? turns, exactCosine? turns with
  | some sine, some cosine =>
    if cosine.coefficient = 0 then
      some (return .undefined)
    else
      some do multiply node [sine.toExpr, ← invert node cosine.toExpr]
  | _, _ => none

/-- A circular function of so many half turns. -/
def exactCircular? (node : NodeReducer) (f : Operator) (turns : Rat) : Option (ReduceM Expr) :=
  match f with
  | .sine => (exactSine? turns).map fun s => return s.toExpr
  | .cosine => (exactCosine? turns).map fun s => return s.toExpr
  | _ => exactTangent? node turns

/-! ## Symmetries -/

/-- Whether an expression is a negative number or a product that begins with one. -/
def isNegativeForm : Expr → Bool
  | .rational q => q < 0
  | .infinity negative => negative
  | .apply .multiplication (.rational q :: _) => q < 0
  | _ => false

/-- The half turns of an inverse function with the given table. Negative arguments are looked up by
their opposites. -/
def tabulatedHalfTurns? (node : NodeReducer) (table : List (Rat × Surd)) (x : Expr) :
    ReduceM (Option Rat) := do
  let negative := isNegativeForm x
  let magnitude ← if negative then negate node x else pure x
  let entry := table.find? fun (_, value) => value.toExpr.same magnitude
  return entry.map fun (turns, _) => if negative then -turns else turns

/-- The inverse of a function. -/
def inverseFunction? : Operator → Option Operator
  | .sine => some .arcSine
  | .cosine => some .arcCosine
  | .tangent => some .arcTangent
  | .hyperbolicSine => some .hyperbolicArcSine
  | .hyperbolicCosine => some .hyperbolicArcCosine
  | .hyperbolicTangent => some .hyperbolicArcTangent
  | _ => none

/-- The functions with `f (-x) = -f x`. -/
def isOdd : Operator → Bool
  | .sine | .tangent | .arcSine | .arcTangent => true
  | .hyperbolicSine | .hyperbolicTangent | .hyperbolicArcSine | .hyperbolicArcTangent => true
  | _ => false

/-- The functions with `f (-x) = f x`. -/
def isEven : Operator → Bool
  | .cosine | .hyperbolicCosine => true
  | _ => false

/-- A function of an argument for which there is no exact value: a negative argument is replaced by
its opposite where the function has a symmetry. -/
def foldSign (node : NodeReducer) (f : Operator) (x : Expr) : ReduceM Expr := do
  if isNegativeForm x && (isOdd f || isEven f) then
    let value ← node (.apply f [← negate node x])
    if isOdd f then negate node value else return value
  else
    return .apply f [x]

/-! ## The functions -/

/-- Sine, cosine or tangent. -/
def circular (ctx : Context) (node : NodeReducer) (f : Operator) (x : Expr) : ReduceM Expr :=
  if x.kind == .infinity then
    return .undefined
  else
    match (halfTurns? ctx.settings.angleUnit x).bind (exactCircular? node f) with
    | some value => value
    | none => foldSign node f x

/-- The inverse of sine or cosine. Beyond 1 there are no real values. -/
def inverseCircular (ctx : Context) (node : NodeReducer) (f : Operator) (x : Expr) :
    ReduceM Expr := do
  if x.rational?.any fun q => q < -1 || 1 < q then
    return if ctx.settings.complexFormat = .real then .nonreal else .apply f [x]
  else
    match ← tabulatedHalfTurns? node sines x with
    | some turns => angle ctx node (if f = .arcCosine then mkRat 1 2 - turns else turns)
    | none => foldSign node f x

/-- The inverse of the tangent. -/
def arcTangent (ctx : Context) (node : NodeReducer) (x : Expr) : ReduceM Expr := do
  match x with
  | .infinity negative => angle ctx node (if negative then mkRat (-1) 2 else mkRat 1 2)
  | x =>
    match ← tabulatedHalfTurns? node tangents x with
    | some turns => angle ctx node turns
    | none => foldSign node .arcTangent x

/-- The values of hyperbolic functions and their inverses that are whole. -/
def wholeHyperbolic? (f : Operator) (x : Expr) : Option Int :=
  match f with
  | .hyperbolicCosine => if x.isRational 0 then some 1 else none
  | .hyperbolicArcCosine => if x.isRational 1 then some 0 else none
  | _ => if x.isRational 0 && isOdd f then some 0 else none

/-- The canonical form of a circular or hyperbolic function. A function of a value of its own
inverse gives back the argument. -/
def trigonometric (ctx : Context) (node : NodeReducer) (f : Operator) (xs : List Expr) :
    ReduceM Expr :=
  match xs with
  | [x] =>
    match undone? f x with
    | some y => return y
    | none =>
      match f with
      | .sine | .cosine | .tangent => circular ctx node f x
      | .arcSine | .arcCosine => inverseCircular ctx node f x
      | .arcTangent => arcTangent ctx node x
      | _ =>
        match wholeHyperbolic? f x with
        | some n => return .integer n
        | none => foldSign node f x
  | _ => return .undefined
where
  /-- What a function undoes by being applied to its inverse. -/
  undone? (f : Operator) : Expr → Option Expr
    | .apply g [y] => if inverseFunction? f = some g then some y else none
    | _ => none

end Reduction

end PocketAlgebra
