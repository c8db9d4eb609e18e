import PocketAlgebra.Reduction.ComplexPart

/-!
# Sums and means of lists

A function of lists is computed once every argument is a list. A symbol or a function call may
still turn out to be a list, so the expression is kept; with any other argument it is undefined.
-/

namespace PocketAlgebra

namespace Reduction

/-- The elements of a list. -/
def elements? : Expr → Option (List Expr)
  | .apply .list xs => some xs
  | _ => none

/-- Whether an argument is a list or may become one. -/
def mayBeList (x : Expr) : Bool :=
  x.isList || x.kind == .symbol || x.kind == .function

/-- The mean of the elements of a list; the empty list has none. -/
def mean (node : NodeReducer) (elements : List Expr) : ReduceM Expr := do
  if elements.isEmpty then
    return .undefined
  else
    multiply node [← add node elements, .rational (mkRat 1 elements.length)]

/-- The mean of values with weights. Where the weights add up to zero there is none. -/
def weightedMean (node : NodeReducer) (values weights : List Expr) : ReduceM Expr := do
  let products ← (values.zip weights).mapM fun (x, w) => multiply node [x, w]
  let total ← sumOrZero node products
  multiply node [total, ← invert node (← sumOrZero node weights)]

/-- Whether the sign of a weight is known and not negative. -/
def isWeight (x : Expr) : Bool :=
  x.sign == .positive || x.sign == .null

/-- The canonical form of a function of lists. -/
def listFunction (node : NodeReducer) (f : Operator) (xs : List Expr) : ReduceM Expr :=
  match xs.mapM elements? with
  | none => return if xs.all mayBeList then .apply f xs else .undefined
  | some lists =>
    match f, lists with
    | .listSum, [elements] => sumOrZero node elements
    | .listMean, [elements] => mean node elements
    | .listMean, [values, weights] =>
      if values.isEmpty || weights.length ≠ values.length then
        return .undefined
      else if weights.all isWeight then
        weightedMean node values weights
      else
        return .apply f xs
    | _, _ => return .undefined

end Reduction

end PocketAlgebra
