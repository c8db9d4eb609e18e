import PocketAlgebra.Expr.Substitution
import PocketAlgebra.Reduction.Basic

/-!
# Names and what they stand for

Symbols and calls of user functions are replaced by their definitions, as far as the settings say.
A name whose definition leads back to the name itself is undefined.
-/

namespace PocketAlgebra

mutual

/-- The names of the symbols and functions in a tree, except for symbols of the name that is
given. -/
def Expr.references (parameter : Option String) : Expr → List String
  | .symbol name => if parameter = some name then [] else [name]
  | .apply (.function name) xs => name :: Expr.referencesAll parameter xs
  | .apply _ xs => Expr.referencesAll parameter xs
  | _ => []

/-- The same for several trees. -/
def Expr.referencesAll (parameter : Option String) : List Expr → List String
  | [] => []
  | x :: xs => Expr.references parameter x ++ Expr.referencesAll parameter xs

end

/-- The names that a definition refers to; a function does not refer to its parameter. -/
def Definition.references (d : Definition) : List String :=
  d.body.references d.parameter?

namespace Definitions

/-- The names that the definition of a name refers to. -/
def referencesOf (ds : Definitions) (name : String) : List String :=
  ((ds.get? name).map Definition.references).getD []

/-- Names together with all that can be reached from them in so many steps of reference. -/
def reachable (ds : Definitions) : Nat → List String → List String
  | 0, names => names
  | steps + 1, names => reachable ds steps (names ++ names.flatMap ds.referencesOf).eraseDups

/-- Whether a name is reached from its own definition. No way without a repetition is longer than
the number of definitions. -/
def isCircular (ds : Definitions) (name : String) : Bool :=
  (ds.reachable ds.size (ds.referencesOf name)).contains name

end Definitions

namespace Reduction

/-- Whether the settings call for values in the place of symbols. -/
def replacesSymbols : SymbolicComputation → Bool
  | .replaceAllDefinedSymbols | .replaceAllSymbolsOrUndefined => true
  | _ => false

/-- What a name without a definition becomes. -/
def undefinedName (ctx : Context) (x : Expr) : Expr :=
  if ctx.settings.symbolic = .replaceAllSymbolsOrUndefined then .undefined else x

/-- A symbol, or the reduced value that it stands for. -/
def symbol (ctx : Context) (tree : NodeReducer) (name : String) : ReduceM Expr :=
  if ctx.bound.contains name || !replacesSymbols ctx.settings.symbolic then
    return .symbol name
  else
    match ctx.definitions.value? name with
    | some value =>
      if ctx.definitions.isCircular name then return .undefined else tree value
    | none => return undefinedName ctx (.symbol name)

/-- A call of a user function, or its reduced body with the argument put in. -/
def userFunction (ctx : Context) (tree : NodeReducer) (name : String) (xs : List Expr) :
    ReduceM Expr :=
  let call := Expr.apply (.function name) xs
  if ctx.settings.symbolic = .doNotReplaceAnySymbol then
    return call
  else
    match ctx.definitions.function? name with
    | some (parameter, body) =>
      if ctx.definitions.isCircular name then
        return .undefined
      else
        match xs with
        | [argument] => tree (Expr.substitute parameter argument body)
        | _ => return .undefined
    | none => return undefinedName ctx call

end Reduction

end PocketAlgebra
