import PocketAlgebra.Expr.Order
import PocketAlgebra.Reduction.Basic

/-!
# Sums

The terms of a sum are collected: rational numbers are added up, and terms that are rational
multiples of the same expression are merged into one. What remains is written in simplification
order.
-/

namespace PocketAlgebra

namespace Reduction

/-- A term as a rational multiple of an expression. -/
structure Term where
  coefficient : Rat
  rest : Expr

namespace Term

/-- A canonical term as a multiple of the product of its other factors. -/
def ofExpr : Expr → Term
  | .apply .multiplication (.rational c :: factors) => ⟨c, assemble .multiplication 1 factors⟩
  | x => ⟨1, x⟩

/-- The term as a flat product. -/
def toExpr (t : Term) : Expr :=
  if t.coefficient = 1 then
    t.rest
  else
    match t.rest with
    | .apply .multiplication factors =>
      .apply .multiplication (.rational t.coefficient :: factors)
    | rest => .apply .multiplication [.rational t.coefficient, rest]

/-- The terms with another one added: to the first that is a multiple of the same expression, or
at the end. -/
def insert (t : Term) : List Term → List Term
  | [] => [t]
  | s :: ts =>
    if s.rest.same t.rest then
      ⟨s.coefficient + t.coefficient, s.rest⟩ :: ts
    else
      s :: insert t ts

end Term

/-- A sum of a rational number and multiples of different expressions. -/
structure LinearSum where
  constant : Rat := 0
  terms : List Term := []

namespace LinearSum

/-- The sum with another expression added. -/
def add (s : LinearSum) : Expr → LinearSum
  | .rational q => { s with constant := s.constant + q }
  | x => { s with terms := (Term.ofExpr x).insert s.terms }

/-- The canonical form of the sum. -/
def toExpr (s : LinearSum) : Expr :=
  let terms := (s.terms.filter (·.coefficient ≠ 0)).map Term.toExpr
  let constant := if s.constant = 0 then [] else [.rational s.constant]
  assemble .addition 0 (Expr.sort (terms ++ constant))

end LinearSum

/-- The signs of the infinite terms: `none` where there are none, and otherwise whether the sum of
them is negative, if they agree. -/
def infiniteSum? (terms : List Expr) : Option (Option Bool) :=
  match terms.filterMap Expr.infinity? with
  | [] => none
  | negative :: others => some (if others.all (· == negative) then some negative else none)

/-- The canonical form of a sum of terms that are not matrices. -/
def sumOfScalars (terms : List Expr) : Expr :=
  match infiniteSum? terms with
  | some none => .undefined
  | some (some negative) =>
    if terms.all (·.kind.isNumber) then
      .infinity negative
    else
      (terms.foldl LinearSum.add {}).toExpr
  | none => (terms.foldl LinearSum.add {}).toExpr

end Reduction

end PocketAlgebra
