import PocketAlgebra.Reduction.Basic

/-!
# Canonical expressions in the form a user expects

Terms with a negative sign become subtractions, factors with a negative exponent become divisions,
powers with the reciprocal of a whole number become roots, and logarithms in the bases `ℯ` and 10
get their short names back.
-/

namespace PocketAlgebra

namespace Reduction

/-- How an expression is shown: as it is, or as the reciprocal of something. -/
inductive Face where
  | whole (x : Expr)
  | reciprocal (denominator : Expr)

/-- The expression that is shown. -/
def Face.toExpr : Face → Expr
  | whole x => x
  | reciprocal d => .apply .division [.integer 1, d]

/-- An expression in its shown form: the sign that is drawn out of it, and the rest. -/
structure Shown where
  negative : Bool
  face : Face

/-- The shown form as one expression. -/
def Shown.toExpr (s : Shown) : Expr :=
  if s.negative then .apply .opposite [s.face.toExpr] else s.face.toExpr

/-- An expression with its shown form. Numbers keep their sign where they stand by themselves. -/
def standalone (x : Expr) (s : Shown) : Expr :=
  if x.kind.isNumber then x else s.toExpr

/-- A power that is not shown as a division, with a rational exponent: a root if that is the
reciprocal of a whole number of moderate size. -/
def rootOrPower (base : Expr) (exponent : Rat) : Expr :=
  if exponent.num = 1 && exponent.den ≠ 1 then
    if exponent.den = 2 then
      .apply .squareRoot [base]
    else if exponent.den < UInt64.size then
      .apply .nthRoot [base, .integer exponent.den]
    else
      .apply .power [base, .rational exponent]
  else
    .apply .power [base, .rational exponent]

/-- The shown form of a power with a rational exponent. -/
def showPower (base : Expr) (exponent : Rat) : Face :=
  if exponent < 0 then
    .reciprocal (if exponent = -1 then base else rootOrPower base (-exponent))
  else
    .whole (rootOrPower base exponent)

/-- A product of shown factors. -/
def shownProduct : List Expr → Expr
  | [] => .integer 1
  | [x] => x
  | xs => .apply .multiplication xs

/-- The numerator that a factor contributes to a quotient. -/
def Face.numerator? : Face → Option Expr
  | whole x => some x
  | reciprocal _ => none

/-- The denominator that a factor contributes to a quotient. -/
def Face.denominator? : Face → Option Expr
  | whole _ => none
  | reciprocal d => some d

/-- A positive rational number times shown factors, as a quotient. -/
def showProduct (coefficient : Rat) (factors : List Face) : Expr :=
  let numerator := if coefficient.num = 1 then [] else [Expr.integer coefficient.num]
  let denominator := if coefficient.den = 1 then [] else [Expr.integer coefficient.den]
  let numerator := shownProduct (numerator ++ factors.filterMap Face.numerator?)
  match denominator ++ factors.filterMap Face.denominator? with
  | [] => numerator
  | denominators => .apply .division [numerator, shownProduct denominators]

/-- A sum of shown terms: each is added to or subtracted from those before it. -/
def showSum : List Shown → Expr
  | [] => .integer 0
  | term :: terms =>
    terms.foldl
      (fun sum t =>
        .apply (if t.negative then .subtraction else .addition) [sum, t.face.toExpr])
      term.toExpr

/-- The shown form of a logarithm, from the base and the shown argument and base. -/
def showLogarithm (base argument shownBase : Expr) : Expr :=
  if base.constant? = some .e then
    .apply .naturalLogarithm [argument]
  else if base.isRational 10 then
    .apply .commonLogarithm [argument]
  else
    .apply .logarithm [argument, shownBase]

/-- Terms with the numbers moved behind the others. -/
def numbersLast (terms : List (Expr × Shown)) : List Shown :=
  (terms.filter (!·.1.kind.isNumber) ++ terms.filter (·.1.kind.isNumber)).map Prod.snd

/-- The shown form of a factor of a product. -/
def factorFace (x : Expr × Shown) : Face :=
  match x.1 with
  | .apply .power _ => x.2.face
  | e => .whole (standalone e x.2)

/-- The shown form of a compound expression, from its operands and their shown forms. -/
def showApply (f : Operator) (operands : List (Expr × Shown)) : Shown :=
  let texts := operands.map fun (x, s) => standalone x s
  match f with
  | .addition => ⟨false, .whole (showSum (numbersLast operands))⟩
  | .multiplication =>
    match operands with
    | (.rational q, _) :: factors =>
      ⟨q < 0, .whole (showProduct (if q < 0 then -q else q) (factors.map factorFace))⟩
    | factors => ⟨false, .whole (showProduct 1 (factors.map factorFace))⟩
  | .power =>
    match operands, texts with
    | [_, (.rational q, _)], base :: _ => ⟨false, showPower base q⟩
    | [_, _], _ => ⟨false, .whole (.apply .power texts)⟩
    | _, _ => ⟨false, .whole .undefined⟩
  | .logarithm =>
    match operands, texts with
    | [_, (base, _)], [argument, shownBase] =>
      ⟨false, .whole (showLogarithm base argument shownBase)⟩
    | _, _ => ⟨false, .whole .undefined⟩
  | f => ⟨false, .whole (.apply f texts)⟩

mutual

/-- The shown form of an expression. -/
def shown : Expr → Shown
  | .rational q => ⟨q < 0, .whole (.rational (if q < 0 then -q else q))⟩
  | .infinity negative => ⟨negative, .whole (.infinity false)⟩
  | .apply f xs => showApply f (shownAll xs)
  | x => ⟨false, .whole x⟩

/-- Several expressions with their shown forms. -/
def shownAll : List Expr → List (Expr × Shown)
  | [] => []
  | x :: xs => (x, shown x) :: shownAll xs

end

theorem shownAll_eq_map (xs : List Expr) : shownAll xs = xs.map fun x => (x, shown x) := by
  induction xs with
  | nil => rfl
  | cons x xs ih => rw [shownAll, ih, List.map_cons]

/-- A canonical expression in the form in which a user expects to read it. -/
def beautify (x : Expr) : Expr :=
  standalone x (shown x)

end Reduction

end PocketAlgebra
