import PocketAlgebra.Approximation.NumericMatrix
import PocketAlgebra.Settings

/-!
# Results of approximation

An expression is approximated by a complex number, a matrix or a list of them. What has no value
is approximated by the undefined number.
-/

namespace PocketAlgebra

/-- What an expression is approximated by. -/
inductive Evaluation (F : Type) where
  | scalar (value : ComplexNumber F)
  | matrix (value : NumericMatrix F)
  | list (values : List (ComplexNumber F))

namespace Evaluation

open ComplexNumber

variable {F : Type} [Scalar F]

/-- The result without a value. -/
def undefined : Evaluation F :=
  scalar ComplexNumber.undefined

/-- A real result. -/
def real (x : F) : Evaluation F :=
  scalar (ofReal x)

/-- The number that a result is; matrices and lists are none. -/
def toComplex : Evaluation F → ComplexNumber F
  | scalar z => z
  | _ => ComplexNumber.undefined

/-- The number that a result is, if it is one. -/
def complex? : Evaluation F → Option (ComplexNumber F)
  | scalar z => some z
  | _ => none

/-- The list that a result is, if it is one. -/
def list? : Evaluation F → Option (List (ComplexNumber F))
  | list zs => some zs
  | _ => none

/-- Whether a result is a number that has no value. -/
def isUndefined : Evaluation F → Bool
  | scalar z => z.isUndefined
  | _ => false

/-- A matrix, or nothing where there is none. -/
def ofMatrix? : Option (NumericMatrix F) → Evaluation F
  | some m => matrix m
  | none => undefined

/-- A number, or nothing where there is none. -/
def ofComplex? : Option (ComplexNumber F) → Evaluation F
  | some z => scalar z
  | none => undefined

/-! ## Arithmetic -/

/-- An opposite. -/
def negate : Evaluation F → Evaluation F
  | scalar z => scalar (-z)
  | matrix m => matrix (m.map fun z => -z)
  | list _ => undefined

/-- A sum of two numbers or two matrices. -/
def add : Evaluation F → Evaluation F → Evaluation F
  | scalar z, scalar w => scalar (plus z w)
  | matrix m, matrix n => ofMatrix? (m.add? n)
  | _, _ => undefined

/-- A product of numbers and matrices. -/
def multiply : Evaluation F → Evaluation F → Evaluation F
  | scalar z, scalar w => scalar (times z w)
  | matrix m, matrix n => ofMatrix? (m.product? n)
  | scalar z, matrix m => matrix (m.map (times z))
  | matrix m, scalar z => matrix (m.map (times z))
  | _, _ => undefined

/-- A difference. -/
def subtract (x y : Evaluation F) : Evaluation F :=
  add x y.negate

/-- A quotient by a number or by a matrix. -/
def divide : Evaluation F → Evaluation F → Evaluation F
  | scalar z, scalar w => scalar (dividedBy z w)
  | matrix m, scalar z => matrix (m.map fun x => dividedBy x z)
  | x, matrix m =>
    match m.inverse? with
    | some inverse => multiply x (matrix inverse)
    | none => undefined
  | _, _ => undefined

/-! ## Settling a result -/

/-- Whether a part of a number is so small beside the other part that it is rounding noise. -/
def isNoise (part other : F) : Bool :=
  Scalar.atMost (Scalar.abs part)
    (Scalar.epsilon * Scalar.ofInt 100 * Scalar.atLeastOne (Scalar.abs other))

/-- A number without rounding noise. In the real format only real numbers have a value. -/
def settleNumber (format : ComplexFormat) (z : ComplexNumber F) : ComplexNumber F :=
  if z.isUndefined then
    ComplexNumber.undefined
  else
    let im := if isNoise z.im z.re then Scalar.zero else z.im
    if format = .real && !Scalar.isZero im then
      ComplexNumber.undefined
    else
      ⟨if !Scalar.isZero im && isNoise z.re im then Scalar.zero else z.re, im⟩

/-- A result whose numbers are without rounding noise. -/
def settle (format : ComplexFormat) : Evaluation F → Evaluation F
  | scalar z => scalar (settleNumber format z)
  | matrix m => matrix (m.map (settleNumber format))
  | list zs => list (zs.map (settleNumber format))

end Evaluation

end PocketAlgebra
