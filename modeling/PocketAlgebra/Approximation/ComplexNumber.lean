import PocketAlgebra.Approximation.Scalar

/-!
# Complex numbers

Complex numbers over scalars, with the principal branches of the elementary functions.
-/

namespace PocketAlgebra

/-- The complex number with a real and an imaginary part. -/
structure ComplexNumber (F : Type) where
  re : F
  im : F
  deriving DecidableEq, Repr

namespace ComplexNumber

open Scalar

variable {F : Type} [Scalar F]

/-! ## Arithmetic -/

/-- A real number. -/
def ofReal (x : F) : ComplexNumber F :=
  ⟨x, zero⟩

/-- What stands for no number. -/
def undefined : ComplexNumber F :=
  ⟨nan, nan⟩

/-- The imaginary unit. -/
def i : ComplexNumber F :=
  ⟨zero, one⟩

/-- Whether a part is missing. -/
def isUndefined (z : ComplexNumber F) : Bool :=
  isNaN z.re || isNaN z.im

/-- Whether the imaginary part is zero. -/
def isReal (z : ComplexNumber F) : Bool :=
  isZero z.im

/-- Whether both parts are zero. -/
def isZero (z : ComplexNumber F) : Bool :=
  Scalar.isZero z.re && Scalar.isZero z.im

/-- A real whole number. -/
def whole? (z : ComplexNumber F) : Option Int :=
  if z.isReal then Scalar.whole? z.re else none

instance : Add (ComplexNumber F) where
  add z w := ⟨z.re + w.re, z.im + w.im⟩

instance : Sub (ComplexNumber F) where
  sub z w := ⟨z.re - w.re, z.im - w.im⟩

instance : Neg (ComplexNumber F) where
  neg z := ⟨-z.re, -z.im⟩

instance : Mul (ComplexNumber F) where
  mul z w := ⟨z.re * w.re - z.im * w.im, z.re * w.im + z.im * w.re⟩

/-- The square of the magnitude. -/
def normSquared (z : ComplexNumber F) : F :=
  z.re * z.re + z.im * z.im

instance : Div (ComplexNumber F) where
  div z w :=
    let n := w.normSquared
    ⟨(z.re * w.re + z.im * w.im) / n, (z.im * w.re - z.re * w.im) / n⟩

/-- A product with a real number. -/
def scale (z : ComplexNumber F) (x : F) : ComplexNumber F :=
  ⟨z.re * x, z.im * x⟩

/-- A quotient by a real number. -/
def unscale (z : ComplexNumber F) (x : F) : ComplexNumber F :=
  ⟨z.re / x, z.im / x⟩

/-- The reflection in the real axis. -/
def conjugate (z : ComplexNumber F) : ComplexNumber F :=
  ⟨z.re, -z.im⟩

/-- The reciprocal. -/
def inverse (z : ComplexNumber F) : ComplexNumber F :=
  let n := z.normSquared
  ⟨z.re / n, -z.im / n⟩

/-- The magnitude. -/
def norm (z : ComplexNumber F) : F :=
  hypot z.re z.im

/-- The angle to the positive real axis. -/
def argument (z : ComplexNumber F) : F :=
  atan2 z.im z.re

/-- The number of a given magnitude and angle. -/
def ofPolar (radius angle : F) : ComplexNumber F :=
  ⟨radius * cos angle, radius * sin angle⟩

/-! ## Real arithmetic where it suffices

Infinities survive in real arithmetic, while the products of complex arithmetic lose them. -/

/-- A sum, in real arithmetic where both numbers are real. -/
def plus (z w : ComplexNumber F) : ComplexNumber F :=
  if z.isReal && w.isReal then ofReal (z.re + w.re) else z + w

/-- A product, in real arithmetic where both numbers are real. -/
def times (z w : ComplexNumber F) : ComplexNumber F :=
  if z.isReal && w.isReal then ofReal (z.re * w.re) else z * w

/-- A quotient, in real arithmetic where both numbers are real. A zero divisor counts as
positive. -/
def dividedBy (z w : ComplexNumber F) : ComplexNumber F :=
  if z.isReal && w.isReal then
    ofReal (z.re / if Scalar.isZero w.re then zero else w.re)
  else if w.isZero then
    undefined
  else
    z / w

/-- The sum of several numbers. -/
def total (zs : List (ComplexNumber F)) : ComplexNumber F :=
  zs.foldl plus (ofReal zero)

/-! ## Elementary functions -/

/-- The exponential function. -/
def exp (z : ComplexNumber F) : ComplexNumber F :=
  if isInfinite z.re && isNegative z.re && !isFinite z.im then
    ofReal zero
  else if isInfinite z.re && !isNegative z.re && (Scalar.isZero z.im || !isFinite z.im) then
    ⟨z.re, if isInfinite z.im then nan else z.im⟩
  else if isNaN z.re && Scalar.isZero z.im then
    z
  else
    ofPolar (Scalar.exp z.re) z.im

/-- The natural logarithm. -/
def ln (z : ComplexNumber F) : ComplexNumber F :=
  ⟨Scalar.ln z.norm, z.argument⟩

/-- The square root. -/
def sqrt (z : ComplexNumber F) : ComplexNumber F :=
  if Scalar.isZero z.im then
    if isNegative z.re then
      let y := Scalar.sqrt (-z.re)
      ⟨zero, if isNegative z.im then -y else y⟩
    else
      ⟨Scalar.sqrt z.re, z.im⟩
  else if Scalar.isZero z.re then
    let x := Scalar.sqrt (abs z.im / two)
    ⟨x, if isNegative z.im then -x else x⟩
  else
    ofPolar (Scalar.sqrt z.norm) (z.argument / two)

/-- A number to the power of a whole number, by repeated squaring. -/
def powInt (z : ComplexNumber F) (n : Int) : ComplexNumber F :=
  let base := if n < 0 then z.inverse else z
  (timesPower (· * ·) none base (binaryDigits n.natAbs)).getD (ofReal one)

/-- A number to the power of another one, on the principal branch. -/
def pow (z w : ComplexNumber F) : ComplexNumber F :=
  if w.isZero then ofReal one else (w * z.ln).exp

/-- The sine. -/
def sin (z : ComplexNumber F) : ComplexNumber F :=
  ⟨Scalar.sin z.re * cosh z.im, Scalar.cos z.re * sinh z.im⟩

/-- The cosine. -/
def cos (z : ComplexNumber F) : ComplexNumber F :=
  ⟨Scalar.cos z.re * cosh z.im, -Scalar.sin z.re * sinh z.im⟩

/-- The tangent. -/
def tan (z : ComplexNumber F) : ComplexNumber F :=
  let re := z.re + z.re
  let im := z.im + z.im
  unscale ⟨Scalar.sin re, sinh im⟩ (Scalar.cos re + cosh im)

/-- The inverse of the sine. -/
def asin (z : ComplexNumber F) : ComplexNumber F :=
  -i * ((ofReal one - z * z).sqrt + i * z).ln

/-- The inverse of the cosine. -/
def acos (z : ComplexNumber F) : ComplexNumber F :=
  -i * (i * (ofReal one - z * z).sqrt + z).ln

/-- The hyperbolic sine. -/
def sinh (z : ComplexNumber F) : ComplexNumber F :=
  ⟨Scalar.sinh z.re * Scalar.cos z.im, Scalar.cosh z.re * Scalar.sin z.im⟩

/-- The hyperbolic cosine. -/
def cosh (z : ComplexNumber F) : ComplexNumber F :=
  ⟨Scalar.cosh z.re * Scalar.cos z.im, Scalar.sinh z.re * Scalar.sin z.im⟩

/-- The hyperbolic tangent. -/
def tanh (z : ComplexNumber F) : ComplexNumber F :=
  let re := z.re + z.re
  let im := z.im + z.im
  unscale ⟨Scalar.sinh re, Scalar.sin im⟩ (Scalar.cosh re + Scalar.cos im)

/-- The inverse of the hyperbolic sine. -/
def asinh (z : ComplexNumber F) : ComplexNumber F :=
  (z + (ofReal one + z * z).sqrt).ln

/-- The inverse of the hyperbolic cosine. -/
def acosh (z : ComplexNumber F) : ComplexNumber F :=
  ofReal two * (((z + ofReal one) / ofReal two).sqrt + ((z - ofReal one) / ofReal two).sqrt).ln

/-- The inverse of the hyperbolic tangent. -/
def atanh (z : ComplexNumber F) : ComplexNumber F :=
  if equal z.re one && Scalar.isZero z.im then
    ofReal infinity
  else if equal z.re (-one) && Scalar.isZero z.im then
    ofReal (-infinity)
  else
    ((ofReal one + z).ln - (ofReal one - z).ln) / ofReal two

end ComplexNumber

end PocketAlgebra
