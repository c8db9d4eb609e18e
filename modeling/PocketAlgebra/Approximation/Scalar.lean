import PocketAlgebra.Decimal
import PocketAlgebra.Expr.Charge

/-!
# Scalars

The arithmetic that approximations are computed in. The rules of approximation are stated for any
such arithmetic: floating-point numbers of two precisions are instances of it.
-/

namespace PocketAlgebra

/-- Numbers to approximate with: real numbers as far as they can be represented, two infinities,
and a number that stands for no number at all. -/
class Scalar (F : Type) extends Add F, Sub F, Mul F, Div F, Neg F where
  /-- The number nearest to a rational number. -/
  ofRat : Rat → F
  /-- The number nearest to a whole number. -/
  ofInt : Int → F
  /-- The number that a decimal literal is read as. -/
  ofDecimal : Decimal → F
  /-- The positive infinity. -/
  infinity : F
  /-- What stands for no number. -/
  nan : F
  /-- The ratio of a circle's circumference to its diameter. -/
  pi : F
  /-- The base of natural logarithms. -/
  e : F
  /-- The natural logarithm of ten. -/
  ln10 : F
  /-- The distance from 1 to the next number. -/
  epsilon : F
  /-- Whether a number is less than another one. -/
  less : F → F → Bool
  /-- Whether two numbers are equal. -/
  equal : F → F → Bool
  /-- Whether a number has a minus sign; zero may have one. -/
  isNegative : F → Bool
  /-- Whether this is no number. -/
  isNaN : F → Bool
  /-- Whether this is one of the infinities. -/
  isInfinite : F → Bool
  /-- A finite number without a fractional part. -/
  whole? : F → Option Int
  /-- The greatest whole number that is not above. -/
  floor : F → F
  /-- The least whole number that is not below. -/
  ceil : F → F
  /-- The nearest whole number, away from zero where two are equally near. -/
  round : F → F
  /-- The square root. -/
  sqrt : F → F
  /-- The exponential function. -/
  exp : F → F
  /-- The natural logarithm. -/
  ln : F → F
  /-- A number to the power of another one. -/
  pow : F → F → F
  /-- The sine. -/
  sin : F → F
  /-- The cosine. -/
  cos : F → F
  /-- The inverse of the sine. -/
  asin : F → F
  /-- The inverse of the cosine. -/
  acos : F → F
  /-- The inverse of the tangent. -/
  atan : F → F
  /-- The angle of the point whose coordinates are given, the vertical one first. -/
  atan2 : F → F → F
  /-- The hyperbolic sine. -/
  sinh : F → F
  /-- The hyperbolic cosine. -/
  cosh : F → F
  /-- The hyperbolic tangent. -/
  tanh : F → F
  /-- The inverse of the hyperbolic sine. -/
  asinh : F → F
  /-- The inverse of the hyperbolic cosine. -/
  acosh : F → F
  /-- The inverse of the hyperbolic tangent. -/
  atanh : F → F
  /-- The distance of a point from the origin. -/
  hypot : F → F → F

/-! ## Repeated squaring -/

/-- The binary digits of a number, the last one first. -/
def binaryDigits (n : Nat) : List Bool :=
  (List.range (Charge.bitLength n)).map n.testBit

/-- A product, where there may be no first factor. -/
def multiplyOnto {α : Type} (multiply : α → α → α) (product : Option α) (factor : α) : α :=
  match product with
  | none => factor
  | some product => multiply product factor

/-- A product with a power of a factor, whose exponent is given by its binary digits. -/
def timesPower {α : Type} (multiply : α → α → α) : Option α → α → List Bool → Option α
  | product, _, [] => product
  | product, factor, bit :: bits =>
    let product := if bit then some (multiplyOnto multiply product factor) else product
    if bits.isEmpty then
      product
    else
      timesPower multiply product (multiply factor factor) bits

namespace Scalar

variable {F : Type} [Scalar F]

/-- Zero. -/
def zero : F :=
  ofInt 0

/-- One. -/
def one : F :=
  ofInt 1

/-- Two. -/
def two : F :=
  ofInt 2

/-- Whether a number is zero, of either sign. -/
def isZero (x : F) : Bool :=
  equal x zero

/-- Whether a number is above zero. -/
def isPositive (x : F) : Bool :=
  less zero x

/-- Whether a number is not above another one. -/
def atMost (x y : F) : Bool :=
  less x y || equal x y

/-- Whether a number is neither infinite nor missing. -/
def isFinite (x : F) : Bool :=
  !isNaN x && !isInfinite x

/-- Whether a number is finite and has no fractional part. -/
def isWhole (x : F) : Bool :=
  (whole? x).isSome

/-- The magnitude of a number. -/
def abs (x : F) : F :=
  if isNegative x then -x else x

/-- A number, or one where that is more or where there is no number. -/
def atLeastOne (x : F) : F :=
  if less one x then x else one

/-- A number to the power of a whole number, by repeated squaring. -/
def powInt (x : F) (n : Int) : F :=
  let power := (timesPower (· * ·) none x (binaryDigits n.natAbs)).getD one
  if n < 0 then one / power else power

end Scalar

end PocketAlgebra
