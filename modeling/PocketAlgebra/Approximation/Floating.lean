import PocketAlgebra.Approximation.Scalar
import PocketAlgebra.Text.Binary

/-!
# Floating-point scalars

Floating-point numbers of double and of single precision, as scalars.
-/

namespace PocketAlgebra

namespace Binary

/-- The digits of a double-precision number. -/
def precision : Nat :=
  53

/-- The exponent of the smallest double-precision number above zero. -/
def leastExponent : Int :=
  -1074

/-- The double-precision number nearest to a quotient above zero, and the even one of two: the
quotient is scaled to so many binary digits as fit, rounded to a whole number and scaled back. -/
def nearestQuotient (n d : Nat) : Float :=
  let estimate : Int := (n.log2 : Int) - d.log2 - precision
  let scale (exponent : Int) : Nat :=
    divideToEven (n <<< (-exponent).toNat) (d <<< exponent.toNat)
  let exponent := max leastExponent <|
    if 1 <<< precision ≤ (n <<< (-estimate).toNat) / (d <<< estimate.toNat) then
      estimate + 1
    else
      estimate
  if 1100 < exponent then
    1 / 0
  else
    (Float.ofNat (scale exponent)).scaleB exponent

end Binary

/-- The double-precision number nearest to a rational number. -/
def nearestFloat (q : Rat) : Float :=
  if q = 0 then
    0
  else
    let magnitude := Binary.nearestQuotient q.num.natAbs q.den
    if q < 0 then -magnitude else magnitude

/-- Decimal literals whose leading digit stands at a power of ten beyond this one are read as an
infinity or as zero. -/
def maxFloatExponent : Int :=
  400

/-- The double-precision number that a decimal literal is read as: the nearest one, except that the
zeros behind a whole number are multiplied onto it. -/
def floatOfDecimal (d : Decimal) : Float :=
  if d.mantissa = 0 then
    0
  else if maxFloatExponent < d.exponent then
    if d.mantissa < 0 then -1 / 0 else 1 / 0
  else if d.exponent < -maxFloatExponent then
    if d.mantissa < 0 then -0 else 0
  else if d.scale < 0 then
    let power := timesPower (· * ·) none 10 (binaryDigits d.scale.natAbs)
    nearestFloat d.mantissa * power.getD 1
  else
    nearestFloat d.toRat

/-- The whole number that a finite double-precision number is. -/
def Float.whole? (x : Float) : Option Int :=
  if x.isNaN || x.isInf || x != x.floor then
    none
  else if x.abs < 9e18 then
    some x.toInt64.toInt
  else
    let binary := Binary.ofBits x.toBits
    let magnitude : Nat := binary.mantissa <<< binary.exponent.toNat
    some (if binary.negative then -magnitude else magnitude)

/-- The distance of a point from the origin, where squares neither overflow nor vanish. -/
def Float.distance (x y : Float) : Float :=
  if x.isInf || y.isInf then
    1 / 0
  else
    let long := if x.abs < y.abs then y.abs else x.abs
    let short := if x.abs < y.abs then x.abs else y.abs
    if short == 0 then
      long
    else
      let ratio := short / long
      long * (1 + ratio * ratio).sqrt

/-- The natural logarithm of a number and one, which is accurate for small numbers as well. -/
def Float.lnOnePlus (x : Float) : Float :=
  let sum := 1 + x
  if sum == 1 then
    x
  else if sum.isInf then
    sum
  else
    sum.log * (x / (sum - 1))

instance : Scalar Float where
  ofRat := nearestFloat
  ofInt := Float.ofInt
  ofDecimal := floatOfDecimal
  infinity := 1 / 0
  nan := 0 / 0
  pi := 3.14159265358979323846
  e := 2.71828182845904523536
  ln10 := 2.30258509299404568402
  epsilon := Float.scaleB 1 (-52)
  less x y := x < y
  equal x y := x == y
  isNegative x := x.toBits >>> 63 == 1
  isNaN := Float.isNaN
  isInfinite := Float.isInf
  whole? := Float.whole?
  floor := Float.floor
  ceil := Float.ceil
  round := Float.round
  sqrt := Float.sqrt
  exp := Float.exp
  ln := Float.log
  pow := Float.pow
  sin := Float.sin
  cos := Float.cos
  asin := Float.asin
  acos := Float.acos
  atan := Float.atan
  atan2 := Float.atan2
  sinh := Float.sinh
  cosh := Float.cosh
  tanh := Float.tanh
  asinh x :=
    let long := x.abs
    let inverse := 1 / long
    let magnitude := Float.lnOnePlus (long + long / (Float.distance 1 inverse + inverse))
    if x.toBits >>> 63 == 1 then -magnitude else magnitude
  acosh x :=
    if x < 1 then 0 / 0 else (x + (x - 1).sqrt * (x + 1).sqrt).log
  atanh := Float.atanh
  hypot := Float.distance

/-- A function of a double-precision number, on single-precision ones. -/
def Float32.viaDouble (f : Float → Float) (x : Float32) : Float32 :=
  (f x.toFloat).toFloat32

instance : Scalar Float32 where
  ofRat q := (nearestFloat q).toFloat32
  ofInt n := (Float.ofInt n).toFloat32
  ofDecimal d := (floatOfDecimal d).toFloat32
  infinity := 1 / 0
  nan := 0 / 0
  pi := Float.toFloat32 3.14159265358979323846
  e := Float.toFloat32 2.71828182845904523536
  ln10 := Float.toFloat32 2.30258509299404568402
  epsilon := (Float.scaleB 1 (-23)).toFloat32
  less x y := x < y
  equal x y := x == y
  isNegative x := x.toBits >>> 31 == 1
  isNaN := Float32.isNaN
  isInfinite := Float32.isInf
  whole? x := Float.whole? x.toFloat
  floor := Float32.floor
  ceil := Float32.ceil
  round := Float32.round
  sqrt := Float32.sqrt
  exp := Float32.exp
  ln := Float32.log
  pow := Float32.pow
  sin := Float32.sin
  cos := Float32.cos
  asin := Float32.asin
  acos := Float32.acos
  atan := Float32.atan
  atan2 := Float32.atan2
  sinh := Float32.sinh
  cosh := Float32.cosh
  tanh := Float32.tanh
  asinh := Float32.viaDouble Scalar.asinh
  acosh x :=
    if x < 1 then 0 / 0 else (x + (x - 1).sqrt * (x + 1).sqrt).log
  atanh := Float32.atanh
  hypot x y := (Float.distance x.toFloat y.toFloat).toFloat32

/-- Scalars that can be written down. -/
class Printable (F : Type) where
  /-- The double-precision number of the same value. -/
  toFloat : F → Float
  /-- The most significant digits that are written. -/
  digits : Nat

instance : Printable Float where
  toFloat x := x
  digits := 15

instance : Printable Float32 where
  toFloat := Float32.toFloat
  digits := 7

/-- A scalar as text. -/
def formatScalar {F : Type} [Printable F] (x : F) (mode : FloatMode) (significant : Nat) : String :=
  formatFloat (Printable.toFloat x) mode significant (Printable.digits F)

end PocketAlgebra
