import PocketAlgebra.Approximation.Elementary

/-!
# Rounding, divisibility and counting

Functions of whole numbers, on scalars. Most of them admit whole numbers only as far as all of them
can be represented.
-/

namespace PocketAlgebra

namespace Approximation

open Scalar

variable {F : Type} [Scalar F]

/-- The greatest number up to which all whole numbers can be represented. -/
def maxExactInteger : Nat :=
  0x20000000000000

/-- The most factors that binomial coefficients and permutations are multiplied from. -/
def maxProductFactors : Int :=
  1000000

/-- A real whole number of moderate size. -/
def exactInteger? (z : ComplexNumber F) : Option Int :=
  z.whole?.filter fun n => n.natAbs ≤ maxExactInteger

/-- A function of a real number. -/
def onReal (f : F → F) (z : ComplexNumber F) : ComplexNumber F :=
  if z.isReal then .ofReal (f z.re) else .undefined

/-! ## Rounding -/

/-- The fractional part, which is never negative. -/
def fractionalPart (x : F) : F :=
  x - floor x

/-- A number rounded to a given number of decimals. -/
def roundTo (z digits : ComplexNumber F) : ComplexNumber F :=
  match exactInteger? digits with
  | some n =>
    if z.isReal && fitsInt32 n then
      let scale := powInt (ofInt 10) n
      .ofReal (round (z.re * scale) / scale)
    else
      .undefined
  | none => .undefined

/-! ## Divisibility -/

/-- The remainder and the quotient of a number by one that is not zero. The remainder has the sign
of the divisor; the quotient leaves one that is not negative. -/
def divisionOf (f : Operator) (x y : F) : F :=
  if f = .remainder then
    round (x - y * floor (x / y))
  else
    let divisor := abs y
    let remainder := x - divisor * floor (x / divisor)
    round ((x - remainder) / y)

/-- A division with remainder. Divided by zero, a number gives an infinity of its sign. -/
def integerDivision (f : Operator) (z w : ComplexNumber F) : ComplexNumber F :=
  if z.whole?.isSome && w.whole?.isSome then
    if isZero w.re then
      if isPositive z.re then .ofReal infinity
      else if less z.re zero then .ofReal (-infinity)
      else .undefined
    else
      .ofReal (divisionOf f z.re w.re)
  else
    .undefined

/-- The product that the least common multiple of two numbers is the magnitude of. -/
def multipleOf (m n : Int) : Int :=
  m * (n / Int.gcd m n)

/-- The greatest common divisor, or the least common multiple, of two whole numbers. -/
def commonInteger (f : Operator) (z w : ComplexNumber F) : ComplexNumber F :=
  match exactInteger? z, exactInteger? w with
  | some m, some n =>
    .ofReal (ofInt (if f = .greatestCommonDivisor then Int.gcd m n else (multipleOf m n).natAbs))
  | _, _ => .undefined

/-! ## Counting -/

/-- A product with a number of factors, from the given one on. It ends early when it has become
infinite. -/
def risingProduct (product : F) (next : Nat) : Nat → F
  | 0 => product
  | count + 1 =>
    let product := product * ofInt next
    if isInfinite product then product else risingProduct product (next + 1) count

/-- The factorial of a whole number from zero on. -/
def factorial (z : ComplexNumber F) : ComplexNumber F :=
  match exactInteger? z with
  | some n => if n < 0 then .undefined else .ofReal (risingProduct one 2 (n.toNat - 1))
  | none => .undefined

/-- A product with the factors of a binomial coefficient, each of which is a quotient. -/
def binomialProduct (n : F) (product : F) (index : Nat) : Nat → F
  | 0 => product
  | count + 1 =>
    let i := ofInt index
    binomialProduct n (product * (n - i) / (i + one)) (index + 1) count

/-- The binomial coefficient of a real number and a whole number. -/
def binomial (z w : ComplexNumber F) : ComplexNumber F :=
  match exactInteger? w with
  | some k =>
    if k < 0 then
      .ofReal zero
    else if maxProductFactors < k || !z.isReal then
      .undefined
    else if isWhole z.re && atMost zero z.re && less z.re (ofInt k) then
      .ofReal zero
    else
      .ofReal (round (binomialProduct z.re one 0 k.toNat))
  | none => .undefined

/-- A product with falling factors, from the given one on. -/
def fallingProduct (product : F) (next : Int) : Nat → F
  | 0 => product
  | count + 1 => fallingProduct (product * ofInt next) (next - 1) count

/-- The number of ways to arrange some of so many things. -/
def permutations (z w : ComplexNumber F) : ComplexNumber F :=
  match exactInteger? z, exactInteger? w with
  | some n, some k =>
    if n < 0 || k < 0 then
      .undefined
    else if n < k then
      .ofReal zero
    else if maxProductFactors < k then
      .ofReal infinity
    else
      .ofReal (fallingProduct one n k.toNat)
  | _, _ => .undefined

end Approximation

end PocketAlgebra
