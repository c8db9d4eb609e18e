import PocketAlgebra.Reduction.Root

/-!
# Factorial, rounding and integer arithmetic

These functions are computed on rational numbers, as far as the results stay small; on infinities
they have a limit or none. With any other operand the expression is kept.
-/

namespace PocketAlgebra

namespace Reduction

/-- What a function gives on its operands. -/
inductive Outcome where
  | value (q : Rat)
  | undefined
  | infinity (negative : Bool)
  | kept

namespace Outcome

/-- A whole result. -/
def integer (n : Int) : Outcome :=
  value n

/-- The result as an expression, where the expression at hand is given for one that is kept. -/
def toExpr (x : Expr) : Outcome → Expr
  | value q => .rational q
  | undefined => .undefined
  | infinity negative => .infinity negative
  | kept => x

end Outcome

/-! ## Factorials -/

/-- The factorial of a number. -/
def factorialOf : Nat → Nat
  | 0 => 1
  | n + 1 => (n + 1) * factorialOf n

/-- The greatest number whose factorial is computed. -/
def maxFactorial : Nat :=
  100

/-- The factorial, which only whole numbers from zero on have. -/
def factorial : Expr → Outcome
  | .rational q =>
    if !q.isInt || q < 0 then
      .undefined
    else if q ≤ maxFactorial then
      .integer (factorialOf q.num.toNat)
    else
      .kept
  | .infinity negative => if negative then .undefined else .infinity false
  | _ => .kept

/-! ## Rounding -/

/-- A number rounded to the nearest whole one, and away from zero where two are equally near. -/
def roundHalfAway (q : Rat) : Int :=
  if 0 ≤ q then (q + mkRat 1 2).floor else -(-q + mkRat 1 2).floor

/-- The most decimals that rounding keeps, on either side of the point. -/
def maxRoundDigits : Int :=
  100

/-- A number rounded to a given number of decimals. -/
def round (x digits : Expr) : Outcome :=
  match digits with
  | .rational d =>
    if !d.isInt then
      .undefined
    else
      match x with
      | .infinity negative => .infinity negative
      | .rational q =>
        if d.num.natAbs ≤ maxRoundDigits then
          let scale : Rat := 10 ^ d.num
          .value (roundHalfAway (q * scale) / scale)
        else
          .kept
      | _ => .kept
  | _ => .kept

/-- Floor, ceiling and fractional part. -/
def unaryInteger (f : Operator) (x : Expr) : Outcome :=
  match x with
  | .infinity negative => if f = .fractionalPart then .undefined else .infinity negative
  | .rational q =>
    match f with
    | .floor => .integer q.floor
    | .ceiling => .integer q.ceil
    | .fractionalPart => .value (q - q.floor)
    | _ => .kept
  | _ => .kept

/-! ## Division and combinatorics -/

/-- A function of two whole numbers, undefined on others. -/
def onIntegers (a b : Rat) (f : Int → Int → Outcome) : Outcome :=
  if a.isInt && b.isInt then f a.num b.num else .undefined

/-- What a division by zero gives: an infinity of the sign of the dividend, if it has one. -/
def divisionByZero (a : Int) : Outcome :=
  if a = 0 then .undefined else .infinity (a < 0)

/-- The quotient with a remainder that is not negative. -/
def quotient (a b : Int) : Outcome :=
  if b = 0 then divisionByZero a else .integer (a / b)

/-- The remainder with the sign of the divisor. -/
def remainder (a b : Int) : Outcome :=
  if b = 0 then divisionByZero a else .integer (a.fmod b)

/-- The product of `(n - i) / (i + 1)` over the given numbers `i`, from the least on, after a
product of others. -/
def binomialProduct (n : Rat) : Nat → Nat → Rat → Rat
  | 0, _, product => product
  | count + 1, i, product => binomialProduct n count (i + 1) (product * (n - i) / (i + 1))

/-- The greatest number of factors of a binomial coefficient. -/
def maxBinomialFactors : Nat :=
  300

/-- A binomial coefficient with a lower index that is not whole or negative. -/
def binomialOfIndex? (k : Rat) : Option Outcome :=
  if !k.isInt then some .undefined else if k < 0 then some (.integer 0) else none

/-- The binomial coefficient of any rational number over a whole one. -/
def binomial (n k : Rat) : Outcome :=
  match binomialOfIndex? k with
  | some outcome => outcome
  | none =>
    if maxBinomialFactors < k then
      .kept
    else if n.isInt && 0 ≤ n && n < k then
      .integer 0
    else
      .value (binomialProduct n k.num.toNat 0 1)

/-- The product of so many factors, from the given one downwards. -/
def fallingProduct (n : Int) : Nat → Int
  | 0 => 1
  | count + 1 => n * fallingProduct (n - 1) count

/-- The greatest number of factors of a number of permutations. -/
def maxPermutationFactors : Nat :=
  1000

/-- The number of arrangements of `k` out of `n` things. -/
def permutations (n k : Int) : Outcome :=
  if n < 0 || k < 0 then
    .undefined
  else if n < k then
    .integer 0
  else if maxPermutationFactors < k then
    .kept
  else
    .integer (fallingProduct n k.toNat)

/-- A function of two rational numbers. -/
def binaryRational (f : Operator) (a b : Rat) : Outcome :=
  match f with
  | .greatestCommonDivisor => onIntegers a b fun x y => .integer (Int.gcd x y)
  | .leastCommonMultiple => onIntegers a b fun x y => .integer (Int.lcm x y)
  | .quotient => onIntegers a b quotient
  | .remainder => onIntegers a b remainder
  | .binomial => binomial a b
  | .permutations => onIntegers a b permutations
  | _ => .kept

/-- A function of two operands. -/
def binaryInteger (f : Operator) (a b : Expr) : Outcome :=
  if f = .round then
    round a b
  else if a.kind == .infinity || b.kind == .infinity then
    .undefined
  else
    match a, b with
    | .rational p, .rational q => binaryRational f p q
    | _, .rational k => if f = .binomial then (binomialOfIndex? k).getD .kept else .kept
    | _, _ => .kept

/-- What a rounding or integer function gives. -/
def integerFunction (f : Operator) : List Expr → Outcome
  | [x] => unaryInteger f x
  | [a, b] => binaryInteger f a b
  | _ => .undefined

end Reduction

end PocketAlgebra
