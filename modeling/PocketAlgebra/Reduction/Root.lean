import PocketAlgebra.Bounds
import PocketAlgebra.Expr.Charge

/-!
# Rational powers of positive rational numbers

A power of a positive rational number with a rational exponent is written as a rational number
times a root of a rational number. Perfect powers are taken out of the root as far as trial
division by small numbers finds them.
-/

namespace PocketAlgebra

namespace Reduction

/-- The greatest `r` with `r ^ q ≤ n` whose binary digits above the given position are those of
`r`. -/
def rootBits (q n : Nat) : Nat → Nat → Nat
  | 0, r => if (r + 1).pow q ≤ n then r + 1 else r
  | bit + 1, r =>
    let raised := r + 1 <<< (bit + 1)
    rootBits q n bit (if raised.pow q ≤ n then raised else r)

/-- The greatest `r` with `r ^ q ≤ n`, for positive `n` and `q`. Where the exponent exceeds the
binary length of `n`, it is 1. -/
def floorRoot (n q : Nat) : Nat :=
  if n.log2 < q then 1 else rootBits q n (n.log2 / q) 0

/-- A number as `outside ^ q · inside`. -/
structure RootParts where
  outside : Nat
  inside : Nat

/-- Divides `inside` by `divisor ^ q`, given as `step`, as often as it goes. -/
def divideOut (divisor step : Nat) (parts : RootParts) : RootParts :=
  if 1 < step ∧ 0 < parts.inside ∧ parts.inside % step = 0 then
    divideOut divisor step ⟨parts.outside * divisor, parts.inside / step⟩
  else
    parts
termination_by parts.inside
decreasing_by
  rename_i h
  exact Nat.div_lt_self h.2.1 h.1

/-- Divides out so many divisors, beginning with the given one. Powers that exceed what is left are
not formed. -/
def trialDivision (q : Nat) : Nat → Nat → RootParts → RootParts
  | 0, _, parts => parts
  | count + 1, divisor, parts =>
    if parts.inside.log2 < q then
      parts
    else
      let step := divisor.pow q
      if parts.inside < step then
        parts
      else
        trialDivision q count (divisor + 1) (divideOut divisor step parts)

/-- The greatest divisor that is tried. -/
def maxTrialDivisor : Nat :=
  1000

/-- A positive number with perfect powers taken out: all of it where it is one, and otherwise those
of small divisors. -/
def extractRoot (n q : Nat) : RootParts :=
  let root := floorRoot n q
  if root.pow q = n then
    ⟨root, 1⟩
  else
    trialDivision q (maxTrialDivisor - 1) 2 ⟨1, n⟩

/-- Powers are computed only while their numerators and denominators stay within this number of
binary digits. -/
def maxExactBits : Nat :=
  4096

/-- The number of binary digits of the longer one of numerator and denominator. -/
def bitLength (q : Rat) : Nat :=
  max (Charge.bitLength q.num.natAbs) (Charge.bitLength q.den)

/-- A power with a whole exponent, where it is computed at all. -/
def wholePower? (base : Rat) (exponent : Int) : Option Rat :=
  if fitsInt32 exponent && bitLength base * exponent.natAbs ≤ maxExactBits then
    some (base ^ exponent)
  else
    none

/-- The number `coefficient · radicand ^ (1 / index)`. -/
structure Radical where
  coefficient : Rat
  radicand : Rat
  index : Nat

/-- The radical as a canonical expression. -/
def Radical.toExpr (r : Radical) : Expr :=
  if r.radicand = 1 then
    .rational r.coefficient
  else
    let root := Expr.apply .power [.rational r.radicand, .rational (mkRat 1 r.index)]
    if r.coefficient = 1 then
      root
    else
      .apply .multiplication [.rational r.coefficient, root]

/-- A power of a positive base with an exponent that is not whole, where it is computed at all. The
whole part of the exponent goes to the coefficient. -/
def radical? (base exponent : Rat) : Option Radical :=
  let q := exponent.den
  let whole := exponent.num / q
  let remainder := (exponent.num % q).toNat
  if fitsInt32 whole && bitLength base * (remainder + whole.natAbs) ≤ maxExactBits then
    let numerator := extractRoot (base.num.natAbs.pow remainder) q
    let denominator := extractRoot (base.den.pow remainder) q
    some ⟨base ^ whole * mkRat numerator.outside denominator.outside,
      mkRat numerator.inside denominator.inside, q⟩
  else
    none

end Reduction

end PocketAlgebra
