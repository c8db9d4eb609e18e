import PocketAlgebra.Approximation.Evaluation
import PocketAlgebra.Breaker

/-!
# Series, integrals and derivatives

Series are added or multiplied term by term. Integrals are computed by Simpson's rule, where
intervals are halved until two estimates agree, and derivatives by central differences of two
widths, which are combined so that the leading error cancels.

An approximation asks a breaker, and ends without a result once that tells it to stop.
-/

namespace PocketAlgebra

namespace Approximation

open Scalar

variable {F : Type} [Scalar F]

/-- Steps of an approximation. They share a breaker, and end where it stops them. -/
abbrev ApproximateM :=
  StateT Breaker Option

/-- Asks the breaker. -/
def checkBreaker : ApproximateM Unit := do
  let (stop, breaker) := (← get).poll
  set breaker
  if stop then failure

/-! ## Series -/

/-- The most terms of a series. -/
def maxSeriesTerms : Int :=
  100000

/-- Combines so many terms with what has been combined already. A result without a value stays
so. -/
def combineTerms (combine : Evaluation F → Evaluation F → Evaluation F)
    (term : Nat → ApproximateM (Evaluation F)) :
    Nat → Nat → Option (Evaluation F) → ApproximateM (Evaluation F)
  | 0, _, partialResult => return partialResult.getD .undefined
  | remaining + 1, step, partialResult => do
    checkBreaker
    let value ← term step
    let next := match partialResult with
      | none => value
      | some result => combine result value
    if next.isUndefined then
      return next
    else
      combineTerms combine term remaining (step + 1) (some next)

/-- The number of terms from one bound to another, where there are not too many. -/
def termCount? (lower upper : F) : Option Nat :=
  ((whole? (floor (upper - lower))).filter fun n => n < maxSeriesTerms).map fun n => n.toNat + 1

/-- The result of combining the terms at a lower bound, and in steps of one up to an upper bound.
Where there are no terms, it is the neutral element. -/
def series (combine : Evaluation F → Evaluation F → Evaluation F) (neutral : F)
    (term : F → ApproximateM (Evaluation F)) (lower upper : F) : ApproximateM (Evaluation F) :=
  if less upper lower then
    return .real neutral
  else
    match termCount? lower upper with
    | some count => combineTerms combine (fun step => term (lower + ofInt step)) count 0 none
    | none => return .undefined

/-! ## Integrals -/

/-- An interval, the values at its ends and in the middle, and the estimate that they give. -/
structure Segment (F : Type) where
  start : F
  stop : F
  atStart : ComplexNumber F
  atMiddle : ComplexNumber F
  atStop : ComplexNumber F
  estimate : ComplexNumber F

/-- Simpson's estimate of an integral from three values. -/
def simpson (start stop : F) (atStart atMiddle atStop : ComplexNumber F) : ComplexNumber F :=
  (atStart + atMiddle.scale (ofInt 4) + atStop).scale ((stop - start) / ofInt 6)

/-- A segment with its estimate. -/
def Segment.make (start stop : F) (atStart atMiddle atStop : ComplexNumber F) : Segment F :=
  ⟨start, stop, atStart, atMiddle, atStop, simpson start stop atStart atMiddle atStop⟩

/-- How many times an interval is halved at most. -/
def maxHalvings : Nat :=
  16

/-- The integral over a segment, within a tolerance as far as so many halvings allow. -/
def refine (f : F → ApproximateM (ComplexNumber F)) :
    Nat → F → Segment F → ApproximateM (ComplexNumber F)
  | halvings, tolerance, s => do
    let middle := (s.start + s.stop) / two
    let first ← f ((s.start + middle) / two)
    let second ← f ((middle + s.stop) / two)
    if first.isUndefined || second.isUndefined then
      return .undefined
    let left := Segment.make s.start middle s.atStart first s.atMiddle
    let right := Segment.make middle s.stop s.atMiddle second s.atStop
    let change := left.estimate + right.estimate - s.estimate
    let accepted := left.estimate + right.estimate + change.unscale (ofInt 15)
    match halvings with
    | 0 => return accepted
    | halvings + 1 =>
      if atMost change.norm (ofInt 15 * tolerance) then
        return accepted
      else
        let leftIntegral ← refine f halvings (tolerance / two) left
        let rightIntegral ← refine f halvings (tolerance / two) right
        return leftIntegral + rightIntegral

/-- The tolerance of an integral, from a first estimate. -/
def integralTolerance (estimate : ComplexNumber F) : F :=
  pow epsilon (ofRat (3 / 4)) * atLeastOne estimate.norm

/-- The integral between two bounds. -/
def integral (f : F → ApproximateM (ComplexNumber F)) (lower upper : F) :
    ApproximateM (ComplexNumber F) := do
  if equal lower upper then
    return .ofReal zero
  let start := if less lower upper then lower else upper
  let stop := if less lower upper then upper else lower
  let atStart ← f start
  let atMiddle ← f ((start + stop) / two)
  let atStop ← f stop
  if atStart.isUndefined || atMiddle.isUndefined || atStop.isUndefined then
    return .undefined
  let segment := Segment.make start stop atStart atMiddle atStop
  let value ← refine f maxHalvings (integralTolerance segment.estimate) segment
  return if less lower upper then value else -value

/-! ## Derivatives -/

/-- The width of a central difference at a point. -/
def differenceWidth (x : F) : F :=
  pow epsilon (ofRat (1 / 5)) * atLeastOne (abs x)

/-- The slope of the line through two points on either side. -/
def centralDifference (f : F → ApproximateM (ComplexNumber F)) (x width : F) :
    ApproximateM (ComplexNumber F) := do
  let forward ← f (x + width)
  let backward ← f (x - width)
  return (forward - backward).unscale (two * width)

/-- The derivative at a point. -/
def derivative (f : F → ApproximateM (ComplexNumber F)) (x : F) :
    ApproximateM (ComplexNumber F) := do
  let width := differenceWidth x
  let coarse ← centralDifference f x width
  let fine ← centralDifference f x (width / two)
  return (fine.scale (ofInt 4) - coarse).unscale (ofInt 3)

end Approximation

end PocketAlgebra
