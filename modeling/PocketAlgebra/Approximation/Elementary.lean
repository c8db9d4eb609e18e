import PocketAlgebra.Approximation.Evaluation
import PocketAlgebra.Bounds
import PocketAlgebra.Expr.Basic

/-!
# Powers, roots, logarithms and angles

Real operands are treated in real arithmetic where the result is real, and in complex arithmetic,
on the principal branch, where it is not.
-/

namespace PocketAlgebra

namespace Approximation

open Scalar

variable {F : Type} [Scalar F]

/-! ## Powers -/

/-- A power. Where the exponent is a fraction with an odd denominator, it is told whether the
numerator is odd; in the real format a negative base then has a real power. -/
def power (format : ComplexFormat) (base exponent : ComplexNumber F) (oddRoot : Option Bool) :
    ComplexNumber F :=
  if base.isZero then
    if isPositive exponent.re then .ofReal zero else .undefined
  else if base.isReal && exponent.isReal then
    if atMost zero base.re || isWhole exponent.re then
      .ofReal (pow base.re exponent.re)
    else
      match format, oddRoot with
      | .real, some oddNumerator =>
        let magnitude := pow (-base.re) exponent.re
        .ofReal (if oddNumerator then -magnitude else magnitude)
      | _, _ => (ComplexNumber.ofReal base.re).pow exponent
  else
    match exponent.whole? with
    | some n => if fitsInt32 n then base.powInt n else base.pow exponent
    | none => base.pow exponent

/-- A number that lies on the upper side of the negative axis if it lies on that axis. -/
def fromAbove (z : ComplexNumber F) : ComplexNumber F :=
  ⟨z.re, z.im + zero⟩

/-- The square root. -/
def squareRoot (z : ComplexNumber F) : ComplexNumber F :=
  if z.isReal && atMost zero z.re then .ofReal (sqrt z.re) else (fromAbove z).sqrt

/-- The natural logarithm. -/
def logarithm (z : ComplexNumber F) : ComplexNumber F :=
  if z.isZero then
    .undefined
  else if z.isReal && isPositive z.re then
    .ofReal (ln z.re)
  else
    (fromAbove z).ln

/-- The logarithm in a base. -/
def logarithmIn (z base : ComplexNumber F) : ComplexNumber F :=
  if z.isZero then .undefined else (logarithm z).dividedBy (logarithm base)

/-! ## Angles -/

/-- An angle in radians. -/
def toRadians (unit : AngleUnit) (z : ComplexNumber F) : ComplexNumber F :=
  match unit.halfTurn? with
  | some halfTurn => z.scale (pi / ofInt halfTurn)
  | none => z

/-- An angle in the given unit. -/
def ofRadians (unit : AngleUnit) (z : ComplexNumber F) : ComplexNumber F :=
  match unit.halfTurn? with
  | some halfTurn => z.scale (ofInt halfTurn / pi)
  | none => z

/-- A value of a circular function without what is only the rounding error of the angle. Beyond
moderate angles that error is as large as the values themselves, and they are left alone. -/
def flush (value angle : F) : F :=
  let magnitude := abs angle
  if less magnitude (one / sqrt epsilon) && atMost (abs value) (epsilon * atLeastOne magnitude) then
    zero
  else
    value

/-- The argument of a number. -/
def argument (unit : AngleUnit) (z : ComplexNumber F) : ComplexNumber F :=
  if z.isZero then .undefined else ofRadians unit (.ofReal (fromAbove z).argument)

/-- A circular function: the sine, the cosine, and otherwise the tangent. -/
def circular (unit : AngleUnit) (f : Operator) (z : ComplexNumber F) : ComplexNumber F :=
  let angle := toRadians unit z
  let sine := flush (sin angle.re) angle.re
  let cosine := flush (cos angle.re) angle.re
  match angle.isReal, f with
  | true, .sine => .ofReal sine
  | true, .cosine => .ofReal cosine
  | true, _ => if isZero cosine then .undefined else .ofReal (sine / cosine)
  | false, .sine => angle.sin
  | false, .cosine => angle.cos
  | false, _ => angle.tan

/-- The inverse of a circular function. The inverse of the tangent is known for real numbers
only. -/
def inverseCircular (unit : AngleUnit) (f : Operator) (z : ComplexNumber F) : ComplexNumber F :=
  let inside := z.isReal && atMost (abs z.re) one
  match f with
  | .arcSine => ofRadians unit (if inside then .ofReal (asin z.re) else z.asin)
  | .arcCosine => ofRadians unit (if inside then .ofReal (acos z.re) else z.acos)
  | _ => if z.isReal then ofRadians unit (.ofReal (atan z.re)) else .undefined

/-- A hyperbolic function, or the inverse of one. -/
def hyperbolic (f : Operator) (z : ComplexNumber F) : ComplexNumber F :=
  match f with
  | .hyperbolicSine => if z.isReal then .ofReal (sinh z.re) else z.sinh
  | .hyperbolicCosine => if z.isReal then .ofReal (cosh z.re) else z.cosh
  | .hyperbolicTangent => if z.isReal then .ofReal (tanh z.re) else z.tanh
  | .hyperbolicArcSine => if z.isReal then .ofReal (asinh z.re) else z.asinh
  | .hyperbolicArcCosine =>
    if z.isReal && atMost one z.re then .ofReal (acosh z.re) else z.acosh
  | _ => if z.isReal && atMost (abs z.re) one then .ofReal (atanh z.re) else z.atanh

end Approximation

end PocketAlgebra
