import PocketAlgebra.Approximation.ComplexNumber
import PocketAlgebra.Approximation.Floating
import PocketAlgebra.Text.Printer

/-!
# Complex numbers as text

Complex numbers are written in the form in which they can be read as expressions: as a sum, or by
magnitude and angle.
-/

namespace PocketAlgebra

namespace ComplexNumber

variable {F : Type} [Scalar F] [Printable F]

/-- A multiple of the imaginary unit. -/
def writeImaginary (im : F) (style : NumberStyle) : String :=
  let unit := Constant.imaginaryUnit.symbol
  if Scalar.equal im Scalar.one then
    unit
  else if Scalar.equal im (-Scalar.one) then
    "-" ++ unit
  else
    formatScalar im style.mode style.significant ++ "×" ++ unit

/-- A complex number as a sum. A real part of zero is left out. -/
def writeCartesian (z : ComplexNumber F) (style : NumberStyle) : String :=
  let imaginary := writeImaginary z.im style
  if Scalar.isZero z.re then
    imaginary
  else
    let real := formatScalar z.re style.mode style.significant
    if imaginary.startsWith "-" then real ++ imaginary else real ++ "+" ++ imaginary

/-- A complex number by magnitude and angle. -/
def writePolar (z : ComplexNumber F) (style : NumberStyle) : String :=
  let angle := formatScalar z.argument style.mode style.significant
  let angle := if Scalar.isNegative z.argument then "(" ++ angle ++ ")" else angle
  let norm := formatScalar z.norm style.mode style.significant
  norm ++ "×" ++ Constant.e.symbol ++ "^(" ++ angle ++ "×" ++ Constant.imaginaryUnit.symbol ++ ")"

/-- A complex number as text. -/
def toText (z : ComplexNumber F) (format : ComplexFormat) (style : NumberStyle) : String :=
  if z.isUndefined then
    "undef"
  else if z.isReal then
    formatScalar z.re style.mode style.significant
  else
    match format with
    | .real => "nonreal"
    | .cartesian => writeCartesian z style
    | .polar => writePolar z style

end ComplexNumber

end PocketAlgebra
