import PocketAlgebra.Approximation.WholeNumber

/-!
# Reserved functions of numbers

The functions of one and of two numbers, and those that take lists and matrices.
-/

namespace PocketAlgebra

namespace Approximation

open Scalar

variable {F : Type} [Scalar F]

/-- What the functions of angles and powers depend on. -/
structure Format where
  complexFormat : ComplexFormat := .real
  angleUnit : AngleUnit := .radian

/-- The root of a number of a given degree. -/
def root (format : ComplexFormat) (z degree : ComplexNumber F) : ComplexNumber F :=
  if degree.isZero then
    .undefined
  else
    let oddRoot := (exactInteger? degree).bind fun n => if n % 2 = 1 then some true else none
    power format z ((ComplexNumber.ofReal one).dividedBy degree) oddRoot

/-- A function of one number. -/
def unary (format : Format) (f : Operator) (z : ComplexNumber F) : ComplexNumber F :=
  if z.isUndefined then
    .undefined
  else
    match f with
    | .absoluteValue => .ofReal z.norm
    | .complexArgument => argument format.angleUnit z
    | .realPart => .ofReal z.re
    | .imaginaryPart => .ofReal z.im
    | .conjugate => z.conjugate
    | .squareRoot => squareRoot z
    | .naturalLogarithm => logarithm z
    | .commonLogarithm => (logarithm z).dividedBy (.ofReal ln10)
    | .sine | .cosine | .tangent => circular format.angleUnit f z
    | .arcSine | .arcCosine | .arcTangent => inverseCircular format.angleUnit f z
    | .hyperbolicSine | .hyperbolicCosine | .hyperbolicTangent => hyperbolic f z
    | .hyperbolicArcSine | .hyperbolicArcCosine | .hyperbolicArcTangent => hyperbolic f z
    | .floor => onReal floor z
    | .ceiling => onReal ceil z
    | .fractionalPart => onReal fractionalPart z
    | .factorial => factorial z
    | _ => .undefined

/-- A function of two numbers. -/
def binary (format : Format) (f : Operator) (z w : ComplexNumber F) : ComplexNumber F :=
  if z.isUndefined || w.isUndefined then
    .undefined
  else
    match f with
    | .logarithm => logarithmIn z w
    | .nthRoot => root format.complexFormat z w
    | .round => roundTo z w
    | .greatestCommonDivisor | .leastCommonMultiple => commonInteger f z w
    | .quotient | .remainder => integerDivision f z w
    | .binomial => binomial z w
    | .permutations => permutations z w
    | _ => .undefined

/-- A function of numbers, by how many there are. -/
def applyFunction (format : Format) (f : Operator) (zs : List (ComplexNumber F)) :
    ComplexNumber F :=
  match zs with
  | [z] => unary format f z
  | [z, w] => binary format f z w
  | _ => .undefined

/-! ## Matrices and lists -/

/-- A function of a matrix. A number counts as a matrix with a single entry. -/
def matrixFunction (f : Operator) : Evaluation F → Evaluation F
  | .matrix m =>
    match f with
    | .determinant => .ofComplex? m.determinant?
    | .matrixInverse => .ofMatrix? m.inverse?
    | .trace => .ofComplex? m.trace?
    | .transpose => .matrix m.transpose
    | _ => .matrix (.pair (ofInt m.rows) (ofInt m.columns))
  | .scalar z =>
    match f with
    | .matrixInverse => .scalar ((ComplexNumber.ofReal one).dividedBy z)
    | .dimension => .matrix (.pair one one)
    | _ => .scalar z
  | .list _ => .undefined

/-- The mean of a list whose entries are weighted. Weights are real, not negative, and not all
zero. -/
def weightedMean (zs weights : List (ComplexNumber F)) : ComplexNumber F :=
  let weight := ComplexNumber.total weights
  if weights.all (fun w => w.isReal && atMost zero w.re) && !isZero weight.re then
    (ComplexNumber.total (List.zipWith ComplexNumber.times zs weights)).dividedBy weight
  else
    .undefined

/-- The sum or the mean of a list. -/
def listFunction (f : Operator) (lists : List (List (ComplexNumber F))) : ComplexNumber F :=
  match f, lists with
  | .listSum, [zs] => .total zs
  | .listMean, [zs] =>
    if zs.isEmpty then .undefined
    else (ComplexNumber.total zs).dividedBy (.ofReal (ofInt zs.length))
  | .listMean, [zs, weights] =>
    if zs.isEmpty || zs.length ≠ weights.length then .undefined else weightedMean zs weights
  | _, _ => .undefined

end Approximation

end PocketAlgebra
