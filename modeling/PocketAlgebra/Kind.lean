/-!
# Kinds of expression

Every expression is of one of sixty-three kinds. This module holds the kinds, how many operands
each admits, and the names of the functions the calculator reserves. The order of declaration is
the order in which expressions of different kinds are sorted, and the position of a kind in it is
the byte that stands for the kind in encoded expressions.
-/

namespace PocketAlgebra

/-- The constants that have a symbol of their own. -/
inductive Constant where
  | pi
  | e
  | imaginaryUnit
  deriving DecidableEq, Repr

/-- The relations that a comparison can state. -/
inductive Relation where
  | equal
  | notEqual
  | less
  | lessOrEqual
  | greater
  | greaterOrEqual
  deriving DecidableEq, Repr

/-- The kinds of expression, in sorting order. -/
inductive Kind where
  | undefined
  | nonreal
  | rational
  | decimal
  | infinity
  | constant
  | symbol
  | function
  | addition
  | subtraction
  | multiplication
  | division
  | power
  | opposite
  | factorial
  | parenthesis
  | store
  | comparison
  | matrix
  | list
  | absoluteValue
  | complexArgument
  | realPart
  | imaginaryPart
  | conjugate
  | squareRoot
  | nthRoot
  | naturalLogarithm
  | commonLogarithm
  | logarithm
  | sine
  | cosine
  | tangent
  | arcSine
  | arcCosine
  | arcTangent
  | hyperbolicSine
  | hyperbolicCosine
  | hyperbolicTangent
  | hyperbolicArcSine
  | hyperbolicArcCosine
  | hyperbolicArcTangent
  | floor
  | ceiling
  | fractionalPart
  | round
  | greatestCommonDivisor
  | leastCommonMultiple
  | quotient
  | remainder
  | binomial
  | permutations
  | determinant
  | matrixInverse
  | trace
  | transpose
  | dimension
  | listSum
  | listMean
  | derivative
  | integral
  | sum
  | product
  deriving DecidableEq, Repr

namespace Constant

/-- All constants, in sorting order. -/
def all : List Constant :=
  [pi, e, imaginaryUnit]

/-- The position of a constant in sorting order. -/
def rank (c : Constant) : Nat :=
  c.ctorIdx

/-- The character a constant is written with. -/
def symbol : Constant → String
  | pi => "π"
  | e => "ℯ"
  | imaginaryUnit => "𝐢"

/-- The constant that a text denotes. -/
def ofSymbol? (text : String) : Option Constant :=
  all.find? fun c => c.symbol = text

/-- Whether the value of a constant is a real number. -/
def isReal : Constant → Bool
  | imaginaryUnit => false
  | _ => true

end Constant

namespace Relation

/-- All relations, in sorting order. -/
def all : List Relation :=
  [equal, notEqual, less, lessOrEqual, greater, greaterOrEqual]

/-- The position of a relation in sorting order. -/
def rank (r : Relation) : Nat :=
  r.ctorIdx

/-- The sign a relation is written with. -/
def symbol : Relation → String
  | equal => "="
  | notEqual => "≠"
  | less => "<"
  | lessOrEqual => "≤"
  | greater => ">"
  | greaterOrEqual => "≥"

end Relation

/-- The numbers of operands that an expression of some kind may have. -/
inductive Arity where
  /-- Exactly so many operands. -/
  | fixed (count : Nat)
  /-- Two operands or more. -/
  | variadic
  /-- Between two bounds, where the upper one may be missing. -/
  | range (least : Nat) (most : Option Nat)
  deriving DecidableEq, Repr

/-- Whether an arity admits so many operands. -/
def Arity.accepts : Arity → Nat → Bool
  | fixed count, n => n == count
  | variadic, n => 2 ≤ n
  | range least most, n => least ≤ n && most.all (n ≤ ·)

namespace Kind

/-- All kinds, in sorting order. -/
def all : List Kind :=
  [undefined, nonreal, rational, decimal, infinity, constant, symbol, function, addition,
   subtraction, multiplication, division, power, opposite, factorial, parenthesis, store,
   comparison, matrix, list, absoluteValue, complexArgument, realPart, imaginaryPart,
   conjugate, squareRoot, nthRoot, naturalLogarithm, commonLogarithm, logarithm, sine,
   cosine, tangent, arcSine, arcCosine, arcTangent, hyperbolicSine, hyperbolicCosine,
   hyperbolicTangent, hyperbolicArcSine, hyperbolicArcCosine, hyperbolicArcTangent,
   floor, ceiling, fractionalPart, round, greatestCommonDivisor, leastCommonMultiple,
   quotient, remainder, binomial, permutations, determinant, matrixInverse, trace,
   transpose, dimension, listSum, listMean, derivative, integral, sum, product]

/-- The position of a kind in sorting order. -/
def rank (k : Kind) : Nat :=
  k.ctorIdx

/-- The kind at a position of the sorting order. -/
def ofRank? (n : Nat) : Option Kind :=
  all[n]?

/-- The name of a kind, as messages and tree listings show it. -/
def name : Kind → String
  | undefined => "Undefined"
  | nonreal => "Nonreal"
  | rational => "Rational"
  | decimal => "Decimal"
  | infinity => "Infinity"
  | constant => "Constant"
  | symbol => "Symbol"
  | function => "Function"
  | addition => "Addition"
  | subtraction => "Subtraction"
  | multiplication => "Multiplication"
  | division => "Division"
  | power => "Power"
  | opposite => "Opposite"
  | factorial => "Factorial"
  | parenthesis => "Parenthesis"
  | store => "Store"
  | comparison => "Comparison"
  | matrix => "Matrix"
  | list => "List"
  | absoluteValue => "AbsoluteValue"
  | complexArgument => "ComplexArgument"
  | realPart => "RealPart"
  | imaginaryPart => "ImaginaryPart"
  | conjugate => "Conjugate"
  | squareRoot => "SquareRoot"
  | nthRoot => "NthRoot"
  | naturalLogarithm => "NaperianLogarithm"
  | commonLogarithm => "CommonLogarithm"
  | logarithm => "Logarithm"
  | sine => "Sine"
  | cosine => "Cosine"
  | tangent => "Tangent"
  | arcSine => "ArcSine"
  | arcCosine => "ArcCosine"
  | arcTangent => "ArcTangent"
  | hyperbolicSine => "HyperbolicSine"
  | hyperbolicCosine => "HyperbolicCosine"
  | hyperbolicTangent => "HyperbolicTangent"
  | hyperbolicArcSine => "HyperbolicArcSine"
  | hyperbolicArcCosine => "HyperbolicArcCosine"
  | hyperbolicArcTangent => "HyperbolicArcTangent"
  | floor => "Floor"
  | ceiling => "Ceiling"
  | fractionalPart => "FracPart"
  | round => "Round"
  | greatestCommonDivisor => "GreatCommonDivisor"
  | leastCommonMultiple => "LeastCommonMultiple"
  | quotient => "DivisionQuotient"
  | remainder => "DivisionRemainder"
  | binomial => "BinomialCoefficient"
  | permutations => "PermuteCoefficient"
  | determinant => "Determinant"
  | matrixInverse => "MatrixInverse"
  | trace => "MatrixTrace"
  | transpose => "MatrixTranspose"
  | dimension => "MatrixDimension"
  | listSum => "ListSum"
  | listMean => "ListMean"
  | derivative => "Derivative"
  | integral => "Integral"
  | sum => "Sum"
  | product => "Product"

/-- The kind of a given name. -/
def ofName? (text : String) : Option Kind :=
  all.find? fun k => k.name = text

/-- Rational and decimal numbers and the two infinities. -/
def isNumber : Kind → Bool
  | rational | decimal | infinity => true
  | _ => false

/-- The results that spread to whatever is computed from them. -/
def isPoison : Kind → Bool
  | undefined | nonreal => true
  | _ => false

/-- The functions whose second operand names a variable bound in the first. -/
def isParametered : Kind → Bool
  | derivative | integral | sum | product => true
  | _ => false

/-- Circular and hyperbolic functions and their inverses. -/
def isTrigonometric (k : Kind) : Bool :=
  sine.rank ≤ k.rank && k.rank ≤ hyperbolicArcTangent.rank

/-- The functions that take a matrix. -/
def isMatrixFunction (k : Kind) : Bool :=
  determinant.rank ≤ k.rank && k.rank ≤ dimension.rank

/-- The functions that take lists. -/
def isListFunction : Kind → Bool
  | listSum | listMean => true
  | _ => false

/-- Whether expressions of this kind are written as a reserved name before its arguments. -/
def isReservedFunction (k : Kind) : Bool :=
  absoluteValue.rank ≤ k.rank

/-- How many operands expressions of this kind have. -/
def arity : Kind → Arity
  | undefined | nonreal | rational | decimal | infinity | constant | symbol => .fixed 0
  | addition | multiplication | matrix => .variadic
  | list => .range 0 none
  | listMean => .range 1 (some 2)
  | subtraction | division | power | store | comparison => .fixed 2
  | logarithm | nthRoot | round | greatestCommonDivisor | leastCommonMultiple => .fixed 2
  | quotient | remainder | binomial | permutations => .fixed 2
  | derivative => .fixed 3
  | integral | sum | product => .fixed 4
  | _ => .fixed 1

/-- The name that a reserved function is written with. Two functions may share a name; the number
of arguments then tells them apart. -/
def functionName? : Kind → Option String
  | absoluteValue => some "abs"
  | complexArgument => some "arg"
  | realPart => some "re"
  | imaginaryPart => some "im"
  | conjugate => some "conj"
  | squareRoot => some "√"
  | nthRoot => some "root"
  | naturalLogarithm => some "ln"
  | commonLogarithm => some "log"
  | logarithm => some "log"
  | sine => some "sin"
  | cosine => some "cos"
  | tangent => some "tan"
  | arcSine => some "asin"
  | arcCosine => some "acos"
  | arcTangent => some "atan"
  | hyperbolicSine => some "sinh"
  | hyperbolicCosine => some "cosh"
  | hyperbolicTangent => some "tanh"
  | hyperbolicArcSine => some "asinh"
  | hyperbolicArcCosine => some "acosh"
  | hyperbolicArcTangent => some "atanh"
  | floor => some "floor"
  | ceiling => some "ceil"
  | fractionalPart => some "frac"
  | round => some "round"
  | greatestCommonDivisor => some "gcd"
  | leastCommonMultiple => some "lcm"
  | quotient => some "quo"
  | remainder => some "rem"
  | binomial => some "binomial"
  | permutations => some "permute"
  | determinant => some "det"
  | matrixInverse => some "inverse"
  | trace => some "trace"
  | transpose => some "transpose"
  | dimension => some "dim"
  | listSum => some "sum"
  | listMean => some "mean"
  | derivative => some "diff"
  | integral => some "int"
  | sum => some "sum"
  | product => some "product"
  | _ => none

end Kind

/-- What a reserved function name stands for. A call has the least or the most arguments, and
nothing in between. -/
structure FunctionEntry where
  kind : Kind
  least : Nat
  most : Nat
  deriving DecidableEq, Repr

/-- The kinds whose function name, taken alone, stands for another kind: a logarithm with a base is
a two-argument call of the common logarithm, and the sum of a list is a one-argument call of the
sum over a range. -/
def Kind.sharesName : Kind → Bool
  | .logarithm | .listSum => true
  | _ => false

/-- What a reserved function name stands for, if it is one. -/
def reservedFunction? (name : String) : Option FunctionEntry :=
  (Kind.all.find? fun k => !k.sharesName && k.functionName? = some name).map fun k =>
    match k with
    | .commonLogarithm => ⟨k, 1, 2⟩
    | .sum => ⟨k, 1, 4⟩
    | _ =>
      match k.arity with
      | .fixed n => ⟨k, n, n⟩
      | .variadic => ⟨k, 2, 2⟩
      | .range least most => ⟨k, least, most.getD least⟩

/-- The identifiers with a fixed meaning, functions and constants apart. -/
def keywords : List String :=
  ["ans", "inf", "undef", "nonreal", "u", "v", "w"]

/-- Whether a name can neither be assigned nor bound. -/
def isReservedName (name : String) : Bool :=
  (reservedFunction? name).isSome || (Constant.ofSymbol? name).isSome || keywords.contains name

/-- The greatest length of an identifier, in characters. -/
def maxIdentifierLength : Nat :=
  7

end PocketAlgebra
