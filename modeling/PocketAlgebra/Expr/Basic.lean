import PocketAlgebra.Decimal
import PocketAlgebra.Kind

/-!
# Expressions

An expression is a number, a constant, a symbol, or an operator over a list of operands. The type
admits any number of operands; how many a kind calls for is stated by `Kind.arity`.

Two trees are *identical* when they have the same shape and the same leaves, where decimal literals
are compared as numbers.
-/

namespace PocketAlgebra

/-- What stands at the top of a compound expression. Undefined and non-real results are operators
too, usually without operands. -/
inductive Operator where
  | undefined
  | nonreal
  | function (name : String)
  | addition
  | subtraction
  | multiplication
  | division
  | power
  | opposite
  | factorial
  | parenthesis
  | store
  | comparison (relation : Relation)
  | matrix (rows columns : Nat)
  | list
  | absoluteValue
  | complexArgument
  | realPart
  | imaginaryPart
  | conjugate
  | squareRoot
  | nthRoot
  | naturalLogarithm
  | commonLogarithm
  | logarithm
  | sine
  | cosine
  | tangent
  | arcSine
  | arcCosine
  | arcTangent
  | hyperbolicSine
  | hyperbolicCosine
  | hyperbolicTangent
  | hyperbolicArcSine
  | hyperbolicArcCosine
  | hyperbolicArcTangent
  | floor
  | ceiling
  | fractionalPart
  | round
  | greatestCommonDivisor
  | leastCommonMultiple
  | quotient
  | remainder
  | binomial
  | permutations
  | determinant
  | matrixInverse
  | trace
  | transpose
  | dimension
  | listSum
  | listMean
  | derivative
  | integral
  | sum
  | product
  deriving DecidableEq, Repr

/-- The kind of expression that an operator forms. -/
def Operator.kind : Operator → Kind
  | undefined => .undefined
  | nonreal => .nonreal
  | function _ => .function
  | addition => .addition
  | subtraction => .subtraction
  | multiplication => .multiplication
  | division => .division
  | power => .power
  | opposite => .opposite
  | factorial => .factorial
  | parenthesis => .parenthesis
  | store => .store
  | comparison _ => .comparison
  | matrix _ _ => .matrix
  | list => .list
  | absoluteValue => .absoluteValue
  | complexArgument => .complexArgument
  | realPart => .realPart
  | imaginaryPart => .imaginaryPart
  | conjugate => .conjugate
  | squareRoot => .squareRoot
  | nthRoot => .nthRoot
  | naturalLogarithm => .naturalLogarithm
  | commonLogarithm => .commonLogarithm
  | logarithm => .logarithm
  | sine => .sine
  | cosine => .cosine
  | tangent => .tangent
  | arcSine => .arcSine
  | arcCosine => .arcCosine
  | arcTangent => .arcTangent
  | hyperbolicSine => .hyperbolicSine
  | hyperbolicCosine => .hyperbolicCosine
  | hyperbolicTangent => .hyperbolicTangent
  | hyperbolicArcSine => .hyperbolicArcSine
  | hyperbolicArcCosine => .hyperbolicArcCosine
  | hyperbolicArcTangent => .hyperbolicArcTangent
  | floor => .floor
  | ceiling => .ceiling
  | fractionalPart => .fractionalPart
  | round => .round
  | greatestCommonDivisor => .greatestCommonDivisor
  | leastCommonMultiple => .leastCommonMultiple
  | quotient => .quotient
  | remainder => .remainder
  | binomial => .binomial
  | permutations => .permutations
  | determinant => .determinant
  | matrixInverse => .matrixInverse
  | trace => .trace
  | transpose => .transpose
  | dimension => .dimension
  | listSum => .listSum
  | listMean => .listMean
  | derivative => .derivative
  | integral => .integral
  | sum => .sum
  | product => .product

/-- The operator of a kind that needs nothing else to be told. -/
def Operator.ofKind? : Kind → Option Operator
  | .undefined => some .undefined
  | .nonreal => some .nonreal
  | .addition => some .addition
  | .subtraction => some .subtraction
  | .multiplication => some .multiplication
  | .division => some .division
  | .power => some .power
  | .opposite => some .opposite
  | .factorial => some .factorial
  | .parenthesis => some .parenthesis
  | .store => some .store
  | .list => some .list
  | .absoluteValue => some .absoluteValue
  | .complexArgument => some .complexArgument
  | .realPart => some .realPart
  | .imaginaryPart => some .imaginaryPart
  | .conjugate => some .conjugate
  | .squareRoot => some .squareRoot
  | .nthRoot => some .nthRoot
  | .naturalLogarithm => some .naturalLogarithm
  | .commonLogarithm => some .commonLogarithm
  | .logarithm => some .logarithm
  | .sine => some .sine
  | .cosine => some .cosine
  | .tangent => some .tangent
  | .arcSine => some .arcSine
  | .arcCosine => some .arcCosine
  | .arcTangent => some .arcTangent
  | .hyperbolicSine => some .hyperbolicSine
  | .hyperbolicCosine => some .hyperbolicCosine
  | .hyperbolicTangent => some .hyperbolicTangent
  | .hyperbolicArcSine => some .hyperbolicArcSine
  | .hyperbolicArcCosine => some .hyperbolicArcCosine
  | .hyperbolicArcTangent => some .hyperbolicArcTangent
  | .floor => some .floor
  | .ceiling => some .ceiling
  | .fractionalPart => some .fractionalPart
  | .round => some .round
  | .greatestCommonDivisor => some .greatestCommonDivisor
  | .leastCommonMultiple => some .leastCommonMultiple
  | .quotient => some .quotient
  | .remainder => some .remainder
  | .binomial => some .binomial
  | .permutations => some .permutations
  | .determinant => some .determinant
  | .matrixInverse => some .matrixInverse
  | .trace => some .trace
  | .transpose => some .transpose
  | .dimension => some .dimension
  | .listSum => some .listSum
  | .listMean => some .listMean
  | .derivative => some .derivative
  | .integral => some .integral
  | .sum => some .sum
  | .product => some .product
  | _ => none

/-- Expressions, as trees. -/
inductive Expr where
  | rational (value : Rat)
  | decimal (value : Decimal)
  | infinity (negative : Bool)
  | constant (value : Constant)
  | symbol (name : String)
  | apply (operator : Operator) (operands : List Expr)

namespace Expr

instance : Inhabited Expr :=
  ⟨apply .undefined []⟩

/-! ## Building -/

/-- The expression without a value. -/
def undefined : Expr :=
  apply .undefined []

/-- The expression whose value is not real. -/
def nonreal : Expr :=
  apply .nonreal []

/-- An integer. -/
def integer (n : Int) : Expr :=
  rational n

/-- The base of natural logarithms. -/
def e : Expr :=
  constant .e

/-- The ratio of a circle's circumference to its diameter. -/
def pi : Expr :=
  constant .pi

/-- The imaginary unit. -/
def i : Expr :=
  constant .imaginaryUnit

/-! ## Taking apart -/

/-- The kind of an expression. -/
def kind : Expr → Kind
  | rational _ => .rational
  | decimal _ => .decimal
  | infinity _ => .infinity
  | constant _ => .constant
  | symbol _ => .symbol
  | apply operator _ => operator.kind

/-- The operands of an expression; leaves have none. -/
def operands : Expr → List Expr
  | apply _ operands => operands
  | _ => []

/-- The operand at a position. -/
def operand? (x : Expr) (index : Nat) : Option Expr :=
  x.operands[index]?

/-- The value of a rational number. -/
def rational? : Expr → Option Rat
  | rational q => some q
  | _ => none

theorem eq_rational {x : Expr} {q : Rat} (h : x.rational? = some q) : x = rational q := by
  cases x with
  | rational q => rw [Option.some.inj h]
  | _ => nomatch h

/-- The value of a rational number that is whole. -/
def integer? : Expr → Option Int
  | rational q => if q.isInt then some q.num else none
  | _ => none

/-- Which constant an expression is. -/
def constant? : Expr → Option Constant
  | constant c => some c
  | _ => none

/-- Whether an infinity is the negative one. -/
def infinity? : Expr → Option Bool
  | infinity negative => some negative
  | _ => none

/-- The name of a symbol. -/
def symbol? : Expr → Option String
  | symbol name => some name
  | _ => none

/-- The name of a symbol or of a called function. -/
def name? : Expr → Option String
  | symbol name => some name
  | apply (.function name) _ => some name
  | _ => none

/-- The numbers of rows and columns of a matrix. -/
def shape? : Expr → Option (Nat × Nat)
  | apply (.matrix rows columns) _ => some (rows, columns)
  | _ => none

/-- Whether an expression is a given rational number. -/
def isRational (x : Expr) (q : Rat) : Bool :=
  x.rational? == some q

/-- Whether an expression is a rational number below zero. -/
def isNegativeRational (x : Expr) : Bool :=
  x.rational?.any (· < 0)

/-- Whether an expression is a matrix. -/
def isMatrix (x : Expr) : Bool :=
  x.kind == .matrix

/-- Whether an expression is a list. -/
def isList (x : Expr) : Bool :=
  x.kind == .list

/-! ## Measuring -/

mutual

/-- The number of nodes of a tree. -/
def size : Expr → Nat
  | apply _ operands => sizeAll operands + 1
  | _ => 1

/-- The number of nodes of several trees together. -/
def sizeAll : List Expr → Nat
  | [] => 0
  | x :: xs => x.size + sizeAll xs

end

mutual

/-- The number of nodes on the longest path from the root to a leaf. -/
def depth : Expr → Nat
  | apply _ operands => depthAll operands + 1
  | _ => 1

/-- The depth of the deepest of several trees. -/
def depthAll : List Expr → Nat
  | [] => 0
  | x :: xs => max x.depth (depthAll xs)

end

theorem depth_eq (x : Expr) : x.depth = depthAll x.operands + 1 := by
  cases x <;> rfl

theorem depthAll_append (xs ys : List Expr) :
    depthAll (xs ++ ys) = max (depthAll xs) (depthAll ys) := by
  induction xs with
  | nil => simp [depthAll]
  | cons x xs ih => simp only [List.cons_append, depthAll, ih, Nat.max_assoc]

theorem depth_le_depthAll {x : Expr} {xs : List Expr} (h : x ∈ xs) :
    x.depth ≤ depthAll xs := by
  induction xs with
  | nil => simp at h
  | cons y ys ih =>
      rw [depthAll]
      rcases List.mem_cons.mp h with rfl | h
      · omega
      · have hrest := ih h
        omega

/-! ## Identity -/

mutual

/-- Whether two trees are identical. -/
def same : Expr → Expr → Bool
  | rational p, rational q => p == q
  | decimal a, decimal b => a.same b
  | infinity m, infinity n => m == n
  | constant c, constant d => c == d
  | symbol x, symbol y => x == y
  | apply f xs, apply g ys => f == g && sameAll xs ys
  | _, _ => false
termination_by structural x => x

/-- Whether two lists of trees are identical, position by position. -/
def sameAll : List Expr → List Expr → Bool
  | [], [] => true
  | x :: xs, y :: ys => x.same y && sameAll xs ys
  | _, _ => false
termination_by structural xs => xs

end

/-! ## Occurrences -/

mutual

/-- Whether a symbol of the given name occurs anywhere in a tree, bound or not. -/
def mentions (name : String) : Expr → Bool
  | symbol x => x == name
  | apply _ operands => mentionsAny name operands
  | _ => false

/-- Whether a symbol of the given name occurs anywhere in one of several trees. -/
def mentionsAny (name : String) : List Expr → Bool
  | [] => false
  | x :: xs => x.mentions name || mentionsAny name xs

end

end Expr

end PocketAlgebra
