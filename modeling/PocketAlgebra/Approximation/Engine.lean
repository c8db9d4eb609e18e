import PocketAlgebra.Approximation.Calculus
import PocketAlgebra.Approximation.Function
import PocketAlgebra.Definitions
import PocketAlgebra.Expr.Basic

/-!
# Approximation

An expression is approximated from its leaves up. Symbols stand for the values that they are bound
to, the latest binding first, and otherwise for their definitions. A name that is met again while
its definition is being expanded has no value, so expansions are nested no deeper than there are
definitions.

Approximation always gives a result: what has no value, and what has been interrupted, is
undefined.
-/

namespace PocketAlgebra

/-!
## Fractions written out

The rational number that an expression of nothing but rational literals and arithmetic stands for.
It tells odd roots from other powers, which a rounded exponent cannot.
-/

namespace Expr

/-- Adds or multiplies numbers that are all known. -/
def combineKnown (combine : Rat → Rat → Rat) : List (Option Rat) → Option Rat
  | [] => none
  | value :: values =>
    values.foldl (fun total value => total.bind fun p => value.map (combine p)) value

mutual

/-- The number that an expression of rational literals stands for. -/
def literal? : Expr → Option Rat
  | rational q => some q
  | apply f xs =>
    match f, literals xs with
    | .parenthesis, value :: _ => value
    | .opposite, value :: _ => value.map (- ·)
    | .subtraction, x :: y :: _ => x.bind fun p => y.map (p - ·)
    | .division, x :: y :: _ =>
      y.bind fun q => if q = 0 then none else x.map (· / q)
    | .addition, values => combineKnown (· + ·) values
    | .multiplication, values => combineKnown (· * ·) values
    | _, _ => none
  | _ => none

/-- The same for several expressions. -/
def literals : List Expr → List (Option Rat)
  | [] => []
  | x :: xs => x.literal? :: literals xs

end

end Expr

/-! ## Scopes and operands -/

namespace Approximation

variable {F : Type} [Scalar F]

/-- What an approximation depends on. -/
structure Context where
  format : Format := {}
  definitions : Definitions := {}

/-- The variables that are bound around an expression, the latest one first, and the names whose
definitions are being expanded. -/
structure Scope (F : Type) where
  bindings : List (String × ComplexNumber F) := []
  expanding : List String := []

namespace Scope

/-- The scope of a variable that is bound to a value. -/
def bind (scope : Scope F) (name : String) (value : ComplexNumber F) : Scope F :=
  { scope with bindings := (name, value) :: scope.bindings }

/-- The scope of the definition of a name. -/
def expand (scope : Scope F) (name : String) : Scope F :=
  { scope with expanding := name :: scope.expanding }

end Scope

/-- The approximation of an expression in a scope. -/
abbrev Evaluator (F : Type) :=
  Scope F → ApproximateM (Evaluation F)

/-- An operand and its approximation, which is carried out when it is asked for. -/
structure Operand (F : Type) where
  expr : Expr
  evaluate : Evaluator F

namespace Operand

/-- The number that an operand is approximated by. -/
def complex (x : Operand F) (scope : Scope F) : ApproximateM (ComplexNumber F) :=
  Evaluation.toComplex <$> x.evaluate scope

/-- The finite real number that an operand is approximated by. -/
def real? (x : Operand F) (scope : Scope F) : ApproximateM (Option F) := do
  let z ← x.complex scope
  return if z.isReal && Scalar.isFinite z.re then some z.re else none

/-- The number that an operand is approximated by where a variable has some value. -/
def sample (x : Operand F) (scope : Scope F) (variableName : String) (value : F) :
    ApproximateM (ComplexNumber F) :=
  x.complex (scope.bind variableName (.ofReal value))

end Operand

/-! ## Names -/

/-- A symbol. -/
def symbol (ctx : Context) (expand : Expr → Evaluator F) (name : String) : Evaluator F :=
  fun scope =>
    match scope.bindings.lookup name with
    | some value => return .scalar value
    | none =>
      if scope.expanding.contains name then
        return .undefined
      else
        match ctx.definitions.value? name with
        | some body => expand body (scope.expand name)
        | none => return .undefined

/-- A call of a defined function. -/
def userFunction (ctx : Context) (expand : Expr → Evaluator F) (name : String)
    (xs : List (Operand F)) : Evaluator F :=
  fun scope => do
    match xs with
    | [] => return .undefined
    | x :: _ =>
      let argument ← x.complex scope
      if scope.expanding.contains name then
        return .undefined
      else
        match ctx.definitions.function? name with
        | some (parameter, body) => expand body ((scope.expand name).bind parameter argument)
        | none => return .undefined

/-! ## Operands one after the other -/

/-- Approximates operands in order, as long as the results are of the kind that is asked for. -/
def collect? {α : Type} (read : Evaluation F → Option α) (scope : Scope F) :
    List (Operand F) → ApproximateM (Option (List α))
  | [] => return some []
  | x :: xs => do
    match read (← x.evaluate scope) with
    | some value => return (← collect? read scope xs).map (value :: ·)
    | none => return none

/-- A matrix of numbers. -/
def matrix (rows columns : Nat) (xs : List (Operand F)) : Evaluator F :=
  fun scope => do
    match ← collect? Evaluation.complex? scope xs with
    | some zs => return .ofMatrix? (NumericMatrix.ofEntries? rows columns zs)
    | none => return .undefined

/-- A list of numbers. -/
def list (xs : List (Operand F)) : Evaluator F :=
  fun scope => do
    match ← collect? Evaluation.complex? scope xs with
    | some zs => return .list zs
    | none => return .undefined

/-- The sum or the mean of a list. -/
def ofLists (f : Operator) (xs : List (Operand F)) : Evaluator F :=
  fun scope => do
    match ← collect? Evaluation.list? scope xs with
    | some lists => return .scalar (listFunction f lists)
    | none => return .undefined

/-- The first operand, which some function is applied to. A missing one is undefined. -/
def ofFirst (g : Evaluation F → Evaluation F) (xs : List (Operand F)) : Evaluator F :=
  fun scope => do
    match xs with
    | x :: _ => return g (← x.evaluate scope)
    | [] => return g .undefined

/-- The first two operands, which some function is applied to. -/
def ofTwo (g : Evaluation F → Evaluation F → Evaluation F) (xs : List (Operand F)) :
    Evaluator F :=
  fun scope => do
    match xs with
    | x :: y :: _ =>
      let left ← x.evaluate scope
      let right ← y.evaluate scope
      return g left right
    | _ => return .undefined

/-- All operands, combined from the left. -/
def ofAll (g : Evaluation F → Evaluation F → Evaluation F) (xs : List (Operand F)) :
    Evaluator F :=
  fun scope => do
    match ← xs.mapM fun x => x.evaluate scope with
    | [] => return .undefined
    | value :: values => return values.foldl g value

/-- A function of numbers. -/
def ofNumbers (format : Format) (f : Operator) (xs : List (Operand F)) : Evaluator F :=
  fun scope => do
    return .scalar (applyFunction format f (← xs.mapM fun x => x.complex scope))

/-! ## Powers -/

/-- Whether an exponent that is written as a fraction with an odd denominator has an odd
numerator. -/
def oddNumerator? (exponent : Expr) : Option Bool :=
  (exponent.literal?.filter fun q => q.den % 2 = 1).map fun q => q.num % 2 = 1

/-- Exponents of matrices are below this bound. -/
def maxMatrixExponent : Nat :=
  0x8000000000000000

/-- A power of a number or of a matrix. -/
def powerOf (format : ComplexFormat) (exponent : Expr) (base : Evaluation F)
    (value : ComplexNumber F) : Evaluation F :=
  match base with
  | .scalar z => .scalar (power format z value (oddNumerator? exponent))
  | .matrix m =>
    match value.whole? with
    | some n =>
      if -maxMatrixExponent ≤ n && n < maxMatrixExponent then .ofMatrix? (m.power? n)
      else .undefined
    | none => .undefined
  | .list _ => .undefined

/-- A power. -/
def powerOperator (format : ComplexFormat) (xs : List (Operand F)) : Evaluator F :=
  fun scope => do
    match xs with
    | x :: y :: _ =>
      let base ← x.evaluate scope
      let exponent ← y.complex scope
      return powerOf format y.expr base exponent
    | _ => return .undefined

/-! ## Functions that bind a variable -/

/-- A sum or a product over a range. -/
def seriesOperator (f : Operator) (xs : List (Operand F)) : Evaluator F :=
  fun scope => do
    match xs with
    | [body, ⟨.symbol name, _⟩, lower, upper] =>
      let start ← lower.real? scope
      let stop ← upper.real? scope
      match start, stop with
      | some a, some b =>
        let term (x : F) := body.evaluate (scope.bind name (.ofReal x))
        if f = .sum then
          series .add Scalar.zero term a b
        else
          series .multiply Scalar.one term a b
      | _, _ => return .undefined
    | _ => return .undefined

/-- An integral. -/
def integralOperator (xs : List (Operand F)) : Evaluator F :=
  fun scope => do
    match xs with
    | [body, ⟨.symbol name, _⟩, lower, upper] =>
      let start ← lower.real? scope
      let stop ← upper.real? scope
      match start, stop with
      | some a, some b => Evaluation.scalar <$> integral (body.sample scope name) a b
      | _, _ => return .undefined
    | _ => return .undefined

/-- A derivative at a point. -/
def derivativeOperator (xs : List (Operand F)) : Evaluator F :=
  fun scope => do
    match xs with
    | [body, ⟨.symbol name, _⟩, point] =>
      match ← point.real? scope with
      | some x => Evaluation.scalar <$> derivative (body.sample scope name) x
      | none => return .undefined
    | _ => return .undefined

/-! ## All expressions -/

/-- An operator over operands. -/
def evaluateApply (ctx : Context) (expand : Expr → Evaluator F) (f : Operator)
    (xs : List (Operand F)) : Evaluator F :=
  match f with
  | .undefined | .nonreal | .comparison _ => fun _ => return .undefined
  | .function name => userFunction ctx expand name xs
  | .parenthesis | .store => ofFirst id xs
  | .matrix rows columns => matrix rows columns xs
  | .list => list xs
  | .addition => ofAll .add xs
  | .multiplication => ofAll .multiply xs
  | .subtraction => ofTwo .subtract xs
  | .division => ofTwo .divide xs
  | .opposite => ofFirst .negate xs
  | .power => powerOperator ctx.format.complexFormat xs
  | .determinant | .matrixInverse | .trace | .transpose | .dimension =>
    ofFirst (matrixFunction f) xs
  | .listSum | .listMean => ofLists f xs
  | .derivative => derivativeOperator xs
  | .integral => integralOperator xs
  | .sum | .product => seriesOperator f xs
  | _ => ofNumbers ctx.format f xs

/-- The number that a constant stands for. -/
def ofConstant : Constant → ComplexNumber F
  | .pi => .ofReal Scalar.pi
  | .e => .ofReal Scalar.e
  | .imaginaryUnit => .i

/-- An infinity. -/
def ofInfinity (negative : Bool) : F :=
  if negative then -Scalar.infinity else Scalar.infinity

mutual

/-- The approximation of an expression, where that of definitions is given. -/
def evaluateTree (ctx : Context) (expand : Expr → Evaluator F) : Expr → Evaluator F
  | .rational q => fun _ => do checkBreaker; return .real (Scalar.ofRat q)
  | .decimal d => fun _ => do checkBreaker; return .real (Scalar.ofDecimal d)
  | .infinity negative => fun _ => do checkBreaker; return .real (ofInfinity negative)
  | .constant c => fun _ => do checkBreaker; return .scalar (ofConstant c)
  | .symbol name => fun scope => do checkBreaker; symbol ctx expand name scope
  | .apply f xs =>
    let operands := operandsOf ctx expand xs
    fun scope => do checkBreaker; evaluateApply ctx expand f operands scope

/-- Operands with their approximations. -/
def operandsOf (ctx : Context) (expand : Expr → Evaluator F) : List Expr → List (Operand F)
  | [] => []
  | x :: xs => ⟨x, evaluateTree ctx expand x⟩ :: operandsOf ctx expand xs

end

/-- An operand with its evaluator. -/
def operand (e : Expr → Evaluator F) (x : Expr) : Operand F :=
  ⟨x, e x⟩

theorem operandsOf_eq_map (ctx : Context) (expand : Expr → Evaluator F) (xs : List Expr) :
    operandsOf ctx expand xs = xs.map (operand (evaluateTree ctx expand)) := by
  induction xs with
  | nil => rw [operandsOf, List.map_nil]
  | cons x xs ih => rw [operandsOf, ih, List.map_cons, operand]

/-- The approximation of an expression, where definitions are expanded so many levels deep. -/
def evaluate (ctx : Context) : Nat → Expr → Evaluator F
  | 0 => evaluateTree ctx fun _ _ => return .undefined
  | levels + 1 => evaluateTree ctx (evaluate ctx levels)

end Approximation

/-- What an expression is approximated by in a context, under a breaker. -/
def Expr.approximate {F : Type} [Scalar F] (x : Expr) (ctx : Approximation.Context)
    (breaker : Breaker) : Evaluation F :=
  match Approximation.evaluate ctx ctx.definitions.size x {} breaker with
  | some (value, _) => value.settle ctx.format.complexFormat
  | none => .undefined

end PocketAlgebra
