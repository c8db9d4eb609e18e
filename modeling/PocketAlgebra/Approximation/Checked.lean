import PocketAlgebra.Approximation.Engine
import PocketAlgebra.Bounds

/-!
# Approximations that break off

Divisors and multiples of whole numbers are computed with signed integers of 64 bits. Where one of
the numbers on the way has no such form, the computation breaks off, and the approximation that
asks for it has no result at all. The rules of approximation are stated with integers of any size;
here they are followed up to the point where an approximation breaks off.
-/

namespace PocketAlgebra

namespace Approximation

open Scalar

variable {F : Type} [Scalar F]

/-- The greatest common divisor of two integers. -/
def checkedDivisor? (m n : Int) : Option Int :=
  int64? (Int.gcd m n)

/-- The least common multiple of two integers: the second one is divided by the greatest common
divisor, multiplied by the first one, and freed from its sign. -/
def checkedMultiple? (m n : Int) : Option Int := do
  let divisor ← checkedDivisor? m n
  let cofactor ← int64? (n / divisor)
  let product ← int64? (m * cofactor)
  int64? product.natAbs

/-- The greatest common divisor, or the least common multiple, of two whole numbers. -/
def checkedCommonInteger? (f : Operator) (z w : ComplexNumber F) : Option (ComplexNumber F) :=
  match exactInteger? z, exactInteger? w with
  | some m, some n =>
    (if f = .greatestCommonDivisor then checkedDivisor? m n else checkedMultiple? m n).map
      fun value => .ofReal (ofInt value)
  | _, _ => some .undefined

/-- A function of two numbers. -/
def checkedBinary? (format : Format) (f : Operator) (z w : ComplexNumber F) :
    Option (ComplexNumber F) :=
  if z.isUndefined || w.isUndefined then
    some .undefined
  else
    match f with
    | .greatestCommonDivisor | .leastCommonMultiple => checkedCommonInteger? f z w
    | _ => some (binary format f z w)

/-- A function of numbers, by how many there are. -/
def checkedFunction? (format : Format) (f : Operator) (zs : List (ComplexNumber F)) :
    Option (ComplexNumber F) :=
  match zs with
  | [z, w] => checkedBinary? format f z w
  | _ => some (applyFunction format f zs)

/-- A function of numbers, of operands. -/
def checkedNumbers (format : Format) (f : Operator) (xs : List (Operand F)) : Evaluator F :=
  fun scope => do
    match checkedFunction? format f (← xs.mapM fun x => x.complex scope) with
    | some z => return .scalar z
    | none => failure

/-- An operator over operands. -/
def checkedApply (ctx : Context) (expand : Expr → Evaluator F) (f : Operator)
    (xs : List (Operand F)) : Evaluator F :=
  match f with
  | .greatestCommonDivisor | .leastCommonMultiple => checkedNumbers ctx.format f xs
  | _ => evaluateApply ctx expand f xs

mutual

/-- The approximation of an expression, where that of definitions is given. -/
def checkedTree (ctx : Context) (expand : Expr → Evaluator F) : Expr → Evaluator F
  | .apply f xs =>
    let operands := checkedOperands ctx expand xs
    fun scope => do checkBreaker; checkedApply ctx expand f operands scope
  | x => evaluateTree ctx expand x

/-- Operands with their approximations. -/
def checkedOperands (ctx : Context) (expand : Expr → Evaluator F) : List Expr → List (Operand F)
  | [] => []
  | x :: xs => ⟨x, checkedTree ctx expand x⟩ :: checkedOperands ctx expand xs

end

theorem checkedOperands_eq_map (ctx : Context) (expand : Expr → Evaluator F) (xs : List Expr) :
    checkedOperands ctx expand xs = xs.map (operand (checkedTree ctx expand)) := by
  induction xs with
  | nil => rw [checkedOperands, List.map_nil]
  | cons x xs ih => rw [checkedOperands, ih, List.map_cons, operand]

/-- The approximation of an expression, where definitions are expanded so many levels deep. -/
def checkedEvaluate (ctx : Context) : Nat → Expr → Evaluator F
  | 0 => checkedTree ctx fun _ _ => return .undefined
  | levels + 1 => checkedTree ctx (checkedEvaluate ctx levels)

end Approximation

/-- What an expression is approximated by in a context, unless the approximation breaks off. -/
def Expr.approximateChecked? {F : Type} [Scalar F] (x : Expr) (ctx : Approximation.Context) :
    Option (Evaluation F) :=
  (Approximation.checkedEvaluate ctx ctx.definitions.size x {} {}).map fun result =>
    result.1.settle ctx.format.complexFormat

end PocketAlgebra
