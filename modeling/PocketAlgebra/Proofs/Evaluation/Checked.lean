import PocketAlgebra.Approximation.Checked
import PocketAlgebra.Proofs.Evaluation.WholeNumber
import PocketAlgebra.Proofs.Interruption.Approximation

/-!
# Where approximations break off

The greatest common divisor of two whole numbers that approximations compute with always has a form
of 64 bits, and so has every number on the way to it. Their least common multiple may have up to 106
bits: it is computed exactly as long as it is less than `2 ^ 63`, and otherwise the approximation
breaks off. An approximation that does not break off anywhere has the result that the rules of
approximation give with integers of any size.
-/

namespace PocketAlgebra

namespace Approximation

open Scalar

variable {F : Type} [Scalar F] {m n : Int}

/-! ## Divisors and multiples -/

theorem natAbs_le_of_exactInteger? {z : ComplexNumber F} (h : exactInteger? z = some n) :
    n.natAbs ≤ maxExactInteger :=
  of_decide_eq_true (Option.filter_eq_some_iff.mp h).2

theorem gcd_le_maxExactInteger (hm : m.natAbs ≤ maxExactInteger)
    (hn : n.natAbs ≤ maxExactInteger) : Int.gcd m n ≤ maxExactInteger := by
  rcases Nat.eq_zero_or_pos m.natAbs with hzero | hpositive
  · rw [Int.gcd, hzero, Nat.gcd_zero_left]
    exact hn
  · exact (Nat.gcd_le_left n.natAbs hpositive).trans hm

theorem natAbs_cofactor_le (hn : n.natAbs ≤ maxExactInteger) :
    (n / Int.gcd m n).natAbs ≤ maxExactInteger := by
  rw [Int.natAbs_ediv_of_dvd (Int.gcd_dvd_right m n)]
  exact (Nat.div_le_self _ _).trans hn

theorem int64?_of_exact (hn : n.natAbs ≤ maxExactInteger) : int64? n = some n := by
  rw [maxExactInteger] at hn
  exact int64?_of_fits (by omega) (by omega)

theorem checkedDivisor?_eq (hm : m.natAbs ≤ maxExactInteger) (hn : n.natAbs ≤ maxExactInteger) :
    checkedDivisor? m n = some (Int.gcd m n : Int) := by
  rw [checkedDivisor?, int64?_of_exact]
  rw [Int.natAbs_natCast]
  exact gcd_le_maxExactInteger hm hn

/-- A number and its magnitude both have a form of 64 bits if the magnitude has one. -/
theorem int64?_bind_natAbs (n : Int) : ((int64? n).bind fun n => int64? n.natAbs) =
    if n.natAbs < 2 ^ 63 then some (n.natAbs : Int) else none := by
  split_ifs with hfits
  · rw [int64?_of_fits (by omega) (by omega), Option.bind_some,
      int64?_of_fits (by omega) (by omega)]
  · refine Option.bind_eq_none_iff.mpr fun value hvalue => ?_
    obtain ⟨-, rfl⟩ := int64?_eq_some_iff.mp hvalue
    exact int64?_of_large (by omega)

theorem checkedMultiple?_eq (hm : m.natAbs ≤ maxExactInteger) (hn : n.natAbs ≤ maxExactInteger) :
    checkedMultiple? m n = if Int.lcm m n < 2 ^ 63 then some (Int.lcm m n : Int) else none := by
  calc checkedMultiple? m n
      = (int64? (m * (n / Int.gcd m n))).bind fun product => int64? product.natAbs := by
        rw [checkedMultiple?, checkedDivisor?_eq hm hn, Option.bind_eq_bind, Option.bind_some,
          int64?_of_exact (natAbs_cofactor_le hn), Option.bind_some]
    _ = if Int.lcm m n < 2 ^ 63 then some (Int.lcm m n : Int) else none := by
        rw [int64?_bind_natAbs, ← multipleOf, natAbs_multipleOf]

/-- Of two whole numbers that are not too large, the greatest common divisor is always found, and
the least common multiple just where it is less than `2 ^ 63`; otherwise the computation breaks
off. -/
theorem checkedBinary?_common (format : Format) {z w : ComplexNumber F}
    (hz : exactInteger? z = some m) (hw : exactInteger? w = some n)
    (hzvalue : z.isUndefined = false) (hwvalue : w.isUndefined = false) :
    checkedBinary? format .greatestCommonDivisor z w =
      some (.ofReal (ofInt (Int.gcd m n))) ∧
    checkedBinary? format .leastCommonMultiple z w =
      if Int.lcm m n < 2 ^ 63 then some (.ofReal (ofInt (Int.lcm m n))) else none := by
  have hm := natAbs_le_of_exactInteger? hz
  have hn := natAbs_le_of_exactInteger? hw
  have hvalues : (z.isUndefined || w.isUndefined) = false := by rw [hzvalue, hwvalue]; rfl
  constructor
  · rw [checkedBinary?, if_neg (Bool.eq_false_iff.mp hvalues)]
    simp only [checkedCommonInteger?, hz, hw, if_true, checkedDivisor?_eq hm hn, Option.map_some]
  · rw [checkedBinary?, if_neg (Bool.eq_false_iff.mp hvalues)]
    simp only [checkedCommonInteger?, hz, hw, reduceCtorEq, if_false, checkedMultiple?_eq hm hn]
    split_ifs <;> rfl

/-- The largest whole number of moderate size, and a thousand. -/
theorem checkedBinary?_common_largest :
    exactInteger? (exactly (some (2 ^ 53))) = some (2 ^ 53) ∧
    exactInteger? (exactly (some 1000)) = some 1000 ∧
    checkedBinary? {} .greatestCommonDivisor (exactly (some (2 ^ 53))) (exactly (some 1000)) =
      some (exactly (some 8)) ∧
    checkedBinary? {} .leastCommonMultiple (exactly (some (2 ^ 53))) (exactly (some 1000)) =
      some (exactly (some (125 * 2 ^ 53))) := by
  have hlargest : exactInteger? (exactly (some (2 ^ 53))) = some (2 ^ 53) := by decide +kernel
  have hthousand : exactInteger? (exactly (some 1000)) = some 1000 := by decide +kernel
  rcases checkedBinary?_common {} hlargest hthousand rfl rfl with ⟨hdivisor, hmultiple⟩
  refine ⟨hlargest, hthousand, ?_, ?_⟩
  · rw [hdivisor]
    decide +kernel
  · rw [hmultiple]
    decide +kernel

/-- The product of the largest whole number of moderate size with the one before has no form of
64 bits. -/
theorem leastCommonMultiple_breaksOff :
    exactInteger? (exactly (some (2 ^ 53))) = some (2 ^ 53) ∧
    exactInteger? (exactly (some (2 ^ 53 - 1))) = some (2 ^ 53 - 1) ∧
    int64? (2 ^ 53 * ((2 ^ 53 - 1) / Int.gcd (2 ^ 53) (2 ^ 53 - 1))) = none ∧
    checkedBinary? {} .leastCommonMultiple (exactly (some (2 ^ 53)))
      (exactly (some (2 ^ 53 - 1))) = none := by
  decide +kernel

/-! ## Approximations that do not break off -/

theorem checkedCommonInteger?_eq_some {f : Operator} {z w value : ComplexNumber F}
    (h : checkedCommonInteger? f z w = some value) : commonInteger f z w = value := by
  rw [checkedCommonInteger?] at h
  rw [commonInteger]
  cases hz : exactInteger? z with
  | none =>
      rw [hz] at h
      exact Option.some.inj h
  | some m =>
      cases hw : exactInteger? w with
      | none =>
          rw [hz, hw] at h
          exact Option.some.inj h
      | some n =>
          have hm := natAbs_le_of_exactInteger? hz
          have hn := natAbs_le_of_exactInteger? hw
          rw [hz, hw] at h
          dsimp only at h ⊢
          rcases Option.map_eq_some_iff.mp h with ⟨k, hk, rfl⟩
          rw [natAbs_multipleOf]
          split_ifs at hk ⊢ with hf
          · rw [checkedDivisor?_eq hm hn, Option.some.injEq] at hk
            rw [hk]
          · rw [checkedMultiple?_eq hm hn, Option.ite_none_right_eq_some, Option.some.injEq] at hk
            rw [hk.2]

theorem checkedFunction?_eq_some {format : Format} {f : Operator} {zs : List (ComplexNumber F)}
    {value : ComplexNumber F} (h : checkedFunction? format f zs = some value) :
    applyFunction format f zs = value := by
  match zs with
  | [] | [_] | _ :: _ :: _ :: _ =>
      cases h
      rfl
  | [z, w] =>
      change checkedBinary? format f z w = some value at h
      change binary format f z w = value
      rw [checkedBinary?.eq_def] at h
      split_ifs at h with hundefined
      · rw [binary.eq_def, if_pos hundefined]
        exact Option.some.inj h
      · cases f with
        | greatestCommonDivisor | leastCommonMultiple =>
            rw [binary.eq_def, if_neg hundefined]
            exact checkedCommonInteger?_eq_some h
        | _ => exact Option.some.inj h

variable {ctx : Context} {expand expand' e e' : Expr → Evaluator F} {xs : List Expr}

theorem prolongs_checkedNumbers (format : Format) (f : Operator)
    (hxs : ∀ x ∈ xs, EvaluatorProlongs (e x) (e' x)) :
    EvaluatorProlongs (checkedNumbers format f (xs.map (operand e)))
      (ofNumbers format f (xs.map (operand e'))) := by
  intro scope
  refine (prolongs_numbers hxs scope).bind fun zs => ?_
  split
  · rename_i z hz
    rw [checkedFunction?_eq_some hz]
    exact .pure _
  · exact .failure

theorem prolongs_checkedApply (hexpand : ∀ x, EvaluatorProlongs (expand x) (expand' x))
    (f : Operator) (hxs : ∀ x ∈ xs, EvaluatorProlongs (e x) (e' x)) :
    EvaluatorProlongs (checkedApply ctx expand f (xs.map (operand e)))
      (evaluateApply ctx expand' f (xs.map (operand e'))) := by
  rw [checkedApply.eq_def]
  split
  · exact prolongs_checkedNumbers _ _ hxs
  · exact prolongs_checkedNumbers _ _ hxs
  · exact prolongs_evaluateApply hexpand f hxs

mutual

theorem prolongs_checkedTree (hexpand : ∀ x, EvaluatorProlongs (expand x) (expand' x)) :
    ∀ x, EvaluatorProlongs (checkedTree ctx expand x) (evaluateTree ctx expand' x)
  | .rational _ | .decimal _ | .infinity _ | .constant _ | .symbol _ =>
      prolongs_evaluateTree hexpand _
  | .apply f xs => by
      intro scope
      rw [checkedTree, evaluateTree, checkedOperands_eq_map, operandsOf_eq_map]
      exact prolongs_checkBreaker.bind fun _ =>
        prolongs_checkedApply hexpand f (prolongs_checkedOperands hexpand xs) scope

theorem prolongs_checkedOperands (hexpand : ∀ x, EvaluatorProlongs (expand x) (expand' x)) :
    ∀ xs : List Expr, ∀ x ∈ xs,
      EvaluatorProlongs (checkedTree ctx expand x) (evaluateTree ctx expand' x)
  | [] => List.forall_mem_nil _
  | x :: xs => List.forall_mem_cons.mpr
      ⟨prolongs_checkedTree hexpand x, prolongs_checkedOperands hexpand xs⟩

end

theorem prolongs_checkedEvaluate (ctx : Context) (levels : Nat) :
    ∀ x, EvaluatorProlongs (F := F) (checkedEvaluate ctx levels x) (evaluate ctx levels x) := by
  induction levels with
  | zero => exact prolongs_checkedTree fun _ _ => .pure _
  | succ levels ih => exact prolongs_checkedTree ih

end Approximation

/-- An approximation that does not break off is what the rules of approximation give. -/
theorem Expr.approximate_of_checked {F : Type} [Scalar F] {x : Expr} {ctx : Approximation.Context}
    {value : Evaluation F} (h : x.approximateChecked? ctx = some value) :
    x.approximate ctx {} = value := by
  rcases Option.map_eq_some_iff.mp h with ⟨⟨result, after⟩, hchecked, rfl⟩
  rcases Approximation.prolongs_checkedEvaluate ctx _ x {} {} {} (Breaker.outlasts_default {}) result
    after hchecked with ⟨after', hresult, -⟩
  rw [Expr.approximate, hresult]

end PocketAlgebra
