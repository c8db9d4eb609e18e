import Mathlib.Analysis.Calculus.Deriv.Inv
import Mathlib.Analysis.Calculus.Deriv.ZPow
import Mathlib.Topology.Algebra.Module.ModuleTopology
import PocketAlgebra.Proofs.Expr.Scope
import PocketAlgebra.Proofs.Field.Value

/-!
# Slopes of field expressions

The formal partial derivative of a field expression with respect to a symbol, evaluated under a
valuation. Where the expression has a value, it is the derivative of this value as a function of
that of the symbol. So expressions of the same values have the same slopes, however they are
written.
-/

open Topology

namespace PocketAlgebra

/-- A valuation with another value for a symbol. -/
def Valuation.update {K : Type*} [Field K] (ρ : Valuation K) (name : String) (v : K) :
    Valuation K :=
  { ρ with symbol := Function.update ρ.symbol name v }

namespace Expr

/-! ## Formal derivatives -/

section Formal

variable {K : Type*} [Field K] {ρ : Valuation K} {name : String} {x : Expr} {xs : List Expr}

mutual

/-- The formal partial derivative of a field expression with respect to a symbol, under a
valuation. -/
def slope (ρ : Valuation K) (name : String) : Expr → K
  | symbol other => if other = name then 1 else 0
  | apply .addition xs => sumSlope ρ name xs
  | apply .multiplication xs => productSlope ρ name xs
  | apply .subtraction [x, y] => x.slope ρ name - y.slope ρ name
  | apply .division [x, y] =>
    (x.slope ρ name * y.value ρ - x.value ρ * y.slope ρ name) / y.value ρ ^ 2
  | apply .opposite [x] => -x.slope ρ name
  | apply .parenthesis [x] => x.slope ρ name
  | apply .power [x, p] =>
    let n := p.wholeLiteral?.getD 0
    n * x.value ρ ^ (n - 1) * x.slope ρ name
  | _ => 0

/-- The formal partial derivative of a sum. -/
def sumSlope (ρ : Valuation K) (name : String) : List Expr → K
  | [] => 0
  | x :: xs => x.slope ρ name + sumSlope ρ name xs

/-- The formal partial derivative of a product. -/
def productSlope (ρ : Valuation K) (name : String) : List Expr → K
  | [] => 0
  | x :: xs => x.slope ρ name * (xs.map (value ρ)).prod + x.value ρ * productSlope ρ name xs

end

theorem slope_power_integer (ρ : Valuation K) (name : String) (x : Expr) (n : ℤ) :
    (apply .power [x, integer n]).slope ρ name =
      n * x.value ρ ^ (n - 1) * x.slope ρ name := by
  rw [slope, wholeLiteral?_integer, Option.getD_some]

theorem mentions_of_mem {f : Operator} (hx : x ∈ xs) (h : (apply f xs).mentions name = false) :
    x.mentions name = false := by
  rw [mentions] at h
  induction xs with
  | nil => nomatch hx
  | cons y ys ih =>
      rw [mentionsAny, Bool.or_eq_false_iff] at h
      rcases List.mem_cons.mp hx with rfl | hx
      · exact h.1
      · exact ih hx h.2

theorem sumSlope_eq_zero (h : ∀ x ∈ xs, x.slope ρ name = 0) : sumSlope ρ name xs = 0 := by
  induction xs with
  | nil => rfl
  | cons x xs ih =>
      rw [sumSlope, h x List.mem_cons_self, ih fun y hy => h y (List.mem_cons_of_mem x hy),
        add_zero]

theorem productSlope_eq_zero (h : ∀ x ∈ xs, x.slope ρ name = 0) :
    productSlope ρ name xs = 0 := by
  induction xs with
  | nil => rfl
  | cons x xs ih =>
      rw [productSlope, h x List.mem_cons_self, ih fun y hy => h y (List.mem_cons_of_mem x hy),
        zero_mul, mul_zero, add_zero]

/-- A reduced expression without a symbol has the slope zero. -/
theorem Normal.slope_eq_zero (h : Normal ρ x) (hx : x.mentions name = false) :
    x.slope ρ name = 0 := by
  induction h with
  | rational | constant => rfl
  | symbol other => exact if_neg (beq_eq_false_iff_ne.mp hx)
  | addition _ ih => exact sumSlope_eq_zero fun y hy => ih y hy (mentions_of_mem hy hx)
  | multiplication _ ih => exact productSlope_eq_zero fun y hy => ih y hy (mentions_of_mem hy hx)
  | power _ _ ih =>
      rw [slope_power_integer, ih (mentions_of_mem List.mem_cons_self hx), mul_zero]

/-! ## Substitution -/

theorem value_update_symbol (ρ : Valuation K) (name : String) (v : K) (other : String) :
    (symbol other).value (ρ.update name v) = if other = name then v else ρ.symbol other :=
  Function.update_apply ..

/-- A reduced expression with another one put in for a symbol has the value that it has where the
symbol has that of the other. -/
theorem Normal.substituted {point : Expr} (hpoint : Defined ρ point)
    (h : Normal (ρ.update name (point.value ρ)) x) :
    Defined ρ (substitute name point x) ∧
      (substitute name point x).value ρ = x.value (ρ.update name (point.value ρ)) := by
  have hmap {ys : List Expr} (ih : ∀ y ∈ ys, Defined ρ (substitute name point y) ∧
      (substitute name point y).value ρ = y.value (ρ.update name (point.value ρ))) :
      (∀ y ∈ ys.map (substitute name point), Defined ρ y) ∧
        (ys.map (substitute name point)).map (value ρ) =
          ys.map (value (ρ.update name (point.value ρ))) := by
    refine ⟨List.forall_mem_map.mpr fun y hy => (ih y hy).1, ?_⟩
    rw [List.map_map]
    exact List.map_congr_left fun y hy => (ih y hy).2
  induction h with
  | rational q => exact ⟨.rational q, rfl⟩
  | constant c => exact ⟨.constant c, by cases c <;> rfl⟩
  | symbol other =>
      rw [value_update_symbol, substitute]
      split
      · exact ⟨hpoint, rfl⟩
      · exact ⟨.symbol other, rfl⟩
  | addition _ ih =>
      rw [substitute_apply rfl, value_addition, value_addition, (hmap ih).2]
      exact ⟨.addition (hmap ih).1, rfl⟩
  | multiplication _ ih =>
      rw [substitute_apply rfl, value_multiplication, value_multiplication, (hmap ih).2]
      exact ⟨.multiplication (hmap ih).1, rfl⟩
  | power _ hne ih =>
      rename_i y n _
      have hpower : substitute name point (apply .power [y, integer n]) =
          apply .power [substitute name point y, integer n] := substitute_apply rfl
      rw [hpower, value_power_integer, value_power_integer, ih.2]
      exact ⟨.power ih.1 (wholeLiteral?_integer n) (by rwa [ih.2]), rfl⟩

end Formal

/-! ## Derivatives -/

section Analytic

variable {K : Type*} [NontriviallyNormedField K] {ρ : Valuation K} {name : String} {a : K}
  {x y : Expr} {xs : List Expr}

/-- Near a point, an expression has a value, and at the point its slope is the derivative. -/
def Differentiable (ρ : Valuation K) (name : String) (a : K) (x : Expr) : Prop :=
  (∀ᶠ t in 𝓝 a, Defined (ρ.update name t) x) ∧
    HasDerivAt (fun t => x.value (ρ.update name t)) (x.slope (ρ.update name a) name) a

theorem hasDerivAt_sum
    (h : ∀ x ∈ xs, HasDerivAt (fun t => x.value (ρ.update name t))
      (x.slope (ρ.update name a) name) a) :
    HasDerivAt (fun t => (xs.map (value (ρ.update name t))).sum)
      (sumSlope (ρ.update name a) name xs) a := by
  induction xs with
  | nil => exact hasDerivAt_const a 0
  | cons x xs ih =>
      simp only [List.map_cons, List.sum_cons]
      exact (h x List.mem_cons_self).add (ih fun y hy => h y (List.mem_cons_of_mem x hy))

theorem hasDerivAt_prod
    (h : ∀ x ∈ xs, HasDerivAt (fun t => x.value (ρ.update name t))
      (x.slope (ρ.update name a) name) a) :
    HasDerivAt (fun t => (xs.map (value (ρ.update name t))).prod)
      (productSlope (ρ.update name a) name xs) a := by
  induction xs with
  | nil => exact hasDerivAt_const a 1
  | cons x xs ih =>
      simp only [List.map_cons, List.prod_cons]
      exact (h x List.mem_cons_self).mul (ih fun y hy => h y (List.mem_cons_of_mem x hy))

theorem eventually_forall (h : ∀ x ∈ xs, ∀ᶠ t in 𝓝 a, Defined (ρ.update name t) x) :
    ∀ᶠ t in 𝓝 a, ∀ x ∈ xs, Defined (ρ.update name t) x := by
  induction xs with
  | nil => exact .of_forall fun _ => List.forall_mem_nil _
  | cons x xs ih =>
      filter_upwards [h x List.mem_cons_self, ih fun y hy => h y (List.mem_cons_of_mem x hy)]
        with t hx hxs
      exact List.forall_mem_cons.mpr ⟨hx, hxs⟩

theorem Differentiable.eventually_ne (h : Differentiable ρ name a x)
    (hne : x.value (ρ.update name a) ≠ 0) : ∀ᶠ t in 𝓝 a, x.value (ρ.update name t) ≠ 0 :=
  h.2.continuousAt.eventually_ne hne

/-- Expressions that have a value can be differentiated. -/
theorem Defined.differentiable (h : Defined (ρ.update name a) x) : Differentiable ρ name a x := by
  induction h with
  | rational q => exact ⟨.of_forall fun _ => .rational q, hasDerivAt_const a _⟩
  | decimal hd => exact ⟨.of_forall fun _ => .decimal hd, hasDerivAt_const a _⟩
  | constant c =>
      refine ⟨.of_forall fun _ => .constant c, ?_⟩
      cases c <;> exact hasDerivAt_const a _
  | symbol other =>
      refine ⟨.of_forall fun _ => .symbol other, ?_⟩
      simp only [value_update_symbol, slope]
      split
      · exact hasDerivAt_id a
      · exact hasDerivAt_const a _
  | addition _ ih =>
      refine ⟨(eventually_forall fun y hy => (ih y hy).1).mono fun t ht => .addition ht, ?_⟩
      simp only [value_addition, slope]
      exact hasDerivAt_sum fun y hy => (ih y hy).2
  | multiplication _ ih =>
      refine ⟨(eventually_forall fun y hy => (ih y hy).1).mono fun t ht => .multiplication ht, ?_⟩
      simp only [value_multiplication, slope]
      exact hasDerivAt_prod fun y hy => (ih y hy).2
  | subtraction _ _ ihx ihy =>
      exact ⟨(ihx.1.and ihy.1).mono fun t ht => .subtraction ht.1 ht.2, ihx.2.sub ihy.2⟩
  | division _ _ hne ihx ihy =>
      refine ⟨?_, ihx.2.div ihy.2 hne⟩
      filter_upwards [ihx.1, ihy.1, ihy.eventually_ne hne] with t hx hy hnear
      exact .division hx hy hnear
  | opposite _ ih => exact ⟨ih.1.mono fun t ht => .opposite ht, ih.2.neg⟩
  | parenthesis _ ih => exact ⟨ih.1.mono fun t ht => .parenthesis ht, ih.2⟩
  | power _ hp hn ih =>
      rename_i y p n _
      constructor
      · rcases hn with hpos | hne
        · exact ih.1.mono fun t ht => .power ht hp (.inl hpos)
        · filter_upwards [ih.1, ih.eventually_ne hne] with t ht hnear
          exact .power ht hp (.inr hnear)
      · have hpower := hasDerivAt_zpow n (y.value (ρ.update name a)) (hn.symm.imp_right le_of_lt)
        simp only [value, slope, hp, Option.getD_some]
        exact hpower.comp a ih.2

/-- Where two expressions have the same values, they have the same slope. -/
theorem slope_eq (hx : Defined (ρ.update name a) x) (hy : Defined (ρ.update name a) y)
    (h : ∀ t, Defined (ρ.update name t) x →
      y.value (ρ.update name t) = x.value (ρ.update name t)) :
    y.slope (ρ.update name a) name = x.slope (ρ.update name a) name :=
  hy.differentiable.2.unique (hx.differentiable.2.congr_of_eventuallyEq
    (hx.differentiable.1.mono h))

end Analytic

end Expr

end PocketAlgebra
