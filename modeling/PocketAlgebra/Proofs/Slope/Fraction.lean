import PocketAlgebra.Proofs.Closed.Arithmetic
import PocketAlgebra.Proofs.Closed.Basic
import PocketAlgebra.Proofs.Expr.Everywhere

/-!
# Expressions for rational functions

Field arithmetic over numbers and symbols is reduced to sums, products and whole powers, or to what
is infinite or undefined. Nothing else comes in, wherever the expression has a value and wherever it
has none.
-/

namespace PocketAlgebra

open Reduction (forall_mem_pair)

namespace Expr

/-- Expressions of field arithmetic over numbers and symbols. They may be infinite or undefined. -/
inductive IsFraction : Expr → Prop
  | rational (q : Rat) : IsFraction (rational q)
  | infinity (negative : Bool) : IsFraction (infinity negative)
  | symbol (name : String) : IsFraction (symbol name)
  | undefined : IsFraction .undefined
  | addition {xs : List Expr} (h : ∀ x ∈ xs, IsFraction x) : IsFraction (apply .addition xs)
  | multiplication {xs : List Expr} (h : ∀ x ∈ xs, IsFraction x) :
      IsFraction (apply .multiplication xs)
  | subtraction {x y : Expr} (hx : IsFraction x) (hy : IsFraction y) :
      IsFraction (apply .subtraction [x, y])
  | division {x y : Expr} (hx : IsFraction x) (hy : IsFraction y) :
      IsFraction (apply .division [x, y])
  | opposite {x : Expr} (hx : IsFraction x) : IsFraction (apply .opposite [x])
  | parenthesis {x : Expr} (hx : IsFraction x) : IsFraction (apply .parenthesis [x])
  | power {x p : Expr} {n : ℤ} (hx : IsFraction x) (hp : p.wholeLiteral? = some n) :
      IsFraction (apply .power [x, p])

/-- Such expressions in reduced form. -/
inductive IsReducedFraction : Expr → Prop
  | rational (q : Rat) : IsReducedFraction (rational q)
  | infinity (negative : Bool) : IsReducedFraction (infinity negative)
  | symbol (name : String) : IsReducedFraction (symbol name)
  | undefined : IsReducedFraction .undefined
  | addition {xs : List Expr} (h : ∀ x ∈ xs, IsReducedFraction x) :
      IsReducedFraction (apply .addition xs)
  | multiplication {xs : List Expr} (h : ∀ x ∈ xs, IsReducedFraction x) :
      IsReducedFraction (apply .multiplication xs)
  | power {x : Expr} (n : ℤ) (hx : IsReducedFraction x) :
      IsReducedFraction (apply .power [x, integer n])

variable {x y point : Expr} {xs : List Expr} {name : String}

theorem IsReducedFraction.isFraction (h : IsReducedFraction x) : IsFraction x := by
  induction h with
  | rational q => exact .rational q
  | infinity negative => exact .infinity negative
  | symbol name => exact .symbol name
  | undefined => exact .undefined
  | addition _ ih => exact .addition ih
  | multiplication _ ih => exact .multiplication ih
  | power n _ ih => exact .power ih (wholeLiteral?_integer n)

theorem IsFraction.hasUnit_eq_false (h : IsFraction x) : x.hasUnit = false := by
  induction h with
  | rational | infinity | symbol | undefined => rfl
  | addition _ ih => exact hasUnitAny_eq_false ih
  | multiplication _ ih => exact hasUnitAny_eq_false ih
  | subtraction _ _ ihx ihy => exact hasUnitAny_eq_false (forall_mem_pair ihx ihy)
  | division _ _ ihx ihy => exact hasUnitAny_eq_false (forall_mem_pair ihx ihy)
  | opposite _ ih => exact hasUnitAny_eq_false (List.forall_mem_singleton.mpr ih)
  | parenthesis _ ih => exact hasUnitAny_eq_false (List.forall_mem_singleton.mpr ih)
  | power _ hp ih =>
      exact hasUnitAny_eq_false (forall_mem_pair ih (hasUnit_of_wholeLiteral? hp))

theorem IsReducedFraction.substituted (hpoint : IsReducedFraction point)
    (h : IsReducedFraction x) : IsReducedFraction (substitute name point x) := by
  induction h with
  | rational q => exact .rational q
  | infinity negative => exact .infinity negative
  | symbol other =>
      rw [substitute]
      split
      · exact hpoint
      · exact .symbol other
  | undefined => exact .undefined
  | addition _ ih =>
      rw [substitute_apply rfl]
      exact .addition (List.forall_mem_map.mpr ih)
  | multiplication _ ih =>
      rw [substitute_apply rfl]
      exact .multiplication (List.forall_mem_map.mpr ih)
  | power n _ ih =>
      rw [substitute_apply rfl]
      exact .power n ih

end Expr

namespace Reduction

open PocketAlgebra.Expr

variable {ctx : Context} {nesting : Nat} {x y : Expr} {xs : List Expr}

theorem closedOperands_isReducedFraction : ClosedOperands IsReducedFraction where
  rational := .rational
  operand hf h hx := by
    rcases hf with rfl | rfl
    · cases h with
      | addition hxs => exact hxs _ hx
    · cases h with
      | multiplication hxs => exact hxs _ hx
  many hf _ hxs := by
    rcases hf with rfl | rfl
    · exact .addition hxs
    · exact .multiplication hxs
  prefixed h hx := by
    cases h with
    | multiplication hxs => exact .multiplication (List.forall_mem_cons.mpr ⟨hx, hxs⟩)

theorem closedScalars_isReducedFraction : ClosedScalars IsReducedFraction where
  rational := .rational
  undefined := .undefined
  infinity other _ := .infinity other
  operand := closedOperands_isReducedFraction.operand
  collected := closedOperands_isReducedFraction.collected
  gathered := closedOperands_isReducedFraction.gathered
  exponent n := ⟨n, rfl⟩
  power hx hy := by
    rcases hy with ⟨n, rfl⟩
    exact .power n hx
  parts h := by
    cases h with
    | power n hx => exact ⟨hx, n, rfl⟩
  not_matrix h := by cases h <;> rfl
  not_list h := by cases h <;> rfl
  kind_ne_nonreal h hkind := by cases h <;> cases hkind
  not_constant _ h := by cases h

/-- A reduction of sums, products and powers of reduced fractions to reduced fractions. -/
abbrev KeepsFractions : NodeReducer → Prop :=
  KeepsArithmetic IsWhole IsReducedFraction

theorem keepsFractions_nodeWithin (ctx : Context) (nesting : Nat) :
    KeepsFractions (nodeWithin nesting ctx) :=
  closedScalars_isReducedFraction.keepsArithmetic ctx nesting

/-! ## Reduction of trees -/

theorem negate_fraction {node : NodeReducer} (hnode : KeepsFractions node)
    (hx : IsReducedFraction x) : Yields (negate node x) IsReducedFraction :=
  hnode.multiply (forall_mem_pair (.rational _) hx)

theorem reduceQuotient_fraction {node : NodeReducer} (hnode : KeepsFractions node)
    (hx : IsReducedFraction x) (hy : IsReducedFraction y) :
    Yields (reduceQuotient node [x, y]) IsReducedFraction := by
  rw [reduceQuotient]
  split
  · split
    · exact Yields.pure (.infinity false)
    · exact Yields.pure (.infinity true)
    · exact Yields.pure .undefined
  · exact (hnode.power hy ⟨-1, rfl⟩).bind fun z hz => hnode.multiply (forall_mem_pair hx hz)

/-- A rule over operands in reduced form. -/
theorem nodeWithin_fraction {f : Operator} (hxs : ∀ x ∈ xs, IsReducedFraction x)
    (h : ∀ inner < nesting, Yields
      (reduceApply ctx (nodeWithin inner ctx) (treeWithin inner ctx) f xs) IsReducedFraction) :
    Yields (nodeWithin nesting ctx (.apply f xs)) IsReducedFraction :=
  closedScalars_isReducedFraction.nodeWithin hxs .undefined h

/-- Reduction gives a reduced fraction, whether or not the expression has a value. -/
theorem treeWithin_fraction (hdefinitions : ctx.definitions = {}) (hx : IsFraction x)
    (nesting : Nat) : Yields (treeWithin nesting ctx x) IsReducedFraction := by
  have hkeeps := keepsFractions_nodeWithin ctx
  induction hx generalizing nesting with
  | rational q => exact treeWithin_leaf (by simp) (fun _ => Yields.pure (.rational q)) nesting
  | infinity negative =>
      exact treeWithin_leaf (by simp) (fun _ => Yields.pure (.infinity negative)) nesting
  | symbol name =>
      refine treeWithin_leaf (by simp) (fun inner => ?_) nesting
      have hvalue : ctx.definitions.value? name = none := by
        rw [hdefinitions]
        rfl
      rw [reduceNode, symbol, hvalue, undefinedName]
      dsimp only
      split
      · exact Yields.pure (.symbol name)
      · split
        · exact Yields.pure .undefined
        · exact Yields.pure (.symbol name)
  | undefined =>
      refine treeWithin_apply (R := fun _ _ => True) (by decide) rfl (by simp)
        (fun ys hys n => ?_) nesting
      cases hys
      exact nodeWithin_fraction (List.forall_mem_nil _) fun _ _ => Yields.pure .undefined
  | addition _ ih =>
      refine treeWithin_apply (by decide) rfl ih (fun ys hys n => ?_) nesting
      exact (hkeeps n).add (forall_of_forall₂ hys fun _ _ _ => id)
  | multiplication _ ih =>
      refine treeWithin_apply (by decide) rfl ih (fun ys hys n => ?_) nesting
      exact (hkeeps n).multiply (forall_of_forall₂ hys fun _ _ _ => id)
  | subtraction _ _ ihx ihy =>
      refine treeWithin_apply (R := fun _ => IsReducedFraction) (by decide) rfl
        (forall_mem_pair ihx ihy) (fun zs hzs n => ?_) nesting
      rcases eq_pair_of_forall₂ hzs with ⟨u, v, hu, hv, rfl⟩
      refine nodeWithin_fraction (forall_mem_pair hu hv) fun inner _ => ?_
      exact (negate_fraction (hkeeps inner) hv).bind fun w hw =>
        (hkeeps inner).add (forall_mem_pair hu hw)
  | division _ _ ihx ihy =>
      refine treeWithin_apply (R := fun _ => IsReducedFraction) (by decide) rfl
        (forall_mem_pair ihx ihy) (fun zs hzs n => ?_) nesting
      rcases eq_pair_of_forall₂ hzs with ⟨u, v, hu, hv, rfl⟩
      exact nodeWithin_fraction (forall_mem_pair hu hv) fun inner _ =>
        reduceQuotient_fraction (hkeeps inner) hu hv
  | opposite _ ih =>
      refine treeWithin_apply (R := fun _ => IsReducedFraction) (by decide) rfl
        (List.forall_mem_singleton.mpr ih) (fun zs hzs n => ?_) nesting
      rcases eq_singleton_of_forall₂ hzs with ⟨u, hu, rfl⟩
      exact nodeWithin_fraction (List.forall_mem_singleton.mpr hu) fun inner _ =>
        negate_fraction (hkeeps inner) hu
  | parenthesis _ ih =>
      refine treeWithin_apply (R := fun _ => IsReducedFraction) (by decide) rfl
        (List.forall_mem_singleton.mpr ih) (fun zs hzs n => ?_) nesting
      rcases eq_singleton_of_forall₂ hzs with ⟨u, hu, rfl⟩
      exact nodeWithin_fraction (List.forall_mem_singleton.mpr hu) fun inner _ => Yields.pure hu
  | power _ hp ih =>
      rename_i x p n _
      -- The base is known by its form, the exponent as a literal.
      have hoperand : ∀ z ∈ [x, p], ∀ k, Yields (treeWithin k ctx z) fun r =>
          (z = x → IsReducedFraction r) ∧ (z.wholeLiteral? = some n → r = .integer n) := by
        intro z hz k b r b' hr
        refine ⟨fun hzx => ?_, fun hzn => treeWithin_literal hzn k b r b' hr⟩
        subst hzx
        exact ih k b r b' hr
      refine treeWithin_apply (by decide) rfl hoperand (fun zs hzs k => ?_) nesting
      rcases eq_pair_of_forall₂ hzs with ⟨u, v, hu, hv, rfl⟩
      rw [hv.2 hp]
      exact (hkeeps k).power (hu.1 rfl) ⟨n, rfl⟩

/-! ## The form for the user -/

/-- No derivative is in a tree. -/
def NoDerivative (x : Expr) : Prop :=
  x.Everywhere (·.kind ≠ .derivative)

theorem drawn_noDerivative : Drawn NoDerivative where
  rational q := (everywhere_leaf rfl).mpr nofun
  infinity negative := (everywhere_leaf rfl).mpr nofun
  apply := @fun f xs hf hxs => by
    refine everywhere_apply.mpr ⟨fun hkind => ?_, hxs⟩
    cases f with
    | derivative => nomatch hf
    | _ => nomatch hkind

theorem noDerivative_fraction (h : IsReducedFraction x) : NoDerivative x := by
  induction h with
  | rational q => exact drawn_noDerivative.rational q
  | infinity negative => exact drawn_noDerivative.infinity negative
  | symbol name => exact (everywhere_leaf rfl).mpr nofun
  | undefined => exact drawn_noDerivative.undefined
  | addition _ ih => exact everywhere_apply.mpr ⟨nofun, ih⟩
  | multiplication _ ih => exact everywhere_apply.mpr ⟨nofun, ih⟩
  | power n _ ih =>
      exact everywhere_apply.mpr ⟨nofun, forall_mem_pair ih (drawn_noDerivative.rational n)⟩

theorem noDerivative_beautify (h : NoDerivative x) : NoDerivative (beautify x) := by
  refine drawn_noDerivative.beautify (fun hx hy => hx.operand hy) ?_ h
  intro f xs ys hx _ hys
  exact everywhere_apply.mpr ⟨hx.here, hys⟩

end Reduction

end PocketAlgebra
