import Mathlib.Tactic.Ring
import PocketAlgebra.Proofs.Field.Value
import PocketAlgebra.Reduction.Sum

/-!
# Sums of field expressions

Collecting like terms keeps the value of a sum.  The invariant of the fold over
the terms is that the constant and the collected terms add up to the terms that
have been met.
-/

namespace PocketAlgebra

namespace Reduction

open PocketAlgebra.Expr

variable {K : Type*} [Field K] {ρ : Valuation K}

/-!
## Terms
-/

namespace Term

/-- The value of a term. -/
def value (ρ : Valuation K) (t : Term) : K :=
  t.coefficient * t.rest.value ρ

theorem represents_ofExpr [CharZero K] {x : Expr} (h : Normal ρ x) :
    Normal ρ (ofExpr x).rest ∧ (ofExpr x).value ρ = x.value ρ := by
  have hself : Normal ρ (⟨1, x⟩ : Term).rest ∧
      (⟨1, x⟩ : Term).value ρ = x.value ρ := ⟨h, by simp [value]⟩
  cases h with
  | multiplication hxs =>
      rename_i xs
      match xs, hxs with
      | .rational c :: factors, hxs =>
          have hfactors := represents_assemble_multiplication fun y hy =>
            hxs y (List.mem_cons_of_mem _ hy)
          refine ⟨hfactors.normal, ?_⟩
          simp [ofExpr, value, hfactors.value_eq]
      | [], _ => exact hself
      | .decimal _ :: _, _ | .infinity _ :: _, _ => exact hself
      | .constant _ :: _, _ | .symbol _ :: _, _ => exact hself
      | .apply _ _ :: _, _ => exact hself
  | _ => exact hself

theorem represents_toExpr {t : Term} (h : Normal ρ t.rest) :
    Represents ρ (t.value ρ) t.toExpr := by
  rcases t with ⟨c, rest⟩
  rw [toExpr]
  by_cases hc : c = 1
  · rw [if_pos hc]
    exact ⟨h, by simp [value, hc]⟩
  · rw [if_neg hc]
    have hpair : Represents ρ (value ρ ⟨c, rest⟩)
        (.apply .multiplication [.rational c, rest]) :=
      ⟨.multiplication (forall_mem_pair (.rational c) h), by simp [value]⟩
    cases h with
    | multiplication hfactors =>
        refine ⟨.multiplication fun y hy => ?_, by simp [value]⟩
        rcases List.mem_cons.mp hy with rfl | hy
        · exact .rational c
        · exact hfactors y hy
    | _ => exact hpair

theorem sum_insert [CharZero K] {t : Term} {ts : List Term}
    (hts : ∀ s ∈ ts, Normal ρ s.rest) :
    ((t.insert ts).map (value ρ)).sum =
      t.value ρ + (ts.map (value ρ)).sum := by
  induction ts with
  | nil => simp [insert]
  | cons s ts ih =>
      rw [insert]
      split
      · rename_i hsame
        have heq := (hts s List.mem_cons_self).eq_of_same t.rest hsame
        simp only [List.map_cons, List.sum_cons, value, heq]
        push_cast
        ring
      · have htail := ih fun r hr => hts r (List.mem_cons_of_mem s hr)
        rw [List.map_cons, List.sum_cons, htail, List.map_cons, List.sum_cons]
        ring

theorem normal_insert {t : Term} {ts : List Term} (ht : Normal ρ t.rest)
    (hts : ∀ s ∈ ts, Normal ρ s.rest) :
    ∀ s ∈ t.insert ts, Normal ρ s.rest := by
  induction ts with
  | nil => simpa [insert] using ht
  | cons r ts ih =>
      have hr := hts r List.mem_cons_self
      have htail := fun s hs => hts s (List.mem_cons_of_mem r hs)
      intro s hs
      rw [insert] at hs
      split at hs
      · rcases List.mem_cons.mp hs with rfl | hs
        · exact hr
        · exact htail s hs
      · rcases List.mem_cons.mp hs with rfl | hs
        · exact hr
        · exact ih htail s hs

end Term

/-!
## Collected sums
-/

namespace LinearSum

/-- The value of a collected sum. -/
def value (ρ : Valuation K) (s : LinearSum) : K :=
  s.constant + (s.terms.map (Term.value ρ)).sum

theorem add_spec [CharZero K] {s : LinearSum} {x : Expr}
    (hs : ∀ t ∈ s.terms, Normal ρ t.rest) (hx : Normal ρ x) :
    (∀ t ∈ (s.add x).terms, Normal ρ t.rest) ∧
      (s.add x).value ρ = s.value ρ + x.value ρ := by
  have hterm : (∀ t ∈ (Term.ofExpr x).insert s.terms, Normal ρ t.rest) ∧
      value ρ { s with terms := (Term.ofExpr x).insert s.terms } =
        s.value ρ + x.value ρ := by
    rcases Term.represents_ofExpr hx with ⟨hrest, hvalue⟩
    refine ⟨Term.normal_insert hrest hs, ?_⟩
    simp only [value, Term.sum_insert hs, hvalue]
    ring
  cases hx with
  | rational q =>
      refine ⟨hs, ?_⟩
      simp only [add, value, value_rational]
      push_cast
      ring
  | _ => exact hterm

theorem foldl_add_spec [CharZero K] {xs : List Expr} (hxs : ∀ x ∈ xs, Normal ρ x)
    {s : LinearSum} (hs : ∀ t ∈ s.terms, Normal ρ t.rest) :
    (∀ t ∈ (xs.foldl add s).terms, Normal ρ t.rest) ∧
      (xs.foldl add s).value ρ = s.value ρ + (xs.map (Expr.value ρ)).sum := by
  induction xs generalizing s with
  | nil => exact ⟨hs, by simp⟩
  | cons x xs ih =>
      rcases add_spec hs (hxs x List.mem_cons_self) with ⟨hstep, hvalue⟩
      rcases ih (fun y hy => hxs y (List.mem_cons_of_mem x hy)) hstep
        with ⟨hnormal, hsum⟩
      refine ⟨hnormal, ?_⟩
      rw [List.foldl_cons, hsum, hvalue, List.map_cons, List.sum_cons]
      ring

theorem sum_filter_ne_zero (ρ : Valuation K) (ts : List Term) :
    ((ts.filter (·.coefficient ≠ 0)).map (Term.value ρ)).sum =
      (ts.map (Term.value ρ)).sum := by
  induction ts with
  | nil => rfl
  | cons t ts ih =>
      rw [List.filter_cons]
      by_cases ht : t.coefficient = 0
      · rw [if_neg (by simp [ht]), ih]
        simp [ht, Term.value]
      · rw [if_pos (by simp [ht]), List.map_cons, List.sum_cons, ih]
        simp

theorem represents_toExpr [CharZero K] {s : LinearSum}
    (hs : ∀ t ∈ s.terms, Normal ρ t.rest) :
    Represents ρ (s.value ρ) s.toExpr := by
  rcases s with ⟨constant, terms⟩
  have hterms : ∀ x ∈ (terms.filter (·.coefficient ≠ 0)).map Term.toExpr,
      Normal ρ x := by
    intro x hx
    rcases List.mem_map.mp hx with ⟨t, ht, rfl⟩
    exact (Term.represents_toExpr (hs t (List.mem_of_mem_filter ht))).normal
  have hsum : (((terms.filter (·.coefficient ≠ 0)).map Term.toExpr).map
      (Expr.value ρ)).sum = (terms.map (Term.value ρ)).sum := by
    rw [← sum_filter_ne_zero, List.map_map]
    congr 1
    refine List.map_congr_left fun t ht => ?_
    exact (Term.represents_toExpr (hs t (List.mem_of_mem_filter ht))).value_eq
  have hconstant : ∀ x ∈ (if constant = 0 then [] else [Expr.rational constant]),
      Normal ρ x := by
    intro x hx
    split at hx
    · cases hx
    · rw [List.mem_singleton.mp hx]
      exact .rational constant
  have hvalue : ((if constant = 0 then [] else [Expr.rational constant]).map
      (Expr.value ρ)).sum = (constant : K) := by
    split
    · rename_i h
      simp [h]
    · simp
  have hsort := sort_perm ((terms.filter (·.coefficient ≠ 0)).map Term.toExpr ++
    (if constant = 0 then [] else [Expr.rational constant]))
  have hassemble := represents_assemble_addition (ρ := ρ) fun x hx =>
    (List.mem_append.mp (hsort.mem_iff.mp hx)).elim (hterms x) (hconstant x)
  refine ⟨hassemble.normal, hassemble.value_eq.trans ?_⟩
  rw [(hsort.map _).sum_eq, List.map_append, List.sum_append, hsum, hvalue,
    add_comm]
  rfl

end LinearSum

/-!
## Sums of scalars
-/

theorem infiniteSum?_eq_none {xs : List Expr} (h : ∀ x ∈ xs, Normal ρ x) :
    infiniteSum? xs = none := by
  have hnil : xs.filterMap Expr.infinity? = [] :=
    List.filterMap_eq_nil_iff.mpr fun x hx => (h x hx).infinity?_eq_none
  rw [infiniteSum?, hnil]

theorem represents_sumOfScalars [CharZero K] {xs : List Expr}
    (h : ∀ x ∈ xs, Normal ρ x) :
    Represents ρ (xs.map (value ρ)).sum (sumOfScalars xs) := by
  have hnil : ∀ t ∈ ({} : LinearSum).terms, Normal ρ t.rest := by
    intro t ht
    cases ht
  rcases LinearSum.foldl_add_spec h hnil with ⟨hnormal, hvalue⟩
  have hexpr := LinearSum.represents_toExpr hnormal
  rw [sumOfScalars, infiniteSum?_eq_none h]
  refine ⟨hexpr.normal, hexpr.value_eq.trans (hvalue.trans ?_)⟩
  simp [LinearSum.value]

/-- A sum of rational numbers is a rational number. -/
theorem sumOfScalars_rationals (qs : List Rat) :
    sumOfScalars (qs.map .rational) = .rational qs.sum := by
  have hfold : ∀ q : Rat, (qs.map Expr.rational).foldl LinearSum.add ⟨q, []⟩ =
      ⟨q + qs.sum, []⟩ := by
    induction qs with
    | nil => simp
    | cons p qs ih =>
        intro q
        rw [List.map_cons, List.foldl_cons, LinearSum.add, ih]
        simp [add_assoc]
  have hinfinite : infiniteSum? (qs.map Expr.rational) = none := by
    have hnil : (qs.map Expr.rational).filterMap Expr.infinity? = [] := by
      simp [Expr.infinity?]
    rw [infiniteSum?, hnil]
  rw [sumOfScalars, hinfinite]
  change LinearSum.toExpr ((qs.map Expr.rational).foldl LinearSum.add ⟨0, []⟩) = _
  rw [hfold, LinearSum.toExpr, zero_add]
  generalize qs.sum = total
  by_cases hzero : total = 0
  · simp [hzero, Expr.sort, Expr.insertionSort, assemble, Expr.integer]
  · simp [hzero, Expr.sort, Expr.insertionSort, Expr.insertBackwards, assemble]

end Reduction

end PocketAlgebra
