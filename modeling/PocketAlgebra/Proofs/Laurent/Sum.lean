import PocketAlgebra.Proofs.Field.Sum
import PocketAlgebra.Proofs.Laurent.NormalForm

/-!
# Sums of canonical expressions

The terms of canonical expressions are summands.  Collecting them keeps at most
one for each monomial, and sorting brings those into the order of their
monomials: so the sum is canonical, however its terms were arranged.
-/

namespace PocketAlgebra

namespace Laurent

open PocketAlgebra.Expr Reduction

/-!
## The terms of a canonical expression
-/

/-- The terms of a canonical expression are summands. -/
theorem Canonical.exists_summands {x : Expr} (h : Canonical x) :
    ∃ ss : List Summand, flatten .addition x = ss.map Summand.toExpr ∧
      ∀ s ∈ ss, Canonical s.toExpr := by
  rcases h with ⟨p, rfl⟩
  have hsingle : ∀ s : Summand, flatten .addition s.toExpr = [s.toExpr] := fun s =>
    flatten_of_ne s.kind_ne
  have hall : ∀ ss : List Summand,
      flattenAll .addition (ss.map Summand.toExpr) = ss.map Summand.toExpr := by
    intro ss
    induction ss with
    | nil => rfl
    | cons s ss ih =>
        rw [List.map_cons, flattenAll, hsingle, ih]
        rfl
  have hcanonical : ∀ s ∈ p.summands, Canonical s.toExpr := fun s hs =>
    .summand (p.coefficient_ne_zero s hs)
  rcases p.toExpr_cases with ⟨hp, -⟩ | ⟨s, hp, hsummands⟩ | ⟨hp, -⟩ <;> rw [hp]
  · exact ⟨[⟨0, .one⟩], rfl, List.forall_mem_singleton.mpr (.rational 0)⟩
  · exact ⟨[s], hsingle s, hsummands ▸ hcanonical⟩
  · exact ⟨p.summands, by rw [flatten, if_pos rfl, hall], hcanonical⟩

theorem exists_summands_flattenAll {xs : List Expr} (h : ∀ x ∈ xs, Canonical x) :
    ∃ ss : List Summand, flattenAll .addition xs = ss.map Summand.toExpr := by
  induction xs with
  | nil => exact ⟨[], rfl⟩
  | cons x xs ih =>
      rcases (h x List.mem_cons_self).exists_summands with ⟨ss, hss, -⟩
      rcases ih fun y hy => h y (List.mem_cons_of_mem x hy) with ⟨ts, hts⟩
      exact ⟨ss ++ ts, by rw [flattenAll, hss, hts, List.map_append]⟩

/-!
## Summands as terms
-/

namespace Summand

/-- The monomial of a summand, as an expression. -/
def rest (s : Summand) : Expr :=
  toExpr ⟨1, s.monomial⟩

def toTerm (s : Summand) : Term :=
  ⟨s.coefficient, s.rest⟩

theorem rest_eq (s : Summand) :
    s.rest = assemble .multiplication 1 (s.monomial.factors.map Factor.toExpr) := by
  rw [rest, toExpr, operands, coefficientOperands, if_pos rfl, List.nil_append]

theorem rest_injective {s t : Summand} (h : s.rest = t.rest) : s.monomial = t.monomial := by
  have hvalue : ∀ s : Summand, s.rest.value generic = term 1 s.monomial.exponents := fun s =>
    (represents ⟨1, s.monomial⟩).value_eq
  have hterm := hvalue s
  rw [h, hvalue t] at hterm
  rcases AddMonoidAlgebra.single_inj.mp (algebraMap_injective hterm) with ⟨hexponents, -⟩ | ⟨h, -⟩
  · exact (Monomial.exponents_injective hexponents).symm
  · exact absurd (Rat.cast_eq_zero.mp h) one_ne_zero

theorem same_rest_iff (s t : Summand) : s.rest.same t.rest = true ↔ s.monomial = t.monomial := by
  constructor
  · intro h
    exact rest_injective ((represents ⟨1, s.monomial⟩).normal.eq_of_same _ h)
  · intro h
    rw [rest, rest, h]
    exact same_self _

theorem ofExpr_factor (f : Factor) : Term.ofExpr f.toExpr = ⟨1, f.toExpr⟩ := by
  rcases f.toExpr_cases with ⟨c, h⟩ | ⟨name, h⟩ | ⟨x, n, h⟩ <;> rw [h] <;> rfl

theorem ofExpr_product (f : Factor) (xs : List Expr) :
    Term.ofExpr (.apply .multiplication (f.toExpr :: xs)) =
      ⟨1, .apply .multiplication (f.toExpr :: xs)⟩ := by
  rcases f.toExpr_cases with ⟨c, h⟩ | ⟨name, h⟩ | ⟨x, n, h⟩ <;> rw [h] <;> rfl

theorem ofExpr_toExpr {s : Summand} (h : s.monomial.factors ≠ []) :
    Term.ofExpr s.toExpr = s.toTerm := by
  by_cases hone : s.coefficient = 1
  · have hrest : s.rest = s.toExpr := by rw [rest, ← hone]
    rw [toTerm, hrest, hone, ← hrest, rest_eq]
    rcases hfactors : s.monomial.factors with _ | ⟨f, _ | ⟨g, fs⟩⟩
    · exact absurd hfactors h
    · exact ofExpr_factor f
    · exact ofExpr_product f _
  · have hlength : 2 ≤ s.operands.length := by
      have hpos := List.length_pos_iff.mpr h
      simp only [operands, coefficientOperands, if_neg hone, List.length_append, List.length_map,
        List.length_singleton]
      omega
    rw [toTerm, rest_eq, toExpr, assemble_of_length _ _ hlength, operands, coefficientOperands,
      if_neg hone]
    rfl

theorem toExpr_toTerm {s : Summand} (h : s.monomial.factors ≠ []) :
    s.toTerm.toExpr = s.toExpr := by
  rw [toTerm, Term.toExpr]
  by_cases hone : s.coefficient = 1
  · rw [if_pos hone, rest, ← hone]
  · rw [if_neg hone, rest_eq, toExpr, operands, coefficientOperands, if_neg hone]
    rcases hfactors : s.monomial.factors with _ | ⟨f, _ | ⟨g, fs⟩⟩
    · exact absurd hfactors h
    · rw [List.map_singleton, assemble]
      rcases f.toExpr_cases with ⟨c, h⟩ | ⟨name, h⟩ | ⟨x, n, h⟩ <;> rw [h] <;> rfl
    · rfl

theorem rational?_eq_none {s : Summand} (h : s.monomial.factors ≠ []) :
    s.toExpr.rational? = none := by
  have hnumber := (ordinary h).number?_eq
  cases hs : s.toExpr with
  | rational q =>
      rw [hs] at hnumber
      cases hnumber
  | _ => rfl

end Summand

/-!
## Collecting
-/

/-- Terms that have been collected from summands. -/
structure Collected (l : LinearSum) (ts : List Summand) : Prop where
  terms_eq : l.terms = ts.map Summand.toTerm
  different : ts.Pairwise (·.monomial ≠ ·.monomial)
  factors_ne_nil : ∀ t ∈ ts, t.monomial.factors ≠ []

theorem exists_insert_eq (s : Summand) {ts : List Summand}
    (hts : ts.Pairwise (·.monomial ≠ ·.monomial)) :
    ∃ rs : List Summand, s.toTerm.insert (ts.map Summand.toTerm) = rs.map Summand.toTerm ∧
      rs.Pairwise (·.monomial ≠ ·.monomial) ∧
        ∀ r ∈ rs, r.monomial = s.monomial ∨ ∃ t ∈ ts, r.monomial = t.monomial := by
  induction ts with
  | nil => exact ⟨[s], rfl, List.pairwise_singleton _ s, by simp⟩
  | cons t ts ih =>
      rcases List.pairwise_cons.mp hts with ⟨ht, htail⟩
      rw [List.map_cons, Term.insert]
      split
      · refine ⟨⟨t.coefficient + s.coefficient, t.monomial⟩ :: ts, rfl,
          List.pairwise_cons.mpr ⟨ht, htail⟩, fun r hr => .inr ?_⟩
        rcases List.mem_cons.mp hr with rfl | hr
        · exact ⟨t, List.mem_cons_self, rfl⟩
        · exact ⟨r, List.mem_cons_of_mem t hr, rfl⟩
      · rename_i hsame
        rcases ih htail with ⟨rs, hrs, hdifferent, horigin⟩
        refine ⟨t :: rs, by rw [hrs, List.map_cons], List.pairwise_cons.mpr ⟨?_, hdifferent⟩, ?_⟩
        · intro r hr heq
          rcases horigin r hr with h | ⟨u, hu, h⟩
          · exact hsame ((t.same_rest_iff s).mpr (heq.trans h))
          · exact ht u hu (heq.trans h)
        · intro r hr
          rcases List.mem_cons.mp hr with rfl | hr
          · exact .inr ⟨r, List.mem_cons_self, rfl⟩
          · rcases horigin r hr with h | ⟨u, hu, h⟩
            · exact .inl h
            · exact .inr ⟨u, List.mem_cons_of_mem t hu, h⟩

theorem add_of_rational?_eq_none {l : LinearSum} {x : Expr} (h : x.rational? = none) :
    l.add x = { l with terms := (Term.ofExpr x).insert l.terms } := by
  cases x with
  | rational q => cases h
  | _ => rfl

theorem Collected.add {l : LinearSum} {ts : List Summand} (h : Collected l ts) (s : Summand) :
    ∃ rs, Collected (l.add s.toExpr) rs := by
  by_cases hs : s.monomial.factors = []
  · rw [Summand.toExpr_of_factors_nil hs]
    exact ⟨ts, h.terms_eq, h.different, h.factors_ne_nil⟩
  · rw [add_of_rational?_eq_none (Summand.rational?_eq_none hs),
      Summand.ofExpr_toExpr hs, h.terms_eq]
    rcases exists_insert_eq s h.different with ⟨rs, hrs, hdifferent, horigin⟩
    refine ⟨rs, hrs, hdifferent, fun r hr => ?_⟩
    rcases horigin r hr with heq | ⟨t, ht, heq⟩ <;> rw [heq]
    · exact hs
    · exact h.factors_ne_nil t ht

theorem Collected.foldl {l : LinearSum} {ts : List Summand} (h : Collected l ts)
    (ss : List Summand) : ∃ rs, Collected ((ss.map Summand.toExpr).foldl LinearSum.add l) rs := by
  induction ss generalizing l ts with
  | nil => exact ⟨ts, h⟩
  | cons s ss ih =>
      rcases h.add s with ⟨rs, hrs⟩
      exact ih hrs

/-!
## Sorting
-/

/-- Summands with different monomials are sorted into a normal form. -/
theorem canonical_assemble_sort {ss : List Summand} (hne : ∀ s ∈ ss, s.coefficient ≠ 0)
    (hdifferent : ss.Pairwise (·.monomial ≠ ·.monomial)) :
    Canonical (assemble .addition 0 (Expr.sort (ss.map Summand.toExpr))) := by
  have hcompare : ComparesBy (fun s t => order (Summand.toExpr s) t.toExpr) Summand.monomial ss :=
    fun s _ t _ h => Summand.order_compares h
  have hsorted := insertionSort_pairwise hcompare hdifferent
  have hperm := insertionSort_perm (fun s t => order (Summand.toExpr s) t.toExpr) ss
  rw [Expr.sort, insertionSort_map]
  exact ⟨⟨_, hsorted, fun s hs => hne s (hperm.mem_iff.mp hs)⟩, rfl⟩

theorem Collected.canonical {l : LinearSum} {ts : List Summand} (h : Collected l ts) :
    Canonical l.toExpr := by
  -- the constant takes part as a multiple of the monomial without factors
  let constants : List Summand := if l.constant = 0 then [] else [⟨l.constant, .one⟩]
  let kept := ts.filter (·.coefficient ≠ 0)
  have hkept : ∀ t ∈ kept, t ∈ ts ∧ t.coefficient ≠ 0 := by simp [kept]
  have hconstants : ∀ s ∈ constants, s.monomial = .one ∧ s.coefficient ≠ 0 := by
    intro s hs
    simp only [constants] at hs
    split at hs
    · cases hs
    · rw [List.mem_singleton.mp hs]
      exact ⟨rfl, ‹_›⟩
  have hterms : (l.terms.filter (·.coefficient ≠ 0)).map Term.toExpr =
      kept.map Summand.toExpr := by
    rw [h.terms_eq, List.filter_map, List.map_map]
    refine List.map_congr_left fun t ht => ?_
    exact Summand.toExpr_toTerm (h.factors_ne_nil t (hkept t ht).1)
  have hconstant : (if l.constant = 0 then [] else [Expr.rational l.constant]) =
      constants.map Summand.toExpr := by
    simp only [constants]
    split
    · rfl
    · rw [List.map_singleton, Summand.toExpr_of_factors_nil rfl]
  rw [LinearSum.toExpr, hterms, hconstant, ← List.map_append]
  refine canonical_assemble_sort (fun s hs => ?_) (List.pairwise_append.mpr ⟨?_, ?_, ?_⟩)
  · rcases List.mem_append.mp hs with hs | hs
    · exact (hkept s hs).2
    · exact (hconstants s hs).2
  · exact h.different.filter _
  · simp only [constants]
    split
    · exact .nil
    · exact List.pairwise_singleton _ _
  · intro t ht s hs heq
    rw [(hconstants s hs).1] at heq
    exact h.factors_ne_nil t (hkept t ht).1 (by rw [heq]; rfl)

theorem canonical_sumOfScalars (ss : List Summand) :
    Canonical (sumOfScalars (ss.map Summand.toExpr)) := by
  have hnormal : ∀ x ∈ ss.map Summand.toExpr, Normal generic x := by
    intro x hx
    rcases List.mem_map.mp hx with ⟨s, _, rfl⟩
    exact s.represents.normal
  have hnil : Collected {} [] := ⟨rfl, .nil, List.forall_mem_nil _⟩
  rcases hnil.foldl ss with ⟨ts, hts⟩
  rw [sumOfScalars, infiniteSum?_eq_none hnormal]
  exact hts.canonical

end Laurent

end PocketAlgebra
