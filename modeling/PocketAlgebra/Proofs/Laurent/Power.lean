import PocketAlgebra.Proofs.Field.Power
import PocketAlgebra.Proofs.Laurent.Product

/-!
# Powers of canonical expressions

A power of a summand is raised factor by factor, and a power of a sum is
multiplied out.  Whether the result is canonical depends on the value of the
base only, as told by `Raisable`.
-/

namespace PocketAlgebra

namespace Laurent

open PocketAlgebra.Expr Reduction

variable {node : NodeReducer}

/-!
## Powers of sums
-/

theorem multiplyOut_forms (hnode : KeepsForms node) {left : Expr} {right : List Expr}
    (hleft : Canonical left) (hright : ∀ x ∈ right, Canonical x ∧ isSum x = false) :
    Yields (multiplyOut node left right) Canonical := by
  rcases hleft.exists_summands with ⟨ss, hss, hcanonical⟩
  have hrows : Yields (ss.map Summand.toExpr |>.mapM fun x => right.mapM fun y =>
      multiply node [x, y]) (fun rows => ∀ row ∈ rows, ∀ r ∈ row, Canonical r) := by
    refine Yields.mapM_forall fun x hx => Yields.mapM_forall fun y hy => ?_
    rcases List.mem_map.mp hx with ⟨s, hs, rfl⟩
    have hsum : isSum s.toExpr = false := beq_eq_false_iff_ne.mpr s.kind_ne
    refine hnode.product (forall_mem_pair (hcanonical s hs) (hright y hy).1) ?_
    simp [hsum, (hright y hy).2]
  rw [multiplyOut, hss]
  refine hrows.bind fun rows hrows => hnode.sum fun x hx => ?_
  rcases List.mem_flatten.mp hx with ⟨row, hrow, hx⟩
  exact hrows row hrow x hx

theorem expandPower_forms (hnode : KeepsForms node) {terms : List Expr}
    (hterms : ∀ x ∈ terms, Canonical x ∧ isSum x = false) (times : ℕ) {x : Expr}
    (hx : Canonical x) : Yields (expandPower node terms times x) Canonical := by
  induction times generalizing x with
  | zero => exact Yields.pure hx
  | succ times ih =>
      rw [expandPower]
      exact (multiplyOut_forms hnode hx hterms).bind fun y hy => ih hy

/-- A small power of a sum is multiplied out. -/
theorem properPower_sum (ctx : Context) (hnode : KeepsForms node) {p : NormalForm}
    (hp : 2 ≤ p.summands.length) {n : Int} (hn : 2 ≤ n) (hmax : n ≤ maxExpandedExponent) :
    Yields (properPower ctx node p.toExpr (.integer n)) Canonical := by
  have hsum : p.toExpr = .apply .addition (p.summands.map Summand.toExpr) :=
    NormalForm.toExpr_of_length hp
  have hterms : ∀ x ∈ p.summands.map Summand.toExpr, Canonical x ∧ isSum x = false := by
    have hpart : IsPart p.toExpr := .sum hp
    rw [hsum] at hpart
    exact hpart.terms
  have hexponent : (2 ≤ n && n ≤ maxExpandedExponent) = true := by
    rw [Bool.and_eq_true, decide_eq_true_eq, decide_eq_true_eq]
    exact ⟨hn, hmax⟩
  have hexpand := expandPower_forms hnode hterms (n.toNat - 1) ⟨p, hsum.symm⟩
  rw [hsum, properPower, symbolicPower, nestedPower?, integer?_integer]
  · simp only [Option.bind_some, compoundPower?, hexponent, if_true]
    exact hexpand
  all_goals simp

/-!
## Powers of summands
-/

theorem properPower_number (ctx : Context) (node : NodeReducer) {c : Rat} {n : Int}
    (h : (wholePower? c n).isSome = true) :
    Yields (properPower ctx node (.rational c) (.integer n)) Canonical := by
  have hint : ((n : Rat)).isInt = true := by simp [Rat.isInt]
  rcases Option.isSome_iff_exists.mp h with ⟨q, hq⟩
  rw [Expr.integer, properPower, rationalPower, if_pos hint, Rat.num_intCast, hq]
  exact Yields.pure (.rational q)

theorem properPower_factor (ctx : Context) (hnode : KeepsForms node) (f : Factor) {n : Int}
    (hn : n ≠ 0) (hn1 : n ≠ 1) :
    Yields (properPower ctx node f.toExpr (.integer n)) Canonical := by
  rw [Factor.toExpr]
  by_cases hone : f.exponent = 1
  · have hkept : Canonical (rawPower f.base.toExpr (.integer n)) := by
      have hfactor := Canonical.factor (f := ⟨f.base, n⟩) hn
      rwa [Factor.toExpr, if_neg hn1] at hfactor
    rw [if_pos hone]
    cases hbase : f.base <;> rw [hbase] at hkept <;>
      rw [Indeterminate.toExpr, properPower, symbolicPower, integer?_integer] <;>
        first | exact Yields.pure hkept | simp
  · rw [if_neg hone, properPower, symbolicPower, nestedPower?, integer?_integer]
    · simp only [Option.isSome_some, Bool.true_or, if_true]
      refine (hnode.keepsValues.integerProduct [f.exponent, n]).bind fun p hp => ?_
      rw [hp]
      exact hnode.power (canonical_indeterminate _) (raisable_indeterminate _ _)
    all_goals simp

theorem Summand.value_operands {s : Summand} (hs : s.coefficient ≠ 0) : ∀ y ∈ s.operands,
    ∃ c e, y.value generic = term c e ∧ c ≠ 0 ∧ (c = 1 ∨ c = s.coefficient) := by
  intro y hy
  rcases List.mem_append.mp hy with hy | hy
  · rw [List.mem_singleton.mp (s.coefficientOperands_subset hy)]
    exact ⟨_, 0, ratCast_eq_term _, hs, .inr rfl⟩
  · rcases List.mem_map.mp hy with ⟨f, _, rfl⟩
    exact ⟨1, _, f.represents.value_eq, one_ne_zero, .inl rfl⟩

/-- A power of a product is the product of the powers of its factors. -/
theorem properPower_product (ctx : Context) (hnode : KeepsForms node) {s : Summand}
    (hs : s.toExpr = .apply .multiplication s.operands) (hs0 : s.coefficient ≠ 0) {n : Int}
    (h : s.coefficient = 1 ∨ (wholePower? s.coefficient n).isSome = true) :
    Yields (properPower ctx node s.toExpr (.integer n)) Canonical := by
  have hpowers : Yields (s.operands.mapM fun y => power node y (.integer n))
      (fun powers => ∀ r ∈ powers, Canonical r ∧ isSum r = false) := by
    refine Yields.mapM_forall fun y hy => ?_
    have hcanonical := (s.isPart_operands y hy).1.canonical
    rcases Summand.value_operands hs0 y hy with ⟨c, e, hvalue, hc, hcases⟩
    have hraisable : Raisable (y.value generic) n := by
      refine .term hvalue hc (hcases.elim .inl fun heq => ?_)
      rw [heq]
      exact h
    refine (hnode.power_value hcanonical hraisable).mono fun r hresult => ?_
    rcases hresult with ⟨hr, hpower⟩
    refine ⟨hr, ?_⟩
    -- a power of a term is a term, so none of the factors to multiply is a sum
    rw [isSum, beq_eq_false_iff_ne, ← hr.isTerm_value_iff, hpower, hvalue]
    exact ⟨_, _, term_zpow c e n⟩
  rw [hs, properPower, symbolicPower, nestedPower?, integer?_integer]
  · simp only [Option.bind_some, compoundPower?, flattenAll_operands]
    refine hpowers.bind fun powers hpowers => hnode.product (fun x hx => (hpowers x hx).1) ?_
    rw [List.countP_eq_zero.mpr fun x hx => by simp [(hpowers x hx).2]]
    exact Nat.zero_le _
  all_goals simp

/-!
## All powers
-/

theorem properPower_forms (ctx : Context) (hnode : KeepsForms node) {x : Expr} {n : Int}
    (hx : Canonical x) (hraisable : Raisable (x.value generic) n) (hn : n ≠ 0) (hn1 : n ≠ 1)
    (hx0 : x ≠ .rational 0) (hx1 : x ≠ .rational 1) :
    Yields (properPower ctx node x (.integer n)) Canonical := by
  cases hraisable with
  | zero hv _ =>
      exact absurd (hx.eq_of_value_eq (.rational 0) (by simp [hv])) hx0
  | sum hv hn0 hmax =>
      have hkind := not_not.mp (hx.isTerm_value_iff.not.mp hv)
      rcases hx.exists_of_kind_eq hkind with ⟨p, hp, rfl⟩
      exact properPower_sum ctx hnode hp (by omega) hmax
  | term hv hc hpower =>
      rcases hx with ⟨p, rfl⟩
      rw [p.represents.value_eq] at hv
      rcases NormalForm.eq_single_of_value hc hv with ⟨s, hsummands, rfl, -⟩
      have hs : p.toExpr = s.toExpr := by
        rw [NormalForm.toExpr, hsummands]
        rfl
      rw [hs] at hx0 hx1 ⊢
      rcases s.toExpr_cases with ⟨h, -⟩ | ⟨f, h, -⟩ | ⟨h, -⟩
      · rw [h] at hx1 ⊢
        refine properPower_number ctx node (hpower.resolve_left fun hone => hx1 ?_)
        rw [hone]
      · rw [h]
        exact properPower_factor ctx hnode f hn hn1
      · exact properPower_product ctx hnode h hc hpower

/-- A power that reduction computes is canonical. -/
theorem powerOfScalars_forms (ctx : Context) (hnode : KeepsForms node) {x : Expr} {n : Int}
    (hx : Canonical x) (hraisable : Raisable (x.value generic) n) :
    Yields (powerOfScalars ctx node x (.integer n)) Canonical := by
  have hzero : x.isRational 0 = true → 0 < n := by
    intro hx0
    have hvalue : x.value generic = 0 := by simp [isRational_iff.mp hx0]
    cases hraisable with
    | zero _ hn => exact hn
    | term hv hc _ => exact absurd (hv.symm.trans hvalue) (term_ne_zero hc _)
    | sum hv _ _ => exact absurd ⟨0, 0, by rw [hvalue, term_zero]⟩ hv
  have hexponent : ∀ m : Int, (integer n).isRational m = true ↔ n = m := by
    intro m
    rw [isRational_iff, Expr.integer, Expr.rational.injEq, Rat.intCast_inj]
  rw [powerOfScalars]
  split
  · rename_i hn
    have hx0 : x.isRational 0 = false := by
      rw [Bool.eq_false_iff]
      intro hx0
      rw [(hexponent 0).mp hn] at hzero
      exact lt_irrefl 0 (hzero hx0)
    rw [hx0, hx.normal.kind_beq_infinity]
    exact Yields.pure (.rational _)
  · rename_i hn
    split
    · exact Yields.pure hx
    · rename_i hn1
      split
      · rename_i hx0
        have hpos := hzero hx0
        have hsign : (integer n).sign = .positive := by
          simp [Expr.integer, sign, Sign.ofRat, Sign.ofInt, hpos.ne', hpos.not_gt]
        rw [hsign]
        exact Yields.pure (.rational _)
      · rename_i hx0
        split
        · exact Yields.pure (.rational _)
        · rename_i hx1
          refine properPower_forms ctx hnode hx hraisable (fun h => hn ((hexponent 0).mpr h))
            (fun h => hn1 ((hexponent 1).mpr h)) (fun h => hx0 (isRational_iff.mpr h))
            fun h => hx1 ?_
          rw [h]
          rfl

end Laurent

end PocketAlgebra
