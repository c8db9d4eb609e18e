import PocketAlgebra.Proofs.Field.Product
import PocketAlgebra.Proofs.Laurent.Sum

/-!
# Products of canonical expressions

The factors of canonical expressions are numbers, powers of indeterminates and
sums.  Merging keeps at most one power of each indeterminate, and a merged power
of a sum is a sum again, by its value.  As long as there is a sum, the product
is multiplied out over it, into products with fewer sums.
-/

namespace PocketAlgebra

namespace Laurent

open PocketAlgebra.Expr Reduction

/-!
## The factors of a canonical expression
-/

/-- What the factors of canonical expressions are. -/
inductive IsPart : Expr → Prop
  | number (q : Rat) : IsPart (.rational q)
  | factor {f : Factor} (h : f.exponent ≠ 0) : IsPart f.toExpr
  | sum {p : NormalForm} (h : 2 ≤ p.summands.length) : IsPart p.toExpr

theorem IsPart.canonical {x : Expr} (h : IsPart x) : Canonical x := by
  cases h with
  | number q => exact .rational q
  | factor h => exact .factor h
  | sum h => exact ⟨_, rfl⟩

theorem isSum_factor (f : Factor) : isSum f.toExpr = false :=
  beq_eq_false_iff_ne.mpr f.kind_ne.1

theorem isSum_toExpr {p : NormalForm} (h : 2 ≤ p.summands.length) : isSum p.toExpr = true := by
  rw [NormalForm.toExpr_of_length h]
  rfl

theorem Summand.isPart_operands (s : Summand) : ∀ y ∈ s.operands, IsPart y ∧ isSum y = false := by
  intro y hy
  rcases List.mem_append.mp hy with hy | hy
  · rw [List.mem_singleton.mp (s.coefficientOperands_subset hy)]
    exact ⟨.number _, rfl⟩
  · rcases List.mem_map.mp hy with ⟨f, hf, rfl⟩
    exact ⟨.factor (s.monomial.exponent_ne_zero f hf), isSum_factor f⟩

/-- The factors of a summand are not products themselves. -/
theorem flattenAll_operands (s : Summand) :
    flattenAll .multiplication s.operands = s.operands := by
  have hparts := s.isPart_operands
  generalize s.operands = ys at hparts ⊢
  induction ys with
  | nil => rfl
  | cons y ys ih =>
      have hy : flatten .multiplication y = [y] := by
        rcases hparts y List.mem_cons_self with ⟨hpart, hsum⟩
        cases hpart with
        | number q => simp [flatten]
        | factor _ => exact flatten_of_ne (Factor.kind_ne _).2
        | sum h =>
            rw [isSum_toExpr h] at hsum
            cases hsum
      rw [flattenAll, hy, ih fun z hz => hparts z (List.mem_cons_of_mem y hz)]
      rfl

theorem Summand.flatten_multiplication (s : Summand) :
    ∀ y ∈ flatten .multiplication s.toExpr, IsPart y ∧ isSum y = false := by
  rcases s.toExpr_cases with ⟨h, -⟩ | ⟨f, h, -, hf⟩ | ⟨h, -⟩ <;> rw [h]
  · rw [flatten_of_ne (by simp [kind, Operator.kind])]
    exact List.forall_mem_singleton.mpr ⟨.number _, rfl⟩
  · rw [flatten_of_ne f.kind_ne.2]
    have hexponent := s.monomial.exponent_ne_zero f (by simp [hf])
    exact List.forall_mem_singleton.mpr ⟨.factor hexponent, isSum_factor f⟩
  · rw [flatten, if_pos rfl, flattenAll_operands]
    exact s.isPart_operands

theorem Canonical.flatten_multiplication {x : Expr} (h : Canonical x) :
    (∀ y ∈ flatten .multiplication x, IsPart y) ∧
      (flatten .multiplication x).countP isSum = [x].countP isSum := by
  by_cases hx : x.kind = .addition
  · rw [flatten_of_ne (by rw [hx]; decide)]
    rcases h.exists_of_kind_eq hx with ⟨p, hp, rfl⟩
    exact ⟨List.forall_mem_singleton.mpr (.sum hp), rfl⟩
  · have hsummand : ∃ s : Summand, x = s.toExpr := by
      rcases h with ⟨p, rfl⟩
      rcases p.toExpr_cases with ⟨hp, -⟩ | ⟨s, hp, -⟩ | ⟨hp, -⟩ <;> rw [hp] at hx ⊢
      · exact ⟨⟨0, .one⟩, rfl⟩
      · exact ⟨s, rfl⟩
      · exact absurd rfl hx
    rcases hsummand with ⟨s, rfl⟩
    have hparts := s.flatten_multiplication
    refine ⟨fun y hy => (hparts y hy).1, ?_⟩
    have hself : isSum s.toExpr = false := beq_eq_false_iff_ne.mpr hx
    rw [List.countP_eq_zero.mpr fun y hy => by simp [(hparts y hy).2],
      List.countP_eq_zero.mpr fun y hy => by simp [List.mem_singleton.mp hy, hself]]

theorem flattenAll_multiplication {xs : List Expr} (h : ∀ x ∈ xs, Canonical x) :
    (∀ y ∈ flattenAll .multiplication xs, IsPart y) ∧
      (flattenAll .multiplication xs).countP isSum = xs.countP isSum := by
  induction xs with
  | nil => exact ⟨List.forall_mem_nil _, rfl⟩
  | cons x xs ih =>
      have hx := (h x List.mem_cons_self).flatten_multiplication
      have hxs := ih fun y hy => h y (List.mem_cons_of_mem x hy)
      rw [flattenAll]
      refine ⟨fun y hy => (List.mem_append.mp hy).elim (hx.1 y) (hxs.1 y), ?_⟩
      rw [List.countP_append, hx.2, hxs.2, ← List.countP_append, List.singleton_append]

/-!
## Groups
-/

/-- The powers that are collected: powers of indeterminates, and sums. -/
inductive IsPower (base exponent : Expr) : Prop
  | name (i : Indeterminate) (n : Int) (hbase : base = i.toExpr) (hexponent : exponent = .integer n)
      (hn : n ≠ 0)
  | sum (p : NormalForm) (hp : 2 ≤ p.summands.length) (hbase : base = p.toExpr)
      (hexponent : exponent = .integer 1)

theorem isSum_indeterminate (i : Indeterminate) : isSum i.toExpr = false := by
  cases i <;> rfl

structure IsGroup (g : PowerGroup) : Prop where
  exponents_ne_nil : g.exponents ≠ []
  isPower : ∀ x ∈ g.exponents, IsPower g.base x

/-- The number of sums that a group stems from. -/
def sumsOf (g : PowerGroup) : ℕ :=
  if isSum g.base then g.exponents.length else 0

/-- The groups of a product: their bases are different. -/
structure AreGroups (gs : List PowerGroup) (sums : ℕ) : Prop where
  isGroup : ∀ g ∈ gs, IsGroup g
  different : gs.Pairwise (·.base ≠ ·.base)
  sums_eq : (gs.map sumsOf).sum = sums

theorem IsPower.normal {base exponent : Expr} (h : IsPower base exponent) :
    Normal generic base := by
  cases h with
  | name i n hbase =>
      rw [hbase]
      exact (Factor.represents ⟨i, 1⟩).normal
  | sum p _ hbase =>
      rw [hbase]
      exact p.represents.normal

theorem IsGroup.normal {g : PowerGroup} (hg : IsGroup g) : Normal generic g.base := by
  rcases List.exists_mem_of_ne_nil _ hg.exponents_ne_nil with ⟨x, hx⟩
  exact (hg.isPower x hx).normal

theorem base_of_mem_insert (base exponent : Expr) (gs : List PowerGroup) :
    ∀ r ∈ PowerGroup.insert base exponent gs, r.base = base ∨ ∃ g ∈ gs, r.base = g.base := by
  induction gs with
  | nil => exact List.forall_mem_singleton.mpr (.inl rfl)
  | cons g gs ih =>
      rw [PowerGroup.insert]
      split
      · refine List.forall_mem_cons.mpr ⟨.inr ⟨g, List.mem_cons_self, rfl⟩, fun r hr => ?_⟩
        exact .inr ⟨r, List.mem_cons_of_mem g hr, rfl⟩
      · refine List.forall_mem_cons.mpr ⟨.inr ⟨g, List.mem_cons_self, rfl⟩, fun r hr => ?_⟩
        rcases ih r hr with h | ⟨s, hs, h⟩
        · exact .inl h
        · exact .inr ⟨s, List.mem_cons_of_mem g hs, h⟩

theorem different_insert (base exponent : Expr) {gs : List PowerGroup}
    (h : gs.Pairwise (·.base ≠ ·.base)) :
    (PowerGroup.insert base exponent gs).Pairwise (·.base ≠ ·.base) := by
  induction gs with
  | nil => exact List.pairwise_singleton _ _
  | cons g gs ih =>
      rcases List.pairwise_cons.mp h with ⟨hhead, htail⟩
      rw [PowerGroup.insert]
      split
      · exact List.pairwise_cons.mpr ⟨hhead, htail⟩
      · rename_i hsame
        refine List.pairwise_cons.mpr ⟨fun r hr heq => ?_, ih htail⟩
        rcases base_of_mem_insert base exponent gs r hr with h | ⟨s, hs, h⟩
        · refine hsame ?_
          rw [heq, h]
          exact same_self base
        · exact hhead s hs (heq.trans h)

theorem isGroup_insert {base exponent : Expr} (hnew : IsPower base exponent)
    {gs : List PowerGroup} (h : ∀ g ∈ gs, IsGroup g) :
    ∀ r ∈ PowerGroup.insert base exponent gs, IsGroup r := by
  induction gs with
  | nil =>
      exact List.forall_mem_singleton.mpr ⟨by simp, List.forall_mem_singleton.mpr hnew⟩
  | cons g gs ih =>
      have hg := h g List.mem_cons_self
      have htail := fun r hr => h r (List.mem_cons_of_mem g hr)
      rw [PowerGroup.insert]
      split
      · rename_i hsame
        refine List.forall_mem_cons.mpr ⟨⟨by simp, fun x hx => ?_⟩, htail⟩
        rcases List.mem_append.mp hx with hx | hx
        · exact hg.isPower x hx
        · rw [List.mem_singleton.mp hx]
          exact hg.normal.eq_of_same base hsame ▸ hnew
      · exact List.forall_mem_cons.mpr ⟨hg, ih htail⟩

theorem sumsOf_insert (base exponent : Expr) {gs : List PowerGroup} (h : ∀ g ∈ gs, IsGroup g) :
    ((PowerGroup.insert base exponent gs).map sumsOf).sum =
      (gs.map sumsOf).sum + [base].countP isSum := by
  have hsingle : sumsOf ⟨base, [exponent]⟩ = [base].countP isSum := by
    rw [sumsOf, List.countP_singleton]
    rfl
  induction gs with
  | nil => simp [PowerGroup.insert, hsingle]
  | cons g gs ih =>
      have htail := ih fun r hr => h r (List.mem_cons_of_mem g hr)
      rw [PowerGroup.insert]
      split
      · rename_i hsame
        have heq := (h g List.mem_cons_self).normal.eq_of_same base hsame
        have hmore : sumsOf ⟨g.base, g.exponents ++ [exponent]⟩ =
            sumsOf g + [base].countP isSum := by
          rw [← hsingle, sumsOf, sumsOf, sumsOf, heq, List.length_append]
          split <;> rfl
        rw [List.map_cons, List.sum_cons, hmore, List.map_cons, List.sum_cons]
        omega
      · rw [List.map_cons, List.sum_cons, htail, List.map_cons, List.sum_cons]
        omega

theorem AreGroups.insert {gs : List PowerGroup} {sums : ℕ} (h : AreGroups gs sums)
    {base exponent : Expr} (hnew : IsPower base exponent) :
    AreGroups (PowerGroup.insert base exponent gs) (sums + [base].countP isSum) where
  isGroup := isGroup_insert hnew h.isGroup
  different := different_insert base exponent h.different
  sums_eq := by rw [sumsOf_insert base exponent h.isGroup, h.sums_eq]

/-- The parts of a product are collected into groups. -/
theorem multiply?_groups {p : PowerProduct} {sums : ℕ} (hp : AreGroups p.groups sums) {x : Expr}
    (hx : IsPart x) :
    ∃ r, p.multiply? x = some r ∧ AreGroups r.groups (sums + [x].countP isSum) := by
  cases hx with
  | number q => exact ⟨_, rfl, hp⟩
  | factor h =>
      rename_i f
      have hinsert := hp.insert (.name f.base f.exponent rfl rfl h)
      rw [List.countP_singleton, isSum_indeterminate] at hinsert
      rw [List.countP_singleton, isSum_factor, Factor.toExpr]
      split
      · rename_i hone
        rw [hone] at hinsert
        cases hbase : f.base <;> rw [hbase] at hinsert <;> exact ⟨_, rfl, hinsert⟩
      · exact ⟨_, rfl, hinsert⟩
  | sum h =>
      rename_i q
      have hinsert := hp.insert (.sum q h rfl rfl)
      have hmultiply : p.multiply? q.toExpr =
          some { p with groups := PowerGroup.insert q.toExpr (.integer 1) p.groups } := by
        rw [NormalForm.toExpr_of_length h]
        rfl
      exact ⟨_, hmultiply, hinsert⟩

theorem foldlM_multiply?_groups {xs : List Expr} (hxs : ∀ x ∈ xs, IsPart x) {p : PowerProduct}
    {sums : ℕ} (hp : AreGroups p.groups sums) :
    ∃ r, xs.foldlM PowerProduct.multiply? p = some r ∧
      AreGroups r.groups (sums + xs.countP isSum) := by
  induction xs generalizing p sums with
  | nil => exact ⟨p, rfl, hp⟩
  | cons x xs ih =>
      rcases multiply?_groups hp (hxs x List.mem_cons_self) with ⟨q, hq, hgroups⟩
      rcases ih (fun y hy => hxs y (List.mem_cons_of_mem x hy)) hgroups with ⟨r, hr, hgroups⟩
      refine ⟨r, ?_, ?_⟩
      · rw [List.foldlM_cons, hq]
        exact hr
      · rwa [Nat.add_assoc, ← List.countP_append, List.singleton_append] at hgroups

/-!
## Merging
-/

variable {node : NodeReducer}

/-- What becomes of a group: a sum of a group of sums, and otherwise a power of the base or a
number. -/
inductive Merged (base x : Expr) : Prop
  | number (i : Indeterminate) (q : Rat) (hbase : base = i.toExpr) (hx : x = .rational q)
  | factor (f : Factor) (hf : f.exponent ≠ 0) (hbase : base = f.base.toExpr) (hx : x = f.toExpr)
  | sum (p : NormalForm) (hp : 2 ≤ p.summands.length) (hbase : isSum base = true)
      (hx : x = p.toExpr)

/-- A group has powers of an indeterminate, or copies of a sum. -/
theorem IsGroup.cases {g : PowerGroup} (hg : IsGroup g) :
    (∃ (i : Indeterminate) (ns : List Int), g.base = i.toExpr ∧ g.exponents = ns.map .integer ∧
      ns ≠ [] ∧ ∀ n ∈ ns, n ≠ 0) ∨
    ∃ (p : NormalForm) (k : ℕ), 2 ≤ p.summands.length ∧ g.base = p.toExpr ∧
      g.exponents = (List.replicate (k + 1) 1).map .integer := by
  rcases List.exists_mem_of_ne_nil _ hg.exponents_ne_nil with ⟨x, hx⟩
  cases hg.isPower x hx with
  | name i _ hbase =>
      -- by induction on a list of exponents, since the group would have to keep its base
      have hints : ∀ xs : List Expr, (∀ x ∈ xs, IsPower g.base x) →
          ∃ ns : List Int, xs = ns.map .integer ∧ ∀ n ∈ ns, n ≠ 0 := by
        intro xs hxs
        induction xs with
        | nil => exact ⟨[], rfl, List.forall_mem_nil _⟩
        | cons y ys ih =>
            rcases ih fun z hz => hxs z (List.mem_cons_of_mem y hz) with ⟨ns, hns, hne⟩
            cases hxs y List.mem_cons_self with
            | name j n _ hexponent hn =>
                exact ⟨n :: ns, by rw [hexponent, hns, List.map_cons],
                  List.forall_mem_cons.mpr ⟨hn, hne⟩⟩
            | sum p hp hsum =>
                have hkind := isSum_toExpr hp
                rw [← hsum, hbase, isSum_indeterminate] at hkind
                cases hkind
      rcases hints g.exponents hg.isPower with ⟨ns, hns, hne⟩
      refine .inl ⟨i, ns, hbase, hns, ?_, hne⟩
      rintro rfl
      exact hg.exponents_ne_nil hns
  | sum p hp hbase =>
      have hones : ∀ y ∈ g.exponents, y = .integer 1 := by
        intro y hy
        cases hg.isPower y hy with
        | name j _ hname =>
            have hkind := isSum_toExpr hp
            rw [← hbase, hname, isSum_indeterminate] at hkind
            cases hkind
        | sum _ _ _ hexponent => exact hexponent
      have hlength := List.length_pos_iff.mpr hg.exponents_ne_nil
      refine .inr ⟨p, g.exponents.length - 1, hp, hbase, ?_⟩
      rw [List.map_replicate, Nat.sub_add_cancel hlength]
      exact List.eq_replicate_iff.mpr ⟨rfl, hones⟩

theorem not_isTerm_toExpr {p : NormalForm} (h : 2 ≤ p.summands.length) :
    ¬ IsTerm (p.toExpr.value generic) := by
  rw [p.represents.value_eq, p.isTerm_value_iff]
  omega

/-- A power of an indeterminate is a number or a factor. -/
theorem merged_of_value {i : Indeterminate} {n : Int} {x : Expr} (hx : Canonical x)
    (hvalue : x.value generic = i.toExpr.value generic ^ n) : Merged i.toExpr x := by
  rw [value_indeterminate, indeterminate_zpow] at hvalue
  by_cases hn : n = 0
  · refine .number i 1 rfl (hx.eq_of_value_eq (.rational 1) ?_)
    rw [hvalue, hn, Finsupp.single_zero, term_one, value_rational, Rat.cast_one]
  · refine .factor ⟨i, n⟩ hn rfl (hx.eq_of_value_eq (.factor hn) ?_)
    rw [hvalue, (Factor.represents ⟨i, n⟩).value_eq]

/-- The powers of an indeterminate are merged into one, by adding their exponents. -/
theorem merge_names (hnode : KeepsForms node) (i : Indeterminate) {ns : List Int} (hne : ns ≠ [])
    (hne0 : ∀ n ∈ ns, n ≠ 0) :
    Yields (PowerGroup.merge node ⟨i.toExpr, ns.map .integer⟩) (Merged i.toExpr) := by
  rcases ns with _ | ⟨n, _ | ⟨m, ns⟩⟩
  · exact absurd rfl hne
  · have hn : n ≠ 0 := hne0 n List.mem_cons_self
    refine Yields.pure (.factor ⟨i, n⟩ hn rfl ?_)
    rw [Factor.toExpr]
    by_cases hone : n = 1 <;> simp [hone, isRational, rational?, Expr.integer]
  · refine (hnode.keepsValues.integerSum (n :: m :: ns)).bind fun x hx => ?_
    rw [hx]
    have hpower := hnode.power_value (canonical_indeterminate i)
      (raisable_indeterminate i (n :: m :: ns).sum)
    exact hpower.mono fun y hy => merged_of_value hy.1 hy.2

/-- Copies of a sum are merged into a power that is multiplied out; by its value, this is a sum
again. -/
theorem merge_sums (hnode : KeepsForms node) {p : NormalForm} (hp : 2 ≤ p.summands.length) {k : ℕ}
    (hk : k + 1 ≤ maxExpandedExponent) :
    Yields (PowerGroup.merge node ⟨p.toExpr, (List.replicate (k + 1) 1).map .integer⟩)
      (Merged p.toExpr) := by
  have hsum := isSum_toExpr hp
  cases k with
  | zero => exact Yields.pure (.sum p hp hsum rfl)
  | succ k =>
      have hexponent : (List.replicate (k + 1 + 1) (1 : Int)).sum = ((k + 2 : ℕ) : Int) := by
        rw [List.sum_replicate, nsmul_one]
      refine (hnode.keepsValues.integerSum (List.replicate (k + 1 + 1) 1)).bind fun x hx => ?_
      rw [hx, hexponent]
      have hpower := hnode.power_value (n := (k + 2 : ℕ)) ⟨p, rfl⟩
        (.sum (not_isTerm_toExpr hp) (Int.natCast_nonneg _) (by exact_mod_cast hk))
      refine hpower.mono fun y h => ?_
      rcases h with ⟨hy, hvalue⟩
      -- nothing is known of how the power was multiplied out, but it has several terms
      have hterm : ¬ IsTerm (y.value generic) := by
        rw [hvalue, zpow_natCast, p.represents.value_eq]
        exact NormalForm.not_isTerm_value_pow hp (by omega)
      rcases hy.exists_of_kind_eq (not_not.mp (hy.isTerm_value_iff.not.mp hterm))
        with ⟨q, hq, rfl⟩
      exact .sum q hq hsum rfl

theorem merge_forms (hnode : KeepsForms node) {g : PowerGroup} (hg : IsGroup g)
    (hsums : sumsOf g ≤ maxExpandedExponent) : Yields (g.merge node) (Merged g.base) := by
  rcases g with ⟨base, exponents⟩
  rcases hg.cases with ⟨i, ns, hbase, hns, hne, hne0⟩ | ⟨p, k, hp, hbase, hones⟩
  · obtain rfl : base = i.toExpr := hbase
    obtain rfl : exponents = ns.map .integer := hns
    exact merge_names hnode i hne hne0
  · obtain rfl : base = p.toExpr := hbase
    obtain rfl : exponents = (List.replicate (k + 1) 1).map .integer := hones
    rw [sumsOf, if_pos (isSum_toExpr hp), List.length_map, List.length_replicate] at hsums
    exact merge_sums hnode hp hsums

/-- The factors of merged groups: each is what became of its group. -/
theorem mergeGroups_forms (hnode : KeepsForms node) {gs : List PowerGroup}
    (hgs : ∀ g ∈ gs, IsGroup g ∧ sumsOf g ≤ maxExpandedExponent) (f : Factors) :
    Yields (mergeGroups node gs f) fun r => ∃ c ys,
      r = .ok ⟨c, f.others ++ ys.filter (·.rational?.isNone), f.spliced⟩ ∧
        List.Forall₂ (fun g y => Merged g.base y) gs ys := by
  induction gs generalizing f with
  | nil => exact Yields.pure ⟨f.coefficient, [], by simp, .nil⟩
  | cons g gs ih =>
      rcases hgs g List.mem_cons_self with ⟨hg, hsums⟩
      refine (merge_forms hnode hg hsums).bind fun x hx => ?_
      have hrest := ih fun r hr => hgs r (List.mem_cons_of_mem g hr)
      -- what is not a number is kept as a factor, whatever it is
      have hother : x.rational? = none →
          Yields (mergeGroups node gs { f with others := f.others ++ [x] }) fun r => ∃ c ys,
            r = .ok ⟨c, f.others ++ ys.filter (·.rational?.isNone), f.spliced⟩ ∧
              List.Forall₂ (fun g y => Merged g.base y) (g :: gs) ys := by
        intro hnone
        refine (hrest _).mono fun r hresult => ?_
        rcases hresult with ⟨c, ys, hr, hys⟩
        refine ⟨c, x :: ys, ?_, .cons hx hys⟩
        rw [hr, List.filter_cons_of_pos (by rw [hnone]; rfl), List.append_assoc]
        rfl
      cases hx with
      | number i q hbase hx =>
          subst hx
          refine (hrest _).mono fun r hresult => ?_
          rcases hresult with ⟨c, ys, hr, hys⟩
          refine ⟨c, .rational q :: ys, ?_, .cons (.number i q hbase rfl) hys⟩
          rw [hr, List.filter_cons_of_neg (by simp [rational?])]
      | factor t ht hbase hx =>
          subst hx
          rcases t.toExpr_cases with ⟨c, h⟩ | ⟨name, h⟩ | ⟨x, n, h⟩ <;> rw [h] at hother ⊢ <;>
            exact hother rfl
      | sum p hp hbase hx =>
          subst hx
          rw [NormalForm.toExpr_of_length hp] at hother ⊢
          exact hother rfl

/-- What is left of merged groups has no more sums than the groups stem from. -/
theorem merged_isPart {gs : List PowerGroup} {ys : List Expr} (hgs : ∀ g ∈ gs, IsGroup g)
    (h : List.Forall₂ (fun g y => Merged g.base y) gs ys) :
    (∀ y ∈ ys, IsPart y) ∧ ys.countP isSum ≤ (gs.map sumsOf).sum := by
  induction h with
  | nil => exact ⟨List.forall_mem_nil _, le_rfl⟩
  | cons hy _ ih =>
      rename_i g y gs ys _
      rcases ih fun r hr => hgs r (List.mem_cons_of_mem g hr) with ⟨hparts, hcount⟩
      have hlength := List.length_pos_iff.mpr (hgs g List.mem_cons_self).exponents_ne_nil
      have hhead : IsPart y ∧ [y].countP isSum ≤ sumsOf g := by
        cases hy with
        | number i q _ hx =>
            rw [hx]
            exact ⟨.number q, Nat.zero_le _⟩
        | factor t ht _ hx =>
            rw [hx, List.countP_singleton, isSum_factor]
            exact ⟨.factor ht, Nat.zero_le _⟩
        | sum p hp hbase hx =>
            rw [hx, sumsOf, hbase, List.countP_singleton, isSum_toExpr hp]
            exact ⟨.sum hp, hlength⟩
      refine ⟨List.forall_mem_cons.mpr ⟨hhead.1, hparts⟩, ?_⟩
      rw [List.countP_cons, List.map_cons, List.sum_cons]
      have hcons := hhead.2
      rw [List.countP_singleton] at hcons
      omega

/-- Without sums, what is left of groups with different bases are powers of different
indeterminates. -/
theorem exists_factors {gs : List PowerGroup} {ys : List Expr}
    (hgs : gs.Pairwise (·.base ≠ ·.base))
    (h : List.Forall₂ (fun g y => Merged g.base y) gs ys)
    (hsums : ∀ y ∈ ys.filter (·.rational?.isNone), isSum y = false) :
    ∃ fs : List Factor, ys.filter (·.rational?.isNone) = fs.map Factor.toExpr ∧
      fs.Pairwise (·.base ≠ ·.base) ∧ (∀ f ∈ fs, f.exponent ≠ 0) ∧
        ∀ f ∈ fs, ∃ g ∈ gs, g.base = f.base.toExpr := by
  induction h with
  | nil => exact ⟨[], rfl, .nil, List.forall_mem_nil _, List.forall_mem_nil _⟩
  | cons hy _ ih =>
      rename_i g y gs ys _
      rcases List.pairwise_cons.mp hgs with ⟨hhead, htail⟩
      have hrest := ih htail
      cases hy with
      | number i q _ hx =>
          rw [hx, List.filter_cons_of_neg (by simp [rational?])] at hsums ⊢
          rcases hrest hsums with ⟨fs, hfs, hdifferent, hne, horigin⟩
          refine ⟨fs, hfs, hdifferent, hne, fun f hf => ?_⟩
          rcases horigin f hf with ⟨r, hr, hbase⟩
          exact ⟨r, List.mem_cons_of_mem g hr, hbase⟩
      | factor t ht hbase hx =>
          have hnone : t.toExpr.rational?.isNone = true := by
            rcases t.toExpr_cases with ⟨c, h⟩ | ⟨name, h⟩ | ⟨x, n, h⟩ <;> rw [h] <;> rfl
          rw [hx, List.filter_cons, if_pos hnone] at hsums ⊢
          rcases hrest fun y hy => hsums y (List.mem_cons_of_mem _ hy) with
            ⟨fs, hfs, hdifferent, hne, horigin⟩
          refine ⟨t :: fs, by rw [hfs, List.map_cons], List.pairwise_cons.mpr ⟨?_, hdifferent⟩,
            List.forall_mem_cons.mpr ⟨ht, hne⟩, List.forall_mem_cons.mpr ⟨?_, fun f hf => ?_⟩⟩
          · intro f hf heq
            rcases horigin f hf with ⟨r, hr, hrbase⟩
            exact hhead r hr (by rw [hbase, heq, hrbase])
          · exact ⟨g, List.mem_cons_self, hbase⟩
          · rcases horigin f hf with ⟨r, hr, hrbase⟩
            exact ⟨r, List.mem_cons_of_mem g hr, hrbase⟩
      | sum p hp _ hx =>
          have hmem : p.toExpr ∈ (y :: ys).filter (·.rational?.isNone) := by
            rw [hx, NormalForm.toExpr_of_length hp]
            exact List.mem_filter.mpr ⟨List.mem_cons_self, rfl⟩
          have hfalse := hsums _ hmem
          rw [isSum_toExpr hp] at hfalse
          cases hfalse

/-!
## Finishing
-/

theorem Factor.order_compares_base {f g : Factor} (h : f.base ≠ g.base) :
    (order f.toExpr g.toExpr).Compares f.base g.base := by
  have hfactors := f.order_compares g
  have hlt : ∀ f g : Factor, f.base ≠ g.base → f < g → f.base < g.base := by
    intro f g h hlt
    rcases Prod.Lex.toLex_lt_toLex.mp hlt with hbase | ⟨hbase, -⟩
    · exact hbase
    · exact absurd hbase h
  generalize order f.toExpr g.toExpr = o at hfactors ⊢
  cases o with
  | lt => exact hlt f g h hfactors
  | gt => exact hlt g f h.symm hfactors
  | eq => exact absurd (congrArg Factor.base hfactors) h

/-- Powers of different indeterminates are sorted into a summand. -/
theorem canonical_assemble_factors {c : Rat} (hc : c ≠ 0) {fs : List Factor}
    (hdifferent : fs.Pairwise (·.base ≠ ·.base)) (hne : ∀ f ∈ fs, f.exponent ≠ 0) :
    Canonical (assemble .multiplication 1
      ((if c = 1 then [] else [.rational c]) ++ Expr.sort (fs.map Factor.toExpr))) := by
  have hcompare : ComparesBy (fun f g => order (Factor.toExpr f) g.toExpr) Factor.base fs :=
    fun f _ g _ h => Factor.order_compares_base h
  have hsorted := insertionSort_pairwise hcompare hdifferent
  have hperm := insertionSort_perm (fun f g => order (Factor.toExpr f) g.toExpr) fs
  rw [Expr.sort, insertionSort_map]
  exact Canonical.summand
    (s := ⟨c, ⟨_, hsorted, fun f hf => hne f (hperm.mem_iff.mp hf)⟩⟩) hc

theorem isSum_eq_false_of_splitAtSum? {xs : List Expr} (h : splitAtSum? xs = none) :
    ∀ x ∈ xs, isSum x = false := by
  fun_induction splitAtSum? xs with
  | case1 => exact List.forall_mem_nil _
  | case2 terms xs => cases h
  | case3 x xs hx ih =>
      refine List.forall_mem_cons.mpr ⟨?_, ih (Option.map_eq_none_iff.mp h)⟩
      refine beq_eq_false_iff_ne.mpr fun hkind => ?_
      cases x with
      | apply f ts =>
          have hf : f = .addition := by
            cases f with
            | addition => rfl
            | _ => cases hkind
          exact hx ts (by rw [hf])
      | _ => cases hkind

/-- The terms of a sum among the parts are canonical and not sums themselves. -/
theorem IsPart.terms {terms : List Expr} (h : IsPart (.apply .addition terms)) :
    ∀ x ∈ terms, Canonical x ∧ isSum x = false := by
  generalize hx : Expr.apply .addition terms = x at h
  cases h with
  | number q => cases hx
  | factor _ =>
      have hkind := isSum_factor (by assumption)
      rw [← hx] at hkind
      cases hkind
  | sum hp =>
      rename_i p
      rw [NormalForm.toExpr_of_length hp] at hx
      cases hx
      intro x hx
      rcases List.mem_map.mp hx with ⟨s, hs, rfl⟩
      exact ⟨.summand (p.coefficient_ne_zero s hs), beq_eq_false_iff_ne.mpr s.kind_ne⟩

theorem distribute_forms (hnode : KeepsForms node) (c : Rat) {others terms : List Expr}
    (hothers : ∀ x ∈ others, Canonical x) (hsums : others.countP isSum ≤ maxExpandedExponent)
    (hterms : ∀ x ∈ terms, Canonical x ∧ isSum x = false) :
    Yields (distribute node c others terms) Canonical := by
  have hproducts : Yields (terms.mapM fun t => multiply node (.rational c :: others ++ [t]))
      (fun products => ∀ x ∈ products, Canonical x) := by
    refine Yields.mapM_forall fun t ht => hnode.product (fun x hx => ?_) ?_
    · rcases List.mem_append.mp hx with hx | hx
      · rcases List.mem_cons.mp hx with rfl | hx
        · exact .rational c
        · exact hothers x hx
      · rw [List.mem_singleton.mp hx]
        exact (hterms t ht).1
    · have hlast : [t].countP isSum = 0 := by
        rw [List.countP_singleton, (hterms t ht).2]
        rfl
      rw [List.countP_append, hlast, List.countP_cons_of_neg (by simp [isSum, kind])]
      exact hsums
  exact hproducts.bind fun products hall => hnode.sum hall

theorem finishProduct_forms (hnode : KeepsForms node) {f : Factors} (hspliced : f.spliced = false)
    (hparts : ∀ x ∈ f.others, IsPart x) (hsums : f.others.countP isSum ≤ maxExpandedExponent)
    (hfactors : (∀ x ∈ f.others, isSum x = false) → ∃ fs : List Factor,
      f.others = fs.map Factor.toExpr ∧ fs.Pairwise (·.base ≠ ·.base) ∧
        ∀ f ∈ fs, f.exponent ≠ 0) :
    Yields (finishProduct node f) Canonical := by
  rw [finishProduct, hspliced]
  split
  · exact Yields.pure (.rational 0)
  · rename_i hzero
    rw [if_neg Bool.false_ne_true]
    split
    · -- one sum is gone in each of the products over its terms
      rename_i before terms behind hsplit
      have heq := eq_of_splitAtSum?_eq_some hsplit
      rw [heq] at hparts hsums
      refine distribute_forms hnode _ (fun x hx => ?_) ?_ (hparts _ (by simp)).terms
      · refine (hparts x ?_).canonical
        rcases List.mem_append.mp hx with hx | hx <;> simp [hx]
      · rw [List.countP_append, List.countP_cons] at hsums
        rw [List.countP_append]
        omega
    · rename_i hsplit
      rcases hfactors (isSum_eq_false_of_splitAtSum? hsplit) with ⟨fs, hfs, hdifferent, hne⟩
      rw [hfs]
      exact Yields.pure (canonical_assemble_factors hzero hdifferent hne)

/-- A product of parts with no more sums than a power that is multiplied out is canonical. -/
theorem productOfScalars_forms (hnode : KeepsForms node) {xs : List Expr}
    (h : ∀ x ∈ xs, IsPart x) (hsums : xs.countP isSum ≤ maxExpandedExponent) :
    Yields (productOfScalars node xs) Canonical := by
  rw [productOfScalars, any_isInfinity_eq_false fun x hx => (h x hx).canonical.normal]
  split
  · exact Yields.pure (.rational 0)
  · have hnil : AreGroups ({} : PowerProduct).groups 0 := ⟨List.forall_mem_nil _, .nil, rfl⟩
    rcases foldlM_multiply?_groups h hnil with ⟨p, hp, hgroups⟩
    rw [Nat.zero_add] at hgroups
    simp only [hp, Bool.false_and, Bool.false_eq_true, if_false]
    have hbound : ∀ g ∈ p.groups, IsGroup g ∧ sumsOf g ≤ maxExpandedExponent := by
      intro g hg
      have hle := List.single_le_sum (fun n _ => Nat.zero_le n) _
        (List.mem_map.mpr ⟨g, hg, rfl⟩ : sumsOf g ∈ p.groups.map sumsOf)
      rw [hgroups.sums_eq] at hle
      exact ⟨hgroups.isGroup g hg, hle.trans hsums⟩
    refine (mergeGroups_forms hnode hbound _).bind fun r hresult => ?_
    rcases hresult with ⟨c, ys, rfl, hys⟩
    rw [List.nil_append]
    rcases merged_isPart hgroups.isGroup hys with ⟨hparts, hcount⟩
    refine finishProduct_forms hnode rfl (fun x hx => hparts x (List.mem_of_mem_filter hx)) ?_
      fun hfree => ?_
    · rw [hgroups.sums_eq] at hcount
      exact (List.filter_sublist.countP_le.trans hcount).trans hsums
    · rcases exists_factors hgroups.different hys hfree with ⟨fs, hfs, hdifferent, hne, -⟩
      exact ⟨fs, hfs, hdifferent, hne⟩

end Laurent

end PocketAlgebra
