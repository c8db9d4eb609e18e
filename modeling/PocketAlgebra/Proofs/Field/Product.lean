import Mathlib.Algebra.BigOperators.Ring.List
import Mathlib.Algebra.Order.BigOperators.Group.List
import Mathlib.Tactic.Ring
import PocketAlgebra.Proofs.Field.Value
import PocketAlgebra.Reduction.Product

/-!
# Products of field expressions

Collecting the powers of one base keeps the value of a product, where a base of
zero has only positive exponents; so does multiplying out a sum.
-/

namespace PocketAlgebra

namespace Reduction

open PocketAlgebra.Expr

variable {K : Type*} [Field K] {ρ : Valuation K}

/-!
## Powers of one base
-/

theorem prod_zpow_eq_zpow_sum {b : K} {ns : List Int} (hne : ns ≠ [])
    (h : ∀ n ∈ ns, 0 < n ∨ b ≠ 0) :
    (ns.map (b ^ ·)).prod = b ^ ns.sum ∧ (0 < ns.sum ∨ b ≠ 0) := by
  by_cases hb : b = 0
  · have hpos : ∀ n ∈ ns, 0 < n := fun n hn => (h n hn).resolve_right (by simp [hb])
    have hsum : 0 < ns.sum := List.sum_pos ns hpos hne
    refine ⟨?_, .inl hsum⟩
    rcases List.exists_mem_of_ne_nil ns hne with ⟨n, hn⟩
    rw [hb, zero_zpow _ hsum.ne', List.prod_eq_zero_iff]
    exact List.mem_map.mpr ⟨n, hn, zero_zpow n (hpos n hn).ne'⟩
  · refine ⟨?_, .inr hb⟩
    clear h hne
    induction ns with
    | nil => simp
    | cons n ns ih => simp [ih, zpow_add₀ hb]

namespace PowerGroup

/-- The value of a group: the product of its powers. -/
def value (ρ : Valuation K) (g : PowerGroup) : K :=
  (g.exponents.map fun p => (Expr.apply .power [g.base, p]).value ρ).prod

/-- A group of powers of a reduced base, all of which have a value. -/
structure Sound (ρ : Valuation K) (g : PowerGroup) : Prop where
  base : Normal ρ g.base
  exponents : ∃ ns : List Int, g.exponents = ns.map .integer ∧ ns ≠ [] ∧
    ∀ n ∈ ns, 0 < n ∨ g.base.value ρ ≠ 0

theorem sound_singleton {x : Expr} {n : Int} (hx : Normal ρ x)
    (h : 0 < n ∨ x.value ρ ≠ 0) : Sound ρ ⟨x, [.integer n]⟩ :=
  ⟨hx, [n], rfl, by simp, by simpa using h⟩

theorem insert_spec {x : Expr} {n : Int} {gs : List PowerGroup}
    (hx : Normal ρ x) (h : 0 < n ∨ x.value ρ ≠ 0)
    (hgs : ∀ g ∈ gs, Sound ρ g) :
    (∀ g ∈ insert x (.integer n) gs, Sound ρ g) ∧
      ((insert x (.integer n) gs).map (value ρ)).prod =
        (gs.map (value ρ)).prod * x.value ρ ^ n := by
  induction gs with
  | nil =>
      refine ⟨fun g hg => ?_, by simp [insert, value]⟩
      rw [List.mem_singleton.mp hg]
      exact sound_singleton hx h
  | cons g gs ih =>
      have hg := hgs g List.mem_cons_self
      have htail := fun r hr => hgs r (List.mem_cons_of_mem g hr)
      rw [insert]
      split
      · rename_i hsame
        have heq := hg.base.eq_of_same x hsame
        rcases hg.exponents with ⟨ns, hns, _, hall⟩
        constructor
        · intro r hr
          rcases List.mem_cons.mp hr with rfl | hr
          · refine ⟨hg.base, ns ++ [n], by simp [hns], by simp, ?_⟩
            intro m hm
            rcases List.mem_append.mp hm with hm | hm
            · exact hall m hm
            · rw [List.mem_singleton.mp hm, heq]
              exact h
          · exact htail r hr
        · simp [value, heq]
          ring
      · rcases ih htail with ⟨hsound, hprod⟩
        constructor
        · intro r hr
          rcases List.mem_cons.mp hr with rfl | hr
          · exact hg
          · exact hsound r hr
        · rw [List.map_cons, List.prod_cons, hprod, List.map_cons, List.prod_cons]
          ring

theorem merge_spec [CharZero K] {node : NodeReducer} (hnode : KeepsValues ρ node)
    {g : PowerGroup} (hg : Sound ρ g) :
    Yields (g.merge node) (Represents ρ (g.value ρ)) := by
  rcases g with ⟨base, exponents⟩
  rcases hg with ⟨hbase, ns, hns, hne, hall⟩
  obtain rfl : exponents = ns.map .integer := hns
  rcases prod_zpow_eq_zpow_sum hne hall with ⟨hprod, hsum⟩
  have hvalue : value ρ ⟨base, ns.map .integer⟩ = base.value ρ ^ ns.sum := by
    rw [value, List.map_map, ← hprod]
    simp [Function.comp_def]
  rw [hvalue]
  match ns, hne with
  | [n], _ =>
      have hn : 0 < n ∨ base.value ρ ≠ 0 := hall n List.mem_cons_self
      refine Yields.pure ?_
      split
      · rename_i hone
        have hn1 : n = 1 := by simpa [isRational, rational?, integer] using hone
        exact ⟨hbase, by simp [hn1]⟩
      · exact ⟨.power hbase hn, by simp⟩
  | n :: m :: ns, _ =>
      refine (hnode.integerSum (n :: m :: ns)).bind fun p hp => ?_
      rw [hp]
      exact hnode.power hbase hsum

end PowerGroup

/-!
## Collected products
-/

namespace PowerProduct

/-- The value of a collected product. -/
def value (ρ : Valuation K) (p : PowerProduct) : K :=
  p.coefficient * (p.groups.map (PowerGroup.value ρ)).prod

theorem multiply?_spec [CharZero K] {p : PowerProduct} {x : Expr}
    (hp : ∀ g ∈ p.groups, g.Sound ρ) (hx : Normal ρ x) :
    ∃ r, p.multiply? x = some r ∧ (∀ g ∈ r.groups, g.Sound ρ) ∧
      r.value ρ = p.value ρ * x.value ρ := by
  have hother : (∀ g ∈ PowerGroup.insert x (.integer 1) p.groups, g.Sound ρ) ∧
      value ρ { p with groups := PowerGroup.insert x (.integer 1) p.groups } =
        p.value ρ * x.value ρ := by
    rcases PowerGroup.insert_spec hx (n := 1) (.inl one_pos) hp with ⟨hsound, hprod⟩
    refine ⟨hsound, ?_⟩
    simp only [value, hprod, zpow_one]
    ring
  cases hx with
  | rational q =>
      refine ⟨_, rfl, hp, ?_⟩
      simp only [value, value_rational]
      push_cast
      ring
  | power hbase h =>
      rcases PowerGroup.insert_spec hbase h hp with ⟨hsound, hprod⟩
      refine ⟨_, rfl, hsound, ?_⟩
      simp only [value, hprod, value_power_integer]
      ring
  | _ => exact ⟨_, rfl, hother⟩

theorem foldlM_multiply?_spec [CharZero K] {xs : List Expr}
    (hxs : ∀ x ∈ xs, Normal ρ x) {p : PowerProduct}
    (hp : ∀ g ∈ p.groups, g.Sound ρ) :
    ∃ r, xs.foldlM multiply? p = some r ∧ (∀ g ∈ r.groups, g.Sound ρ) ∧
      r.value ρ = p.value ρ * (xs.map (Expr.value ρ)).prod := by
  induction xs generalizing p with
  | nil => exact ⟨p, rfl, hp, by simp⟩
  | cons x xs ih =>
      rcases multiply?_spec hp (hxs x List.mem_cons_self) with ⟨q, hq, hsound, hvalue⟩
      rcases ih (fun y hy => hxs y (List.mem_cons_of_mem x hy)) hsound
        with ⟨r, hr, hsound, hprod⟩
      refine ⟨r, ?_, hsound, ?_⟩
      · rw [List.foldlM_cons, hq]
        exact hr
      · rw [hprod, hvalue, List.map_cons, List.prod_cons, mul_assoc]

end PowerProduct

/-!
## Merged factors
-/

namespace Factors

/-- The value of merged factors. -/
def value (ρ : Valuation K) (f : Factors) : K :=
  f.coefficient * (f.others.map (Expr.value ρ)).prod

end Factors

variable {node : NodeReducer}

theorem mergeGroups_spec [CharZero K] (hnode : KeepsValues ρ node)
    {gs : List PowerGroup} (hgs : ∀ g ∈ gs, g.Sound ρ) {f : Factors}
    (hf : ∀ x ∈ f.others, Normal ρ x) :
    Yields (mergeGroups node gs f) fun r => ∃ f', r = .ok f' ∧
      (∀ x ∈ f'.others, Normal ρ x) ∧
        f'.value ρ = f.value ρ * (gs.map (PowerGroup.value ρ)).prod := by
  induction gs generalizing f with
  | nil => exact Yields.pure ⟨f, rfl, hf, by simp⟩
  | cons g gs ih =>
      have hmerge := PowerGroup.merge_spec hnode (hgs g List.mem_cons_self)
      refine hmerge.bind fun x hx => ?_
      have hrest : ∀ f' : Factors, (∀ y ∈ f'.others, Normal ρ y) →
          f'.value ρ = f.value ρ * x.value ρ →
          Yields (mergeGroups node gs f') fun r => ∃ f'', r = .ok f'' ∧
            (∀ x ∈ f''.others, Normal ρ x) ∧ f''.value ρ =
              f.value ρ * ((g :: gs).map (PowerGroup.value ρ)).prod := by
        intro f' hnormal hvalue
        have htail := ih (fun r hr => hgs r (List.mem_cons_of_mem g hr)) hnormal
        refine htail.mono fun r hr => ?_
        rcases hr with ⟨f'', hr, hnormal, hprod⟩
        refine ⟨f'', hr, hnormal, ?_⟩
        rw [hprod, hvalue, hx.value_eq, List.map_cons, List.prod_cons, mul_assoc]
      have hother : Yields (mergeGroups node gs { f with others := f.others ++ [x] })
          fun r => ∃ f'', r = .ok f'' ∧ (∀ x ∈ f''.others, Normal ρ x) ∧
            f''.value ρ = f.value ρ * ((g :: gs).map (PowerGroup.value ρ)).prod := by
        refine hrest _ (fun y hy => ?_) (by simp [Factors.value, mul_assoc])
        rcases List.mem_append.mp hy with hy | hy
        · exact hf y hy
        · rw [List.mem_singleton.mp hy]
          exact hx.normal
      cases hx.normal with
      | rational q =>
          refine hrest _ hf ?_
          simp only [Factors.value, value_rational]
          push_cast
          ring
      | multiplication hxs =>
          refine hrest _ (fun y hy => ?_) (by simp [Factors.value, mul_assoc])
          rcases List.mem_append.mp hy with hy | hy
          · exact hf y hy
          · exact hxs y hy
      | _ => exact hother

theorem eq_of_splitAtSum?_eq_some {xs before terms behind : List Expr}
    (h : splitAtSum? xs = some (before, terms, behind)) :
    xs = before ++ .apply .addition terms :: behind := by
  fun_induction splitAtSum? xs generalizing before terms behind with
  | case1 => cases h
  | case2 ts xs =>
      cases h
      rfl
  | case3 x xs _ ih =>
      rcases Option.map_eq_some_iff.mp h with ⟨⟨b, t, e⟩, hsplit, heq⟩
      cases heq
      rw [ih hsplit]
      rfl

theorem distribute_spec (hnode : KeepsValues ρ node) {c : Rat}
    {others terms : List Expr} (hothers : ∀ x ∈ others, Normal ρ x)
    (hterms : ∀ x ∈ terms, Normal ρ x) :
    Yields (distribute node c others terms) (Represents ρ
      (c * (others.map (value ρ)).prod * (terms.map (value ρ)).sum)) := by
  let factor : K := c * (others.map (value ρ)).prod
  have hproducts : Yields
      (terms.mapM fun t => multiply node (.rational c :: others ++ [t]))
      (List.Forall₂ (fun t r => Represents ρ (factor * t.value ρ) r) terms) := by
    refine Yields.mapM fun t ht => ?_
    have hall : ∀ x ∈ .rational c :: others ++ [t], Normal ρ x := by
      intro x hx
      rcases List.mem_append.mp hx with hx | hx
      · rcases List.mem_cons.mp hx with rfl | hx
        · exact .rational c
        · exact hothers x hx
      · rw [List.mem_singleton.mp hx]
        exact hterms t ht
    refine (hnode.product hall).mono fun r hr => ⟨hr.normal, ?_⟩
    rw [hr.value_eq]
    simp [factor, mul_assoc]
  refine hproducts.bind fun products hall => ?_
  have hspec : (∀ r ∈ products, Normal ρ r) ∧ (products.map (value ρ)).sum =
      factor * (terms.map (value ρ)).sum := by
    clear hproducts hterms
    induction hall with
    | nil => simp
    | cons hr _ ih =>
        refine ⟨List.forall_mem_cons.mpr ⟨hr.normal, ih.1⟩, ?_⟩
        rw [List.map_cons, List.sum_cons, hr.value_eq, ih.2, List.map_cons,
          List.sum_cons, mul_add]
  rw [← hspec.2]
  exact hnode.sum hspec.1

theorem finishProduct_spec [CharZero K] (hnode : KeepsValues ρ node)
    {f : Factors} (hf : ∀ x ∈ f.others, Normal ρ x) :
    Yields (finishProduct node f) (Represents ρ (f.value ρ)) := by
  rw [finishProduct]
  split
  · rename_i hzero
    exact Yields.pure ⟨normal_integer ρ 0, by simp [Factors.value, hzero]⟩
  · split
    · have hall : ∀ x ∈ .rational f.coefficient :: f.others, Normal ρ x :=
        List.forall_mem_cons.mpr ⟨.rational _, hf⟩
      have hproduct := hnode.product hall
      rwa [List.map_cons, List.prod_cons] at hproduct
    · split
      · rename_i before terms behind hsplit
        have heq := eq_of_splitAtSum?_eq_some hsplit
        have hsum : Normal ρ (.apply .addition terms) := hf _ (by simp [heq])
        have hothers : ∀ x ∈ before ++ behind, Normal ρ x := by
          intro x hx
          refine hf x ?_
          rw [heq]
          rcases List.mem_append.mp hx with hx | hx <;> simp [hx]
        cases hsum with
        | addition hterms =>
            refine (distribute_spec hnode hothers hterms).mono fun r hr => ?_
            refine ⟨hr.normal, hr.value_eq.trans ?_⟩
            rw [Factors.value, heq]
            simp
            ring
      · have hsort := sort_perm f.others
        have hall : ∀ x ∈ (if f.coefficient = 1 then [] else
            [Expr.rational f.coefficient]) ++ sort f.others, Normal ρ x := by
          intro x hx
          rcases List.mem_append.mp hx with hx | hx
          · split at hx
            · cases hx
            · rw [List.mem_singleton.mp hx]
              exact .rational _
          · exact hf x (hsort.mem_iff.mp hx)
        have hassemble := represents_assemble_multiplication hall
        refine Yields.pure ⟨hassemble.normal, hassemble.value_eq.trans ?_⟩
        rw [List.map_append, List.prod_append, (hsort.map _).prod_eq, Factors.value]
        split
        · rename_i hone
          simp [hone]
        · simp

/-!
## Products of scalars
-/

theorem any_isInfinity_eq_false {xs : List Expr} (h : ∀ x ∈ xs, Normal ρ x) :
    xs.any (·.kind == .infinity) = false := by
  rw [List.any_eq_false]
  intro x hx
  simp [(h x hx).kind_beq_infinity]

theorem productOfScalars_spec [CharZero K] (hnode : KeepsValues ρ node)
    {xs : List Expr} (h : ∀ x ∈ xs, Normal ρ x) :
    Yields (productOfScalars node xs) (Represents ρ (xs.map (value ρ)).prod) := by
  rw [productOfScalars, any_isInfinity_eq_false h]
  by_cases hzero : xs.any (·.isRational 0) = true
  · rw [if_pos hzero]
    rcases List.any_eq_true.mp hzero with ⟨x, hx, hx0⟩
    have hmem : (0 : K) ∈ xs.map (value ρ) := by
      refine List.mem_map.mpr ⟨x, hx, ?_⟩
      cases x with
      | rational q => simp_all [isRational, rational?]
      | _ => cases hx0
    refine Yields.pure ⟨normal_integer ρ 0, ?_⟩
    rw [List.prod_eq_zero hmem]
    exact value_integer ρ 0 |>.trans Int.cast_zero
  · rw [if_neg hzero]
    rcases PowerProduct.foldlM_multiply?_spec h (p := {}) (fun g hg => by cases hg)
      with ⟨p, hp, hsound, hvalue⟩
    simp only [hp, Bool.false_and, Bool.false_eq_true, if_false]
    have hmerge := mergeGroups_spec hnode hsound (f := ⟨p.coefficient, [], false⟩)
      (fun x hx => by cases hx)
    refine hmerge.bind fun r hr => ?_
    rcases hr with ⟨f, rfl, hnormal, hprod⟩
    have hfinish := finishProduct_spec hnode hnormal
    have hone : PowerProduct.value ρ {} = 1 := by simp [PowerProduct.value]
    have hf : f.value ρ = (xs.map (value ρ)).prod := by
      rw [hprod, ← one_mul (xs.map (value ρ)).prod, ← hone, ← hvalue]
      simp [Factors.value, PowerProduct.value]
    rwa [hf] at hfinish

/-- A product of rational numbers is a rational number. -/
theorem productOfScalars_rationals (qs : List Rat) :
    productOfScalars node (qs.map .rational) = pure (.rational qs.prod) := by
  have hinfinite : (qs.map Expr.rational).any (·.kind == .infinity) = false := by
    simp [Expr.kind]
  have hfold : ∀ q : Rat, (qs.map Expr.rational).foldlM PowerProduct.multiply? ⟨q, []⟩ =
      some ⟨q * qs.prod, []⟩ := by
    induction qs with
    | nil => simp
    | cons p qs ih =>
        intro q
        rw [List.map_cons, List.foldlM_cons, PowerProduct.multiply?]
        simpa [mul_assoc] using ih (by simp [Expr.kind]) (q * p)
  have hzeros : (qs.map Expr.rational).any (·.isRational 0) = true ↔ qs.prod = 0 := by
    rw [List.prod_eq_zero_iff]
    simp [Expr.isRational, Expr.rational?]
  rw [productOfScalars, hinfinite]
  by_cases hzero : qs.prod = 0
  · rw [if_pos (hzeros.mpr hzero), hzero]
    rfl
  · rw [if_neg fun h => hzero (hzeros.mp h)]
    have hone := hfold 1
    rw [one_mul] at hone
    simp only [hone, Bool.false_and, Bool.false_eq_true, if_false]
    rw [mergeGroups, pure_bind]
    simp only [finishProduct, if_neg hzero, splitAtSum?, Bool.false_eq_true, if_false]
    by_cases hcoefficient : qs.prod = 1
    · rw [if_pos hcoefficient, hcoefficient]
      rfl
    · rw [if_neg hcoefficient]
      rfl

end Reduction

end PocketAlgebra
