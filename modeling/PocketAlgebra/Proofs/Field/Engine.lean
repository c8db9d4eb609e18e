import PocketAlgebra.Proofs.Field.Power
import PocketAlgebra.Proofs.Field.Product
import PocketAlgebra.Proofs.Field.Sum
import PocketAlgebra.Reduction.Engine

/-!
# Reduction of field expressions

Every call of a reduction, however deep it is nested, keeps the values of field
expressions: first for nodes over reduced operands, by induction on the depth of
nesting, and then for whole trees, by induction on the tree.
-/

namespace PocketAlgebra

open PocketAlgebra.Expr

namespace Expr

mutual

/-- Whether the imaginary unit occurs in a tree. -/
def hasUnit : Expr → Bool
  | constant c => c == .imaginaryUnit
  | apply _ xs => hasUnitAny xs
  | _ => false

/-- Whether the imaginary unit occurs in one of several trees. -/
def hasUnitAny : List Expr → Bool
  | [] => false
  | x :: xs => x.hasUnit || hasUnitAny xs

end

theorem hasUnit_of_mem {f : Operator} {xs : List Expr} {x : Expr} (hx : x ∈ xs)
    (h : (apply f xs).hasUnit = false) : x.hasUnit = false := by
  rw [hasUnit] at h
  induction xs with
  | nil => cases hx
  | cons y ys ih =>
      rw [hasUnitAny, Bool.or_eq_false_iff] at h
      rcases List.mem_cons.mp hx with rfl | hx
      · exact h.1
      · exact ih hx h.2

theorem hasUnitAny_eq_false {xs : List Expr} (h : ∀ x ∈ xs, x.hasUnit = false) :
    hasUnitAny xs = false := by
  induction xs with
  | nil => rfl
  | cons x xs ih =>
      rw [hasUnitAny, h x List.mem_cons_self, ih fun y hy => h y (List.mem_cons_of_mem x hy)]
      rfl

theorem hasUnit_of_wholeLiteral? {p : Expr} {n : Int} (hp : p.wholeLiteral? = some n) :
    p.hasUnit = false := by
  fun_induction wholeLiteral? p generalizing n with
  | case1 q hint => rfl
  | case2 q hint => rfl
  | case3 x ih =>
      rcases Option.map_eq_some_iff.mp hp with ⟨m, hm, -⟩
      exact hasUnitAny_eq_false (List.forall_mem_singleton.mpr (ih hm))
  | case4 x ih => exact hasUnitAny_eq_false (List.forall_mem_singleton.mpr (ih hp))
  | case5 => cases hp

theorem referencesAll_eq_nil_iff {xs : List Expr} :
    referencesAll none xs = [] ↔ ∀ x ∈ xs, x.references none = [] := by
  induction xs with
  | nil => exact ⟨fun _ => nofun, fun _ => rfl⟩
  | cons x xs ih => rw [referencesAll, List.append_eq_nil_iff, ih, List.forall_mem_cons]

theorem references_of_mem {f : Operator} {xs : List Expr} {x : Expr} (hx : x ∈ xs)
    (h : (apply f xs).references none = []) : x.references none = [] := by
  have hall : referencesAll none xs = [] := by
    cases f with
    | function name => cases h
    | _ => exact h
  exact referencesAll_eq_nil_iff.mp hall x hx

/-- Settings under which an expression keeps its meaning: the real format rejects the imaginary
unit, and the strictest policy rejects names without a definition. -/
structure Admitted (settings : Settings) (x : Expr) : Prop where
  hasUnit_eq : settings.complexFormat = .real → x.hasUnit = false
  references_eq : settings.symbolic = .replaceAllSymbolsOrUndefined → x.references none = []

theorem Admitted.operand {settings : Settings} {f : Operator} {xs : List Expr} {x : Expr}
    (h : Admitted settings (apply f xs)) (hx : x ∈ xs) : Admitted settings x :=
  ⟨fun hreal => hasUnit_of_mem hx (h.hasUnit_eq hreal),
    fun hstrict => references_of_mem hx (h.references_eq hstrict)⟩

end Expr

namespace Reduction

variable {K : Type*} [Field K] {ρ : Valuation K} {node : NodeReducer}

/-!
## Rules over reduced operands
-/

theorem spoiled?_plain (f : Operator) {xs : List Expr} (h : ∀ x ∈ xs, IsPlain x) :
    spoiled? f xs = none := by
  have hlists : xs.any isList = false :=
    List.any_eq_false.mpr fun x hx => by simp [(h x hx).1]
  rw [spoiled?, hlists, poison?_plain h, any_isMatrix_plain h]
  simp

theorem forall_plain {xs : List Expr} (h : ∀ x ∈ xs, Normal ρ x) : ∀ x ∈ xs, IsPlain x :=
  fun x hx => (h x hx).plain

theorem plain_rationals (qs : List Rat) : ∀ x ∈ qs.map .rational, IsPlain x :=
  List.forall_mem_map.mpr fun _ _ => ⟨rfl, rfl, rfl⟩

theorem flattenAll_rationals (f : Operator) (qs : List Rat) :
    flattenAll f (qs.map .rational) = qs.map .rational := by
  induction qs with
  | nil => rfl
  | cons q qs ih =>
      rw [List.map_cons, flattenAll, ih]
      rfl

theorem reduceSum_rationals (qs : List Rat) :
    reduceSum node (qs.map .rational) = pure (.rational qs.sum) := by
  rw [reduceSum, flattenAll_rationals, poison?_plain (plain_rationals qs)]
  simp only [any_isMatrix_plain (plain_rationals qs), Bool.false_eq_true, if_false,
    sumOfScalars_rationals]

theorem reduceProduct_rationals (qs : List Rat) :
    reduceProduct node (qs.map .rational) = pure (.rational qs.prod) := by
  rw [reduceProduct, flattenAll_rationals, poison?_plain (plain_rationals qs)]
  simp only [any_isMatrix_plain (plain_rationals qs), Bool.false_eq_true, if_false,
    productOfScalars_rationals]

theorem reduceSum_spec [CharZero K] {xs : List Expr} (h : ∀ x ∈ xs, Normal ρ x) :
    Yields (reduceSum node xs) (Represents ρ (xs.map (value ρ)).sum) := by
  have hterms := normal_flattenAll_addition h
  rw [reduceSum, poison?_plain (forall_plain hterms)]
  simp only [any_isMatrix_plain (forall_plain hterms), Bool.false_eq_true, if_false]
  rw [← sum_flattenAll ρ xs]
  exact Yields.pure (represents_sumOfScalars hterms)

theorem reduceProduct_spec [CharZero K] (hnode : KeepsValues ρ node) {xs : List Expr}
    (h : ∀ x ∈ xs, Normal ρ x) :
    Yields (reduceProduct node xs) (Represents ρ (xs.map (value ρ)).prod) := by
  have hfactors := normal_flattenAll_multiplication h
  rw [reduceProduct, poison?_plain (forall_plain hfactors)]
  simp only [any_isMatrix_plain (forall_plain hfactors), Bool.false_eq_true, if_false]
  rw [← prod_flattenAll ρ xs]
  exact productOfScalars_spec hnode hfactors

theorem reducePower_spec [CharZero K] (ctx : Context) (hnode : KeepsValues ρ node) {x : Expr}
    {n : Int} (hx : Normal ρ x) (h : 0 < n ∨ x.value ρ ≠ 0) :
    Yields (reducePower ctx node [x, .integer n])
      (Represents ρ (x.value ρ ^ n)) := by
  have hgrid : Grid.ofExpr? x = none := by
    cases hx <;> rfl
  have hexponent : (Expr.integer n).isMatrix = false := rfl
  simp only [reducePower, hexponent, hgrid, Bool.false_eq_true, if_false]
  exact powerOfScalars_spec ctx hnode hx h

theorem negate_spec [CharZero K] (hnode : KeepsValues ρ node) {x : Expr} {v : K}
    (hx : Represents ρ v x) : Yields (negate node x) (Represents ρ (-v)) := by
  have hproduct :=
    hnode.product (forall_mem_pair (normal_integer ρ (-1)) hx.normal)
  have hprod : ([Expr.integer (-1), x].map (value ρ)).prod = -v := by
    simp [hx.value_eq]
  rw [hprod] at hproduct
  exact hproduct

theorem reduceDifference_spec [CharZero K] (hnode : KeepsValues ρ node) {x y : Expr} {v w : K}
    (hx : Represents ρ v x) (hy : Represents ρ w y) :
    Yields (reduceDifference node [x, y]) (Represents ρ (v - w)) := by
  refine (negate_spec hnode hy).bind fun z hz => ?_
  have hsum := hnode.sum (forall_mem_pair hx.normal hz.normal)
  have hvalue : ([x, z].map (value ρ)).sum = v - w := by
    simp [hx.value_eq, hz.value_eq, sub_eq_add_neg]
  rw [hvalue] at hsum
  exact hsum

theorem reduceQuotient_spec (hnode : KeepsValues ρ node) {x y : Expr} {v w : K}
    (hx : Represents ρ v x) (hy : Represents ρ w y) (hw : w ≠ 0) :
    Yields (reduceQuotient node [x, y]) (Represents ρ (v / w)) := by
  have hzero : ¬ y.isRational 0 = true := by
    intro h
    have hvalue := hy.value_eq
    rw [isRational_iff.mp h] at hvalue
    exact hw (by rw [← hvalue]; simp)
  rw [reduceQuotient, if_neg hzero]
  have hne : y.value ρ ≠ 0 := by
    rw [hy.value_eq]
    exact hw
  refine (hnode.power (n := -1) hy.normal (.inr hne)).bind fun z hz => ?_
  have hproduct := hnode.product (forall_mem_pair hx.normal hz.normal)
  have hvalue : ([x, z].map (value ρ)).prod = v / w := by
    simp [hx.value_eq, hy.value_eq, hz.value_eq, div_eq_mul_inv]
  rw [hvalue] at hproduct
  exact hproduct

/-!
## Nodes at any depth of nesting
-/

variable {ctx : Context}

/-- The reduction of nodes by calls that are nested at most so deep. -/
abbrev nodeWithin (nesting : Nat) (ctx : Context) : NodeReducer :=
  fun x => reduceWithin nesting ctx (.node x)

/-- The reduction of trees by calls that are nested at most so deep. -/
abbrev treeWithin (nesting : Nat) (ctx : Context) : NodeReducer :=
  fun x => reduceWithin nesting ctx (.tree x)

/-- A node is reduced by its rule, whose calls are nested less deep. -/
theorem nodeWithin_rule {x : Expr} {P : Expr → Prop} {nesting : Nat}
    (h : ∀ inner < nesting,
      Yields (reduceNode ctx (nodeWithin inner ctx) (treeWithin inner ctx) x) P) :
    Yields (nodeWithin nesting ctx x) P := by
  cases nesting with
  | zero => exact Yields.throw _
  | succ inner =>
      rw [nodeWithin, reduceWithin]
      exact Yields.bind_unit (h inner inner.lt_succ_self)

/-- A node that has a result fits into memory. -/
theorem nodeWithin_room {x : Expr} {P : Expr → Prop} {nesting : Nat}
    (h : x.charge ≤ ctx.room → Yields (nodeWithin nesting ctx x) P) :
    Yields (nodeWithin nesting ctx x) P := by
  by_cases hroom : x.charge ≤ ctx.room
  · exact h hroom
  · cases nesting with
    | zero => exact Yields.throw _
    | succ inner =>
        rw [nodeWithin, reduceWithin, checkRoom, if_neg hroom]
        exact Yields.throw _

theorem nodeWithin_spoiled {f : Operator} {xs : List Expr} {r : Expr} {P : Expr → Prop}
    (hspoiled : spoiled? f xs = some r) (h : P r) (nesting : Nat) :
    Yields (nodeWithin nesting ctx (.apply f xs)) P := by
  refine nodeWithin_rule fun inner _ => ?_
  rw [reduceNode, hspoiled]
  exact Yields.pure h

theorem nodeWithin_unspoiled {f : Operator} {xs : List Expr} {P : Expr → Prop}
    (hspoiled : spoiled? f xs = none) {nesting : Nat}
    (h : ∀ inner < nesting,
      Yields (reduceApply ctx (nodeWithin inner ctx) (treeWithin inner ctx) f xs) P) :
    Yields (nodeWithin nesting ctx (.apply f xs)) P := by
  refine nodeWithin_rule fun inner hinner => ?_
  rw [reduceNode, hspoiled]
  exact h inner hinner

theorem nodeWithin_apply {f : Operator} {xs : List Expr} {P : Expr → Prop}
    (hxs : ∀ x ∈ xs, Normal ρ x) {nesting : Nat}
    (h : ∀ inner < nesting,
      Yields (reduceApply ctx (nodeWithin inner ctx) (treeWithin inner ctx) f xs) P) :
    Yields (nodeWithin nesting ctx (.apply f xs)) P :=
  nodeWithin_unspoiled (spoiled?_plain f (forall_plain hxs)) h

theorem nodeWithin_rationals {f : Operator} {qs : List Rat} {P : Expr → Prop} (nesting : Nat)
    (h : ∀ inner, Yields
      (reduceApply ctx (nodeWithin inner ctx) (treeWithin inner ctx) f (qs.map .rational)) P) :
    Yields (nodeWithin nesting ctx (.apply f (qs.map .rational))) P :=
  nodeWithin_unspoiled (spoiled?_plain f (plain_rationals qs)) fun inner _ => h inner

theorem nodeWithin_sum (ctx : Context) (nesting : Nat) (qs : List Rat) :
    Yields (nodeWithin nesting ctx (.apply .addition (qs.map .rational)))
      (· = .rational qs.sum) := by
  refine nodeWithin_rationals nesting fun inner => ?_
  rw [reduceApply, reduceSum_rationals]
  exact Yields.pure rfl

theorem nodeWithin_product (ctx : Context) (nesting : Nat) (qs : List Rat) :
    Yields (nodeWithin nesting ctx (.apply .multiplication (qs.map .rational)))
      (· = .rational qs.prod) := by
  refine nodeWithin_rationals nesting fun inner => ?_
  rw [reduceApply, reduceProduct_rationals]
  exact Yields.pure rfl

theorem nodeWithin_difference (ctx : Context) (nesting : Nat) (p q : Rat) :
    Yields (nodeWithin nesting ctx (.apply .subtraction [.rational p, .rational q]))
      (· = .rational (p + -q)) := by
  change Yields (nodeWithin nesting ctx (.apply .subtraction ([p, q].map .rational))) _
  refine nodeWithin_rationals nesting fun inner => ?_
  refine (nodeWithin_product ctx inner [-1, q]).bind fun z hz => ?_
  rw [hz]
  refine (nodeWithin_sum ctx inner [p, [-1, q].prod]).mono fun y hy => ?_
  rw [hy]
  simp

theorem nodeWithin_opposite (ctx : Context) (nesting : Nat) (p : Rat) :
    Yields (nodeWithin nesting ctx (.apply .opposite [.rational p])) (· = .rational (-p)) := by
  change Yields (nodeWithin nesting ctx (.apply .opposite ([p].map .rational))) _
  refine nodeWithin_rationals nesting fun inner => ?_
  refine (nodeWithin_product ctx inner [-1, p]).mono fun y hy => ?_
  rw [hy]
  simp

theorem nodeWithin_parenthesis (ctx : Context) (nesting : Nat) (p : Rat) :
    Yields (nodeWithin nesting ctx (.apply .parenthesis [.rational p])) (· = .rational p) := by
  change Yields (nodeWithin nesting ctx (.apply .parenthesis ([p].map .rational))) _
  exact nodeWithin_rationals nesting fun _ => Yields.pure rfl

theorem keepsValues_nodeWithin [CharZero K] (ρ : Valuation K) (ctx : Context)
    (nesting : Nat) : KeepsValues ρ (nodeWithin nesting ctx) := by
  induction nesting using Nat.strongRecOn with
  | ind nesting ih =>
      refine ⟨fun h => ?_, fun h => ?_, fun hx h => ?_, fun qs => ?_, fun qs => ?_⟩
      · exact nodeWithin_apply h fun inner _ => reduceSum_spec (ρ := ρ) h
      · exact nodeWithin_apply h fun inner hlt => reduceProduct_spec (ih inner hlt) h
      · exact nodeWithin_apply (forall_mem_pair hx (normal_integer ρ _))
          fun inner hlt => reducePower_spec ctx (ih inner hlt) hx h
      · exact nodeWithin_sum ctx nesting qs
      · exact nodeWithin_product ctx nesting qs

/-!
## Trees
-/

theorem treeWithin_leaf_eq {x : Expr} (hleaf : ∀ f xs, x ≠ .apply f xs) (ctx : Context)
    (nesting : Nat) :
    treeWithin (nesting + 1) ctx x = checkBreaker >>= fun _ => nodeWithin nesting ctx x := by
  rw [treeWithin, reduceWithin]
  · exact hleaf .store
  · exact hleaf

theorem treeWithin_apply_eq {f : Operator} (hstore : f ≠ .store)
    (hscope : f.kind.isParametered = false) (ctx : Context) (nesting : Nat) (xs : List Expr) :
    treeWithin (nesting + 1) ctx (.apply f xs) = checkBreaker >>= fun _ =>
      xs.mapM (treeWithin nesting ctx) >>= fun ys => nodeWithin nesting ctx (.apply f ys) := by
  rw [treeWithin, reduceWithin]
  · simp only [reduceOperands, hscope, Bool.false_eq_true, if_false]
    cases xs <;> rfl
  · exact hstore

theorem treeWithin_leaf {x : Expr} {P : Expr → Prop}
    (hleaf : ∀ f xs, x ≠ .apply f xs)
    (h : ∀ inner, Yields
      (reduceNode ctx (nodeWithin inner ctx) (treeWithin inner ctx) x) P)
    (nesting : Nat) : Yields (treeWithin nesting ctx x) P := by
  cases nesting with
  | zero => exact Yields.throw _
  | succ inner =>
      rw [treeWithin_leaf_eq hleaf]
      exact Yields.bind_unit (nodeWithin_rule fun inner _ => h inner)

/-- A node over operands that come from a list of any kind. -/
theorem treeWithin_map_below {ι : Type} {g : ι → Expr} {f : Operator} {is : List ι}
    {R : ι → Expr → Prop} {P : Expr → Prop} (hstore : f ≠ .store)
    (hscope : f.kind.isParametered = false) {nesting : Nat}
    (his : ∀ i ∈ is, ∀ inner < nesting, Yields (treeWithin inner ctx (g i)) (R i))
    (hnode : ∀ ys, List.Forall₂ R is ys →
      ∀ inner < nesting, Yields (nodeWithin inner ctx (.apply f ys)) P) :
    Yields (treeWithin nesting ctx (.apply f (is.map g))) P := by
  cases nesting with
  | zero => exact Yields.throw _
  | succ inner =>
      have hlt := inner.lt_succ_self
      have hoperands := Yields.mapM fun i hi => his i hi inner hlt
      rw [treeWithin_apply_eq hstore hscope, List.mapM_map]
      exact Yields.bind_unit (hoperands.bind fun ys hys => hnode ys hys inner hlt)

theorem treeWithin_map {ι : Type} {g : ι → Expr} {f : Operator} {is : List ι}
    {R : ι → Expr → Prop} {P : Expr → Prop} (hstore : f ≠ .store)
    (hscope : f.kind.isParametered = false)
    (his : ∀ i ∈ is, ∀ n, Yields (treeWithin n ctx (g i)) (R i))
    (hnode : ∀ ys, List.Forall₂ R is ys → ∀ n, Yields (nodeWithin n ctx (.apply f ys)) P)
    (nesting : Nat) : Yields (treeWithin nesting ctx (.apply f (is.map g))) P :=
  treeWithin_map_below hstore hscope (fun i hi n _ => his i hi n) fun ys hys n _ => hnode ys hys n

theorem treeWithin_apply_below {f : Operator} {xs : List Expr} {R : Expr → Expr → Prop}
    {P : Expr → Prop} (hstore : f ≠ .store) (hscope : f.kind.isParametered = false) {nesting : Nat}
    (hxs : ∀ x ∈ xs, ∀ inner < nesting, Yields (treeWithin inner ctx x) (R x))
    (hnode : ∀ ys, List.Forall₂ R xs ys →
      ∀ inner < nesting, Yields (nodeWithin inner ctx (.apply f ys)) P) :
    Yields (treeWithin nesting ctx (.apply f xs)) P := by
  have hmap := treeWithin_map_below (g := id) hstore hscope hxs hnode
  rwa [List.map_id] at hmap

theorem treeWithin_apply {f : Operator} {xs : List Expr} {R : Expr → Expr → Prop}
    {P : Expr → Prop} (hstore : f ≠ .store) (hscope : f.kind.isParametered = false)
    (hxs : ∀ x ∈ xs, ∀ n, Yields (treeWithin n ctx x) (R x))
    (hnode : ∀ ys, List.Forall₂ R xs ys → ∀ n, Yields (nodeWithin n ctx (.apply f ys)) P)
    (nesting : Nat) : Yields (treeWithin nesting ctx (.apply f xs)) P :=
  treeWithin_apply_below hstore hscope (fun x hx n _ => hxs x hx n) fun ys hys n _ => hnode ys hys n

theorem eq_pair_of_forall₂ {α β : Type} {R : α → β → Prop} {x y : α} {zs : List β}
    (h : List.Forall₂ R [x, y] zs) : ∃ u v, R x u ∧ R y v ∧ zs = [u, v] := by
  cases h with
  | cons hu h =>
      cases h with
      | cons hv h =>
          cases h
          exact ⟨_, _, hu, hv, rfl⟩

theorem eq_singleton_of_forall₂ {α β : Type} {R : α → β → Prop} {x : α} {zs : List β}
    (h : List.Forall₂ R [x] zs) : ∃ u, R x u ∧ zs = [u] := by
  cases h with
  | cons hu h =>
      cases h
      exact ⟨_, hu, rfl⟩

theorem treeWithin_literal {p : Expr} {n : Int} (hp : p.wholeLiteral? = some n) (nesting : Nat) :
    Yields (treeWithin nesting ctx p) (· = .integer n) := by
  fun_induction wholeLiteral? p generalizing n nesting with
  | case1 q hint =>
      cases hp
      refine treeWithin_leaf (by simp) (fun inner => Yields.pure ?_) nesting
      have hden : q.den = 1 := by simpa [Rat.isInt] using hint
      rw [Expr.integer, Rat.den_eq_one_iff q |>.mp hden]
  | case2 q => cases hp
  | case3 x ih =>
      rcases Option.map_eq_some_iff.mp hp with ⟨m, hm, rfl⟩
      refine treeWithin_apply (R := fun _ y => y = .integer m) (by decide) rfl
        (fun y hy n => ?_) (fun ys hys n => ?_) nesting
      · rw [List.mem_singleton.mp hy]
        exact ih hm n
      · rcases eq_singleton_of_forall₂ hys with ⟨y, rfl, rfl⟩
        exact (nodeWithin_opposite ctx n m).mono fun y hy => by rw [hy, Expr.integer, Int.cast_neg]
  | case4 x ih =>
      refine treeWithin_apply (R := fun _ y => y = .integer n) (by decide) rfl
        (fun y hy k => ?_) (fun ys hys k => ?_) nesting
      · rw [List.mem_singleton.mp hy]
        exact ih hp k
      · rcases eq_singleton_of_forall₂ hys with ⟨y, rfl, rfl⟩
        exact nodeWithin_parenthesis ctx k n
  | case5 => cases hp

theorem treeWithin_spec [CharZero K] {x : Expr} (hdefinitions : ctx.definitions = {})
    (hadmitted : Admitted ctx.settings x) (hx : Defined ρ x) (nesting : Nat) :
    Yields (treeWithin nesting ctx x) (Represents ρ (x.value ρ)) := by
  have hkeeps := keepsValues_nodeWithin ρ ctx
  induction hx generalizing nesting with
  | rational q =>
      exact treeWithin_leaf (by simp)
        (fun inner => Yields.pure ⟨.rational q, rfl⟩) nesting
  | decimal h =>
      rename_i d q
      refine treeWithin_leaf (by simp) (fun inner => Yields.pure ?_) nesting
      rw [reduceDecimal, h]
      exact ⟨.rational q, by simp [value, h]⟩
  | constant c =>
      refine treeWithin_leaf (by simp) (fun inner => Yields.pure ?_) nesting
      rw [reduceConstant, if_neg]
      · exact ⟨.constant c, rfl⟩
      · intro hreal
        rw [Bool.and_eq_true, decide_eq_true_eq, decide_eq_true_eq] at hreal
        have hfalse := hadmitted.hasUnit_eq hreal.2
        rw [hreal.1] at hfalse
        cases hfalse
  | symbol name =>
      refine treeWithin_leaf (by simp) (fun inner => ?_) nesting
      have hvalue : ctx.definitions.value? name = none := by
        rw [hdefinitions]
        rfl
      have hsymbol : Represents ρ ((Expr.symbol name).value ρ) (.symbol name) :=
        ⟨.symbol name, rfl⟩
      have hpolicy : ctx.settings.symbolic ≠ .replaceAllSymbolsOrUndefined := fun hstrict =>
        List.cons_ne_nil _ _ (hadmitted.references_eq hstrict)
      simp only [reduceNode, symbol, hvalue, undefinedName, if_neg hpolicy]
      split <;> exact Yields.pure hsymbol
  | addition h ih =>
      refine treeWithin_apply (by decide) rfl (fun y hy n => ih y hy (hadmitted.operand hy) n)
        (fun ys hys n => ?_) nesting
      rcases represents_map_of_forall₂ hys with ⟨hnormal, hvalues⟩
      rw [value_addition, ← hvalues]
      exact (hkeeps n).sum hnormal
  | multiplication h ih =>
      refine treeWithin_apply (by decide) rfl (fun y hy n => ih y hy (hadmitted.operand hy) n)
        (fun ys hys n => ?_) nesting
      rcases represents_map_of_forall₂ hys with ⟨hnormal, hvalues⟩
      rw [value_multiplication, ← hvalues]
      exact (hkeeps n).product hnormal
  | subtraction hx hy ihx ihy =>
      refine treeWithin_apply (R := fun z => Represents ρ (z.value ρ)) (by decide) rfl
        (forall_mem_pair (ihx (hadmitted.operand (by simp))) (ihy (hadmitted.operand (by simp))))
        (fun zs hzs n => ?_) nesting
      rcases eq_pair_of_forall₂ hzs with ⟨u, v, hu, hv, rfl⟩
      exact nodeWithin_apply (forall_mem_pair hu.normal hv.normal)
        fun inner _ => reduceDifference_spec (hkeeps inner) hu hv
  | division hx hy hne ihx ihy =>
      refine treeWithin_apply (R := fun z => Represents ρ (z.value ρ)) (by decide) rfl
        (forall_mem_pair (ihx (hadmitted.operand (by simp))) (ihy (hadmitted.operand (by simp))))
        (fun zs hzs n => ?_) nesting
      rcases eq_pair_of_forall₂ hzs with ⟨u, v, hu, hv, rfl⟩
      exact nodeWithin_apply (forall_mem_pair hu.normal hv.normal)
        fun inner _ => reduceQuotient_spec (hkeeps inner) hu hv hne
  | opposite hx ih =>
      refine treeWithin_apply (R := fun z => Represents ρ (z.value ρ)) (by decide) rfl
        (List.forall_mem_singleton.mpr (ih (hadmitted.operand (by simp))))
        (fun zs hzs n => ?_) nesting
      rcases eq_singleton_of_forall₂ hzs with ⟨u, hu, rfl⟩
      exact nodeWithin_apply (List.forall_mem_singleton.mpr hu.normal)
        fun inner _ => negate_spec (hkeeps inner) hu
  | parenthesis hx ih =>
      refine treeWithin_apply (R := fun z => Represents ρ (z.value ρ)) (by decide) rfl
        (List.forall_mem_singleton.mpr (ih (hadmitted.operand (by simp))))
        (fun zs hzs n => ?_) nesting
      rcases eq_singleton_of_forall₂ hzs with ⟨u, hu, rfl⟩
      exact nodeWithin_apply (List.forall_mem_singleton.mpr hu.normal)
        fun inner _ => Yields.pure hu
  | power hx hp h ih =>
      rename_i x p n
      -- The base is known by its value, the exponent as a literal.
      have hoperand : ∀ z ∈ [x, p], ∀ k, Yields (treeWithin k ctx z) fun r =>
          (z = x → Represents ρ (x.value ρ) r) ∧
            (z.wholeLiteral? = some n → r = .integer n) := by
        intro z hz k b r b' hr
        refine ⟨fun hzx => ?_, fun hzn => treeWithin_literal hzn k b r b' hr⟩
        subst hzx
        exact ih (hadmitted.operand (by simp)) k b r b' hr
      refine treeWithin_apply (by decide) rfl hoperand (fun zs hzs k => ?_) nesting
      rcases eq_pair_of_forall₂ hzs with ⟨u, v, hu, hv, rfl⟩
      have hbase := hu.1 rfl
      rw [hv.2 hp]
      have hpower := (hkeeps k).power (n := n) hbase.normal (by rwa [hbase.value_eq])
      rw [hbase.value_eq] at hpower
      have hvalue : (Expr.apply .power [x, p]).value ρ = x.value ρ ^ n := by
        simp [value, hp]
      rw [hvalue]
      exact hpower

end Reduction

end PocketAlgebra
