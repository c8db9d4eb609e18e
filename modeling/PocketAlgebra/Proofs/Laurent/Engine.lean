import PocketAlgebra.Proofs.Field.Engine
import PocketAlgebra.Proofs.Laurent.Power

/-!
# Reduction of Laurent expressions

Sums, differences, products with a limited number of sums, quotients by multiples
of monomials and small powers of sums are reduced to canonical expressions:
first nodes over canonical operands, by induction on the depth of nesting, and
then whole trees, by induction on the tree.  Only where the settings reject names
without a definition, expressions with names become undefined.
-/

namespace PocketAlgebra

namespace Laurent

open PocketAlgebra.Expr Reduction

/-!
## Nodes at any depth of nesting
-/

variable {node : NodeReducer} {ctx : Context}

theorem reduceSum_forms {xs : List Expr} (h : ∀ x ∈ xs, Canonical x) :
    Yields (reduceSum node xs) Canonical := by
  have hterms := normal_flattenAll_addition fun x hx => (h x hx).normal
  rcases exists_summands_flattenAll h with ⟨ss, hss⟩
  rw [reduceSum, poison?_plain (forall_plain hterms)]
  simp only [any_isMatrix_plain (forall_plain hterms), Bool.false_eq_true, if_false]
  rw [hss]
  exact Yields.pure (canonical_sumOfScalars ss)

theorem reduceProduct_forms (hnode : KeepsForms node) {xs : List Expr}
    (h : ∀ x ∈ xs, Canonical x) (hsums : xs.countP isSum ≤ maxExpandedExponent) :
    Yields (reduceProduct node xs) Canonical := by
  have hfactors := normal_flattenAll_multiplication fun x hx => (h x hx).normal
  rcases flattenAll_multiplication h with ⟨hparts, hcount⟩
  rw [reduceProduct, poison?_plain (forall_plain hfactors)]
  simp only [any_isMatrix_plain (forall_plain hfactors), Bool.false_eq_true, if_false]
  exact productOfScalars_forms hnode hparts (hcount.trans_le hsums)

theorem reducePower_forms (ctx : Context) (hnode : KeepsForms node) {x : Expr} {n : Int}
    (hx : Canonical x) (hn : Raisable (x.value generic) n) :
    Yields (reducePower ctx node [x, .integer n]) Canonical := by
  have hgrid : Grid.ofExpr? x = none := by
    cases hx.normal <;> rfl
  have hexponent : (Expr.integer n).isMatrix = false := rfl
  simp only [reducePower, hexponent, hgrid, Bool.false_eq_true, if_false]
  exact powerOfScalars_forms ctx hnode hx hn

theorem keepsForms_nodeWithin (ctx : Context) (nesting : ℕ) :
    KeepsForms (nodeWithin nesting ctx) := by
  -- a node asks for nodes at a smaller depth only
  induction nesting using Nat.strongRecOn with
  | ind nesting ih =>
      refine ⟨keepsValues_nodeWithin generic ctx nesting, fun h => ?_, fun h hsums => ?_,
        fun hx hn => ?_⟩
      · exact nodeWithin_apply (fun x hx => (h x hx).normal) fun inner _ => reduceSum_forms h
      · exact nodeWithin_apply (fun x hx => (h x hx).normal)
          fun inner hlt => reduceProduct_forms (ih inner hlt) h hsums
      · exact nodeWithin_apply (forall_mem_pair hx.normal (normal_integer generic _))
          fun inner hlt => reducePower_forms ctx (ih inner hlt) hx hn

/-!
## Differences, opposites and quotients
-/

theorem countP_pair_le (x y : Expr) : [x, y].countP isSum ≤ maxExpandedExponent :=
  List.countP_le_length.trans (show 2 ≤ maxExpandedExponent by decide)

theorem negate_forms (hnode : KeepsForms node) {x : Expr} (hx : Canonical x) :
    Yields (negate node x) Canonical :=
  hnode.product (forall_mem_pair (.rational _) hx) (countP_pair_le _ _)

theorem reduceDifference_forms (hnode : KeepsForms node) {x y : Expr} (hx : Canonical x)
    (hy : Canonical y) : Yields (reduceDifference node [x, y]) Canonical :=
  (negate_forms hnode hy).bind fun _ hz => hnode.sum (forall_mem_pair hx hz)

theorem reduceQuotient_forms (hnode : KeepsForms node) {x y : Expr} (hx : Canonical x)
    (hy : Canonical y) (hn : Raisable (y.value generic) (-1)) :
    Yields (reduceQuotient node [x, y]) Canonical := by
  have hzero : ¬ y.isRational 0 = true := by
    intro h
    have hne := hn.pos_or_ne_zero.resolve_left (by decide)
    exact hne (by simp [isRational_iff.mp h])
  rw [reduceQuotient, if_neg hzero]
  exact (hnode.power hy hn).bind fun _ hz =>
    hnode.product (forall_mem_pair hx hz) (countP_pair_le _ _)

/-!
## Laurent expressions
-/

mutual

/-- Whether a sum or a difference occurs in a tree. -/
def containsSum : Expr → Bool
  | .apply f xs => f == .addition || f == .subtraction || containsSumAny xs
  | _ => false

def containsSumAny : List Expr → Bool
  | [] => false
  | x :: xs => containsSum x || containsSumAny xs

end

/-- Expressions that reduction brings into normal form.  A product has so many factors with sums in
them as the exponent of a power that is multiplied out, and the powers, of which quotients make use
too, are among those that reduction computes. -/
inductive Expandable : Expr → Prop
  | rational (q : Rat) : Expandable (.rational q)
  | decimal {d : Decimal} {q : Rat} (h : d.value = .finite q) : Expandable (.decimal d)
  | constant {c : Constant} (h : c ≠ .imaginaryUnit) : Expandable (.constant c)
  | symbol (name : String) : Expandable (.symbol name)
  | addition {xs : List Expr} (h : ∀ x ∈ xs, Expandable x) : Expandable (.apply .addition xs)
  | multiplication {xs : List Expr} (h : ∀ x ∈ xs, Expandable x)
      (hsums : xs.countP containsSum ≤ maxExpandedExponent) :
      Expandable (.apply .multiplication xs)
  | subtraction {x y : Expr} (hx : Expandable x) (hy : Expandable y) :
      Expandable (.apply .subtraction [x, y])
  | division {x y : Expr} (hx : Expandable x) (hy : Expandable y)
      (hn : Raisable (y.value generic) (-1)) : Expandable (.apply .division [x, y])
  | opposite {x : Expr} (hx : Expandable x) : Expandable (.apply .opposite [x])
  | parenthesis {x : Expr} (hx : Expandable x) : Expandable (.apply .parenthesis [x])
  | power {x p : Expr} {n : Int} (hx : Expandable x) (hp : p.wholeLiteral? = some n)
      (hn : Raisable (x.value generic) n) : Expandable (.apply .power [x, p])

namespace Expandable

theorem defined {x : Expr} (h : Expandable x) : Defined generic x := by
  induction h with
  | rational q => exact .rational q
  | decimal h => exact .decimal h
  | constant _ => exact .constant _
  | symbol name => exact .symbol name
  | addition _ ih => exact .addition ih
  | multiplication _ _ ih => exact .multiplication ih
  | subtraction _ _ ihx ihy => exact .subtraction ihx ihy
  | division _ _ hn ihx ihy =>
      exact .division ihx ihy (hn.pos_or_ne_zero.resolve_left (by decide))
  | opposite _ ih => exact .opposite ih
  | parenthesis _ ih => exact .parenthesis ih
  | power _ hp hn ih => exact .power ih hp hn.pos_or_ne_zero

theorem hasUnit_eq_false {x : Expr} (h : Expandable x) : x.hasUnit = false := by
  induction h with
  | rational q => rfl
  | decimal _ => rfl
  | constant h => exact beq_eq_false_iff_ne.mpr h
  | symbol name => rfl
  | addition _ ih => exact hasUnitAny_eq_false ih
  | multiplication _ _ ih => exact hasUnitAny_eq_false ih
  | subtraction _ _ ihx ihy => exact hasUnitAny_eq_false (forall_mem_pair ihx ihy)
  | division _ _ _ ihx ihy => exact hasUnitAny_eq_false (forall_mem_pair ihx ihy)
  | opposite _ ih => exact hasUnitAny_eq_false (List.forall_mem_singleton.mpr ih)
  | parenthesis _ ih => exact hasUnitAny_eq_false (List.forall_mem_singleton.mpr ih)
  | power _ hp _ ih =>
      exact hasUnitAny_eq_false (forall_mem_pair ih (hasUnit_of_wholeLiteral? hp))

theorem containsSum_of_mem {f : Operator} {xs : List Expr} {x : Expr} (hx : x ∈ xs)
    (h : containsSum (.apply f xs) = false) : containsSum x = false := by
  rw [containsSum, Bool.or_eq_false_iff] at h
  have hany := h.2
  clear h
  induction xs with
  | nil => cases hx
  | cons y ys ih =>
      rw [containsSumAny, Bool.or_eq_false_iff] at hany
      rcases List.mem_cons.mp hx with rfl | hx
      · exact hany.1
      · exact ih hx hany.2

/-- Without sums, an expression has the value of a single term. -/
theorem isTerm {x : Expr} (h : Expandable x) (hsum : containsSum x = false) :
    IsTerm (x.value generic) := by
  induction h with
  | rational q => exact .ratCast q
  | decimal h =>
      rw [value, h]
      exact .ratCast _
  | constant h =>
      rename_i c
      cases c with
      | imaginaryUnit => exact absurd rfl h
      | pi => exact ⟨_, _, rfl⟩
      | e => exact ⟨_, _, rfl⟩
  | symbol name => exact ⟨_, _, rfl⟩
  | addition _ _ => cases hsum
  | multiplication _ _ ih =>
      rw [value_multiplication]
      refine .prod fun v hv => ?_
      rcases List.mem_map.mp hv with ⟨y, hy, rfl⟩
      exact ih y hy (containsSum_of_mem hy hsum)
  | subtraction _ _ _ _ => cases hsum
  | division _ _ _ ihx ihy =>
      have hx := ihx (containsSum_of_mem (by simp) hsum)
      have hy := ihy (containsSum_of_mem (by simp) hsum)
      rw [value, div_eq_mul_inv, ← zpow_neg_one]
      exact hx.mul (hy.zpow _)
  | opposite _ ih =>
      have hx := ih (containsSum_of_mem (by simp) hsum)
      rw [value, ← neg_one_mul]
      have hone := (IsTerm.ratCast (-1)).mul hx
      rwa [Rat.cast_neg, Rat.cast_one] at hone
  | parenthesis _ ih => exact ih (containsSum_of_mem (by simp) hsum)
  | power _ hp _ ih =>
      rw [value]
      exact (ih (containsSum_of_mem (by simp) hsum)).zpow _

end Expandable

/-!
## Trees
-/

/-- A canonical expression with the value of an expression. -/
def Reduces (x r : Expr) : Prop :=
  Canonical r ∧ r.value generic = x.value generic

theorem countP_le_of_forall₂ {xs zs : List Expr} (hxs : ∀ x ∈ xs, Expandable x)
    (h : List.Forall₂ Reduces xs zs) : zs.countP isSum ≤ xs.countP containsSum := by
  induction h with
  | nil => exact le_rfl
  | cons hz _ ih =>
      rename_i x z xs zs _
      have htail := ih fun y hy => hxs y (List.mem_cons_of_mem x hy)
      -- a result that is a sum has several terms, so its operand contained a sum
      have hhead : isSum z = true → containsSum x = true := by
        intro hsum
        by_contra hcontains
        have hterm := (hxs x List.mem_cons_self).isTerm (Bool.eq_false_iff.mpr hcontains)
        rw [← hz.2, hz.1.isTerm_value_iff] at hterm
        exact hterm (eq_of_beq hsum)
      rw [List.countP_cons, List.countP_cons]
      by_cases hsum : isSum z = true
      · simp only [hsum, hhead hsum, if_true]
        omega
      · rw [if_neg hsum]
        exact htail.trans (Nat.le_add_right _ _)

theorem canonical_of_forall₂ {xs zs : List Expr} (h : List.Forall₂ Reduces xs zs) :
    ∀ z ∈ zs, Canonical z := by
  induction h with
  | nil => exact List.forall_mem_nil _
  | cons hz _ ih => exact List.forall_mem_cons.mpr ⟨hz.1, ih⟩

/-- The value of a result is known already, so what is left is its shape. -/
theorem reduces_of_canonical {x : Expr} (hdefinitions : ctx.definitions = {})
    (hadmitted : Admitted ctx.settings x) (hx : Expandable x) {nesting : ℕ}
    (h : Yields (treeWithin nesting ctx x) Canonical) :
    Yields (treeWithin nesting ctx x) (Reduces x) :=
  h.and ((treeWithin_spec hdefinitions hadmitted hx.defined nesting).mono fun _ hr => hr.value_eq)

/-- Laurent expressions are reduced to canonical expressions. -/
theorem treeWithin_forms {x : Expr} (hdefinitions : ctx.definitions = {})
    (hadmitted : Admitted ctx.settings x) (hx : Expandable x) (nesting : ℕ) :
    Yields (treeWithin nesting ctx x) (Reduces x) := by
  have hforms := keepsForms_nodeWithin ctx
  induction hx generalizing nesting with
  | rational q =>
      refine reduces_of_canonical hdefinitions hadmitted (.rational q) ?_
      exact treeWithin_leaf (by simp) (fun inner => Yields.pure (.rational q)) nesting
  | decimal h =>
      refine reduces_of_canonical hdefinitions hadmitted (.decimal h) ?_
      refine treeWithin_leaf (by simp) (fun inner => Yields.pure ?_) nesting
      rw [reduceDecimal, h]
      exact .rational _
  | constant h =>
      rename_i c
      refine reduces_of_canonical hdefinitions hadmitted (.constant h) ?_
      refine treeWithin_leaf (by simp) (fun inner => Yields.pure ?_) nesting
      rw [reduceConstant, if_neg (by simp [h])]
      cases c with
      | imaginaryUnit => exact absurd rfl h
      | pi => exact canonical_indeterminate .pi
      | e => exact canonical_indeterminate .e
  | symbol name =>
      refine reduces_of_canonical hdefinitions hadmitted (.symbol name) ?_
      refine treeWithin_leaf (by simp) (fun inner => ?_) nesting
      have hvalue : ctx.definitions.value? name = none := by
        rw [hdefinitions]
        rfl
      have hpolicy : ctx.settings.symbolic ≠ .replaceAllSymbolsOrUndefined := fun hstrict =>
        List.cons_ne_nil _ _ (hadmitted.references_eq hstrict)
      simp only [reduceNode, Reduction.symbol, hvalue, undefinedName, if_neg hpolicy]
      have hsymbol := canonical_indeterminate (.symbol name)
      split <;> exact Yields.pure hsymbol
  | addition h ih =>
      refine reduces_of_canonical hdefinitions hadmitted (.addition h) ?_
      refine treeWithin_apply (by decide) rfl (fun y hy n => ih y hy (hadmitted.operand hy) n)
        (fun ys hys n => ?_) nesting
      exact (hforms n).sum (canonical_of_forall₂ hys)
  | multiplication h hsums ih =>
      refine reduces_of_canonical hdefinitions hadmitted (.multiplication h hsums) ?_
      refine treeWithin_apply (by decide) rfl (fun y hy n => ih y hy (hadmitted.operand hy) n)
        (fun ys hys n => ?_) nesting
      exact (hforms n).product (canonical_of_forall₂ hys)
        ((countP_le_of_forall₂ h hys).trans hsums)
  | subtraction hx hy ihx ihy =>
      refine reduces_of_canonical hdefinitions hadmitted (.subtraction hx hy) ?_
      refine treeWithin_apply (by decide) rfl
        (forall_mem_pair (ihx (hadmitted.operand (by simp))) (ihy (hadmitted.operand (by simp))))
        (fun zs hzs n => ?_) nesting
      rcases eq_pair_of_forall₂ hzs with ⟨u, v, hu, hv, rfl⟩
      exact nodeWithin_apply (forall_mem_pair hu.1.normal hv.1.normal)
        fun inner _ => reduceDifference_forms (hforms inner) hu.1 hv.1
  | division hx hy hn ihx ihy =>
      refine reduces_of_canonical hdefinitions hadmitted (.division hx hy hn) ?_
      refine treeWithin_apply (by decide) rfl
        (forall_mem_pair (ihx (hadmitted.operand (by simp))) (ihy (hadmitted.operand (by simp))))
        (fun zs hzs n => ?_) nesting
      rcases eq_pair_of_forall₂ hzs with ⟨u, v, hu, hv, rfl⟩
      rw [← hv.2] at hn
      exact nodeWithin_apply (forall_mem_pair hu.1.normal hv.1.normal)
        fun inner _ => reduceQuotient_forms (hforms inner) hu.1 hv.1 hn
  | opposite hx ih =>
      refine reduces_of_canonical hdefinitions hadmitted (.opposite hx) ?_
      refine treeWithin_apply (by decide) rfl
        (List.forall_mem_singleton.mpr (ih (hadmitted.operand (by simp))))
        (fun zs hzs n => ?_) nesting
      rcases eq_singleton_of_forall₂ hzs with ⟨u, hu, rfl⟩
      exact nodeWithin_apply (List.forall_mem_singleton.mpr hu.1.normal)
        fun inner _ => negate_forms (hforms inner) hu.1
  | parenthesis hx ih =>
      refine reduces_of_canonical hdefinitions hadmitted (.parenthesis hx) ?_
      refine treeWithin_apply (by decide) rfl
        (List.forall_mem_singleton.mpr (ih (hadmitted.operand (by simp))))
        (fun zs hzs n => ?_) nesting
      rcases eq_singleton_of_forall₂ hzs with ⟨u, hu, rfl⟩
      exact nodeWithin_apply (List.forall_mem_singleton.mpr hu.1.normal)
        fun inner _ => Yields.pure hu.1
  | power hx hp hn ih =>
      rename_i x p m
      refine reduces_of_canonical hdefinitions hadmitted (.power hx hp hn) ?_
      -- the exponent is a literal, which reduction turns into an integer
      have hoperand : ∀ z ∈ [x, p], ∀ k, Yields (treeWithin k ctx z) fun r =>
          (z = x → Reduces x r) ∧ (z.wholeLiteral? = some m → r = .integer m) := by
        intro z hz k b r b' hr
        refine ⟨fun hzx => ?_, fun hzm => treeWithin_literal hzm k b r b' hr⟩
        subst hzx
        exact ih (hadmitted.operand (by simp)) k b r b' hr
      refine treeWithin_apply (by decide) rfl hoperand (fun zs hzs k => ?_) nesting
      rcases eq_pair_of_forall₂ hzs with ⟨u, v, hu, hv, rfl⟩
      rcases hu.1 rfl with ⟨hcanonical, hvalue⟩
      rw [hv.2 hp]
      rw [← hvalue] at hn
      exact (hforms k).power hcanonical hn

/-!
## Names without a definition
-/

theorem references_of_wholeLiteral? {p : Expr} {n : Int} (hp : p.wholeLiteral? = some n) :
    p.references none = [] := by
  fun_induction wholeLiteral? p generalizing n with
  | case1 q hint => rfl
  | case2 q hint => rfl
  | case3 x ih =>
      rcases Option.map_eq_some_iff.mp hp with ⟨m, hm, -⟩
      rw [references, referencesAll, ih hm]
      · rfl
      · simp
  | case4 x ih =>
      rw [references, referencesAll, ih hp]
      · rfl
      · simp
  | case5 => cases hp

/-- An undefined operand makes a node undefined, unless the node keeps its operands as entries. -/
theorem nodeWithin_undefined {f : Operator} {xs : List Expr} (hlist : f ≠ .list)
    (hmatrix : f.kind ≠ .matrix) (h : Expr.undefined ∈ xs) (nesting : ℕ) :
    Yields (nodeWithin nesting ctx (.apply f xs)) (· = .undefined) := by
  have hpoison : poison? xs = some .undefined :=
    if_pos (List.any_eq_true.mpr ⟨.undefined, h, rfl⟩)
  have hspoiled : spoiled? f xs = some .undefined := by
    rw [spoiled?]
    split
    · rfl
    · simp [hlist, hmatrix, hpoison]
  exact nodeWithin_spoiled (P := (· = .undefined)) hspoiled rfl nesting

theorem treeWithin_undefined_operand {f : Operator} {xs : List Expr} (hstore : f ≠ .store)
    (hscope : f.kind.isParametered = false) (hlist : f ≠ .list) (hmatrix : f.kind ≠ .matrix)
    (hxs : ∀ x ∈ xs, x.references none ≠ [] → ∀ n, Yields (treeWithin n ctx x) (· = .undefined))
    (hnames : referencesAll none xs ≠ []) (nesting : ℕ) :
    Yields (treeWithin nesting ctx (.apply f xs)) (· = .undefined) := by
  refine treeWithin_apply (R := fun x y => x.references none ≠ [] → y = .undefined) hstore hscope
    (fun x hx n b r b' hr hne => hxs x hx hne n b r b' hr) (fun ys hys n => ?_) nesting
  refine nodeWithin_undefined hlist hmatrix ?_ n
  have hexists : ∃ x ∈ xs, x.references none ≠ [] := by
    simpa [referencesAll_eq_nil_iff] using hnames
  rcases hexists with ⟨x, hx, hne⟩
  clear hxs hnames
  induction hys with
  | nil => cases hx
  | cons hy _ ih =>
      rcases List.mem_cons.mp hx with rfl | hx
      · rw [hy hne]
        exact List.mem_cons_self
      · exact List.mem_cons_of_mem _ (ih hx)

/-- The strictest policy makes expressions with names undefined. -/
theorem treeWithin_undefined {x : Expr} (hdefinitions : ctx.definitions = {})
    (hbound : ctx.bound = []) (hstrict : ctx.settings.symbolic = .replaceAllSymbolsOrUndefined)
    (hx : Expandable x) (hnames : x.references none ≠ []) (nesting : ℕ) :
    Yields (treeWithin nesting ctx x) (· = .undefined) := by
  induction hx generalizing nesting with
  | rational q => exact absurd rfl hnames
  | decimal h => exact absurd rfl hnames
  | constant h => exact absurd rfl hnames
  | symbol name =>
      refine treeWithin_leaf (by simp) (fun inner => ?_) nesting
      have hvalue : ctx.definitions.value? name = none := by
        rw [hdefinitions]
        rfl
      simp only [reduceNode, Reduction.symbol, hvalue, undefinedName, hbound, hstrict]
      exact Yields.pure rfl
  | addition _ ih =>
      exact treeWithin_undefined_operand (by decide) rfl (by decide) (by decide) ih hnames nesting
  | multiplication _ _ ih =>
      exact treeWithin_undefined_operand (by decide) rfl (by decide) (by decide) ih hnames nesting
  | subtraction _ _ ihx ihy =>
      exact treeWithin_undefined_operand (by decide) rfl (by decide) (by decide)
        (forall_mem_pair ihx ihy) hnames nesting
  | division _ _ _ ihx ihy =>
      exact treeWithin_undefined_operand (by decide) rfl (by decide) (by decide)
        (forall_mem_pair ihx ihy) hnames nesting
  | opposite _ ih =>
      exact treeWithin_undefined_operand (by decide) rfl (by decide) (by decide)
        (List.forall_mem_singleton.mpr ih) hnames nesting
  | parenthesis _ ih =>
      exact treeWithin_undefined_operand (by decide) rfl (by decide) (by decide)
        (List.forall_mem_singleton.mpr ih) hnames nesting
  | power _ hp _ ih =>
      refine treeWithin_undefined_operand (by decide) rfl (by decide) (by decide)
        (forall_mem_pair ih fun hne => ?_) hnames nesting
      exact absurd (references_of_wholeLiteral? hp) hne

/-!
## Results
-/

/-- A canonical expression in the form that the settings ask for. -/
def present (settings : Settings) (r : Expr) : Expr :=
  if settings.target = .user then beautify r else r

theorem present_of_ne {settings : Settings} (h : settings.target ≠ .user) (r : Expr) :
    present settings r = r :=
  if_neg h

theorem present_of_user {settings : Settings} (h : settings.target = .user) (r : Expr) :
    present settings r = beautify r :=
  if_pos h

section

variable {settings : Settings} {room : ℕ} {breaker : Breaker} {x r : Expr}

theorem exists_present {P : Expr → Prop}
    (h : Yields (treeWithin maxNesting ⟨settings, {}, room, []⟩ x) P)
    (hr : x.reduce ⟨settings, {}, room, []⟩ breaker = .ok r) :
    ∃ c, P c ∧ r = present settings c :=
  exists_of_reduce h hr

/-- The result of reducing a Laurent expression without definitions is its canonical expression, in
the form that the settings ask for. -/
theorem exists_reduces
    (hnames : settings.symbolic = .replaceAllSymbolsOrUndefined → x.references none = [])
    (hx : Expandable x) (hr : x.reduce ⟨settings, {}, room, []⟩ breaker = .ok r) :
    ∃ c, Reduces x c ∧ r = present settings c :=
  exists_present (treeWithin_forms rfl ⟨fun _ => hx.hasUnit_eq_false, hnames⟩ hx maxNesting) hr

theorem eq_undefined_of_names (hstrict : settings.symbolic = .replaceAllSymbolsOrUndefined)
    (hnames : x.references none ≠ []) (hx : Expandable x)
    (hr : x.reduce ⟨settings, {}, room, []⟩ breaker = .ok r) : r = .undefined := by
  rcases exists_present (treeWithin_undefined rfl rfl hstrict hx hnames maxNesting) hr
    with ⟨c, rfl, rfl⟩
  rw [present]
  split <;> rfl

end

/-- The canonical expression of a Laurent expression is told by its value. -/
theorem Reduces.eq_of_value_eq {x y r s : Expr} (hr : Reduces x r) (hs : Reduces y s)
    (h : x.value generic = y.value generic) : r = s :=
  hr.1.eq_of_value_eq hs.1 (hr.2.trans (h.trans hs.2.symm))

end Laurent

end PocketAlgebra
