import PocketAlgebra.Proofs.Evaluation.Names
import PocketAlgebra.Proofs.Field.Engine

/-!
# Reductions beside evaluations

What an evaluation comes to that nothing stops, and when a reduction comes to the same. The
operators of arithmetic keep this: from operands that are reduced and evaluated to the same rational
numbers they make the same number on both sides. Where an operand is evaluated to no number, its
reduction may come to anything.
-/

namespace PocketAlgebra

open PocketAlgebra.Expr Reduction

namespace Approximation

/-! ## Sums and products of rational numbers -/

theorem combineKnown_sum {qs : List Rat} (hqs : qs ≠ []) :
    combineKnown (· + ·) (qs.map some) = some qs.sum := by
  cases qs with
  | nil => exact absurd rfl hqs
  | cons q qs =>
      rw [combineKnown_map_some, List.sum_eq_foldl, List.foldl_cons, zero_add]

theorem combineKnown_product {qs : List Rat} (hqs : qs ≠ []) :
    combineKnown (· * ·) (qs.map some) = some qs.prod := by
  cases qs with
  | nil => exact absurd rfl hqs
  | cons q qs =>
      rw [combineKnown_map_some, List.prod_eq_foldl, List.foldl_cons, one_mul]

/-! ## Evaluations that nothing stops -/

/-- What a computation gives under a breaker that stops nothing. -/
def Gives {α : Type} (m : ApproximateM α) (a : α) : Prop :=
  m {} = some (a, {})

theorem Gives.pure {α : Type} (a : α) : Gives (Pure.pure a) a :=
  rfl

theorem Gives.bind {α β : Type} {m : ApproximateM α} {k : α → ApproximateM β} {a : α} {b : β}
    (hm : Gives m a) (hk : Gives (k a) b) : Gives (m >>= k) b := by
  change (m {}).bind (fun s => k s.1 s.2) = some (b, {})
  rw [hm]
  exact hk

/-- An evaluation comes to a rational number, or to none. -/
def Shows (m : ApproximateM (Evaluation ExactNumber)) (v : Option Rat) : Prop :=
  Gives m (.scalar (exactly v))

theorem Shows.complex {m : ApproximateM (Evaluation ExactNumber)} {v : Option Rat}
    (h : Shows m v) : Gives (Evaluation.toComplex <$> m) (exactly v) := by
  rw [map_eq_pure_bind]
  exact h.bind (.pure _)

theorem shows_mapM {ι : Type} {k : ι → ApproximateM (Evaluation ExactNumber)} {is : List ι}
    {vs : List (Option Rat)} (h : List.Forall₂ (fun i v => Shows (k i) v) is vs) :
    Gives (is.mapM k) (vs.map fun v => .scalar (exactly v)) := by
  induction h with
  | nil =>
      rw [List.mapM_nil]
      exact .pure []
  | cons hi _ ih =>
      rw [List.mapM_cons]
      exact hi.bind (ih.bind (.pure _))

section Operators

variable {ctx : Context} {expand : Expr → Evaluator ExactNumber} {scope : Scope ExactNumber}
  {f : Operator} {x : Expr} {xs : List Expr} {v w : Option Rat} {vs : List (Option Rat)}

theorem shows_polled {m : ApproximateM (Evaluation ExactNumber)} (h : Shows m v) :
    Shows (checkBreaker >>= fun _ => m) v :=
  Gives.bind (a := ()) rfl h

theorem shows_apply
    (h : Shows (evaluateApply ctx expand f (operandsOf ctx expand xs) scope) v) :
    Shows (evaluateTree ctx expand (.apply f xs) scope) v := by
  rw [evaluateTree]
  exact shows_polled h

/-- Operands that are combined from the left. -/
theorem shows_ofAll {g : Evaluation ExactNumber → Evaluation ExactNumber → Evaluation ExactNumber}
    {combine : Rat → Rat → Rat} (hg : ∀ a b, g (.scalar (exactly a)) (.scalar (exactly b)) =
      .scalar (exactly (a.bind fun p => b.map (combine p))))
    (h : List.Forall₂ (fun x v => Shows (evaluateTree ctx expand x scope) v) xs vs) :
    Shows (ofAll g (operandsOf ctx expand xs) scope) (combineKnown combine vs) := by
  rw [operandsOf_eq_map, ofAll, List.mapM_map]
  refine (shows_mapM h).bind ?_
  cases vs with
  | nil => exact .pure _
  | cons v vs =>
      have hfold := foldl_exactly hg vs v
      rw [List.map_cons, ← hfold]
      exact .pure _

/-- The first operand, which some function is applied to. -/
theorem shows_ofFirst {g : Evaluation ExactNumber → Evaluation ExactNumber}
    (hg : g (.scalar (exactly v)) = .scalar (exactly w))
    (hx : Shows (evaluateTree ctx expand x scope) v) :
    Shows (ofFirst g (operandsOf ctx expand [x]) scope) w := by
  refine Gives.bind hx ?_
  rw [hg]
  exact .pure _

theorem shows_difference {y : Expr} (hx : Shows (evaluateTree ctx expand x scope) v)
    (hy : Shows (evaluateTree ctx expand y scope) w) :
    Shows (ofTwo .subtract (operandsOf ctx expand [x, y]) scope)
      (v.bind fun p => (w.map (- ·)).map (p + ·)) := by
  refine Gives.bind hx (Gives.bind hy ?_)
  rw [← plus_exactly, ← neg_exactly]
  exact .pure _

/-- A call evaluates its argument, also where the function has no definition. -/
theorem shows_userFunction_of_none {name : String}
    (hfunction : ctx.definitions.function? name = none)
    (h : List.Forall₂ (fun x v => Shows (evaluateTree ctx expand x scope) v) xs vs) :
    Shows (userFunction ctx expand name (operandsOf ctx expand xs) scope) none := by
  cases h with
  | nil => exact .pure _
  | cons hx _ =>
      refine Gives.bind hx.complex ?_
      simp only [hfunction]
      split <;> exact .pure _

theorem shows_userFunction {name parameter : String} {body : Expr}
    (hname : name ∉ scope.expanding)
    (hfunction : ctx.definitions.function? name = some (parameter, body))
    (hx : Shows (evaluateTree ctx expand x scope) v)
    (hbody : Shows (expand body ((scope.expand name).bind parameter (exactly v))) w) :
    Shows (userFunction ctx expand name (operandsOf ctx expand [x]) scope) w := by
  refine Gives.bind hx.complex ?_
  rw [if_neg (by simpa using hname), hfunction]
  exact hbody

end Operators

/-! ## Reductions beside evaluations -/

/-- A reduced expression is the rational number that it is evaluated to. Where it is evaluated to
none, some definition is not suitable. -/
def Meets (whole : Prop) (v : Option Rat) (y : Expr) : Prop :=
  (∃ q, v = some q ∧ y = .rational q) ∨ (v = none ∧ ¬ whole)

/-- What an expression is reduced to, beside its evaluation. -/
def Settles (whole : Prop) (m : ApproximateM (Evaluation ExactNumber)) (y : Expr) : Prop :=
  y.kind.isPoison = true ∨ ∃ v, Shows m v ∧ Meets whole v y

/-- An expression is reduced to what it is evaluated to. -/
def Agree (whole : Prop) (ctx : Reduction.Context) (m : ApproximateM (Evaluation ExactNumber))
    (z : Expr) : Prop :=
  ∀ nesting, Yields (treeWithin nesting ctx z) (Settles whole m)

variable {whole : Prop} {ctx : Reduction.Context} {f : Operator} {x y z : Expr} {xs ys : List Expr}
  {v : Option Rat} {vs : List (Option Rat)} {m m' : ApproximateM (Evaluation ExactNumber)}
  {σ : Option (String × Expr)} {P : Expr → Prop}

theorem Settles.congr (h : Settles whole m y) (hm : ∀ v, Shows m v → Shows m' v) :
    Settles whole m' y := by
  rcases h with hpoison | ⟨v, hv, hmeets⟩
  · exact .inl hpoison
  · exact .inr ⟨v, hm v hv, hmeets⟩

theorem settles_none (hm : Shows m none) (hwhole : ¬ whole) (y : Expr) : Settles whole m y :=
  .inr ⟨none, hm, .inr ⟨rfl, hwhole⟩⟩

theorem yields_trivial {α : Type} {Q : α → Prop} (m : ReduceM α) (h : ∀ a, Q a) : Yields m Q :=
  fun _ a _ _ => h a

/-- Reduced operands are rational numbers, as long as all of them are evaluated to some. -/
theorem rationals_of_meets (h : List.Forall₂ (Meets whole) vs ys) :
    (none ∈ vs ∧ ¬ whole) ∨ ∃ qs : List Rat, vs = qs.map some ∧ ys = qs.map .rational := by
  induction h with
  | nil => exact .inr ⟨[], rfl, rfl⟩
  | cons hy _ ih =>
      rcases hy with ⟨q, rfl, rfl⟩ | ⟨rfl, hwhole⟩
      · rcases ih with ⟨hmem, hwhole⟩ | ⟨qs, rfl, rfl⟩
        · exact .inl ⟨List.mem_cons_of_mem _ hmem, hwhole⟩
        · exact .inr ⟨q :: qs, rfl, rfl⟩
      · exact .inl ⟨List.mem_cons_self, hwhole⟩

theorem meets_of_settles {k : Expr → ApproximateM (Evaluation ExactNumber)}
    (h : List.Forall₂ (fun x y => Settles whole (k x) y) xs ys)
    (hsound : ∀ y ∈ ys, y.kind.isPoison = false) :
    ∃ vs, List.Forall₂ (fun x v => Shows (k x) v) xs vs ∧ List.Forall₂ (Meets whole) vs ys := by
  induction h with
  | nil => exact ⟨[], .nil, .nil⟩
  | cons hy _ ih =>
      rcases List.forall_mem_cons.mp hsound with ⟨hfirst, hrest⟩
      rcases ih hrest with ⟨vs, hshows, hmeets⟩
      rcases hy with hpoison | ⟨v, hv, hmeet⟩
      · rw [hfirst] at hpoison
        cases hpoison
      · exact ⟨v :: vs, .cons hv hshows, .cons hmeet hmeets⟩

theorem poison?_of_mem (hy : y ∈ ys) (hpoison : y.kind.isPoison = true) :
    ∃ r, poison? ys = some r ∧ r.kind.isPoison = true := by
  rw [poison?]
  split
  · exact ⟨_, rfl, rfl⟩
  · rename_i hundefined
    rw [if_pos]
    · exact ⟨_, rfl, rfl⟩
    · rw [List.any_eq_true]
      refine ⟨y, hy, ?_⟩
      have hother : ¬ (y.kind == .undefined) = true := fun h =>
        hundefined (List.any_eq_true.mpr ⟨y, hy, h⟩)
      cases hkind : y.kind <;> simp_all [Kind.isPoison]

/-- A poisoned operand poisons the node over it. -/
theorem nodeWithin_poison (hlist : f ≠ .list) (hmatrix : f.kind ≠ .matrix) (hy : y ∈ ys)
    (hpoison : y.kind.isPoison = true) (nesting : Nat) :
    Yields (nodeWithin nesting ctx (.apply f ys)) (·.kind.isPoison = true) := by
  have hspoiled : ∃ r, spoiled? f ys = some r ∧ r.kind.isPoison = true := by
    rw [spoiled?]
    split
    · exact ⟨_, rfl, rfl⟩
    · rw [if_neg (by simp [hlist, hmatrix])]
      rcases poison?_of_mem hy hpoison with ⟨r, hr, hpoisoned⟩
      exact ⟨r, by rw [hr]; rfl, hpoisoned⟩
  rcases hspoiled with ⟨r, hr, hpoison⟩
  exact nodeWithin_spoiled hr hpoison nesting

/-! ## Operators -/

section Trees

variable {context : Approximation.Context} {expand : Expr → Evaluator ExactNumber}
  {scope : Scope ExactNumber}

/-- A node over operands that agree. A poisoned operand poisons the node, so that the others may be
taken for what they are evaluated to. -/
theorem agree_operands (hstore : f ≠ .store) (hlist : f ≠ .list) (hmatrix : f.kind ≠ .matrix)
    (hscope : f.kind.isParametered = false)
    (hxs : ∀ x ∈ xs, Agree whole ctx (evaluateTree context expand x scope) (fill σ x))
    (hnode : ∀ vs ys,
      List.Forall₂ (fun x v => Shows (evaluateTree context expand x scope) v) xs vs →
      List.Forall₂ (Meets whole) vs ys → ∀ n,
      Yields (nodeWithin n ctx (.apply f ys)) (Settles whole m)) :
    Agree whole ctx m (fill σ (.apply f xs)) := by
  intro nesting
  rw [fill_apply σ hscope]
  refine treeWithin_map hstore hscope hxs (fun ys hys n => ?_) nesting
  by_cases hpoison : ∃ y ∈ ys, y.kind.isPoison = true
  · rcases hpoison with ⟨y, hy, hpoison⟩
    exact (nodeWithin_poison hlist hmatrix hy hpoison n).mono fun _ h => .inl h
  · rcases meets_of_settles hys fun y hy => Bool.eq_false_iff.mpr fun h => hpoison ⟨y, hy, h⟩ with
      ⟨vs, hshows, hmeets⟩
    exact hnode vs ys hshows hmeets n

/-- An arithmetic operator agrees where it does so on rational numbers, and where its evaluation
passes on that there is no number. -/
theorem agree_arithmetic (hf : f ∈ [.addition, .multiplication, .subtraction, .opposite,
      .parenthesis])
    (hxs : ∀ x ∈ xs, Agree whole ctx (evaluateTree context expand x scope) (fill σ x))
    (hnone : ∀ vs, List.Forall₂ (fun x v => Shows (evaluateTree context expand x scope) v) xs vs →
      none ∈ vs → Shows (evaluateApply context expand f (operandsOf context expand xs) scope) none)
    (hsome : ∀ qs : List Rat,
      List.Forall₂ (fun x v => Shows (evaluateTree context expand x scope) v) xs (qs.map some) →
      ∀ n, Yields (nodeWithin n ctx (.apply f (qs.map .rational)))
        (Settles whole (evaluateApply context expand f (operandsOf context expand xs) scope))) :
    Agree whole ctx (evaluateTree context expand (.apply f xs) scope) (fill σ (.apply f xs)) := by
  have hplain : f ≠ .store ∧ f ≠ .list ∧ f.kind ≠ .matrix ∧ f.kind.isParametered = false := by
    simp only [List.mem_cons, List.not_mem_nil, or_false] at hf
    rcases hf with rfl | rfl | rfl | rfl | rfl <;> decide
  refine agree_operands hplain.1 hplain.2.1 hplain.2.2.1 hplain.2.2.2 hxs
    fun vs ys hshows hmeets n => ?_
  rcases rationals_of_meets hmeets with ⟨hmem, hwhole⟩ | ⟨qs, rfl, rfl⟩
  · exact yields_trivial _ (settles_none (shows_apply (hnone vs hshows hmem)) hwhole)
  · exact (hsome qs hshows n).mono fun y hy => hy.congr fun v hv => shows_apply hv

theorem settles_rational {q : Rat} (hm : Shows m (some q)) (hy : y = .rational q) :
    Settles whole m y :=
  .inr ⟨some q, hm, .inl ⟨q, rfl, hy⟩⟩

/-- Sums and products. -/
theorem agree_combined
    {g : Evaluation ExactNumber → Evaluation ExactNumber → Evaluation ExactNumber}
    {combine : Rat → Rat → Rat} {total : List Rat → Rat}
    (hf : f ∈ [.addition, .multiplication, .subtraction, .opposite, .parenthesis])
    (hg : ∀ a b, g (.scalar (exactly a)) (.scalar (exactly b)) =
      .scalar (exactly (a.bind fun p => b.map (combine p))))
    (hall : evaluateApply context expand f (operandsOf context expand xs) =
      ofAll g (operandsOf context expand xs))
    (htotal : ∀ qs : List Rat, qs ≠ [] → combineKnown combine (qs.map some) = some (total qs))
    (hrational : ∀ n qs, Yields (nodeWithin n ctx (.apply f (qs.map .rational)))
      (· = .rational (total qs)))
    (hempty : xs = [] → ¬ whole)
    (hxs : ∀ x ∈ xs, Agree whole ctx (evaluateTree context expand x scope) (fill σ x)) :
    Agree whole ctx (evaluateTree context expand (.apply f xs) scope) (fill σ (.apply f xs)) := by
  refine agree_arithmetic hf hxs (fun vs hshows hmem => ?_) fun qs hshows n => ?_
  · rw [hall, ← combineKnown_of_none combine hmem]
    exact shows_ofAll hg hshows
  · have htotalled := shows_ofAll hg hshows
    rw [← hall] at htotalled
    by_cases hqs : qs = []
    · subst hqs
      have hnil : xs = [] := List.length_eq_zero_iff.mp hshows.length_eq
      exact yields_trivial _ (settles_none htotalled (hempty hnil))
    · rw [htotal qs hqs] at htotalled
      exact (hrational n qs).mono fun y hy => settles_rational htotalled hy

theorem agree_difference (hx : Agree whole ctx (evaluateTree context expand x scope) (fill σ x))
    (hy : Agree whole ctx (evaluateTree context expand y scope) (fill σ y)) :
    Agree whole ctx (evaluateTree context expand (.apply .subtraction [x, y]) scope)
      (fill σ (.apply .subtraction [x, y])) := by
  have hxs : ∀ z ∈ [x, y], Agree whole ctx (evaluateTree context expand z scope) (fill σ z) :=
    forall_mem_pair hx hy
  refine agree_arithmetic (by simp) hxs (fun vs hshows hmem => ?_) fun qs hshows n => ?_
  · rcases eq_pair_of_forall₂ hshows with ⟨u, v, hu, hv, rfl⟩
    have hdifference := shows_difference hu hv
    have hnone : (u.bind fun p => (v.map (- ·)).map (p + ·)) = none := by
      rcases List.mem_pair.mp hmem with rfl | rfl
      · rfl
      · cases u <;> rfl
    rwa [hnone] at hdifference
  · rcases eq_pair_of_forall₂ hshows with ⟨u, v, hu, hv, heq⟩
    match qs with
    | [p, q] =>
        cases heq
        exact (nodeWithin_difference ctx n p q).mono fun z hz =>
          settles_rational (shows_difference hu hv) hz

/-- Opposites and parentheses. -/
theorem agree_first {g : Evaluation ExactNumber → Evaluation ExactNumber} {value : Rat → Rat}
    (hf : f ∈ [.addition, .multiplication, .subtraction, .opposite, .parenthesis])
    (hg : ∀ a, g (.scalar (exactly a)) = .scalar (exactly (a.map value)))
    (hfirst : evaluateApply context expand f (operandsOf context expand [x]) =
      ofFirst g (operandsOf context expand [x]))
    (hrational : ∀ n q, Yields (nodeWithin n ctx (.apply f [.rational q]))
      (· = .rational (value q)))
    (hx : Agree whole ctx (evaluateTree context expand x scope) (fill σ x)) :
    Agree whole ctx (evaluateTree context expand (.apply f [x]) scope)
      (fill σ (.apply f [x])) := by
  refine agree_arithmetic hf (List.forall_mem_singleton.mpr hx) (fun vs hshows hmem => ?_)
    fun qs hshows n => ?_
  · rcases eq_singleton_of_forall₂ hshows with ⟨v, hv, rfl⟩
    rw [← List.mem_singleton.mp hmem] at hv
    rw [hfirst]
    exact shows_ofFirst (hg none) hv
  · rcases eq_singleton_of_forall₂ hshows with ⟨v, hv, heq⟩
    match qs with
    | [q] =>
        cases heq
        have hfirstShown := shows_ofFirst (hg (some q)) hv
        rw [← hfirst] at hfirstShown
        exact (hrational n q).mono fun y hy => settles_rational hfirstShown hy

end Trees

end Approximation

end PocketAlgebra
