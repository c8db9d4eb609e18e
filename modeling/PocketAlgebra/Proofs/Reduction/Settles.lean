import Mathlib.Data.List.FinRange
import Mathlib.Order.Filter.AtTopBot.Basic
import PocketAlgebra.Proofs.Field.Engine
import PocketAlgebra.Proofs.Interruption.Reduction

/-!
# Reductions with room enough

A step of a reduction may fail for want of memory, or because it is interrupted. `Settles` says that
it has a given result wherever there is room enough and nothing stops it. Since more room, deeper
nesting and a breaker that lasts longer change no result, a reduction that settles has no other
result under any circumstances.
-/

namespace PocketAlgebra

namespace Reduction

open Filter PocketAlgebra.Expr

/-- A step has the given result wherever there is room enough and nothing stops it. -/
def Settles {α : Type} (m : Nat → ReduceM α) (a : α) : Prop :=
  ∀ᶠ room in atTop, m room {} = .ok (a, {})

namespace Settles

variable {α β : Type}

theorem pure (a : α) : Settles (fun _ => Pure.pure a) a :=
  Eventually.of_forall fun _ => rfl

theorem bind {m : Nat → ReduceM α} {k : Nat → α → ReduceM β} {a : α} {b : β} (hm : Settles m a)
    (hk : Settles (fun room => k room a) b) : Settles (fun room => m room >>= k room) b := by
  filter_upwards [hm, hk] with room hm hk
  change (m room {}).bind (fun s => k room s.1 s.2) = _
  rw [hm]
  exact hk

theorem mapM {f : Nat → α → ReduceM β} {xs : List α} {ys : List β}
    (h : List.Forall₂ (fun x y => Settles (fun room => f room x) y) xs ys) :
    Settles (fun room => xs.mapM (f room)) ys := by
  induction h with
  | nil =>
      simp only [List.mapM_nil]
      exact pure []
  | cons hx _ ih =>
      simp only [List.mapM_cons]
      exact hx.bind (ih.bind (pure _))

/-- A step for each number below a bound. -/
theorem mapM_range {n : Nat} {f : Nat → Nat → ReduceM β} {g : Fin n → β}
    (h : ∀ i : Fin n, Settles (fun room => f room i) (g i)) :
    Settles (fun room => (List.range n).mapM (f room)) (List.ofFn g) := by
  simp only [← List.map_coe_finRange_eq_range, List.mapM_map]
  refine mapM ?_
  rw [List.ofFn_eq_map, List.forall₂_map_right_iff, List.forall₂_same]
  exact fun i _ => h i

end Settles

/-! ## Calls -/

section Calls

variable {ctx : Context} {x r : Expr} {f : Operator} {xs ys : List Expr} {nesting : Nat}

theorem settles_checkRoom (ctx : Context) (x : Expr) :
    Settles (fun room => checkRoom (ctx.withRoom room) x) () := by
  filter_upwards [eventually_ge_atTop x.charge] with room hroom
  have hfits : x.charge ≤ (ctx.withRoom room).room := hroom
  rw [checkRoom, if_pos hfits]
  rfl

theorem settles_checkBreaker : Settles (fun _ => checkBreaker) () :=
  Eventually.of_forall fun _ => rfl

theorem settles_node
    (h : Settles (fun room => reduceNode (ctx.withRoom room)
      (nodeWithin nesting (ctx.withRoom room)) (treeWithin nesting (ctx.withRoom room)) x) r) :
    Settles (fun room => nodeWithin (nesting + 1) (ctx.withRoom room) x) r :=
  (settles_checkRoom ctx x).bind h

theorem settles_spoiled (h : spoiled? f xs = some r) :
    Settles (fun room => nodeWithin (nesting + 1) (ctx.withRoom room) (.apply f xs)) r := by
  refine settles_node ?_
  simp only [reduceNode, h]
  exact Settles.pure r

theorem settles_unspoiled (hspoiled : spoiled? f xs = none)
    (h : Settles (fun room => reduceApply (ctx.withRoom room)
      (nodeWithin nesting (ctx.withRoom room)) (treeWithin nesting (ctx.withRoom room)) f xs) r) :
    Settles (fun room => nodeWithin (nesting + 1) (ctx.withRoom room) (.apply f xs)) r := by
  refine settles_node ?_
  simp only [reduceNode, hspoiled]
  exact h

theorem settles_leaf (hleaf : ∀ f xs, x ≠ .apply f xs)
    (h : Settles (fun room => nodeWithin nesting (ctx.withRoom room) x) r) :
    Settles (fun room => treeWithin (nesting + 1) (ctx.withRoom room) x) r := by
  simp only [treeWithin_leaf_eq hleaf]
  exact settles_checkBreaker.bind h

theorem settles_apply (hstore : f ≠ .store) (hscope : f.kind.isParametered = false)
    (hxs : List.Forall₂
      (fun x y => Settles (fun room => treeWithin nesting (ctx.withRoom room) x) y) xs ys)
    (h : Settles (fun room => nodeWithin nesting (ctx.withRoom room) (.apply f ys)) r) :
    Settles (fun room => treeWithin (nesting + 1) (ctx.withRoom room) (.apply f xs)) r := by
  simp only [treeWithin_apply_eq hstore hscope]
  exact settles_checkBreaker.bind ((Settles.mapM hxs).bind h)

/-- A number is reduced already. -/
theorem settles_rational (ctx : Context) (nesting : Nat) (q : ℚ) :
    Settles (fun room => treeWithin (nesting + 2) (ctx.withRoom room) (.rational q))
      (.rational q) :=
  settles_leaf nofun (settles_node (Settles.pure _))

/-! ## Sums and products of numbers -/

theorem settles_sum (ctx : Context) (nesting : Nat) (qs : List ℚ) :
    Settles (fun room => add (nodeWithin (nesting + 1) (ctx.withRoom room)) (qs.map .rational))
      (.rational qs.sum) := by
  refine settles_unspoiled (spoiled?_plain _ (plain_rationals qs)) ?_
  simp only [reduceApply, reduceSum_rationals]
  exact Settles.pure _

theorem settles_product (ctx : Context) (nesting : Nat) (qs : List ℚ) :
    Settles (fun room => multiply (nodeWithin (nesting + 1) (ctx.withRoom room)) (qs.map .rational))
      (.rational qs.prod) := by
  refine settles_unspoiled (spoiled?_plain _ (plain_rationals qs)) ?_
  simp only [reduceApply, reduceProduct_rationals]
  exact Settles.pure _

/-! ## Powers -/

theorem settles_power {base exponent : Expr} (hbase : IsPlain base) (hexponent : IsPlain exponent)
    (h : Settles (fun room => powerOfScalars (ctx.withRoom room)
      (nodeWithin nesting (ctx.withRoom room)) base exponent) r) :
    Settles (fun room => power (nodeWithin (nesting + 1) (ctx.withRoom room)) base exponent) r := by
  have hgrid : Grid.ofExpr? base = none := by
    unfold Grid.ofExpr?
    split
    · nomatch hbase.2.1
    · rfl
  refine settles_unspoiled (spoiled?_plain _ (forall_mem_pair hbase hexponent)) ?_
  simp only [reduceApply, reducePower, hexponent.2.1, Bool.false_eq_true, if_false, hgrid]
  exact h

end Calls

theorem settles_opposite (ctx : Context) (nesting : Nat) (q : ℚ) :
    Settles
      (fun room => nodeWithin (nesting + 2) (ctx.withRoom room) (.apply .opposite [.rational q]))
      (.rational (-q)) := by
  have hproduct := settles_product ctx nesting [-1, q]
  rw [List.prod_pair, neg_one_mul] at hproduct
  exact settles_unspoiled (spoiled?_plain _ (plain_rationals [q])) hproduct

theorem settles_parenthesis (ctx : Context) (nesting : Nat) (q : ℚ) :
    Settles
      (fun room => nodeWithin (nesting + 1) (ctx.withRoom room) (.apply .parenthesis [.rational q]))
      (.rational q) :=
  settles_unspoiled (spoiled?_plain _ (plain_rationals [q])) (.pure _)

/-- A whole literal is reduced to the number that it writes. -/
theorem settles_literal (ctx : Context) {p : Expr} {n : Int} (hp : p.wholeLiteral? = some n)
    {nesting : Nat} (hnesting : p.depth + 2 ≤ nesting) :
    Settles (fun room => treeWithin nesting (ctx.withRoom room) p) (.integer n) := by
  -- A literal under an operator is one level less deep.
  have hdepth (f : Operator) (x : Expr) : (Expr.apply f [x]).depth = x.depth + 1 := by
    simp [Expr.depth, Expr.depthAll]
  obtain ⟨k, rfl⟩ : ∃ k, nesting = k + 3 := by
    rw [Expr.depth_eq] at hnesting
    exact ⟨nesting - 3, by omega⟩
  fun_induction Expr.wholeLiteral? p generalizing n k with
  | case1 q hint =>
      cases hp
      have hden : q.den = 1 := by simpa [Rat.isInt] using hint
      rw [Expr.integer, Rat.den_eq_one_iff q |>.mp hden]
      exact settles_rational ctx (k + 1) q
  | case2 q => cases hp
  | case3 x ih =>
      rcases Option.map_eq_some_iff.mp hp with ⟨m, hm, rfl⟩
      rw [hdepth] at hnesting
      obtain ⟨j, rfl⟩ : ∃ j, k = j + 1 := by
        rw [Expr.depth_eq] at hnesting
        exact ⟨k - 1, by omega⟩
      rw [Expr.integer, Int.cast_neg]
      exact settles_apply (by decide) rfl (.cons (ih hm j (by omega)) .nil)
        (settles_opposite ctx (j + 1) m)
  | case4 x ih =>
      rw [hdepth] at hnesting
      obtain ⟨j, rfl⟩ : ∃ j, k = j + 1 := by
        rw [Expr.depth_eq] at hnesting
        exact ⟨k - 1, by omega⟩
      exact settles_apply (by decide) rfl (.cons (ih hp j (by omega)) .nil)
        (settles_parenthesis ctx (j + 2) n)
  | case5 => cases hp

/-! ## Whole reductions -/

section Whole

variable {ctx : Context} {x c r : Expr} {nesting : Nat}

/-- With room enough, what the calls give is the result, in the form that the settings ask for. -/
theorem Settles.reduce
    (h : Settles (fun room => treeWithin maxNesting (ctx.withRoom room) x) c) :
    ∀ᶠ room in atTop, x.reduce (ctx.withRoom room) {} =
      .ok (if ctx.settings.target = .user then beautify c else c) := by
  let result := if ctx.settings.target = .user then beautify c else c
  have hreturn : Settles
      (fun room => checkRoom (ctx.withRoom room) result >>= fun _ => Pure.pure result) result :=
    (settles_checkRoom ctx result).bind (.pure result)
  have hrun : Settles (fun room => run (ctx.withRoom room) x) result :=
    (settles_checkRoom ctx x).bind (h.bind hreturn)
  filter_upwards [hrun] with room hrun
  rw [Expr.reduce, hrun]
  rfl

/-- There is no other result, however deep calls are nested, however much room there is and whatever
stops them. -/
theorem Settles.yields {task : Task}
    (h : Settles (fun room => reduceWithin nesting (ctx.withRoom room) task) c) (nesting' : Nat)
    (available : Nat) :
    Yields (reduceWithin nesting' (ctx.withRoom available) task) (· = c) := by
  intro b a b' ha
  rcases (h.and (eventually_ge_atTop available)).exists with ⟨room, hc, hroom⟩
  -- Both runs give what one with all the nesting and all the room of the two gives.
  rcases prolongs_withRoom (le_max_left nesting' nesting) hroom task b {}
    (Breaker.outlasts_default b) a b' ha with ⟨_, _, ha', rfl, -⟩
  rcases prolongs_reduceWithin (le_max_right nesting' nesting) (ctx.withRoom room) task
    {} {} (Breaker.outlasts_default {}) c {} hc with ⟨_, _, hc', rfl, -⟩
  exact congrArg Prod.fst (Except.ok.inj (ha'.symm.trans hc'))

/-- Where calls may be nested deeper, the result is the same. -/
theorem Settles.deeper {task : Task}
    (h : Settles (fun room => reduceWithin nesting (ctx.withRoom room) task) c) {nesting' : Nat}
    (hle : nesting ≤ nesting') :
    Settles (fun room => reduceWithin nesting' (ctx.withRoom room) task) c := by
  filter_upwards [h] with room hc
  rcases prolongs_reduceWithin hle (ctx.withRoom room) task {} {} (Breaker.outlasts_default {}) c {}
    hc with ⟨_, ⟨tripped, budget⟩, hc', rfl, houtlasts⟩
  -- A breaker that lasts as long as one that stops nothing is one that stops nothing.
  obtain rfl : tripped = false := Bool.eq_false_iff.mpr fun h => nomatch houtlasts.tripped h
  obtain rfl : budget = none := Option.eq_none_iff_forall_not_mem.mpr fun left hleft => by
    rcases houtlasts.budget left hleft with ⟨_, h, -⟩
    nomatch h
  exact hc'

theorem Settles.eq_of_reduce {available : Nat} {breaker : Breaker}
    (h : Settles (fun room => treeWithin nesting (ctx.withRoom room) x) c)
    (hr : x.reduce (ctx.withRoom available) breaker = .ok r) :
    r = if ctx.settings.target = .user then beautify c else c := by
  rcases exists_of_reduce (h.yields maxNesting available) hr with ⟨_, rfl, rfl⟩
  rfl

/-- An expression is reduced to a given result: wherever there is room enough and nothing stops
the reduction, provided that the expression is not deeper than calls may be nested; and no reduction
of it has any other result. -/
structure ReducesTo (ctx : Context) (x r : Expr) : Prop where
  reached : x.depth + 2 ≤ maxNesting →
    ∃ enough, ∀ room ≥ enough, x.reduce (ctx.withRoom room) {} = .ok r
  only : ∀ (room : Nat) (breaker : Breaker) (r' : Expr),
    x.reduce (ctx.withRoom room) breaker = .ok r' → r' = r

theorem ReducesTo.unique {r' : Expr} (h : ReducesTo ctx x r) (h' : ReducesTo ctx x r')
    (hdepth : x.depth + 2 ≤ maxNesting) : r = r' := by
  rcases h.reached hdepth with ⟨enough, hr⟩
  exact h'.only enough {} r (hr enough le_rfl)

theorem Settles.reducesTo (h : Settles (fun room => treeWithin nesting (ctx.withRoom room) x) c)
    (hnesting : nesting ≤ maxNesting) :
    ReducesTo ctx x (if ctx.settings.target = .user then beautify c else c) where
  reached _ := eventually_atTop.mp (h.deeper hnesting).reduce
  only _ _ _ hr := h.eq_of_reduce hr

theorem reducesTo_of_settles
    (h : ∀ n, x.depth + 2 ≤ n → Settles (fun room => treeWithin n (ctx.withRoom room) x) c) :
    ReducesTo ctx x (if ctx.settings.target = .user then beautify c else c) where
  reached hdepth := eventually_atTop.mp (h maxNesting hdepth).reduce
  only _ _ _ hr := (h _ le_rfl).eq_of_reduce hr

end Whole

/-! ## Rules -/

/-- A rule has a given result: wherever there is room enough, nothing stops it and the calls that it
makes may be nested so deep; and it has no other result. -/
structure ComesTo (ctx : Context) (depth : Nat) (rule : NodeReducer → ReduceM Expr) (r : Expr) :
    Prop where
  reached : ∀ nesting ≥ depth,
    Settles (fun room => rule (nodeWithin nesting (ctx.withRoom room))) r
  only : ∀ nesting room, Yields (rule (nodeWithin nesting (ctx.withRoom room))) (· = r)

namespace ComesTo

variable {ctx : Context} {depth : Nat} {rule : NodeReducer → ReduceM Expr} {x y r : Expr}

theorem pure (ctx : Context) (depth : Nat) (r : Expr) :
    ComesTo ctx depth (fun _ => Pure.pure r) r where
  reached _ _ := Settles.pure r
  only _ _ := Yields.pure rfl

theorem deeper {depth' : Nat} (h : ComesTo ctx depth rule r) (hle : depth ≤ depth') :
    ComesTo ctx depth' rule r :=
  ⟨fun nesting hnesting => h.reached nesting (hle.trans hnesting), h.only⟩

theorem bind {k : NodeReducer → Expr → ReduceM Expr} (h : ComesTo ctx depth rule y)
    (hk : ComesTo ctx depth (fun node => k node y) r) :
    ComesTo ctx depth (fun node => rule node >>= k node) r where
  reached nesting hnesting := (h.reached nesting hnesting).bind (hk.reached nesting hnesting)
  only nesting room := (h.only nesting room).bind fun _ hy => hy ▸ hk.only nesting room

/-- A call. -/
theorem node
    (h : ∀ nesting, Settles (fun room => nodeWithin (nesting + depth) (ctx.withRoom room) x) r) :
    ComesTo ctx depth (fun node => node x) r where
  reached nesting hnesting := by
    rw [← Nat.sub_add_cancel hnesting]
    exact h (nesting - depth)
  only nesting room := (h 0).yields nesting room

end ComesTo

end Reduction

end PocketAlgebra
