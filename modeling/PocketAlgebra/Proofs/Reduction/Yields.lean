import Mathlib.Data.List.Forall2
import PocketAlgebra.Reduction.Engine

/-!
# What a step of a reduction yields

A step may fail, for want of memory or because it is interrupted.
`Reduction.Yields` says that a result, where there is one, has a property,
whatever the breaker was before the step.
-/

namespace PocketAlgebra

namespace Reduction

theorem forall_mem_pair {α : Type} {P : α → Prop} {x y : α} (hx : P x) (hy : P y) :
    ∀ z ∈ [x, y], P z :=
  List.forall_mem_cons.mpr ⟨hx, List.forall_mem_singleton.mpr hy⟩

theorem forall_of_forall₂ {α β : Type} {R : α → β → Prop} {Q : β → Prop} {as : List α}
    {bs : List β} (h : List.Forall₂ R as bs) (hQ : ∀ a ∈ as, ∀ b, R a b → Q b) :
    ∀ b ∈ bs, Q b := by
  induction h with
  | nil => exact List.forall_mem_nil _
  | cons hb _ ih =>
      exact List.forall_mem_cons.mpr ⟨hQ _ List.mem_cons_self _ hb,
        ih fun a ha => hQ a (List.mem_cons_of_mem _ ha)⟩

/-- Every result of a step has a property. -/
def Yields {α : Type} (m : ReduceM α) (P : α → Prop) : Prop :=
  ∀ b a b', m b = .ok (a, b') → P a

namespace Yields

variable {α β : Type} {P Q : α → Prop} {m : ReduceM α}

theorem mono (h : Yields m P) (hPQ : ∀ a, P a → Q a) : Yields m Q := by
  intro b a b' hm
  exact hPQ a (h b a b' hm)

theorem and (h : Yields m P) (h' : Yields m Q) : Yields m fun a => P a ∧ Q a := by
  intro b a b' hm
  exact ⟨h b a b' hm, h' b a b' hm⟩

/-- A result has all properties that it has one by one. -/
theorem all {ι : Sort*} {P : ι → α → Prop} (h : ∀ i, Yields m (P i)) :
    Yields m fun a => ∀ i, P i a := by
  intro b a b' hm i
  exact h i b a b' hm

theorem pure {a : α} (h : P a) : Yields (Pure.pure a) P := by
  intro b a' b' hm
  cases hm
  exact h

theorem throw (failure : Failure) :
    Yields (throw failure : ReduceM α) P := by
  intro b a b' hm
  cases hm

theorem bind {f : α → ReduceM β} {R : β → Prop} (hm : Yields m P)
    (hf : ∀ a, P a → Yields (f a) R) : Yields (m >>= f) R := by
  intro b c b' h
  change (m b).bind (fun s => f s.1 s.2) = .ok (c, b') at h
  cases hstep : m b with
  | error failure =>
      rw [hstep] at h
      cases h
  | ok s =>
      rw [hstep] at h
      exact hf s.1 (hm b s.1 s.2 hstep) s.2 c b' h

/-- A step whose result does not matter. -/
theorem bind_unit {f : Unit → ReduceM α} {m : ReduceM Unit}
    (hf : Yields (f ()) P) : Yields (m >>= f) P := by
  have hm : Yields m (fun _ => True) := fun _ _ _ _ => trivial
  exact hm.bind fun _ _ => hf

theorem mapM {f : β → ReduceM α} {R : β → α → Prop} {xs : List β}
    (hf : ∀ x ∈ xs, Yields (f x) (R x)) :
    Yields (xs.mapM f) (List.Forall₂ R xs) := by
  induction xs with
  | nil =>
      rw [List.mapM_nil]
      exact pure .nil
  | cons x xs ih =>
      rw [List.mapM_cons]
      refine (hf x List.mem_cons_self).bind fun y hy => ?_
      have hxs := ih fun z hz => hf z (List.mem_cons_of_mem x hz)
      exact hxs.bind fun ys hys => pure (.cons hy hys)

theorem mapM_forall {f : β → ReduceM α} {xs : List β} (hf : ∀ x ∈ xs, Yields (f x) P) :
    Yields (xs.mapM f) fun ys => ∀ y ∈ ys, P y := by
  exact (mapM (R := fun _ => P) hf).mono fun ys hys => forall_of_forall₂ hys fun _ _ _ => id

end Yields

/-!
## Whole reductions
-/

section Whole

variable {P : Expr → Prop} {ctx : Context} {x r : Expr} {breaker : Breaker}

/-- The result of a reduction is what the calls give, in the form that the settings ask for. -/
theorem exists_of_reduce (h : Yields (reduceWithin maxNesting ctx (.tree x)) P)
    (hr : x.reduce ctx breaker = .ok r) :
    ∃ c, P c ∧ r = if ctx.settings.target = .user then beautify c else c := by
  have hrun : Yields (run ctx x) fun r =>
      ∃ c, P c ∧ r = if ctx.settings.target = .user then beautify c else c := by
    refine Yields.bind_unit (h.bind fun c hc => ?_)
    exact Yields.bind_unit (Yields.pure ⟨c, hc, rfl⟩)
  rw [Expr.reduce] at hr
  cases hresult : run ctx x breaker with
  | error failure =>
      rw [hresult] at hr
      cases hr
  | ok result =>
      rw [hresult] at hr
      cases hr
      exact hrun breaker result.1 result.2 hresult

theorem of_reduce (h : Yields (reduceWithin maxNesting ctx (.tree x)) P)
    (htarget : ctx.settings.target ≠ .user) (hr : x.reduce ctx breaker = .ok r) : P r := by
  rcases exists_of_reduce h hr with ⟨c, hc, rfl⟩
  rwa [if_neg htarget]

/-- An expression that is reduced fits into the room that there is. -/
theorem charge_le_of_reduce (hr : x.reduce ctx breaker = .ok r) : x.charge ≤ ctx.room := by
  by_contra hcharge
  rw [Expr.reduce, run, checkRoom, if_neg hcharge] at hr
  cases hr

/-- What the calls give is the result of a reduction, where there is room for it. -/
theorem reduce_of_reduceWithin {breaker' : Breaker} (htarget : ctx.settings.target ≠ .user)
    (hx : x.charge ≤ ctx.room) (hr : r.charge ≤ ctx.room)
    (h : reduceWithin maxNesting ctx (.tree x) breaker = .ok (r, breaker')) :
    x.reduce ctx breaker = .ok r := by
  have hroom : ∀ y : Expr, y.charge ≤ ctx.room → checkRoom ctx y = pure () :=
    fun y hy => if_pos hy
  rw [Expr.reduce, run, hroom x hx, pure_bind]
  change (((reduceWithin maxNesting ctx (.tree x) breaker).bind _).map _) = _
  rw [h]
  dsimp only [Except.bind]
  rw [if_neg htarget, hroom r hr]
  rfl

end Whole

/-!
## Results of given computations
-/

theorem exists_ok {ε α β : Type} {e : Except ε α} {f : α → β} {b : β}
    (h : e.toOption.map f = some b) : ∃ r, e = .ok r ∧ f r = b := by
  cases e with
  | error failure => cases h
  | ok r => exact ⟨r, rfl, Option.some.inj h⟩

/-- The results of a computation and of one that may depend on it. -/
theorem exists_ok_bind {ε ε' α β : Type} {e : Except ε α} {k : α → Except ε' α} {f : α → α → β}
    {b : β}
    (h : (e.toOption.bind fun r => (k r).toOption.map (f r)) = some b) :
    ∃ r s, e = .ok r ∧ k r = .ok s ∧ f r s = b := by
  cases e with
  | error failure => cases h
  | ok r =>
      rcases exists_ok h with ⟨s, hs, hb⟩
      exact ⟨r, s, rfl, hs, hb⟩

end Reduction

end PocketAlgebra
