import PocketAlgebra.Proofs.Expr.Scope
import PocketAlgebra.Proofs.Shape.Canonical
import PocketAlgebra.Reduction.Engine

/-!
# Two runs side by side

Two runs of a rule on the same operands, up to the names of symbols, do the same as long as the
nodes that they call for do. What it is for two computations to do the same is left open here: any
comparison of computations that passes through sequences will do, so that one run through the rules
serves for runs under different breakers, under different names and with different bookkeeping.

This module also holds what all rules share: flattening, poisoned operands and the calls for sums,
products and powers.
-/

namespace PocketAlgebra

namespace Reduction

open PocketAlgebra.Expr Shape

/-! ## Comparisons -/

/-- A comparison of computations that passes through sequences of them. -/
structure Comparison where
  Holds : {α β : Type} → (α → β → Prop) → ReduceM α → ReduceM β → Prop
  pure : ∀ {α β : Type} {R : α → β → Prop} {a : α} {b : β}, R a b →
    Holds R (Pure.pure a) (Pure.pure b)
  bind : ∀ {α β γ δ : Type} {R : α → β → Prop} {Q : γ → δ → Prop} {m : ReduceM α}
    {m' : ReduceM β} {k : α → ReduceM γ} {k' : β → ReduceM δ}, Holds R m m' →
    (∀ a b, R a b → Holds Q (k a) (k' b)) → Holds Q (m >>= k) (m' >>= k')

namespace Comparison

variable {C : Comparison} {α β γ δ ι : Type} {P : α → Prop} {Q : γ → Prop} {g : α → β}

/-- One computation gives the images of the results of the other, which have a property. -/
def Image (C : Comparison) (g : α → β) (P : α → Prop) (m : ReduceM α) (m' : ReduceM β) : Prop :=
  C.Holds (fun a b => P a ∧ b = g a) m m'

theorem image_pure {a : α} (ha : P a) : C.Image g P (Pure.pure a) (Pure.pure (g a)) :=
  C.pure ⟨ha, rfl⟩

theorem image_bind {h : γ → δ} {m : ReduceM α} {m' : ReduceM β} {k : α → ReduceM γ}
    {k' : β → ReduceM δ} (hm : C.Image g P m m')
    (hk : ∀ a, P a → C.Image h Q (k a) (k' (g a))) : C.Image h Q (m >>= k) (m' >>= k') := by
  refine C.bind hm ?_
  rintro a _ ⟨ha, rfl⟩
  exact hk a ha

theorem mono {R S : α → β → Prop} {m : ReduceM α} {m' : ReduceM β} (hm : C.Holds R m m')
    (hRS : ∀ a b, R a b → S a b) : C.Holds S m m' := by
  rw [← bind_pure m, ← bind_pure m']
  exact C.bind hm fun a b hab => C.pure (hRS a b hab)

theorem image_mapM {xs : List ι} {k : ι → ReduceM α} {k' : ι → ReduceM β}
    (hk : ∀ x ∈ xs, C.Image g P (k x) (k' x)) :
    C.Image (List.map g) (fun as => ∀ a ∈ as, P a) (xs.mapM k) (xs.mapM k') := by
  induction xs with
  | nil =>
      rw [List.mapM_nil, List.mapM_nil]
      exact image_pure (List.forall_mem_nil _)
  | cons x xs ih =>
      rw [List.mapM_cons, List.mapM_cons]
      refine image_bind (hk x List.mem_cons_self) fun a ha => ?_
      refine image_bind (ih fun y hy => hk y (List.mem_cons_of_mem x hy)) fun as has => ?_
      exact image_pure (List.forall_mem_cons.mpr ⟨ha, has⟩)

/-- Two computations that are both there, or both missing. -/
def Both (C : Comparison) (g : α → β) (P : α → Prop) (o : Option (ReduceM α))
    (o' : Option (ReduceM β)) : Prop :=
  (o = none ∧ o' = none) ∨ ∃ m m', o = some m ∧ o' = some m' ∧ C.Image g P m m'

theorem both_none : C.Both g P none none :=
  .inl ⟨rfl, rfl⟩

theorem both_some {m : ReduceM α} {m' : ReduceM β} (h : C.Image g P m m') :
    C.Both g P (some m) (some m') :=
  .inr ⟨m, m', rfl, rfl, h⟩

end Comparison

open Comparison

/-! ## Properties of the trees that rules handle -/

/-- A property of trees that a node of an ordinary operator has as soon as its operands have it.
Among trees with the property, a renaming changes neither identity nor order. -/
structure Respects (ρ : String → String) (P : Expr → Prop) : Prop where
  rational : ∀ q, P (.rational q)
  infinity : ∀ negative, P (.infinity negative)
  constant : ∀ c, P (.constant c)
  apply : ∀ {f xs}, f.isOrdinary = true → (P (.apply f xs) ↔ ∀ x ∈ xs, P x)
  same : ∀ {x y}, P x → P y → (x.rename ρ).same (y.rename ρ) = x.same y
  order : ∀ {x y}, P x → P y → (x.rename ρ).order (y.rename ρ) = x.order y

/-- Two reductions of nodes do the same to the nodes that rules call for. -/
def Parallel (C : Comparison) (ρ : String → String) (P : Expr → Prop)
    (node node' : NodeReducer) : Prop :=
  ∀ f xs, isCalled f = true → (∀ x ∈ xs, P x) →
    C.Image (rename ρ) P (node (.apply f xs)) (node' (.apply f (xs.map (rename ρ))))

variable {C : Comparison} {ρ : String → String} {P : Expr → Prop} {node node' : NodeReducer}
  {f : Operator} {x y : Expr} {xs ys : List Expr}

theorem isOrdinary_of_called (hf : isCalled f = true) : f.isOrdinary = true := by
  cases f <;> first | rfl | cases hf

namespace Respects

theorem integer (hP : Respects ρ P) (n : Int) : P (.integer n) :=
  hP.rational n

theorem undefined (hP : Respects ρ P) : P .undefined :=
  (hP.apply rfl).mpr nofun

theorem nonreal (hP : Respects ρ P) : P .nonreal :=
  (hP.apply rfl).mpr nofun

theorem i (hP : Respects ρ P) : P .i :=
  hP.constant _

theorem pi (hP : Respects ρ P) : P .pi :=
  hP.constant _

theorem e (hP : Respects ρ P) : P .e :=
  hP.constant _

theorem operand (hP : Respects ρ P) (hf : f.isOrdinary = true) (h : P (.apply f xs)) :
    ∀ x ∈ xs, P x :=
  (hP.apply hf).mp h

theorem one (hP : Respects ρ P) (hf : f.isOrdinary = true) (hx : P x) : P (.apply f [x]) :=
  (hP.apply hf).mpr (List.forall_mem_singleton.mpr hx)

theorem two (hP : Respects ρ P) (hf : f.isOrdinary = true) (hx : P x) (hy : P y) :
    P (.apply f [x, y]) :=
  (hP.apply hf).mpr (forall_mem_pair hx hy)

end Respects

/-! ## Calls -/

namespace Parallel

theorem add (hnode : Parallel C ρ P node node') (hxs : ∀ x ∈ xs, P x) :
    C.Image (rename ρ) P (Reduction.add node xs) (Reduction.add node' (xs.map (rename ρ))) :=
  hnode .addition xs rfl hxs

theorem multiply (hnode : Parallel C ρ P node node') (hxs : ∀ x ∈ xs, P x) :
    C.Image (rename ρ) P (Reduction.multiply node xs)
      (Reduction.multiply node' (xs.map (rename ρ))) :=
  hnode .multiplication xs rfl hxs

theorem power (hnode : Parallel C ρ P node node') (hx : P x) (hy : P y) :
    C.Image (rename ρ) P (Reduction.power node x y)
      (Reduction.power node' (x.rename ρ) (y.rename ρ)) :=
  hnode .power [x, y] rfl (by simp [hx, hy])

theorem negate (hnode : Parallel C ρ P node node') (hP : Respects ρ P) (hx : P x) :
    C.Image (rename ρ) P (Reduction.negate node x) (Reduction.negate node' (x.rename ρ)) :=
  hnode .multiplication [.integer (-1), x] rfl (by simp [hx, hP.integer (-1)])

theorem invert (hnode : Parallel C ρ P node node') (hP : Respects ρ P) (hx : P x) :
    C.Image (rename ρ) P (Reduction.invert node x) (Reduction.invert node' (x.rename ρ)) :=
  hnode.power hx (hP.integer (-1))

end Parallel

/-! ## Flattening and assembling -/

theorem flattenAll_rename_of_forall
    (h : ∀ x ∈ xs, flatten f (x.rename ρ) = (flatten f x).map (rename ρ)) :
    flattenAll f (xs.map (rename ρ)) = (flattenAll f xs).map (rename ρ) := by
  induction xs with
  | nil => rfl
  | cons x xs ih =>
      rcases List.forall_mem_cons.mp h with ⟨hx, hxs⟩
      rw [List.map_cons, flattenAll, flattenAll, hx, ih hxs, List.map_append]

theorem flatten_rename (ρ : String → String) (f : Operator) (x : Expr) :
    flatten f (x.rename ρ) = (flatten f x).map (rename ρ) := by
  cases x with
  | apply g xs =>
      rw [rename_apply, flatten, flatten]
      split
      · exact flattenAll_rename_of_forall fun y hy => flatten_rename ρ f y
      · rw [List.map_singleton, rename_apply]
  | _ => rfl
termination_by x.size
decreasing_by exact size_lt_of_mem hy

theorem flattenAll_rename (ρ : String → String) (f : Operator) (xs : List Expr) :
    flattenAll f (xs.map (rename ρ)) = (flattenAll f xs).map (rename ρ) :=
  flattenAll_rename_of_forall fun x _ => flatten_rename ρ f x

theorem assemble_rename (ρ : String → String) (f : Operator) (neutral : Int) (xs : List Expr) :
    assemble f neutral (xs.map (rename ρ)) = (assemble f neutral xs).rename ρ := by
  match xs with
  | [] => rfl
  | [_] => rfl
  | x :: y :: xs =>
      simp only [List.map_cons, assemble, rename_apply]

theorem poison?_rename (ρ : String → String) (xs : List Expr) :
    poison? (xs.map (rename ρ)) = poison? xs := by
  rw [poison?, poison?, any_map_rename (fun x => by rw [kind_rename]),
    any_map_rename fun x => by rw [kind_rename]]

/-- A poisoned operand is the same under any names. -/
theorem rename_of_poison? (h : poison? xs = some x) : x.rename ρ = x := by
  rw [poison?] at h
  split at h
  · cases h
    rfl
  · split at h
    · cases h
      rfl
    · cases h

namespace Respects

theorem flatten (hP : Respects ρ P) (hf : f.isOrdinary = true) (x : Expr) (hx : P x) :
    ∀ y ∈ Reduction.flatten f x, P y :=
  flatten_forall (fun _ h => hP.operand hf h) x hx

theorem flattenAll (hP : Respects ρ P) (hf : f.isOrdinary = true) (hxs : ∀ x ∈ xs, P x) :
    ∀ y ∈ Reduction.flattenAll f xs, P y :=
  flattenAll_forall (fun _ h => hP.operand hf h) xs hxs

theorem assemble (hP : Respects ρ P) (hf : f.isOrdinary = true) (neutral : Int)
    (hxs : ∀ x ∈ xs, P x) : P (Reduction.assemble f neutral xs) := by
  match xs with
  | [] => exact hP.integer neutral
  | [x] => exact hxs x List.mem_cons_self
  | x :: y :: xs => exact (hP.apply hf).mpr hxs

theorem poison? (hP : Respects ρ P) (h : Reduction.poison? xs = some x) : P x := by
  rw [Reduction.poison?] at h
  split at h
  · cases h
    exact hP.undefined
  · split at h
    · cases h
      exact hP.nonreal
    · cases h

theorem sort (hxs : ∀ x ∈ xs, P x) : ∀ x ∈ Expr.sort xs, P x := by
  intro x hx
  exact hxs x ((sort_perm xs).mem_iff.mp hx)

end Respects

/-! ## Results that are given at once -/

section Results

variable (hP : Respects ρ P)

include hP

theorem Respects.renamed_undefined :
    C.Image (rename ρ) P (pure .undefined) (pure .undefined) :=
  image_pure hP.undefined

theorem Respects.renamed_nonreal : C.Image (rename ρ) P (pure .nonreal) (pure .nonreal) :=
  image_pure hP.nonreal

theorem Respects.renamed_integer (n : Int) :
    C.Image (rename ρ) P (pure (.integer n)) (pure (.integer n)) :=
  image_pure (hP.integer n)

theorem Respects.renamed_rational (q : Rat) :
    C.Image (rename ρ) P (pure (.rational q)) (pure (.rational q)) :=
  image_pure (hP.rational q)

theorem Respects.renamed_infinity (negative : Bool) :
    C.Image (rename ρ) P (pure (.infinity negative)) (pure (.infinity negative)) :=
  image_pure (hP.infinity negative)

theorem Respects.renamed_poison (h : Reduction.poison? xs = some x) :
    C.Image (rename ρ) P (pure x) (pure x) :=
  C.pure ⟨hP.poison? h, (rename_of_poison? h).symm⟩

end Results

end Reduction

end PocketAlgebra
