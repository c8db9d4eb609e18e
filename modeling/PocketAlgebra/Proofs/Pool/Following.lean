import PocketAlgebra.Pool.Work
import PocketAlgebra.Proofs.Pool.Custody

/-!
# Work that follows plain steps

Work within a pool follows steps on expressions if it holds handles where these have expressions,
and comes to the same end. The steps are told how many bytes are free; where they are strict about
it, they fail exactly where the work does, and with more bytes than the pool has left they get on
further, but not to an end at which they would have done without those.
-/

namespace PocketAlgebra

open Pool

/-- A handle, and the expression that it stands for. -/
structure Held where
  key : Nat
  tree : Expr

/-- States of steps, with the bytes that they take to be free. -/
class Metered (σ : Type) (ε : outParam Type) extends Refusing σ ε where
  /-- Whether the steps are to fail where the pool refuses a node, and only there. -/
  strict : Prop
  free : σ → Nat
  withFree : σ → Nat → σ
  withFree_free : ∀ s, withFree s (free s) = s
  free_withFree : strict → ∀ s n, free (withFree s n) = n
  free_withFree_le : ∀ s n, free (withFree s n) ≤ n
  withFree_of_not_strict : ¬ strict → ∀ s n n', withFree s n = withFree s n'

open Metered

/-- Beside the handles of others, all handles on a pool are to trees that have been made since it
was `p`. -/
structure Holds (p : Pool) (handles : List Nat) (proper : Prop) (w : World) (held : List Held) :
    Prop where
  copied : Copied p w.pool handles w.handles
  perm : w.handles.Perm (held.map Held.key)
  reads : ∀ h ∈ held, w.pool.read h.key = h.tree
  within : Within p w.pool
  fits : proper → Fitting p.nextKey w.pool

/-- Steps that would get on with so many bytes more: without them they fail, and with them they
have fewer left in the end. -/
def ShortBy {σ ε α : Type} [Metered σ ε] (more : Nat) (e : ε) (outcome : Except ε (α × σ)) : Prop :=
  (more = 0 → outcome = .error e) ∧ ∀ a t, outcome = .ok (a, t) → free t < more

/-- Work follows steps on expressions, where it takes over the handles that are given, and `rel`
tells how its result stands for that of the steps. -/
structure Follows {σ ε α β : Type} [Metered σ ε] (given : List Held) (m : StateT σ (Except ε) α)
    (work : Working σ ε β) (rel : α → β → List Held → Prop) : Prop where
  frugal : ∀ {s a t}, m s = .ok (a, t) → free t ≤ free s ∧ ∃ b made, rel a b made
  succeeds : ∀ {p handles kept w s b s' w'} (more : Nat), Balanced p [] handles →
    Holds p handles (strict σ ∨ Fitting 0 p) w (given ++ kept) → work s w = (.ok (b, s'), w') →
    ∃ a made, rel a b made ∧ Holds p handles (strict σ ∨ Fitting 0 p) w' (made ++ kept) ∧
      m (withFree s (w.pool.free + more)) = .ok (a, withFree s' (w'.pool.free + more))
  fails : ∀ {p handles kept w s e w'} (more : Nat), Balanced p [] handles →
    Holds p handles (strict σ ∨ Fitting 0 p) w (given ++ kept) → work s w = (.error e, w') →
    Copied p w'.pool handles w'.handles ∧
      (strict σ → ShortBy more e (m (withFree s (w.pool.free + more))))

/-! ## How results stand for one another -/

/-- Data that do not depend on the pool. -/
def Same {α : Type} (a b : α) (made : List Held) : Prop :=
  a = b ∧ made = []

/-- A handle stands for an expression. -/
def Stands (x : Expr) (key : Nat) (made : List Held) : Prop :=
  made = [⟨key, x⟩]

/-- Handles stand for expressions. -/
def StandsAll (xs : List Expr) (keys : List Nat) (made : List Held) : Prop :=
  made.map Held.tree = xs ∧ made.map Held.key = keys

/-! ## Sequences of steps -/

section Sequence

variable {σ ε α β γ δ : Type}

theorem bind_ok {m : StateT σ (Except ε) α} {f : α → StateT σ (Except ε) γ} {s t : σ} {a : α}
    (h : m s = .ok (a, t)) : (m >>= f) s = f a t := by
  show (m s >>= fun result => f result.1 result.2) = _
  rw [h]
  rfl

theorem bind_error {m : StateT σ (Except ε) α} {f : α → StateT σ (Except ε) γ} {s : σ} {e : ε}
    (h : m s = .error e) : (m >>= f) s = .error e := by
  show (m s >>= fun result => f result.1 result.2) = _
  rw [h]
  rfl

theorem of_bind_ok {m : StateT σ (Except ε) α} {f : α → StateT σ (Except ε) γ} {s u : σ} {c : γ}
    (h : (m >>= f) s = .ok (c, u)) : ∃ a t, m s = .ok (a, t) ∧ f a t = .ok (c, u) := by
  cases hm : m s with
  | error e =>
      rw [bind_error hm] at h
      cases h
  | ok result => exact ⟨result.1, result.2, rfl, (bind_ok hm).symm.trans h⟩

end Sequence

/-! ## Rules -/

namespace Holds

variable {p : Pool} {handles : List Nat} {proper : Prop} {w w' : World} {held held' : List Held}

theorem perm_held (h : Holds p handles proper w held) (hperm : held.Perm held') :
    Holds p handles proper w held' := by
  constructor
  · exact h.copied
  · exact h.perm.trans (hperm.map Held.key)
  · intro one hone
    exact h.reads one (hperm.mem_iff.mpr hone)
  · exact h.within
  · exact h.fits

/-- The handles that are held, in the order in which they are listed. -/
theorem listed (h : Holds p handles proper w held) :
    Copied p w.pool handles (held.map Held.key) :=
  h.copied.perm h.perm

theorem reads_all (h : Holds p handles proper w held) :
    (held.map Held.key).map w.pool.read = held.map Held.tree := by
  rw [List.map_map]
  exact List.map_congr_left h.reads

theorem charged (h : Holds p handles proper w held) (hp : Balanced p [] handles)
    (hproper : proper) : w.pool.used = p.used + Expr.chargeAll (held.map Held.tree) := by
  rw [← h.reads_all]
  exact h.listed.charged hp (h.fits hproper)

theorem room_of_used (h : Holds p handles proper w held) {charge : Nat} (hsome : 0 < charge)
    (hused : p.used + charge ≤ w.pool.used) : charge ≤ p.free ∧ w.pool.free + charge ≤ p.free := by
  have hcapacity := h.within.capacity
  have hbound := h.within.used
  unfold Pool.free
  omega

/-- What is held has had room in the pool. -/
theorem room (h : Holds p handles proper w held) (hp : Balanced p [] handles)
    (hsome : 0 < Expr.chargeAll (held.map Held.tree)) :
    Expr.chargeAll (held.map Held.tree) ≤ p.free := by
  have hused := h.listed.charged_le hp
  rw [h.reads_all] at hused
  exact (h.room_of_used hsome hused).1

theorem start (hp : Balanced p [] handles) : Holds p handles proper { pool := p } [] := by
  constructor
  · exact Copied.none hp
  · exact List.Perm.refl []
  · simp
  · exact Within.refl p
  · intro _ node hnode hge
    have hlt := hp.node_lt_nextKey hnode
    omega

end Holds

namespace Holds

variable {p q : Pool} {handles : List Nat} {proper : Prop} {w : World} {given kept : List Held}
  {head : Expr} {outcome : Except Shortage Nat} {key : Nat}

theorem listed_append (h : Holds p handles proper w (given ++ kept)) :
    Copied p w.pool handles (given.map Held.key ++ kept.map Held.key) := by
  rw [← List.map_append]
  exact h.listed

/-- The handles of what is kept are left when the others are taken over. -/
theorem left_perm (h : Holds p handles proper w (given ++ kept)) :
    (w.handles.diff (given.map Held.key)).Perm (kept.map Held.key) := by
  apply diff_perm
  rw [← List.map_append]
  exact h.perm

theorem perform_build (hbuild : w.pool.building head (given.map Held.key) = (outcome, q)) :
    w.perform (.build head (given.map Held.key)) =
      { w with pool := q, handles := granted outcome ++ w.handles.diff (given.map Held.key) } := by
  simp only [World.perform, hbuild]

theorem copied_build (h : Holds p handles proper w (given ++ kept))
    (hbuild : w.pool.building head (given.map Held.key) = (outcome, q)) :
    Copied p q handles (granted outcome ++ w.handles.diff (given.map Held.key)) :=
  (h.listed_append.building hbuild).perm (h.left_perm.symm.append_left (granted outcome))

theorem build (h : Holds p handles proper w (given ++ kept))
    (hhead : given.map Held.key = [] ∨ ∃ f xs, head = .apply f xs)
    (hbuild : w.pool.building head (given.map Held.key) = (.ok key, q)) :
    Holds p handles proper (w.perform (.build head (given.map Held.key)))
      (⟨key, head.withOperands (given.map Held.tree)⟩ :: kept) := by
  have hlisted := h.listed_append
  have halloc := hlisted.allocated hbuild
  rw [perform_build hbuild]
  constructor
  · exact h.copied_build hbuild
  · exact (h.left_perm.cons key)
  · intro held hheld
    rcases List.mem_cons.mp hheld with rfl | hkept
    · have hread : (given.map Held.key).map w.pool.read = given.map Held.tree := by
        rw [List.map_map]
        exact List.map_congr_left fun one hone => h.reads one (List.mem_append_left kept hone)
      rw [← hread]
      exact hlisted.read_building hbuild
    · rw [← h.reads held (List.mem_append_right given hkept)]
      exact hlisted.read_kept halloc.balanced halloc.evolves (List.mem_map_of_mem hkept)
  · exact h.within.trans (Within.allocateOver (hlisted.building_plain.symm.trans hbuild))
  · intro hproper
    exact halloc.fits (h.fits hproper) hhead

/-- A node is made where there is room for it. -/
theorem room_build (h : Holds p handles proper w (given ++ kept))
    (hbuild : w.pool.building head (given.map Held.key) = (.ok key, q)) :
    Node.chargeOf head (given.map Held.key).length ≤ w.pool.free := by
  have houtcome := h.listed_append.building_outcome hbuild
  split_ifs at houtcome with hshort
  exact Nat.le_of_not_lt hshort

theorem shortage_build {shortage : Shortage} (h : Holds p handles proper w (given ++ kept))
    (hbuild : w.pool.building head (given.map Held.key) = (.error shortage, q)) :
    w.pool.free < Node.chargeOf head (given.map Held.key).length ∧
      shortage = ⟨Node.chargeOf head (given.map Held.key).length, w.pool.free⟩ := by
  have houtcome := h.listed_append.building_outcome hbuild
  split_ifs at houtcome with hshort
  exact ⟨hshort, Except.error.inj houtcome⟩

/-- A node takes its charge off the bytes that are free. -/
theorem free_build (h : Holds p handles proper w (given ++ kept)) (hp : Balanced p [] handles)
    (hproper : proper) (hhead : given.map Held.key = [] ∨ ∃ f xs, head = .apply f xs)
    (hbuild : w.pool.building head (given.map Held.key) = (.ok key, q)) :
    q.free + Node.chargeOf head (given.map Held.key).length = w.pool.free := by
  have hroom := h.room_build hbuild
  have hafter := h.build hhead hbuild
  have hused := h.charged hp hproper
  have hused' := hafter.charged hp hproper
  have hcapacity := hafter.within.capacity.trans h.within.capacity.symm
  have hnode : (head.withOperands (given.map Held.tree)).charge =
      Node.chargeOf head (given.map Held.key).length + Expr.chargeAll (given.map Held.tree) := by
    rw [List.length_map, ← given.length_map Held.tree]
    apply charge_withOperands
    simpa using hhead
  rw [perform_build hbuild] at hused' hcapacity
  rw [List.map_append, Expr.chargeAll_append] at hused
  rw [List.map_cons, Expr.chargeAll] at hused'
  simp only at hused' hcapacity hnode
  unfold Pool.free at hroom ⊢
  omega

/-- A handle is dropped. -/
theorem drop {x : Expr} (h : Holds p handles proper w (⟨key, x⟩ :: kept)) :
    Holds p handles proper (w.perform (.drop key)) kept := by
  have hlisted : Copied p w.pool handles ([key] ++ kept.map Held.key) := h.listed
  rcases hlisted.balanced_kept.releaseAll with ⟨hbalanced, hevolves⟩
  have hperm : (w.handles.erase key).Perm (kept.map Held.key) := by
    have herased := h.perm.erase key
    rwa [List.map_cons, List.erase_cons_head] at herased
  constructor
  · exact hlisted.drop.perm hperm.symm
  · exact hperm
  · intro held hheld
    rw [← h.reads held (List.mem_cons_of_mem _ hheld)]
    exact hlisted.read_kept hbalanced hevolves (List.mem_map_of_mem hheld)
  · exact h.within.trans (Within.of_spends (Spends.releaseAll _ _))
  · intro hproper
    exact (h.fits hproper).remains hbalanced hevolves (nextKey_releaseAll _ _)

/-- A node is taken apart. -/
theorem intoChildren {f : Operator} {xs : List Expr} (hp : Balanced p [] handles)
    (h : Holds p handles proper w (⟨key, .apply f xs⟩ :: kept)) :
    ∃ made, StandsAll xs (w.pool.intoChildren key).1 made ∧
      Holds p handles proper (w.perform (.intoChildren key)) (made ++ kept) := by
  have hlisted : Copied p w.pool handles (key :: kept.map Held.key) := h.listed
  have hread : w.pool.read key = .apply f xs := h.reads _ List.mem_cons_self
  rcases hinto : w.pool.intoChildren key with ⟨keys, q⟩
  rcases hlisted.intoChildren hp hinto with ⟨hcopied, hevolves, hnext, hreads⟩
  have hperform : w.perform (.intoChildren key) =
      { w with pool := q, handles := keys ++ w.handles.erase key } := by
    simp only [World.perform, hinto]
  have hperm : (w.handles.erase key).Perm (kept.map Held.key) := by
    have herased := h.perm.erase key
    rwa [List.map_cons, List.erase_cons_head] at herased
  let made := keys.map fun child => (⟨child, q.read child⟩ : Held)
  have hkeys : made.map Held.key = keys := by
    rw [List.map_map]
    exact List.map_id keys
  have htrees : made.map Held.tree = xs := by
    rw [← hreads f xs hread, List.map_map]
    rfl
  refine ⟨made, ⟨htrees, hkeys⟩, ?_⟩
  rw [hperform]
  constructor
  · exact hcopied.perm (hperm.symm.append_left keys)
  · rw [List.map_append, hkeys]
    exact hperm.append_left keys
  · intro held hheld
    rcases List.mem_append.mp hheld with hnew | hold
    · rcases List.mem_map.mp hnew with ⟨child, -, rfl⟩
      rfl
    · rw [← h.reads held (List.mem_cons_of_mem _ hold)]
      have hbeside : Copied p w.pool handles ([key] ++ kept.map Held.key) := hlisted
      exact hbeside.read_kept hcopied.balanced hevolves (List.mem_map_of_mem hold)
  · exact h.within.trans (hlisted.within_intoChildren hp hinto)
  · intro hproper
    exact (h.fits hproper).remains hcopied.balanced hevolves hnext

end Holds

namespace Follows

variable {σ ε α β γ δ : Type} [Metered σ ε] {given given' rest made : List Held}
  {m : StateT σ (Except ε) α} {work : Working σ ε β} {rel rel' : α → β → List Held → Prop}
  {f : α → StateT σ (Except ε) γ} {g : β → Working σ ε δ} {next : γ → δ → List Held → Prop}

theorem perm (h : Follows given' m work rel) (hperm : given.Perm given') :
    Follows given m work rel := by
  constructor
  · exact h.frugal
  · intro p handles kept w s b s' w' more hp hholds hrun
    exact h.succeeds more hp (hholds.perm_held (hperm.append_right kept)) hrun
  · intro p handles kept w s e w' more hp hholds hrun
    exact h.fails more hp (hholds.perm_held (hperm.append_right kept)) hrun

theorem weaken (h : Follows given m work rel) (hrel : ∀ a b made, rel a b made → rel' a b made) :
    Follows given m work rel' := by
  constructor
  · intro s a t hm
    rcases h.frugal hm with ⟨hle, b, made, hstands⟩
    exact ⟨hle, b, made, hrel a b made hstands⟩
  · intro p handles kept w s b s' w' more hp hholds hrun
    rcases h.succeeds more hp hholds hrun with ⟨a, made, hstands, hafter, hm⟩
    exact ⟨a, made, hrel a b made hstands, hafter, hm⟩
  · exact h.fails

/-- What else is held stays as it is. -/
theorem beside (h : Follows given m work rel) (rest : List Held) :
    Follows (rest ++ given) m work
      fun a b made => ∃ made', made = rest ++ made' ∧ rel a b made' := by
  have hswap : ∀ held kept : List Held, (rest ++ held ++ kept).Perm (held ++ (rest ++ kept)) := by
    intro held kept
    rw [← List.append_assoc]
    exact List.perm_append_comm.append_right kept
  constructor
  · intro s a t hm
    rcases h.frugal hm with ⟨hle, b, made, hstands⟩
    exact ⟨hle, b, rest ++ made, made, rfl, hstands⟩
  · intro p handles kept w s b s' w' more hp hholds hrun
    rcases h.succeeds more hp (hholds.perm_held (hswap given kept)) hrun with
      ⟨a, made, hstands, hafter, hm⟩
    exact ⟨a, rest ++ made, ⟨made, rfl, hstands⟩, hafter.perm_held (hswap made kept).symm, hm⟩
  · intro p handles kept w s e w' more hp hholds hrun
    exact h.fails more hp (hholds.perm_held (hswap given kept)) hrun

theorem pure {a : α} {b : β} (h : rel a b given) :
    Follows given (Pure.pure a : StateT σ (Except ε) α) (Pure.pure b : Working σ ε β) rel := by
  constructor
  · intro s a' t hm
    cases hm
    exact ⟨Nat.le_refl _, b, given, h⟩
  · intro p handles kept w s b' s' w' more hp hholds hrun
    cases hrun
    exact ⟨a, given, h, hholds, rfl⟩
  · intro p handles kept w s e w' more hp hholds hrun
    cases hrun

/-- One step after the other. -/
theorem bind (h : Follows given m work rel)
    (hnext : ∀ a b made, rel a b made → Follows made (f a) (g b) next) :
    Follows given (m >>= f) (work >>= g) next := by
  constructor
  · intro s c u hm
    rcases of_bind_ok hm with ⟨a, t, hfirst, hsecond⟩
    rcases h.frugal hfirst with ⟨hle, b, made, hstands⟩
    rcases (hnext a b made hstands).frugal hsecond with ⟨hle', hmade⟩
    exact ⟨Nat.le_trans hle' hle, hmade⟩
  · intro p handles kept w s d s'' w'' more hp hholds hrun
    rcases hwork : work s w with ⟨e | ⟨b, s'⟩, w'⟩
    · rw [Working.bind_error hwork] at hrun
      cases hrun
    · rw [Working.bind_ok hwork] at hrun
      rcases h.succeeds more hp hholds hwork with ⟨a, made, hstands, hafter, hm⟩
      rcases (hnext a b made hstands).succeeds more hp hafter hrun with
        ⟨c, made', hstands', hend, hm'⟩
      exact ⟨c, made', hstands', hend, (bind_ok hm).trans hm'⟩
  · intro p handles kept w s e w'' more hp hholds hrun
    rcases hwork : work s w with ⟨e' | ⟨b, s'⟩, w'⟩
    · rw [Working.bind_error hwork] at hrun
      cases hrun
      rcases h.fails more hp hholds hwork with ⟨hcopied, hshort⟩
      refine ⟨hcopied, fun hstrict => ⟨fun hnone => bind_error ((hshort hstrict).1 hnone), ?_⟩⟩
      intro c u hm
      rcases of_bind_ok hm with ⟨a, t, hfirst, hsecond⟩
      rcases h.frugal hfirst with ⟨-, b, made, hstands⟩
      have hle := ((hnext a b made hstands).frugal hsecond).1
      exact Nat.lt_of_le_of_lt hle ((hshort hstrict).2 a t hfirst)
    · rw [Working.bind_ok hwork] at hrun
      rcases h.succeeds more hp hholds hwork with ⟨a, made, hstands, hafter, hm⟩
      rcases (hnext a b made hstands).fails more hp hafter hrun with ⟨hcopied, hshort⟩
      refine ⟨hcopied, fun hstrict => ?_⟩
      rw [bind_ok hm]
      exact hshort hstrict

/-- A step that takes nothing over. -/
theorem bind_new (h : Follows [] m work rel)
    (hnext : ∀ a b made, rel a b made → Follows (given ++ made) (f a) (g b) next) :
    Follows given (m >>= f) (work >>= g) next := by
  have hbeside := h.beside given
  rw [List.append_nil] at hbeside
  apply hbeside.bind
  rintro a b _ ⟨made, rfl, hstands⟩
  exact hnext a b made hstands

/-- A choice that does not depend on what is held. -/
theorem ite {c : Prop} [Decidable c] {m' : StateT σ (Except ε) α} {work' : Working σ ε β}
    (hthen : c → Follows given m work rel) (helse : ¬ c → Follows given m' work' rel) :
    Follows given (if c then m else m') (if c then work else work') rel := by
  by_cases hc : c
  · rw [if_pos hc, if_pos hc]
    exact hthen hc
  · rw [if_neg hc, if_neg hc]
    exact helse hc

/-! ### Steps that have nothing to do with the pool -/

/-- Steps that do not depend on how many bytes are free. -/
def Blind (m : StateT σ (Except ε) α) : Prop :=
  ∀ s n, m (withFree s n) = (m s).map fun result => (result.1, withFree result.2 n)

theorem Blind.pure (a : α) : Blind (Pure.pure a : StateT σ (Except ε) α) :=
  fun _ _ => rfl

theorem Blind.throw (e : ε) : Blind (throw e : StateT σ (Except ε) α) :=
  fun _ _ => rfl

theorem Blind.bind {m : StateT σ (Except ε) α} {f : α → StateT σ (Except ε) γ} (h : Blind m)
    (hnext : ∀ a, Blind (f a)) : Blind (m >>= f) := by
  intro s n
  have hfirst := h s n
  cases hm : m s with
  | error e =>
      rw [hm] at hfirst
      rw [bind_error hfirst, bind_error hm]
      rfl
  | ok result =>
      rw [hm] at hfirst
      rw [bind_ok hfirst, bind_ok hm]
      exact hnext result.1 result.2 n

theorem Blind.ite {c : Prop} [Decidable c] {m m' : StateT σ (Except ε) α} (hthen : Blind m)
    (helse : Blind m') : Blind (if c then m else m') := by
  split
  · exact hthen
  · exact helse

/-- Steps whose results have a property. -/
def Gives (P : α → Prop) (m : StateT σ (Except ε) α) : Prop :=
  ∀ s a t, m s = .ok (a, t) → P a

omit [Metered σ ε] in
theorem Gives.pure {P : α → Prop} {a : α} (h : P a) :
    Gives P (Pure.pure a : StateT σ (Except ε) α) := by
  intro s b t hm
  cases hm
  exact h

omit [Metered σ ε] in
theorem Gives.throw {P : α → Prop} (e : ε) :
    Gives P (MonadExcept.throw e : StateT σ (Except ε) α) := by
  intro s a t hm
  cases hm

omit [Metered σ ε] in
theorem Gives.bind {P : γ → Prop} {m : StateT σ (Except ε) α} {f : α → StateT σ (Except ε) γ}
    (hnext : ∀ a, Gives P (f a)) : Gives P (m >>= f) := by
  intro s c u hm
  rcases of_bind_ok hm with ⟨a, t, -, hsecond⟩
  exact hnext a t c u hsecond

omit [Metered σ ε] in
theorem Gives.ite {P : α → Prop} {c : Prop} [Decidable c] {m m' : StateT σ (Except ε) α}
    (hthen : Gives P m) (helse : Gives P m') : Gives P (if c then m else m') := by
  split
  · exact hthen
  · exact helse

theorem lift {m : StateT σ (Except ε) α} (hblind : Blind m) {P : α → Prop}
    (hP : Gives P m) :
    Follows [] m (liftM m : Working σ ε α) fun a b made => Same a b made ∧ P a := by
  constructor
  · intro s a t hm
    refine ⟨?_, a, [], ⟨rfl, rfl⟩, hP s a t hm⟩
    have hsame := hblind s (free s)
    rw [withFree_free, hm] at hsame
    have heq : t = withFree t (free s) := congrArg Prod.snd (Except.ok.inj hsame)
    rw [heq]
    exact free_withFree_le t (free s)
  · intro p handles kept w s b s' w' more hp hholds hrun
    have hm : m s = .ok (b, s') := congrArg Prod.fst hrun
    have hw : w = w' := congrArg Prod.snd hrun
    subst hw
    refine ⟨b, [], ⟨⟨rfl, rfl⟩, hP s b s' hm⟩, hholds, ?_⟩
    rw [hblind, hm]
    rfl
  · intro p handles kept w s e w' more hp hholds hrun
    have hm : m s = .error e := congrArg Prod.fst hrun
    have hw : w = w' := congrArg Prod.snd hrun
    subst hw
    have herror : m (withFree s (w.pool.free + more)) = .error e := by
      rw [hblind, hm]
      rfl
    refine ⟨hholds.copied, fun _ => ⟨fun _ => herror, ?_⟩⟩
    intro a t hok
    rw [herror] at hok
    cases hok

theorem bind_lift {m : StateT σ (Except ε) α} {g : α → Working σ ε δ} (hblind : Blind m)
    (hnext : ∀ a, Follows given (f a) (g a) next) :
    Follows given (m >>= f) (liftM m >>= g) next := by
  apply (lift hblind (P := fun _ => True) fun _ _ _ _ => trivial).bind_new
  rintro a b made ⟨⟨rfl, rfl⟩, -⟩
  rw [List.append_nil]
  exact hnext a

/-- Steps that always fail in the same way, whatever they would have given. -/
theorem fail {m : StateT σ (Except ε) α} {m' : StateT σ (Except ε) β}
    (hfails : ∀ s, ∃ e, m' s = .error e ∧ ∀ n, m (withFree s n) = .error e) :
    Follows given m (liftM m' : Working σ ε β) rel := by
  constructor
  · intro s a t hm
    rcases hfails s with ⟨e, -, herror⟩
    rw [← withFree_free s, herror] at hm
    cases hm
  · intro p handles kept w s b s' w' more hp hholds hrun
    rcases hfails s with ⟨e, herror, -⟩
    have hm : m' s = .ok (b, s') := congrArg Prod.fst hrun
    rw [herror] at hm
    cases hm
  · intro p handles kept w s e w' more hp hholds hrun
    rcases hfails s with ⟨e', herror, hplain⟩
    have hm : m' s = .error e := congrArg Prod.fst hrun
    have hw : w = w' := congrArg Prod.snd hrun
    subst hw
    rw [herror] at hm
    cases hm
    refine ⟨hholds.copied, fun _ => ⟨fun _ => hplain _, ?_⟩⟩
    intro a t hok
    rw [hplain] at hok
    cases hok

/-- The state may be asked for what does not depend on how many bytes are free. -/
theorem bind_get {κ : Type} (k : σ → κ) (hk : ∀ s n, k (withFree s n) = k s)
    {f : κ → StateT σ (Except ε) γ} {g : κ → Working σ ε δ}
    (hnext : ∀ x, Follows given (f x) (g x) next) :
    Follows given (get >>= fun s => f (k s)) (get >>= fun s => g (k s)) next := by
  have hblind : Blind (σ := σ) (ε := ε) (get >>= fun s => Pure.pure (k s)) := by
    intro s n
    show Except.ok (k (withFree s n), withFree s n) = _
    rw [hk]
    rfl
  have hfollows : Follows given ((get >>= fun s => Pure.pure (k s)) >>= f)
      (liftM (get >>= fun s => Pure.pure (k s) : StateT σ (Except ε) κ) >>= g) next :=
    bind_lift hblind hnext
  exact hfollows

/-! ### Looking at what is held -/

theorem bind_seen {κ : Type} {x : κ} {look : Working σ ε κ} {m : StateT σ (Except ε) γ}
    {g : κ → Working σ ε δ}
    (hseen : ∀ {p handles kept w s}, Holds p handles (strict σ ∨ Fitting 0 p) w (given ++ kept) →
      look s w = (.ok (x, s), w))
    (hnext : Follows given m (g x) next) : Follows given m (look >>= g) next := by
  constructor
  · exact hnext.frugal
  · intro p handles kept w s b s' w' more hp hholds hrun
    rw [Working.bind_ok (hseen hholds)] at hrun
    exact hnext.succeeds more hp hholds hrun
  · intro p handles kept w s e w' more hp hholds hrun
    rw [Working.bind_ok (hseen hholds)] at hrun
    exact hnext.fails more hp hholds hrun

theorem bind_look {x : Expr} {key : Nat} {m : StateT σ (Except ε) γ} {g : Expr → Working σ ε δ}
    (hmem : ⟨key, x⟩ ∈ given) (hnext : Follows given m (g x) next) :
    Follows given m (Working.look key >>= g) next := by
  apply bind_seen _ hnext
  intro p handles kept w s hholds
  have hread : w.pool.read key = x := hholds.reads ⟨key, x⟩ (List.mem_append_left kept hmem)
  rw [← hread]
  rfl

theorem bind_lookAll {xs : List Expr} {keys : List Nat} {m : StateT σ (Except ε) γ}
    {g : List Expr → Working σ ε δ} (hstands : StandsAll xs keys given)
    (hnext : Follows given m (g xs) next) :
    Follows given m (Working.lookAll keys >>= g) next := by
  apply bind_seen _ hnext
  intro p handles kept w s hholds
  obtain ⟨rfl, rfl⟩ := hstands
  have hread : (given.map Held.key).map w.pool.read = given.map Held.tree := by
    rw [List.map_map]
    exact List.map_congr_left fun h hh => hholds.reads h (List.mem_append_left kept hh)
  rw [← hread]
  rfl

/-! ### Making nodes -/

/-- Steps that take up a node with so many bytes. -/
structure Charges (m : StateT σ (Except ε) Expr) (x : Expr) (charge : Nat) : Prop where
  fits : ∀ s n, (strict σ → charge ≤ n) → m (withFree s n) = .ok (x, withFree s (n - charge))
  refused : strict σ → ∀ s n, n < charge →
    m (withFree s n) = .error (Refusing.refuse s ⟨charge, n⟩)

theorem Charges.frugal {m : StateT σ (Except ε) Expr} {x y : Expr} {charge : Nat} {s t : σ}
    (h : Charges m x charge) (hm : m s = .ok (y, t)) : free t ≤ free s := by
  rw [← withFree_free s] at hm
  by_cases hroom : strict σ → charge ≤ free s
  · rw [h.fits s (free s) hroom] at hm
    cases hm
    exact Nat.le_trans (free_withFree_le _ _) (Nat.sub_le _ _)
  · push Not at hroom
    rw [h.refused hroom.1 s (free s) hroom.2] at hm
    cases hm

theorem make {head x : Expr} {keys : List Nat} {m : StateT σ (Except ε) Expr}
    (hkeys : given.map Held.key = keys) (hx : head.withOperands (given.map Held.tree) = x)
    (hhead : keys = [] ∨ ∃ f xs, head = .apply f xs)
    (hm : Charges m x (Node.chargeOf head keys.length)) :
    Follows given m (Working.make head keys) Stands := by
  subst hkeys hx
  constructor
  · intro s a t hok
    exact ⟨hm.frugal hok, 0, [⟨0, a⟩], rfl⟩
  · intro p handles kept w s key s' w' more hp hholds hrun
    rcases hbuild : w.pool.building head (given.map Held.key) with ⟨shortage | made, q⟩
    · have hsettled := congrArg Prod.fst hrun
      simp only [Working.make, hbuild, Working.settle] at hsettled
      cases hsettled
    · obtain ⟨hsettled, rfl⟩ := Prod.mk.inj hrun
      rw [hbuild] at hsettled
      cases hsettled
      have hafter := hholds.build hhead hbuild
      refine ⟨_, _, rfl, hafter, ?_⟩
      have hroom := hholds.room_build hbuild
      rw [hm.fits s _ fun _ => by omega]
      by_cases hstrict : strict σ
      · have hfree := hholds.free_build hp (Or.inl hstrict) hhead hbuild
        have heq : w.pool.free + more - Node.chargeOf head (given.map Held.key).length =
            (w.perform (.build head (given.map Held.key))).pool.free + more := by
          rw [Holds.perform_build hbuild]
          show _ = q.free + more
          omega
        rw [heq]
      · rw [withFree_of_not_strict hstrict s]
  · intro p handles kept w s e w' more hp hholds hrun
    rcases hbuild : w.pool.building head (given.map Held.key) with ⟨shortage | made, q⟩
    · obtain ⟨hsettled, rfl⟩ := Prod.mk.inj hrun
      rw [hbuild] at hsettled
      cases hsettled
      rw [Holds.perform_build hbuild]
      refine ⟨hholds.copied_build hbuild, fun hstrict => ?_⟩
      obtain ⟨hshort, rfl⟩ := hholds.shortage_build hbuild
      constructor
      · rintro rfl
        exact hm.refused hstrict s _ hshort
      · intro y t hok
        by_cases hroom : Node.chargeOf head (given.map Held.key).length ≤ w.pool.free + more
        · rw [hm.fits s _ fun _ => hroom] at hok
          cases hok
          have hle := free_withFree_le s
            (w.pool.free + more - Node.chargeOf head (given.map Held.key).length)
          omega
        · rw [hm.refused hstrict s _ (by omega)] at hok
          cases hok
    · have hsettled := congrArg Prod.fst hrun
      simp only [Working.make, hbuild, Working.settle] at hsettled
      cases hsettled

theorem make_leaf {x : Expr} {m : StateT σ (Except ε) Expr} (h : x.operands = [])
    (hm : Charges m x x.nodeCharge) : Follows [] m (Working.make x []) Stands := by
  have hx : x.withOperands [] = x := by
    cases x with
    | apply f xs => exact congrArg (Expr.apply f) h.symm
    | _ => rfl
  have hcharge : x.nodeCharge = Node.chargeOf x ([] : List Nat).length := by
    rw [Expr.nodeCharge, h]
    rfl
  exact make rfl hx (Or.inl rfl) (hcharge ▸ hm)

theorem make_node (f : Operator) {xs : List Expr} {keys : List Nat}
    {m : StateT σ (Except ε) Expr} (h : StandsAll xs keys made)
    (hm : Charges m (.apply f xs) (Expr.apply f xs).nodeCharge) :
    Follows made m (Working.make (.apply f []) keys) Stands := by
  obtain ⟨rfl, rfl⟩ := h
  have hcharge : (Expr.apply f (made.map Held.tree)).nodeCharge =
      Node.chargeOf (.apply f []) (made.map Held.key).length := by
    rw [Expr.nodeCharge, Node.chargeOf, Expr.operands, List.length_map, List.length_map]
    rfl
  exact make rfl rfl (Or.inr ⟨f, [], rfl⟩) (hcharge ▸ hm)

/-! ### Work that gives bytes back

Steps that are strict about bytes have no counterpart to it. -/

section Loose

end Loose

end Follows

end PocketAlgebra
