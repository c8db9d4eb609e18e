import PocketAlgebra.Proofs.Pool.Reducing
import PocketAlgebra.Proofs.Pool.Permitted
import PocketAlgebra.Proofs.Pool.Reading

/-!
# All or nothing

Reading a text, reading bytes, copying an expression from another pool and reducing one either fail,
and leave all nodes as they were, or add the nodes of their result to them and nothing else. A text
that can be read where there is room enough is read exactly where its expression fits.
-/

namespace PocketAlgebra

namespace Pool

variable {p q : Pool} {key : Nat} {handles : List Nat} {newer : List Node} {proper : Prop}

/-! ## What an operation may do -/

/-- A pool `q` has come from a pool `p` by adding the nodes of an expression, to which there is a
new handle. -/
structure Adds (p q : Pool) (handles : List Nat) (key : Nat) (newer : List Node) : Prop where
  grown : Grown p q newer
  reached : ∀ node ∈ q.nodes, node ∈ newer ↔ Reaches q key node.key
  balanced : Balanced q [] (key :: handles)
  others : ∀ handle ∈ handles, q.read handle = p.read handle

/-- New nodes are as many as those of an expression, and are charged as much. -/
structure Measures (p q : Pool) (key : Nat) (newer : List Node) : Prop where
  size : newer.length = (q.read key).size
  charge : q.used = p.used + (q.read key).charge

/-- An operation that gives a handle leaves the nodes of a pool as they were if it fails, and adds
the nodes of the result if it succeeds. Whether these can be counted by the result depends on what
is assumed about nodes. -/
structure AllOrNothing {ε : Type} (p : Pool) (handles : List Nat) (proper : Prop)
    (result : Except ε Nat × Pool) : Prop where
  failure : ∀ e, result.1 = .error e → result.2.nodes = p.nodes ∧ result.2.used = p.used
  success : ∀ key, result.1 = .ok key →
    ∃ newer, Adds p result.2 handles key newer ∧ (proper → Measures p result.2 key newer)

/-- All nodes that can be reached from new ones are new. -/
theorem Reaches.fresh {last : Nat} (h : Reaches q key last) (hcontained : SelfContained p q)
    (hkey : p.nextKey ≤ key) : p.nextKey ≤ last := by
  induction h with
  | here _ => exact hkey
  | operand _ hparent hchild _ ih => exact (hcontained _ hparent ih _ hchild).1

/-- Where all that has been made is an expression, its nodes are all that has been added. -/
theorem adds_of_apart {w : World} (h : World.Apart p handles w) (hp : Balanced p [] handles)
    (hsole : w.handles = [key]) : ∃ newer, Adds p w.pool handles key newer := by
  have hbalanced : Balanced w.pool [] ([key] ++ handles) := hsole ▸ h.balanced
  have hkey : p.nextKey ≤ key := (h.fresh key (by simp [hsole])).1
  rcases hp.grown hbalanced h.evolves h.contained (by simpa using hkey) with ⟨newer, hgrown⟩
  refine ⟨newer, hgrown, ?_, hbalanced, ?_⟩
  · intro node hnode
    constructor
    · intro hnew
      rcases hgrown.reached hp hbalanced node hnew with ⟨k, hk, hreach⟩
      rw [List.mem_singleton] at hk
      exact hk ▸ hreach
    · intro hreach
      have hge := hreach.fresh h.contained hkey
      rw [hgrown.nodes, List.mem_append] at hnode
      rcases hnode with hnew | hold
      · exact hnew
      · have hlt := hp.node_lt_nextKey hold
        omega
  · intro handle hhandle
    exact read_evolves hp hbalanced h.evolves hhandle

theorem Copied.adds (h : Copied p q handles [key]) (hp : Balanced p [] handles)
    (hfits : proper → Fitting p.nextKey q) :
    ∃ newer, Adds p q handles key newer ∧ (proper → Measures p q key newer) := by
  rcases adds_of_apart (World.Apart.of_copied h) hp rfl with ⟨newer, hadds⟩
  refine ⟨newer, hadds, fun hproper => ?_⟩
  constructor
  · rw [h.counted hp (hfits hproper) hadds.grown]
    exact Nat.add_zero _
  · rw [h.charged hp (hfits hproper)]
    rfl

namespace AllOrNothing

variable {ε ε' : Type} {e : ε}

theorem of_error (h : q.nodes = p.nodes ∧ q.used = p.used) :
    AllOrNothing p handles proper (.error e, q) :=
  ⟨fun _ _ => h, by simp⟩

theorem of_ok (h : ∃ newer, Adds p q handles key newer ∧ (proper → Measures p q key newer)) :
    AllOrNothing p handles proper ((.ok key, q) : Except ε Nat × Pool) :=
  ⟨by simp, fun _ hkey => by cases hkey; exact h⟩

theorem unchanged (h : AllOrNothing p handles proper (.error e, q)) :
    q.nodes = p.nodes ∧ q.used = p.used :=
  h.failure e rfl

/-- Failures may be reported in another way. -/
theorem report {e' : ε'} (h : AllOrNothing p handles proper (.error e, q)) :
    AllOrNothing p handles proper (.error e', q) :=
  of_error h.unchanged

end AllOrNothing

end Pool

open Pool

/-! ## Work that does what is permitted -/

namespace Working

variable {σ ε : Type} {p : Pool} {handles : List Nat} {w : World} {key : Nat} {s t : σ}
  {work : Working σ ε Nat}

/-- Where only the handle to the result is left, there is nothing to be dropped. -/
theorem close_sole (h : w.handles = [key]) :
    close ((.ok (key, t), w) : Except ε (Nat × σ) × World) = (.ok key, w.pool) := by
  have hnone : w.pool.releaseAll (w.handles.erase key) = w.pool := by
    rw [h, List.erase_cons_head]
    exact releaseAll.eq_1 w.pool
  rw [close, hnone]

/-- Careful work does all or nothing. -/
theorem Careful.close (h : Careful work w.handles fun key => [key]) (hp : Balanced p [] handles)
    (hapart : World.Apart p handles w) :
    AllOrNothing p handles False (close (work s w)) := by
  rcases h s w [] (List.Perm.of_eq (List.append_nil _).symm) with ⟨hadvances, hmade⟩
  have hafter := hapart.advances hadvances
  rcases hwork : work s w with ⟨e | ⟨key, t⟩, w'⟩
  · rw [hwork] at hafter
    exact .of_error (hafter.abandoned.unchanged hp)
  · rw [hwork] at hafter hmade
    have hsole : w'.handles = [key] := List.perm_singleton.mp (hmade key t rfl)
    rw [close_sole hsole]
    rcases adds_of_apart hafter hp hsole with ⟨newer, hadds⟩
    exact .of_ok ⟨newer, hadds, False.elim⟩

end Working

/-! ## Work that follows plain steps -/

section End

open Metered

variable {σ ε : Type} [Metered σ ε] {p q : Pool} {handles : List Nat} {proper : Prop} {w : World}
  {given : List Held} {key room : Nat} {x : Expr} {e : ε} {s t : σ}
  {m : StateT σ (Except ε) Expr} {work : Working σ ε Nat}

theorem Follows.close_ok (h : Follows given m work Stands) (hp : Balanced p [] handles)
    (hholds : Holds p handles (strict σ ∨ Fitting 0 p) w given)
    (hclose : Working.close (work s w) = (.ok key, q)) :
    ∃ x t w', w'.pool = q ∧ Holds p handles (strict σ ∨ Fitting 0 p) w' [⟨key, x⟩] ∧
      ∀ more, m (withFree s (w.pool.free + more)) = .ok (x, withFree t (q.free + more)) := by
  rw [← List.append_nil given] at hholds
  rcases hwork : work s w with ⟨e | ⟨result, t⟩, w'⟩
  · rw [hwork] at hclose
    cases hclose
  · rcases h.succeeds 0 hp hholds hwork with ⟨x, _, rfl, hafter, -⟩
    rw [hwork, Working.close_sole (List.perm_singleton.mp hafter.perm)] at hclose
    cases hclose
    refine ⟨x, t, w', rfl, hafter, fun more => ?_⟩
    rcases h.succeeds more hp hholds hwork with ⟨y, _, rfl, hafter', hm⟩
    have hx : w'.pool.read result = x := hafter.reads ⟨result, x⟩ (List.mem_singleton_self _)
    have hy : w'.pool.read result = y := hafter'.reads ⟨result, y⟩ (List.mem_singleton_self _)
    rw [hm, ← hx, ← hy]

theorem Follows.close_error (h : Follows given m work Stands) (hp : Balanced p [] handles)
    (hholds : Holds p handles (strict σ ∨ Fitting 0 p) w given)
    (hclose : Working.close (work s w) = (.error e, q)) :
    Copied p q handles [] ∧
      (strict σ → ∀ more, ShortBy more e (m (withFree s (w.pool.free + more)))) := by
  rw [← List.append_nil given] at hholds
  rcases hwork : work s w with ⟨e' | ⟨result, t⟩, w'⟩
  · rw [hwork] at hclose
    cases hclose
    exact ⟨(h.fails 0 hp hholds hwork).1.hold.releaseAll,
      fun hstrict more => (h.fails more hp hholds hwork).2 hstrict⟩
  · rw [hwork] at hclose
    cases hclose

/-- Work that follows plain steps does all or nothing. -/
theorem Follows.close (h : Follows given m work Stands) (hp : Balanced p [] handles)
    (hholds : Holds p handles (strict σ ∨ Fitting 0 p) w given) :
    AllOrNothing p handles (strict σ ∨ Fitting 0 p) (Working.close (work s w)) := by
  rcases hclose : Working.close (work s w) with ⟨e | key, q⟩
  · exact .of_error ((h.close_error hp hholds hclose).1.unchanged hp)
  · rcases h.close_ok hp hholds hclose with ⟨x, t, w', rfl, hafter, -⟩
    exact .of_ok (hafter.listed.adds hp hafter.fits)

end End

/-! ## Work that is strict about bytes -/

section Strict

open Metered

variable {σ ε : Type} [Metered σ ε] {p q : Pool} {handles : List Nat} {key room : Nat} {x : Expr}
  {e : ε} {s t : σ} {m : StateT σ (Except ε) Expr} {work : Working σ ε Nat}

/-- What work makes takes up just the bytes that it is charged. -/
theorem Follows.run_ok (h : Follows [] m work Stands) (hp : Balanced p [] handles)
    (hstrict : strict σ) (hrun : Working.run work s p = (.ok key, q)) :
    ∃ t, (q.read key).charge ≤ p.free ∧ q.free + (q.read key).charge = p.free ∧
      ∀ more, m (withFree s (p.free + more)) =
        .ok (q.read key, withFree t (q.free + more)) := by
  rcases h.close_ok hp (Holds.start hp) hrun with ⟨x, t, w, rfl, hafter, hm⟩
  have hread : w.pool.read key = x := hafter.reads ⟨key, x⟩ (List.mem_singleton_self _)
  have hused : w.pool.used = p.used + (x.charge + 0) := hafter.charged hp (Or.inl hstrict)
  have hroom := (hafter.room_of_used x.charge_pos (by omega)).1
  have hcapacity := hafter.within.capacity
  rw [hread]
  refine ⟨t, hroom, ?_, hm⟩
  unfold Pool.free at hroom ⊢
  omega

theorem Follows.run_error (h : Follows [] m work Stands) (hp : Balanced p [] handles)
    (hstrict : strict σ) (hrun : Working.run work s p = (.error e, q)) (more : Nat) :
    ShortBy more e (m (withFree s (p.free + more))) :=
  (h.close_error hp (Holds.start hp) hrun).2 hstrict more

/-- Plain steps that come to an end with some bytes take the charge of their result off them, and
come to the same end with more. -/
theorem Follows.spends (h : Follows [] m work Stands) (hstrict : strict σ)
    (hm : m (withFree s room) = .ok (x, t)) :
    ∃ t', x.charge ≤ room ∧ ∀ more, m (withFree s (room + more)) =
      .ok (x, withFree t' (room - x.charge + more)) := by
  -- The steps are followed in a pool that has just these bytes.
  let p := Pool.empty room 0
  have hp : Balanced p [] [] := Balanced.empty room 0
  rcases hrun : Working.run work s p with ⟨e | key, q⟩
  · have herror := (h.run_error hp hstrict hrun 0).1 rfl
    rw [show p.free + 0 = room from rfl, hm] at herror
    cases herror
  · rcases h.run_ok hp hstrict hrun with ⟨t', hroom, hfree, hsame⟩
    have hfirst := hsame 0
    rw [show p.free + 0 = room from rfl, hm] at hfirst
    obtain ⟨hx, -⟩ := Prod.mk.inj (Except.ok.inj hfirst)
    rw [← hx] at hroom hfree hsame
    have hleft : q.free = room - x.charge := Nat.eq_sub_of_add_eq hfree
    rw [hleft] at hsame
    exact ⟨t', hroom, hsame⟩

end Strict

end PocketAlgebra
