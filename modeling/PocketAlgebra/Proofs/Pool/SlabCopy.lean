import PocketAlgebra.Proofs.Pool.Growth
import PocketAlgebra.Proofs.Pool.SlabPool

/-!
# Copies in slabs

Going through a tree with a stack makes the copies that recursion makes, in the same order. Where
there is no room for one of them, both drop all copies, though not in the same order, and leave the
nodes that there were before.
-/

namespace PocketAlgebra

namespace Pool

variable {p q : Pool} {keys : List Nat}

theorem releaseAll_nil (p : Pool) : p.releaseAll [] = p := by
  rw [releaseAll]

theorem releaseAll_cons (p : Pool) (key : Nat) (rest : List Nat) :
    p.releaseAll (key :: rest) =
      match p.node? key with
      | none => p.releaseAll rest
      | some node =>
        if 1 < node.references then
          (p.decrement key).releaseAll rest
        else
          (node.children.foldl detach (p.remove node)).releaseAll
            (node.children.reverse ++ rest) := by
  rw [releaseAll]
  split <;> rename_i hnode <;> rw [hnode]

/-- Handles that are dropped together can be dropped one part after the other. -/
theorem releaseAll_append (p : Pool) (keys later : List Nat) :
    p.releaseAll (keys ++ later) = (p.releaseAll keys).releaseAll later := by
  induction p, keys using releaseAll.induct with
  | case1 p => rw [List.nil_append, releaseAll_nil]
  | case2 p key rest hnode ih =>
      rw [List.cons_append, releaseAll_cons, releaseAll_cons, hnode]
      exact ih
  | case3 p key rest node hnode hshared ih =>
      rw [List.cons_append, releaseAll_cons, releaseAll_cons, hnode]
      simp only [if_pos hshared]
      exact ih
  | case4 p key rest node hnode hlast ih =>
      rw [List.cons_append, releaseAll_cons, releaseAll_cons, hnode]
      simp only [if_neg hlast]
      rw [← ih, List.append_assoc]

theorem foldl_release (p : Pool) (keys : List Nat) : keys.foldl release p = p.releaseAll keys := by
  induction keys generalizing p with
  | nil => exact (releaseAll_nil p).symm
  | cons key keys ih =>
      rw [List.foldl_cons, ih, release, ← releaseAll_append, List.singleton_append]

/-- The copies of all operands come behind those that were there, one for each operand. -/
theorem length_of_copyAll {copyOne : Pool → Nat → Except Shortage Nat × Pool} {made all : List Nat}
    (h : copyAll copyOne p made keys = (.ok all, q)) :
    ∃ fresh, all = made ++ fresh ∧ fresh.length = keys.length := by
  induction keys generalizing p made with
  | nil =>
      cases h
      exact ⟨[], (List.append_nil _).symm, rfl⟩
  | cons key keys ih =>
      rw [copyAll] at h
      split at h
      · rename_i copy r hcopy
        obtain ⟨fresh, rfl, hlength⟩ := ih h
        exact ⟨copy :: fresh, List.append_assoc .., congrArg (· + 1) hlength⟩
      · cases h

theorem capacity_allocateOver (p : Pool) (head : Expr) (keys : List Nat) :
    (p.allocateOver head keys).2.capacity = p.capacity := by
  have hattach : ∀ p, (keys.foldl attach p).capacity = p.capacity := by
    induction keys with
    | nil => exact fun _ => rfl
    | cons key keys ih => exact fun p => ih (p.attach key)
  rw [allocateOver, allocate_eq]
  split
  · rename_i hallocate
    split at hallocate
    · cases hallocate
    · cases hallocate
      exact (Spends.releaseAll _ keys).capacity.trans (hattach p)
  · exact (Spends.releaseAll p keys).capacity

theorem capacity_copyAll {copyOne : Pool → Nat → Except Shortage Nat × Pool}
    (hone : ∀ p key, (copyOne p key).2.capacity = p.capacity) (p : Pool) (made keys : List Nat) :
    (copyAll copyOne p made keys).2.capacity = p.capacity := by
  induction keys generalizing p made with
  | nil => rfl
  | cons key keys ih =>
      have hfirst := hone p key
      rw [copyAll]
      split <;> rename_i hcopy <;> rw [hcopy] at hfirst
      · exact (ih ..).trans hfirst
      · exact (Spends.releaseAll _ made).capacity.trans hfirst

theorem capacity_copyWithin (levels : Nat) (p : Pool) (key : Nat) :
    (copyWithin levels p key).2.capacity = p.capacity := by
  induction levels generalizing p key with
  | zero => exact capacity_allocateOver ..
  | succ levels ih =>
      rw [copyWithin]
      split
      · rename_i node _
        have hall := capacity_copyAll ih p [] node.children
        split <;> rename_i hcopies <;> rw [hcopies] at hall
        · exact (capacity_allocateOver ..).trans hall
        · exact hall
      · exact capacity_allocateOver ..

end Pool

namespace Slab

open Pool (Balanced Copied Evolves)

variable {Table Key : Type} [SlotTable Table Key]
variable {capacity levels : Nat} {s t : Slab Ledger Nat} {origin p q r : Pool} {key : Nat}
variable {base handles keys copies : List Nat} {frames : List (Frame Nat)} {head : Expr}

/-- From some state of copying on, so many turns lead to another state. -/
def Leads (c d : Copying Table Key) : Prop :=
  ∃ count, ∀ more, turns c (count + more) = turns d more

theorem Leads.trans {c d e : Copying Table Key} (h : Leads c d) (h' : Leads d e) : Leads c e := by
  obtain ⟨count, hcount⟩ := h
  obtain ⟨count', hcount'⟩ := h'
  exact ⟨count + count', fun more => by rw [Nat.add_assoc, hcount, hcount']⟩

theorem Leads.of_turn {c d : Copying Table Key} (h : turn c = some (.inl d)) : Leads c d :=
  ⟨1, fun more => by rw [Nat.add_comm, turns, h]⟩

/-- More turns than are enough come to the same. -/
theorem turns_more {c : Copying Table Key} {count : Nat} {result : Except Shortage Key × Slab Table Key}
    (h : turns c count = some (some result)) (more : Nat) :
    turns c (count + more) = some (some result) := by
  induction count generalizing c with
  | zero => cases h
  | succ count ih =>
    rw [Nat.add_right_comm]
    rw [turns] at h ⊢
    split at h
    · cases h
    · exact ih h
    · exact h

/-- Going down to the operands of a node. -/
theorem leads_enter {s : Slab Table Key} {key : Key} {frames : List (Frame Key)} {base : List Key}
    {original : Option (Cell Key)} (hcell : s.cell key = some original) :
    Leads ⟨s, .enter key :: frames, base⟩
      ⟨s, ((original.map Cell.children).getD []).map .enter ++ .exit key :: frames, base⟩ := by
  refine Leads.of_turn ?_
  simp only [turn, hcell, Option.bind_eq_bind, Option.bind_some, Option.pure_def]

/-- From some state of copying on, there is no room for one of the copies, and what is left in the
end are the nodes of the pool that the copying began in. -/
def Fails (capacity : Nat) (origin : Pool) (handles : List Nat) (shortage : Shortage)
    (nextKey : Nat) (c : Copying Ledger Nat) : Prop :=
  ∃ count t q, turns c count = some (some (.error shortage, t)) ∧ Represents capacity t q ∧
    Copied origin q handles [] ∧ q.nextKey = nextKey

theorem Fails.of_leads {shortage : Shortage} {nextKey : Nat} {c d : Copying Ledger Nat}
    (h : Leads c d) (h' : Fails capacity origin handles shortage nextKey d) :
    Fails capacity origin handles shortage nextKey c := by
  obtain ⟨count, hcount⟩ := h
  obtain ⟨more, t, q, hturns, hrest⟩ := h'
  exact ⟨count + more, t, q, (hcount more).trans hturns, hrest⟩

theorem Represents.releaseEach (h : Represents capacity s p) (keys : List Nat) :
    ∃ t, keys.foldlM Slab.release s = some t ∧ Represents capacity t (p.releaseAll keys) := by
  rw [← Pool.foldl_release]
  exact h.foldlM (fun key h => h.release key) keys

theorem Represents.assemble_ok (h : Represents capacity s p) (others : List Nat)
    (hallocate : p.allocateOver head keys = (.ok key, q)) :
    ∃ t, s.assemble head others keys = some (.ok (others ++ [key]), t) ∧
      Represents capacity t q := by
  obtain ⟨r, hr, rfl⟩ := Pool.allocate_releaseAll hallocate
  obtain ⟨key', t, r', ht, hr', hrepresents⟩ | ⟨shortage, -, hshort⟩ := h.allocate head keys
  · rw [hr, Except.ok.injEq, Prod.mk.injEq] at hr'
    obtain ⟨rfl, rfl⟩ := hr'
    obtain ⟨u, hu, hreleased⟩ := hrepresents.releaseEach keys
    refine ⟨u, ?_, hreleased⟩
    simp only [assemble, ht, hu, Option.bind_eq_bind, Option.bind_some, Option.pure_def]
  · rw [hr] at hshort
    cases hshort

theorem Represents.assemble_error {shortage : Shortage} (h : Represents capacity s p)
    (others : List Nat) (hallocate : p.allocateOver head keys = (.error shortage, q)) :
    ∃ t, s.assemble head others keys = some (.error shortage, t) ∧
      Represents capacity t (q.releaseAll others) := by
  unfold Pool.allocateOver at hallocate
  obtain ⟨key', t, r', ht, hr', hrepresents⟩ | ⟨shortage', ht, hshort⟩ := h.allocate head keys
  · rw [hr'] at hallocate
    cases hallocate
  · rw [hshort] at hallocate
    cases hallocate
    obtain ⟨u, hu, hreleased⟩ := h.releaseEach keys
    obtain ⟨v, hv, hreleased'⟩ := hreleased.releaseEach others
    refine ⟨v, ?_, hreleased'⟩
    simp only [assemble, ht, hu, hv, Option.bind_eq_bind, Option.bind_some, Option.pure_def]

theorem Represents.cell_of_node (h : Represents capacity s p) {node : Node}
    (hnode : p.node? key = some node) :
    ∃ cell, s.cell key = some (some cell) ∧ cell.head = node.head ∧
      cell.children = node.children := by
  obtain ⟨hmem, rfl⟩ := Pool.node?_eq_some hnode
  obtain ⟨cell, hcell, rfl⟩ := h.mem_nodes.mp hmem
  exact ⟨cell, h.sound.cell_eq_of_mem hcell, rfl, rfl⟩

theorem Represents.cell_of_stale (h : Represents capacity s p) (hnode : p.node? key = none) :
    s.cell key = some none := by
  obtain ⟨hcell, -⟩ | ⟨cell, hmem, -, rfl⟩ := h.sound.cell_eq key
  · exact hcell
  · rw [h.node?_of_mem hmem] at hnode
    cases hnode

/-- What the copying of one tree comes to. -/
def Agrees (capacity : Nat) (origin : Pool) (handles base : List Nat) (frames : List (Frame Nat))
    (c : Copying Ledger Nat) : Except Shortage (List Nat) × Pool → Prop
  | (.ok made, q) => Copied origin q handles (base ++ made) ∧
      ∃ t, Represents capacity t q ∧ Leads c ⟨t, frames, base ++ made⟩
  | (.error shortage, q) => Fails capacity origin handles shortage q.nextKey c

theorem Agrees.of_leads {result : Except Shortage (List Nat) × Pool} {c d : Copying Ledger Nat}
    (h : Agrees capacity origin handles base frames d result) (hleads : Leads c d) :
    Agrees capacity origin handles base frames c result := by
  obtain ⟨shortage | made, q⟩ := result
  · exact Fails.of_leads hleads h
  · obtain ⟨hcopied, t, hrepresents, hrest⟩ := h
    exact ⟨hcopied, t, hrepresents, hleads.trans hrest⟩

/-- Making the copy of a node when those of its operands have been made. -/
theorem agrees_exit (frames : List (Frame Nat)) {original : Option (Cell Nat)}
    (h : Represents capacity s p) (hbase : Copied origin r handles base) (hcopies : Copied r p (base ++ handles) copies)
    (hcell : s.cell key = some original) (hhead : (original.map Cell.head).getD .undefined = head)
    (harity : ((original.map Cell.children).getD []).length = copies.length) :
    Agrees capacity origin handles base frames ⟨s, .exit key :: frames, base ++ copies⟩
      ((p.allocateOver head copies).1.map ([·]), (p.allocateOver head copies).2) := by
  have hplace : (base ++ copies).length - copies.length = base.length := by
    rw [List.length_append, Nat.add_sub_cancel]
  have hfits : ¬ (base ++ copies).length < copies.length := by
    rw [List.length_append]
    omega
  rcases hallocate : p.allocateOver head copies with ⟨shortage | fresh, q⟩
  · obtain ⟨t, ht, hrepresents⟩ := h.assemble_error base hallocate
    refine ⟨1, t, _, ?_, hrepresents, ?_, Pool.nextKey_releaseAll q base⟩
    · rw [turns, turn]
      simp only [hcell, hhead, harity, if_neg hfits, hplace, List.take_left, List.drop_left, ht,
        Option.bind_eq_bind, Option.bind_some, Option.pure_def]
    · have hlast := hbase.append (hcopies.allocateOver hallocate)
      rw [granted, List.append_nil] at hlast
      exact hlast.hold.releaseAll
  · obtain ⟨t, ht, hrepresents⟩ := h.assemble_ok base hallocate
    refine ⟨hbase.append (hcopies.allocateOver hallocate), t, hrepresents, Leads.of_turn ?_⟩
    simp only [turn, hcell, hhead, harity, if_neg hfits, hplace, List.take_left, List.drop_left, ht,
      Option.bind_eq_bind, Option.bind_some, Option.pure_def]

/-- The copies of all operands, made one after the other. -/
theorem agrees_copyAll (frames : List (Frame Nat))
    {copyOne : Pool → Nat → Except Shortage Nat × Pool}
    (hspec : ∀ {p q handles key outcome}, Balanced p [] handles →
      copyOne p key = (outcome, q) → Copied p q handles (granted outcome))
    (hone : ∀ {s p base} frames key, key < levels → Represents capacity s p →
      Copied origin p handles base →
      Agrees capacity origin handles base frames ⟨s, .enter key :: frames, base⟩
        ((copyOne p key).1.map ([·]), (copyOne p key).2))
    (h : Represents capacity s p) (hbase : Copied origin r handles base)
    (hcopies : Copied r p (base ++ handles) copies) (hkeys : ∀ key ∈ keys, key < levels) :
    Agrees capacity origin handles base frames ⟨s, keys.map .enter ++ frames, base ++ copies⟩
      (Pool.copyAll copyOne p copies keys) := by
  induction keys generalizing s p copies with
  | nil => exact ⟨hbase.append hcopies, s, h, 0, fun more => by rw [Nat.zero_add]; rfl⟩
  | cons key keys ih =>
      rw [List.forall_mem_cons] at hkeys
      have hfirst := hone (keys.map .enter ++ frames) key hkeys.1 h
        (hbase.append hcopies)
      rcases hcopy : copyOne p key with ⟨outcome, q⟩
      rw [hcopy] at hfirst
      rw [Pool.copyAll, hcopy]
      cases outcome with
      | ok fresh =>
          obtain ⟨-, t, hrepresents, hleads⟩ := hfirst
          have hcopied := hcopies.append (hspec hcopies.balanced hcopy)
          rw [List.append_assoc] at hleads
          exact (ih hrepresents hcopied hkeys.2).of_leads hleads
      | error shortage =>
          show Fails _ _ _ _ (q.releaseAll copies).nextKey _
          rw [Pool.nextKey_releaseAll]
          exact hfirst

/-- A node that has been gone down to is still there when the copies of its operands are made. -/
theorem node?_of_copied {node : Node} (h : Balanced p [] handles)
    (hcopied : Copied p q handles keys) (hnode : p.node? key = some node) :
    ∃ later, q.node? key = some later ∧ later.head = node.head ∧
      later.children = node.children := by
  obtain ⟨hmem, rfl⟩ := Pool.node?_eq_some hnode
  have hlive := h.alive hcopied.evolves (Pool.mem_keys.mpr ⟨node, hmem, rfl⟩)
  obtain ⟨later, hlater, hkey⟩ := Pool.mem_keys.mp hlive
  have hformer : later.key < p.nextKey := hkey ▸ h.node_lt_nextKey hmem
  obtain ⟨old, hold, hsame, hhead, hchildren⟩ := hcopied.evolves.former later hlater hformer
  obtain rfl := h.unique hmem hold (hsame.trans hkey)
  exact ⟨later, hkey ▸ hcopied.balanced.node?_eq hlater, hhead.symm, hchildren.symm⟩

/-- The copy of one tree. -/
theorem agrees_copyWithin (frames : List (Frame Nat)) (hkey : key < levels)
    (h : Represents capacity s p) (hbase : Copied origin p handles base) :
    Agrees capacity origin handles base frames ⟨s, .enter key :: frames, base⟩
      ((Pool.copyWithin levels p key).1.map ([·]), (Pool.copyWithin levels p key).2) := by
  induction levels generalizing s p base frames key with
  | zero => exact absurd hkey (Nat.not_lt_zero _)
  | succ levels ih =>
      rw [Pool.copyWithin]
      cases hnode : p.node? key with
      | none =>
          have hcell := h.cell_of_stale hnode
          have hexit := agrees_exit frames h hbase (Copied.none hbase.balanced) hcell rfl
            rfl
          rw [List.append_nil] at hexit
          exact hexit.of_leads (leads_enter hcell)
      | some node =>
          obtain ⟨cell, hcell, -, hchildren⟩ := h.cell_of_node hnode
          have hlesser : ∀ child ∈ node.children, child < levels := by
            intro child hchild
            obtain ⟨hmem, rfl⟩ := Pool.node?_eq_some hnode
            have hlt := hbase.balanced.lesser node hmem child hchild
            omega
          have hall := agrees_copyAll (.exit key :: frames)
            (fun hbalanced => Pool.copyWithin_spec levels hbalanced)
            (fun frames key hkey h hbase => ih frames hkey h hbase) h hbase
            (Copied.none hbase.balanced) hlesser
          rw [List.append_nil] at hall
          have hdown : Leads ⟨s, .enter key :: frames, base⟩
              ⟨s, node.children.map .enter ++ .exit key :: frames, base⟩ := by
            rw [← hchildren]
            exact leads_enter hcell
          rcases hcopies : Pool.copyAll (Pool.copyWithin levels) p [] node.children with
            ⟨shortage | copies, q⟩
          · simp only [hcopies] at hall ⊢
            exact Fails.of_leads hdown hall
          · simp only [hcopies] at hall ⊢
            obtain ⟨-, t, hrepresents, hleads⟩ := hall
            have hcopied := Pool.copyAll_spec
              (fun hbalanced => Pool.copyWithin_spec levels hbalanced) (Copied.none hbase.balanced) hcopies
            obtain ⟨fresh, hfresh, hlength⟩ := Pool.length_of_copyAll hcopies
            obtain ⟨later, hlater, hhead, hsame⟩ := node?_of_copied hbase.balanced hcopied hnode
            obtain ⟨cell', hcell', hhead', hchildren'⟩ := hrepresents.cell_of_node hlater
            refine (agrees_exit frames hrepresents hbase hcopied hcell'
              (hhead'.trans hhead) ?_).of_leads (hdown.trans hleads)
            rw [Option.map_some, Option.getD_some, hchildren', hsame, Pool.grantedAll, hfresh,
              List.nil_append, hlength]

/-- A copy is made in a slab as in the pool that the slab represents, and there is always a number
of turns that is enough. -/
theorem Represents.deepCopy (h : Represents capacity s p) (hp : Balanced p [] handles) (key : Nat) :
    ∃ count t, s.deepCopy key count = some (some ((p.copying key).1, t)) ∧
      Represents capacity t (p.copying key).2 := by
  have hagrees := agrees_copyWithin [] (Nat.lt_succ_self key) h (Copied.none hp)
  rw [← Pool.copying] at hagrees
  rcases hcopy : p.copying key with ⟨shortage | fresh, q⟩ <;> rw [hcopy] at hagrees
  · obtain ⟨count, t, r, hturns, hrepresents, hcopied, hnext⟩ := hagrees
    obtain ⟨hnodes, hused⟩ := (Pool.copying_spec hp hcopy).unchanged hp
    obtain ⟨hnodes', hused'⟩ := hcopied.unchanged hp
    have hcapacity := Pool.capacity_copyWithin (key + 1) p key
    rw [← Pool.copying, hcopy] at hcapacity
    exact ⟨count, t, hturns, hrepresents.sound,
      (hnodes.trans hnodes'.symm).trans hrepresents.nodes, hcapacity.trans h.capacity_eq,
      (hused.trans hused'.symm).trans hrepresents.used, hnext.symm.trans hrepresents.nextKey,
      hrepresents.issued, hrepresents.serial⟩
  · obtain ⟨-, t, hrepresents, count, hcount⟩ := hagrees
    exact ⟨count + 1, t, (hcount 1).trans rfl, hrepresents⟩

/-! ## Runs -/

/-- A pool that is represented by a slab to which requests have led. -/
def Lies (capacity : Nat) (p : Pool) : Prop :=
  ∃ s : Slab Ledger Nat, Reachable capacity s ∧ Represents capacity s p

namespace Lies

theorem empty (capacity identity : Nat) : Lies capacity (Pool.empty capacity identity) :=
  ⟨_, .refl, represents_withCapacity capacity identity⟩

theorem retain (h : Lies capacity p) (key : Nat) : Lies capacity (p.retain key) := by
  obtain ⟨s, hreach, hs⟩ := h
  obtain ⟨t, ht, hrepresents⟩ := hs.retain key
  exact ⟨t, hreach.tail ⟨.retain key, 0, by rw [perform, ht]; rfl⟩, hrepresents⟩

theorem release (h : Lies capacity p) (key : Nat) : Lies capacity (p.release key) := by
  obtain ⟨s, hreach, hs⟩ := h
  obtain ⟨t, ht, hrepresents⟩ := hs.release key
  exact ⟨t, hreach.tail ⟨.release key, 0, by rw [perform, ht]; rfl⟩, hrepresents⟩

theorem rollback (h : Lies capacity p) (checkpoint : Pool.Checkpoint) :
    Lies capacity (p.rollback checkpoint) := by
  obtain ⟨s, hreach, hs⟩ := h
  obtain ⟨t, ht, hrepresents⟩ := hs.rollback checkpoint.nextKey
  exact ⟨t, hreach.tail ⟨.rollback checkpoint.nextKey, 0, by rw [perform, ht]; rfl⟩, hrepresents⟩

theorem copying (h : Lies capacity p) (hp : Balanced p [] handles) (key : Nat) :
    Lies capacity (p.copying key).2 := by
  obtain ⟨s, hreach, hs⟩ := h
  obtain ⟨count, t, ht, hrepresents⟩ := hs.deepCopy hp key
  exact ⟨t, hreach.tail ⟨.deepCopy key, count, by rw [perform, ht]; rfl⟩, hrepresents⟩

theorem dismantle (h : Lies capacity p) (hdismantle : p.dismantle? key = some (keys, q)) :
    Lies capacity q := by
  obtain ⟨s, hreach, hs⟩ := h
  obtain ⟨children, t, q', ht, hq', hrepresents⟩ | ⟨-, hnone⟩ := hs.dismantle key
  · rw [hdismantle, Option.some_inj, Prod.mk.injEq] at hq'
    exact ⟨t, hreach.tail ⟨.dismantle key, 0, by rw [perform, ht]; rfl⟩, hq'.2 ▸ hrepresents⟩
  · rw [hdismantle] at hnone
    cases hnone

theorem allocate (h : Lies capacity p) (hallocate : p.allocate head keys = .ok (key, q)) :
    Lies capacity q := by
  obtain ⟨s, hreach, hs⟩ := h
  obtain ⟨key', t, q', ht, hq', hrepresents⟩ | ⟨shortage, -, herror⟩ := hs.allocate head keys
  · rw [hallocate, Except.ok.injEq, Prod.mk.injEq] at hq'
    exact ⟨t, hreach.tail ⟨.allocate head keys, 0, by rw [perform, ht]; rfl⟩, hq'.2 ▸ hrepresents⟩
  · rw [hallocate] at herror
    cases herror

theorem foldl {step : Pool → Nat → Pool}
    (hstep : ∀ {p} key, Lies capacity p → Lies capacity (step p key)) (keys : List Nat)
    (h : Lies capacity p) : Lies capacity (keys.foldl step p) := by
  induction keys generalizing p with
  | nil => exact h
  | cons key keys ih => exact ih (hstep key h)

theorem releaseAll (h : Lies capacity p) (keys : List Nat) : Lies capacity (p.releaseAll keys) := by
  rw [← Pool.foldl_release]
  exact h.foldl (fun key h => h.release key) keys

theorem allocateOver (h : Lies capacity p) (head : Expr) (keys : List Nat) :
    Lies capacity (p.allocateOver head keys).2 := by
  unfold Pool.allocateOver
  split
  · rename_i hallocate
    exact (h.allocate hallocate).releaseAll keys
  · exact h.releaseAll keys

/-- Handles are readied by copying some and dropping others. -/
theorem preparing (h : Lies capacity p) (ready : List Nat)
    (hp : Balanced p [] (ready ++ keys ++ handles)) :
    Lies capacity (p.preparing ready keys).2 := by
  induction keys generalizing p ready with
  | nil => exact h
  | cons key keys ih =>
      rw [Pool.preparing]
      have hcopy := h.copying hp key
      split
      · rcases hcopying : p.copying key with ⟨shortage | fresh, q⟩ <;> rw [hcopying] at hcopy
        · exact hcopy.releaseAll _
        · have hperm :
              (ready ++ key :: keys ++ handles).Perm ([key] ++ (ready ++ keys ++ handles)) :=
            List.perm_middle.append_right handles
          have hcopied := ((Pool.copying_spec hp hcopying).perm_handles hperm).releaseAll
          refine ih (hcopy.release key) (ready ++ [fresh]) (hcopied.balanced.perm_handles ?_)
          simpa [granted] using List.perm_middle.symm
      · exact ih h (ready ++ [key]) (by simpa using hp)

theorem building (h : Lies capacity p) (head : Expr) (hp : Balanced p [] (keys ++ handles)) :
    Lies capacity (p.building head keys).2 := by
  have hprepared := h.preparing [] hp
  unfold Pool.building
  rcases hready : p.preparing [] keys with ⟨shortage | ready, q⟩ <;> rw [hready] at hprepared
  · exact hprepared
  · exact hprepared.allocateOver head ready

theorem intoChildren (h : Lies capacity p) (key : Nat) : Lies capacity (p.intoChildren key).2 := by
  unfold Pool.intoChildren
  split
  · rename_i hdismantle
    exact h.dismantle hdismantle
  · exact (h.foldl (fun key h => h.retain key) _).release key

end Lies

end Slab

namespace World

open Pool (Balanced)

/-- What a program does with its pool is done by requests to a slab. -/
theorem perform_lies {capacity : Nat} {w : World} (h : Slab.Lies capacity w.pool)
    (howned : w.Owned) {operation : Operation} (hpermits : w.Permits operation) :
    Slab.Lies capacity (w.perform operation).pool := by
  cases operation with
  | build head keys =>
      have hsplit : Balanced w.pool [] (keys ++ w.handles.diff keys) :=
        howned.perm_handles (Pool.perm_append_diff hpermits)
      exact h.building head hsplit
  | clone key => exact h.retain key
  | drop key => exact h.release key
  | child key index =>
      rw [perform, Pool.child?]
      cases (w.pool.childrenOf key)[index]? with
      | none => exact h
      | some child => exact h.retain child
  | children key => exact h.foldl (fun key h => h.retain key) _
  | intoChildren key => exact h.intoChildren key
  | deepClone key => exact h.copying howned key
  | checkpoint => exact h
  | rollback checkpoint => exact h.rollback checkpoint

/-- The pool of a program is represented by a slab in every world that it comes to. -/
theorem run_lies {capacity identity : Nat} {w : World} (h : Run (start capacity identity) w) :
    Slab.Lies capacity w.pool := by
  induction h with
  | refl => exact Slab.Lies.empty capacity identity
  | tail hbefore hstep ih =>
      obtain ⟨operation, hpermits, rfl⟩ := hstep
      exact perform_lies ih (run_owned (start_owned capacity identity) hbefore).1 hpermits

end World

end PocketAlgebra
