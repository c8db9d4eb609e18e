import PocketAlgebra.Pool.SlotMap
import PocketAlgebra.Pool.Tree
import PocketAlgebra.Proofs.Pool.Evolution
import PocketAlgebra.Proofs.Pool.Building
import PocketAlgebra.Proofs.Pool.SlabRuns

/-!
# Pools as slabs

A slab whose table counts its keys lies in memory what a pool says: each request to the slab has the
outcome that the operation has on the pool, and leaves a slab that represents the pool after it.
-/

namespace PocketAlgebra

/-- What a pool says of a node in a slab. -/
def Cell.node (cell : Cell Nat) : Node :=
  ⟨cell.key, cell.head, cell.children, cell.references, cell.hasParent⟩

theorem Cell.key_node (cell : Cell Nat) : cell.node.key = cell.key :=
  rfl

theorem Pool.rollback_of_split {p : Pool} {later earlier : List Node} {serial : Nat}
    (hnodes : p.nodes = later ++ earlier) (hlater : ∀ node ∈ later, serial ≤ node.key)
    (hearlier : ∀ node ∈ earlier, node.key < serial) :
    p.rollback ⟨serial⟩ =
      (later.reverse.flatMap Node.children).foldl Pool.orphan (p.dropLater later earlier) := by
  have htake : earlier.takeWhile (fun node => decide (serial ≤ node.key)) = [] := by
    cases earlier with
    | nil => rfl
    | cons node earlier =>
        have hlt := hearlier node (List.mem_cons_self ..)
        exact List.takeWhile_cons_of_neg (by simpa using hlt)
  have hdrop : earlier.dropWhile (fun node => decide (serial ≤ node.key)) = earlier := by
    cases earlier with
    | nil => rfl
    | cons node earlier =>
        have hlt := hearlier node (List.mem_cons_self ..)
        exact List.dropWhile_cons_of_neg (by simpa using hlt)
  have hpos : ∀ node ∈ later, decide (serial ≤ node.key) = true := fun node hnode =>
    decide_eq_true (hlater node hnode)
  rw [Pool.rollback, List.span_eq_takeWhile_dropWhile, hnodes,
    List.takeWhile_append_of_pos hpos, List.dropWhile_append_of_pos hpos, htake, hdrop,
    List.append_nil]
  rfl

namespace Slab

variable {capacity : Nat} {s t : Slab Ledger Nat} {p q : Pool} {key : Nat}

/-- A slab whose nodes are those of a pool, with their serial numbers as keys. -/
structure Represents (capacity : Nat) (s : Slab Ledger Nat) (p : Pool) : Prop where
  sound : Sound capacity s
  nodes : p.nodes = (s.cells.map Cell.node).reverse
  capacity_eq : p.capacity = capacity
  used : p.used = s.used
  nextKey : p.nextKey = s.nextSerial
  issued : s.table.issued = s.nextSerial
  serial : ∀ cell ∈ s.cells, cell.serial = cell.key

theorem represents_withCapacity (capacity identity : Nat) :
    Represents capacity (withCapacity capacity) (Pool.empty capacity identity) where
  sound := sound_withCapacity capacity
  nodes := rfl
  capacity_eq := rfl
  used := rfl
  nextKey := rfl
  issued := rfl
  serial := by simp [withCapacity]

namespace Represents

theorem mem_nodes (h : Represents capacity s p) {node : Node} :
    node ∈ p.nodes ↔ ∃ cell ∈ s.cells, cell.node = node := by
  rw [h.nodes, List.mem_reverse, List.mem_map]

theorem node?_of_mem (h : Represents capacity s p) {cell : Cell Nat} (hcell : cell ∈ s.cells) :
    p.node? cell.key = some cell.node := by
  cases hnode : p.node? cell.key with
  | none =>
      refine absurd ?_ (Pool.node?_eq_none.mp hnode)
      exact Pool.mem_keys.mpr ⟨cell.node, h.mem_nodes.mpr ⟨cell, hcell, rfl⟩, rfl⟩
  | some node =>
      obtain ⟨hmem, hkey⟩ := Pool.node?_eq_some hnode
      obtain ⟨other, hother, rfl⟩ := h.mem_nodes.mp hmem
      rw [h.sound.eq_of_key_eq hother hcell hkey]

theorem node?_of_get (h : Represents capacity s p) (hget : SlotTable.get s.table key = none) :
    p.node? key = none := by
  rw [Pool.node?_eq_none, Pool.mem_keys]
  rintro ⟨node, hnode, hkey⟩
  obtain ⟨cell, hcell, rfl⟩ := h.mem_nodes.mp hnode
  exact h.sound.not_mem_of_get hget cell hcell hkey

/-! ## Changing nodes -/

theorem adjust (h : Represents capacity s p) {f : Cell Nat → Cell Nat} {g : Node → Node}
    (hf : ∀ cell ∈ s.cells, cell.key = key → Harmless f cell)
    (hnode : ∀ cell : Cell Nat, (f cell).node = g cell.node) :
    Represents capacity (s.adjust key f) (p.update key g) where
  sound := h.sound.adjust hf
  nodes := by
    simp only [Pool.update, Slab.adjust, h.nodes, List.map_reverse, List.map_map]
    congr 2
    funext cell
    rw [Function.comp_apply, Function.comp_apply, cell.key_node]
    by_cases hkey : cell.key = key
    · rw [if_pos (beq_iff_eq.mpr hkey), if_pos hkey, hnode]
    · rw [if_neg (mt beq_iff_eq.mp hkey), if_neg hkey]
  capacity_eq := h.capacity_eq
  used := h.used
  nextKey := h.nextKey
  issued := h.issued
  serial cell hcell := by
    obtain ⟨old, hold, rfl | ⟨rfl, hkey⟩⟩ := mem_adjust hcell
    · exact h.serial _ hold
    · rw [(hf old hold hkey).serial, (hf old hold hkey).key]
      exact h.serial old hold

theorem retain (h : Represents capacity s p) (key : Nat) :
    ∃ t, s.retain key = some t ∧ Represents capacity t (p.retain key) :=
  ⟨_, h.sound.update_eq key _,
    h.adjust (fun _ _ _ => ⟨rfl, rfl, rfl, rfl, rfl, Nat.succ_pos _⟩) fun _ => rfl⟩

theorem attach (h : Represents capacity s p) (key : Nat) :
    ∃ t, s.attach key = some t ∧ Represents capacity t (p.attach key) :=
  ⟨_, h.sound.update_eq key _,
    h.adjust (fun _ _ _ => ⟨rfl, rfl, rfl, rfl, rfl, Nat.succ_pos _⟩) fun _ => rfl⟩

theorem detach (h : Represents capacity s p) (key : Nat) :
    ∃ t, s.detach key = some t ∧ Represents capacity t (p.detach key) :=
  ⟨_, h.sound.update_eq key _, h.adjust (fun cell hcell _ =>
    ⟨rfl, rfl, rfl, rfl, rfl, h.sound.referenced cell hcell⟩) fun _ => rfl⟩

theorem decrement (h : Represents capacity s p)
    (hshared : ∀ cell ∈ s.cells, cell.key = key → 1 < cell.references) :
    ∃ t, s.decrement key = some t ∧ Represents capacity t (p.decrement key) :=
  ⟨_, h.sound.update_eq key _, h.adjust (fun cell hcell hkey =>
    ⟨rfl, rfl, rfl, rfl, rfl, Nat.sub_pos_of_lt (hshared cell hcell hkey)⟩) fun _ => rfl⟩

/-- Steps that agree can be taken one after the other. -/
theorem foldlM {step : Slab Ledger Nat → Nat → Option (Slab Ledger Nat)} {step' : Pool → Nat → Pool}
    (hstep : ∀ {s p} key, Represents capacity s p →
      ∃ t, step s key = some t ∧ Represents capacity t (step' p key))
    (keys : List Nat) (h : Represents capacity s p) :
    ∃ t, keys.foldlM step s = some t ∧ Represents capacity t (keys.foldl step' p) := by
  induction keys generalizing s p with
  | nil => exact ⟨s, rfl, h⟩
  | cons key keys ih =>
      obtain ⟨t, ht, hrepresents⟩ := hstep key h
      obtain ⟨u, hu, hrepresents'⟩ := ih hrepresents
      exact ⟨u, by rw [List.foldlM_cons, ht]; exact hu, hrepresents'⟩

/-! ## Freeing nodes -/

theorem charge_node (h : Represents capacity s p) {cell : Cell Nat} (hcell : cell ∈ s.cells) :
    cell.node.charge = cell.size :=
  (h.sound.sized cell hcell).symm

theorem issued_reindex (l : Ledger) (start : Nat) (cells : List (Cell Nat)) :
    (reindex l start cells).issued = l.issued := by
  induction cells generalizing l start with
  | nil => rfl
  | cons cell cells ih => exact ih _ _

theorem without (h : Represents capacity s p) {front later : List (Cell Nat)} {cell : Cell Nat}
    (hcells : s.cells = front ++ cell :: later) :
    Represents capacity (s.without front cell later) (p.remove cell.node) where
  sound := h.sound.without hcells
  nodes := by
    have hkeys := h.sound.indexed.nodup
    rw [hcells, List.map_append, List.map_cons, List.nodup_append, List.nodup_cons] at hkeys
    have hlater : ∀ node ∈ (later.map Cell.node).reverse, ¬ (node.key == cell.node.key) = true := by
      intro node hnode hkey
      obtain ⟨other, hother, rfl⟩ := List.mem_map.mp (List.mem_reverse.mp hnode)
      have hsame : other.key = cell.key := beq_iff_eq.mp hkey
      exact hkeys.2.1.1 (hsame ▸ List.mem_map_of_mem hother)
    simp only [Pool.remove, h.nodes, hcells, List.map_append, List.map_cons, List.reverse_append,
      List.reverse_cons, List.append_assoc, List.singleton_append, Slab.without]
    rw [List.eraseP_append_right _ hlater,
      List.eraseP_cons_of_pos (p := fun node : Node => node.key == cell.node.key)
        (beq_self_eq_true _)]
  capacity_eq := h.capacity_eq
  used := by
    rw [Pool.remove, h.charge_node (hcells ▸ List.mem_append_right _ (List.mem_cons_self ..)),
      h.used]
    rfl
  nextKey := h.nextKey
  issued := (issued_reindex ..).trans h.issued
  serial other hother := h.serial other (by
    simp only [Slab.without, hcells, List.mem_append, List.mem_cons] at hother ⊢
    tauto)

theorem freeAt (h : Represents capacity s p) {index : Nat} {cell : Cell Nat}
    (hcell : s.cells[index]? = some cell) :
    ∃ t, s.freeAt index = some (cell.children, t) ∧
      Represents capacity t (cell.children.foldl Pool.detach (p.remove cell.node)) := by
  obtain ⟨front, later, hcells, hremove⟩ := h.sound.removeAt_of_get hcell
  obtain ⟨t, ht, hrepresents⟩ :=
    foldlM (fun key h => h.detach key) cell.children (h.without hcells)
  refine ⟨t, ?_, hrepresents⟩
  simp only [Slab.freeAt, hremove, ht, Option.bind_eq_bind, Option.bind_some, Option.pure_def]

/-- References are taken off the same nodes in the same order. -/
theorem releaseAll (h : Represents capacity s p) (keys : List Nat) :
    ∃ t, s.releaseAll keys = some t ∧ Represents capacity t (p.releaseAll keys) := by
  fun_induction p.releaseAll keys generalizing s with
  | case1 p => exact ⟨s, releaseAll_nil s, h⟩
  | case2 p key rest hnode ih =>
      cases hget : SlotTable.get s.table key with
      | none =>
          rw [releaseAll_stale hget]
          exact ih h
      | some index =>
          obtain ⟨cell, hcell, rfl⟩ := h.sound.node_of_get hget
          rw [h.node?_of_mem (List.mem_of_getElem? hcell)] at hnode
          cases hnode
  | case3 p key rest node hnode hshared ih =>
      cases hget : SlotTable.get s.table key with
      | none =>
          rw [h.node?_of_get hget] at hnode
          cases hnode
      | some index =>
          obtain ⟨cell, hcell, rfl⟩ := h.sound.node_of_get hget
          have hmem := List.mem_of_getElem? hcell
          rw [h.node?_of_mem hmem, Option.some_inj] at hnode
          subst hnode
          obtain ⟨t, ht, hrepresents⟩ := h.decrement fun other hother hkey =>
            h.sound.eq_of_key_eq hmem hother hkey.symm ▸ hshared
          rw [releaseAll_shared hget hcell hshared, ht]
          exact ih hrepresents
  | case4 p key rest node hnode hlast ih =>
      cases hget : SlotTable.get s.table key with
      | none =>
          rw [h.node?_of_get hget] at hnode
          cases hnode
      | some index =>
          obtain ⟨cell, hcell, rfl⟩ := h.sound.node_of_get hget
          rw [h.node?_of_mem (List.mem_of_getElem? hcell), Option.some_inj] at hnode
          subst hnode
          obtain ⟨t, ht, hrepresents⟩ := h.freeAt hcell
          rw [releaseAll_last hget hcell hlast, ht]
          exact ih hrepresents

theorem release (h : Represents capacity s p) (key : Nat) :
    ∃ t, s.release key = some t ∧ Represents capacity t (p.release key) :=
  h.releaseAll [key]

theorem dismantle (h : Represents capacity s p) (key : Nat) :
    (∃ children t q, s.dismantle key = some (some children, t) ∧
      p.dismantle? key = some (children, q) ∧ Represents capacity t q) ∨
    s.dismantle key = some (none, s) ∧ p.dismantle? key = none := by
  unfold Slab.dismantle Pool.dismantle?
  cases hget : SlotTable.get s.table key with
  | none =>
      rw [h.node?_of_get hget]
      exact .inr ⟨rfl, rfl⟩
  | some index =>
      obtain ⟨cell, hcell, rfl⟩ := h.sound.node_of_get hget
      obtain ⟨t, ht, hrepresents⟩ := h.freeAt hcell
      simp only [h.node?_of_mem (List.mem_of_getElem? hcell), hcell, ht, Option.bind_eq_bind,
        Option.bind_some, Option.pure_def]
      by_cases hone : cell.references = 1
      · exact .inl ⟨cell.children, t, _, by rw [if_neg (not_not.mpr hone)],
          if_pos (c := cell.node.references = 1) hone, hrepresents⟩
      · exact .inr ⟨by rw [if_pos hone], if_neg (c := cell.node.references = 1) hone⟩

/-! ## Allocating -/

theorem push (h : Represents capacity s p) {head : Expr} {children : List Nat}
    (hroom : Node.chargeOf head children.length ≤ capacity - s.used) :
    (s.push head children).1 = p.nextKey ∧
      Represents capacity (s.push head children).2 (p.push head children) := by
  have hkey : (s.push head children).1 = p.nextKey := h.issued.trans h.nextKey.symm
  refine ⟨hkey, h.sound.push hroom, ?_, h.capacity_eq, ?_, ?_, ?_, ?_⟩
  · simp only [Pool.push, Slab.push, h.nodes, List.map_append, List.map_cons, List.map_nil,
      List.reverse_append, List.reverse_singleton, List.singleton_append, ← hkey]
    rfl
  · simp only [Pool.push, Slab.push, h.used]
  · simp only [Pool.push, Slab.push, h.nextKey]
  · exact congrArg (· + 1) h.issued
  · intro cell hcell
    obtain hcell | hcell := List.mem_append.mp hcell
    · exact h.serial cell hcell
    · rw [List.mem_singleton.mp hcell]
      exact h.issued.symm

theorem allocate (h : Represents capacity s p) (head : Expr) (children : List Nat) :
    (∃ key t q, s.allocate head children = some (.ok key, t) ∧
      p.allocate head children = .ok (key, q) ∧ Represents capacity t q) ∨
    ∃ shortage, s.allocate head children = some (.error shortage, s) ∧
      p.allocate head children = .error shortage := by
  have hfree : p.free = capacity - s.used := by rw [Pool.free, h.capacity_eq, h.used]
  by_cases hroom : Node.chargeOf head children.length ≤ capacity - s.used
  · left
    obtain ⟨t, ht, -, hused, -, -, heq⟩ := h.sound.allocate_fits hroom
    obtain ⟨u, hu, hrepresents⟩ := foldlM (fun key h => h.attach key) children h
    rw [ht, Option.some_inj] at hu
    subst hu
    obtain ⟨hkey, hpush⟩ := hrepresents.push (hused ▸ hroom)
    refine ⟨_, _, _, heq, ?_, hpush⟩
    rw [Pool.allocate_eq, if_neg (by rw [hfree]; omega), hkey,
      (Pool.foldl_attach_counters children p).2]
  · right
    refine ⟨_, h.sound.allocate_short (Nat.not_le.mp hroom), ?_⟩
    rw [Pool.allocate]
    simp only [hfree, if_pos (Nat.not_le.mp hroom)]

/-! ## Going back -/

theorem orphan (h : Represents capacity s p) (key : Nat) :
    ∃ t, s.orphan key = some t ∧ Represents capacity t (p.orphan key) := by
  unfold Slab.orphan Pool.orphan Pool.contains
  cases hget : SlotTable.get s.table key with
  | none =>
      rw [h.node?_of_get hget]
      exact ⟨s, rfl, h⟩
  | some index =>
      obtain ⟨cell, hcell, rfl⟩ := h.sound.node_of_get hget
      obtain ⟨t, ht, hdetached⟩ := h.detach cell.key
      obtain ⟨u, hu, hreleased⟩ := hdetached.release cell.key
      rw [h.node?_of_mem (List.mem_of_getElem? hcell)]
      refine ⟨u, ?_, hreleased⟩
      simp only [ht, hu, Option.bind_eq_bind, Option.bind_some]

theorem issued_removeAll (l : Ledger) (keys : List Nat) :
    (keys.foldl SlotTable.remove l).issued = l.issued := by
  induction keys generalizing l with
  | nil => rfl
  | cons key keys ih => exact ih _

theorem charge_eq_sum (h : Represents capacity s p) {cells : List (Cell Nat)}
    (hsub : ∀ cell ∈ cells, cell ∈ s.cells) :
    (cells.map Cell.node).reverse.foldr (fun node total => node.charge + total) 0 =
      (cells.map Cell.size).sum := by
  have hcharges : cells.map Cell.size = (cells.map Cell.node).map Node.charge := by
    rw [List.map_map]
    exact List.map_congr_left fun cell hcell => (h.charge_node (hsub cell hcell)).symm
  calc
    (cells.map Cell.node).reverse.foldr (fun node total => node.charge + total) 0 =
        ((cells.map Cell.node).reverse.map Node.charge).sum := by
      rw [List.sum_eq_foldr, List.foldr_map]
    _ = (cells.map Cell.size).sum := by
      rw [List.map_reverse, List.sum_reverse, hcharges]

theorem cut (h : Represents capacity s p) {front back : List (Cell Nat)}
    (hcells : s.cells = front ++ back) :
    ∃ t, back.foldlM discard { s with cells := front } = some t ∧
      Represents capacity t (p.dropLater (back.map Cell.node).reverse
        (front.map Cell.node).reverse) := by
  obtain ⟨t, ht, hsound⟩ := h.sound.cut hcells
  have hsub : ∀ cell ∈ back, cell ∈ s.cells := fun cell hcell =>
    hcells ▸ List.mem_append_right front hcell
  have hused : (back.map Cell.size).sum ≤ s.used := by
    rw [h.sound.used_eq, hcells, List.map_append, List.sum_append]
    exact Nat.le_add_left ..
  have hdiscard := discardAll_eq back { s with cells := front } hused
  rw [hdiscard, Option.some_inj] at ht
  subst ht
  refine ⟨_, hdiscard, hsound, rfl, h.capacity_eq, ?_, ?_, ?_, ?_⟩
  · rw [Pool.dropLater, h.charge_eq_sum hsub, h.used]
  · exact h.nextKey
  · exact (issued_removeAll ..).trans h.issued
  · exact fun cell hcell => h.serial cell (hcells ▸ List.mem_append_left back hcell)

theorem rollback (h : Represents capacity s p) (serial : Nat) :
    ∃ t, s.rollback serial = some t ∧ Represents capacity t (p.rollback ⟨serial⟩) := by
  obtain ⟨front, back, hcells, hfront, hback, heq⟩ := h.sound.rollback_eq serial
  have hnodes : p.nodes = (back.map Cell.node).reverse ++ (front.map Cell.node).reverse := by
    rw [h.nodes, hcells, List.map_append, List.reverse_append]
  have hlater : ∀ node ∈ (back.map Cell.node).reverse, serial ≤ node.key := by
    intro node hnode
    obtain ⟨cell, hcell, rfl⟩ := List.mem_map.mp (List.mem_reverse.mp hnode)
    rw [cell.key_node, ← h.serial cell (hcells ▸ List.mem_append_right front hcell)]
    exact hback cell hcell
  have hearlier : ∀ node ∈ (front.map Cell.node).reverse, node.key < serial := by
    intro node hnode
    obtain ⟨cell, hcell, rfl⟩ := List.mem_map.mp (List.mem_reverse.mp hnode)
    rw [cell.key_node, ← h.serial cell (hcells ▸ List.mem_append_left back hcell)]
    exact hfront cell hcell
  have hchildren : (back.map Cell.node).flatMap Node.children = back.flatMap Cell.children := by
    rw [List.flatMap_map]
    rfl
  rw [heq, Pool.rollback_of_split hnodes hlater hearlier, List.reverse_reverse, hchildren]
  obtain ⟨t, ht, hcut⟩ := h.cut hcells
  by_cases hempty : back = []
  · subst hempty
    have hsame : { s with cells := front } = s := by rw [← List.append_nil front, ← hcells]
    rw [List.foldlM_nil, hsame] at ht
    cases ht
    exact ⟨s, if_pos rfl, hcut⟩
  · obtain ⟨u, hu, hrepresents⟩ :=
      foldlM (fun key h => h.orphan key) (back.flatMap Cell.children) hcut
    refine ⟨u, ?_, hrepresents⟩
    rw [if_neg hempty, ht, Option.bind_some, hu]

end Represents

end Slab

end PocketAlgebra
