import Mathlib.Algebra.BigOperators.Group.List.Basic
import Mathlib.Algebra.GroupWithZero.Nat
import Mathlib.Data.List.Count
import PocketAlgebra.Proofs.Pool.Places

/-!
# Slabs stay consistent

In every slab that requests lead to, the table knows the place of every node and nothing else, the
nodes lie in the order of their serial numbers, and the bytes in use are those of the nodes. Hence
no request looks beyond the end of the slab, and nothing is taken off a number that is less.
-/

namespace PocketAlgebra

namespace Slab

variable {Table Key : Type} {capacity : Nat} {s t : Slab Table Key} {key : Key}

/-! ## Nodes in a list -/

/-- Nodes in the order of their serial numbers fall into earlier and later ones. -/
theorem exists_split {cells : List (Cell Key)}
    (h : cells.Pairwise fun a b => a.serial < b.serial) (serial : Nat) :
    ∃ front back, cells = front ++ back ∧ (∀ cell ∈ front, cell.serial < serial) ∧
      ∀ cell ∈ back, serial ≤ cell.serial := by
  induction cells with
  | nil => exact ⟨[], [], rfl, by simp, by simp⟩
  | cons cell cells ih =>
      rw [List.pairwise_cons] at h
      by_cases hcell : cell.serial < serial
      · obtain ⟨front, back, rfl, hfront, hback⟩ := ih h.2
        exact ⟨cell :: front, back, rfl, List.forall_mem_cons.mpr ⟨hcell, hfront⟩, hback⟩
      · refine ⟨[], cell :: cells, rfl, by simp, List.forall_mem_cons.mpr ⟨by omega, ?_⟩⟩
        intro other hother
        have hlt := h.1 other hother
        omega

/-- Steps that have an outcome and keep a property can be taken one after the other. -/
theorem foldlM_keeps {α : Type} {step : Slab Table Key → α → Option (Slab Table Key)}
    {Keeps : Slab Table Key → Prop}
    (hstep : ∀ {s} a, Keeps s → ∃ t, step s a = some t ∧ Keeps t)
    (items : List α) (h : Keeps s) : ∃ t, items.foldlM step s = some t ∧ Keeps t := by
  induction items generalizing s with
  | nil => exact ⟨s, rfl, h⟩
  | cons item items ih =>
      obtain ⟨t, ht, hkeeps⟩ := hstep item h
      obtain ⟨u, hu, hkeeps'⟩ := ih hkeeps
      exact ⟨u, by rw [List.foldlM_cons, ht]; exact hu, hkeeps'⟩

/-- The nodes of a slab are still in another one, with the operands they had. -/
def Stays (s t : Slab Table Key) : Prop :=
  ∀ cell ∈ s.cells, ∃ other ∈ t.cells, other.key = cell.key ∧ other.children = cell.children

theorem Stays.refl (s : Slab Table Key) : Stays s s := fun cell hcell => ⟨cell, hcell, rfl, rfl⟩

theorem Stays.trans {u : Slab Table Key} (h : Stays s t) (h' : Stays t u) : Stays s u := by
  intro cell hcell
  obtain ⟨other, hother, hkey, hchildren⟩ := h cell hcell
  obtain ⟨last, hlast, hkey', hchildren'⟩ := h' other hother
  exact ⟨last, hlast, hkey'.trans hkey, hchildren'.trans hchildren⟩

/-! ## Replacing nodes -/

section Adjusting

variable [DecidableEq Key]

/-- A slab whose node with a key is replaced by a function of it. -/
def adjust (s : Slab Table Key) (key : Key) (f : Cell Key → Cell Key) : Slab Table Key :=
  { s with cells := s.cells.map fun cell => if cell.key = key then f cell else cell }

theorem mem_adjust {f : Cell Key → Cell Key} {cell : Cell Key}
    (h : cell ∈ (s.adjust key f).cells) :
    ∃ old ∈ s.cells, cell = old ∨ cell = f old ∧ old.key = key := by
  obtain ⟨old, hold, rfl⟩ := List.mem_map.mp h
  refine ⟨old, hold, ?_⟩
  split
  · exact .inr ⟨rfl, ‹_›⟩
  · exact .inl rfl

theorem map_adjust {α : Type} {f : Cell Key → Cell Key} (field : Cell Key → α)
    (hfield : ∀ cell ∈ s.cells, cell.key = key → field (f cell) = field cell) :
    (s.adjust key f).cells.map field = s.cells.map field := by
  rw [adjust, List.map_map]
  refine List.map_congr_left fun cell hcell => ?_
  rw [Function.comp_apply]
  split
  · exact hfield cell hcell ‹_›
  · rfl

theorem stays_adjust {f : Cell Key → Cell Key} (hkey : ∀ cell, (f cell).key = cell.key)
    (hchildren : ∀ cell, (f cell).children = cell.children) : Stays s (s.adjust key f) := by
  intro cell hcell
  refine ⟨_, List.mem_map_of_mem hcell, ?_⟩
  split
  · exact ⟨hkey cell, hchildren cell⟩
  · exact ⟨rfl, rfl⟩

end Adjusting

/-! ## Consistent slabs -/

variable [SlotTable Table Key]

/-- A slab of some capacity in which the table, the order of the nodes and the number of bytes in
use are as they should be, and no node is without a reference. -/
structure Sound (capacity : Nat) (s : Slab Table Key) : Prop where
  indexed : Indexed s.table (s.cells.map Cell.key)
  increasing : s.cells.Pairwise fun a b => a.serial < b.serial
  issued : ∀ cell ∈ s.cells, cell.serial < s.nextSerial
  sized : ∀ cell ∈ s.cells, cell.size = Node.chargeOf cell.head cell.children.length
  used_eq : s.used = (s.cells.map Cell.size).sum
  used_le : s.used ≤ capacity
  capacity_eq : s.capacity = capacity
  referenced : ∀ cell ∈ s.cells, 0 < cell.references

namespace Sound

/-- The place that the table gives for a key is that of the node with this key. -/
theorem node_of_get (h : Sound capacity s) {index : Nat}
    (hget : SlotTable.get s.table key = some index) :
    ∃ cell, s.cells[index]? = some cell ∧ cell.key = key := by
  have hkey := h.indexed.get_iff.mp hget
  rw [List.getElem?_map] at hkey
  exact Option.map_eq_some_iff.mp hkey

theorem get_of_node (h : Sound capacity s) {cell : Cell Key} (hcell : cell ∈ s.cells) :
    ∃ index, SlotTable.get s.table cell.key = some index ∧ s.cells[index]? = some cell := by
  obtain ⟨index, hindex⟩ := List.mem_iff_getElem?.mp hcell
  refine ⟨index, h.indexed.place ?_, hindex⟩
  rw [List.getElem?_map, hindex]
  rfl

theorem not_mem_of_get (h : Sound capacity s) (hget : SlotTable.get s.table key = none) :
    ∀ cell ∈ s.cells, cell.key ≠ key := by
  rintro cell hcell rfl
  obtain ⟨index, hindex, -⟩ := h.get_of_node hcell
  rw [hget] at hindex
  cases hindex

theorem eq_of_key_eq (h : Sound capacity s) {cell other : Cell Key} (hcell : cell ∈ s.cells)
    (hother : other ∈ s.cells) (hkey : cell.key = other.key) : cell = other := by
  obtain ⟨index, hget, hindex⟩ := h.get_of_node hcell
  obtain ⟨place, hget', hplace⟩ := h.get_of_node hother
  rw [← hkey, hget, Option.some_inj] at hget'
  subst hget'
  exact Option.some_inj.mp (hindex.symm.trans hplace)

theorem free_eq (h : Sound capacity s) : s.free = some (capacity - s.used) := by
  rw [free, h.capacity_eq, if_pos h.used_le]

end Sound

/-! ## Changing nodes -/

section Changes

variable [DecidableEq Key]

/-- A change to a node that leaves it in its place, and not without a reference. -/
structure Harmless (f : Cell Key → Cell Key) (cell : Cell Key) : Prop where
  key : (f cell).key = cell.key
  serial : (f cell).serial = cell.serial
  size : (f cell).size = cell.size
  head : (f cell).head = cell.head
  children : (f cell).children = cell.children
  references : 0 < (f cell).references

theorem modify_eq_map {cells : List (Cell Key)} {index : Nat} (f : Cell Key → Cell Key)
    (hnodup : (cells.map Cell.key).Nodup) (hindex : (cells.map Cell.key)[index]? = some key) :
    cells.modify index f = cells.map fun cell => if cell.key = key then f cell else cell := by
  apply List.ext_getElem?
  intro place
  rw [List.getElem?_modify, List.getElem?_map]
  cases hcell : cells[place]? with
  | none => rfl
  | some cell =>
      have hplace : (cells.map Cell.key)[place]? = some cell.key := by
        rw [List.getElem?_map, hcell]
        rfl
      have hiff : index = place ↔ cell.key = key := by
        constructor
        · rintro rfl
          exact Option.some_inj.mp (hplace.symm.trans hindex)
        · rintro rfl
          obtain ⟨hlt, -⟩ := List.getElem?_eq_some_iff.mp hindex
          exact (List.getElem?_inj hlt hnodup).mp (hindex.trans hplace.symm)
      simp only [Option.map_some, hiff]
      split <;> rfl

/-- Changing the node of a key has an outcome, also if there is no such node. -/
theorem Sound.update_eq (h : Sound capacity s) (key : Key) (f : Cell Key → Cell Key) :
    s.update key f = some (s.adjust key f) := by
  unfold update adjust
  cases hget : SlotTable.get s.table key with
  | none =>
      have hsame : (s.cells.map fun cell => if cell.key = key then f cell else cell) = s.cells :=
        (List.map_congr_left fun cell hcell => if_neg (h.not_mem_of_get hget cell hcell)).trans
          (List.map_id' _)
      simp only [hsame]
  | some index =>
      have hkey := h.indexed.get_iff.mp hget
      obtain ⟨hlt, -⟩ := List.getElem?_eq_some_iff.mp hkey
      rw [List.length_map] at hlt
      simp only [if_pos hlt, modify_eq_map f h.indexed.nodup hkey]

theorem Sound.adjust {f : Cell Key → Cell Key} (h : Sound capacity s)
    (hf : ∀ cell ∈ s.cells, cell.key = key → Harmless f cell) :
    Sound capacity (s.adjust key f) where
  indexed := map_adjust Cell.key (fun cell hcell hkey => (hf cell hcell hkey).key) ▸ h.indexed
  increasing := by
    rw [← List.pairwise_map (f := Cell.serial),
      map_adjust Cell.serial (fun cell hcell hkey => (hf cell hcell hkey).serial),
      List.pairwise_map]
    exact h.increasing
  issued cell hcell := by
    obtain ⟨old, hold, rfl | ⟨rfl, hkey⟩⟩ := mem_adjust hcell
    · exact h.issued _ hold
    · exact (hf old hold hkey).serial ▸ h.issued old hold
  sized cell hcell := by
    obtain ⟨old, hold, rfl | ⟨rfl, hkey⟩⟩ := mem_adjust hcell
    · exact h.sized _ hold
    · have hsame := hf old hold hkey
      rw [hsame.size, hsame.head, hsame.children]
      exact h.sized old hold
  used_eq := by
    rw [map_adjust Cell.size (fun cell hcell hkey => (hf cell hcell hkey).size)]
    exact h.used_eq
  used_le := h.used_le
  capacity_eq := h.capacity_eq
  referenced cell hcell := by
    obtain ⟨old, hold, rfl | ⟨rfl, hkey⟩⟩ := mem_adjust hcell
    · exact h.referenced _ hold
    · exact (hf old hold hkey).references

theorem Sound.retain (h : Sound capacity s) (key : Key) :
    ∃ t, s.retain key = some t ∧ Sound capacity t :=
  ⟨_, h.update_eq key _, h.adjust fun _ _ _ => ⟨rfl, rfl, rfl, rfl, rfl, Nat.succ_pos _⟩⟩

theorem Sound.attach (h : Sound capacity s) (key : Key) :
    ∃ t, s.attach key = some t ∧ Sound capacity t :=
  ⟨_, h.update_eq key _, h.adjust fun _ _ _ => ⟨rfl, rfl, rfl, rfl, rfl, Nat.succ_pos _⟩⟩

theorem Sound.detach (h : Sound capacity s) (key : Key) :
    ∃ t, s.detach key = some t ∧ Sound capacity t :=
  ⟨_, h.update_eq key _, h.adjust fun cell hcell _ =>
    ⟨rfl, rfl, rfl, rfl, rfl, h.referenced cell hcell⟩⟩

/-- A reference can be taken off a node that has another one. -/
theorem Sound.decrement (h : Sound capacity s)
    (hshared : ∀ cell ∈ s.cells, cell.key = key → 1 < cell.references) :
    ∃ t, s.decrement key = some t ∧ Sound capacity t :=
  ⟨_, h.update_eq key _, h.adjust fun cell hcell hkey =>
    ⟨rfl, rfl, rfl, rfl, rfl, Nat.sub_pos_of_lt (hshared cell hcell hkey)⟩⟩

/-- Nodes that become operands count the new references. -/
theorem Sound.attachAll (h : Sound capacity s) (keys : List Key) (least : Key → Nat)
    (hleast : ∀ cell ∈ s.cells, least cell.key < cell.references) :
    ∃ t, keys.foldlM Slab.attach s = some t ∧ Sound capacity t ∧ t.used = s.used ∧ Stays s t ∧
      ∀ cell ∈ t.cells, least cell.key + keys.count cell.key < cell.references := by
  induction keys generalizing s least with
  | nil => exact ⟨s, rfl, h, rfl, Stays.refl s, by simpa using hleast⟩
  | cons key keys ih =>
      obtain ⟨t, ht, hsound⟩ := h.attach key
      rw [Slab.attach, h.update_eq, Option.some_inj] at ht
      have hmore : ∀ cell ∈ t.cells,
          least cell.key + (if key = cell.key then 1 else 0) < cell.references := by
        subst ht
        intro cell hcell
        obtain ⟨old, hold, rfl⟩ := List.mem_map.mp hcell
        have hlt := hleast old hold
        by_cases hkey : old.key = key
        · simp only [hkey, if_true] at hlt ⊢
          omega
        · simp only [if_neg hkey, if_neg (Ne.symm hkey)]
          omega
      obtain ⟨u, hu, hsound', hused, hstays, hcount⟩ :=
        ih hsound (fun other => least other + if key = other then 1 else 0) hmore
      refine ⟨u, ?_, hsound', hused.trans (ht ▸ rfl),
        Stays.trans (ht ▸ stays_adjust (fun _ => rfl) fun _ => rfl) hstays, fun cell hcell => ?_⟩
      · rw [List.foldlM_cons, Slab.attach, h.update_eq, ht]
        exact hu
      · have hlt := hcount cell hcell
        rw [List.count_cons]
        simp only [beq_iff_eq]
        omega

end Changes

/-! ## Freeing nodes -/

/-- A slab without one of its nodes. -/
def without (s : Slab Table Key) (front : List (Cell Key)) (cell : Cell Key)
    (later : List (Cell Key)) : Slab Table Key :=
  { s with
    cells := front ++ later
    table := reindex (SlotTable.remove s.table cell.key) front.length later
    used := s.used - cell.size }

theorem Sound.removeAt_eq {front later : List (Cell Key)} {cell : Cell Key}
    (h : Sound capacity s) (hcells : s.cells = front ++ cell :: later) :
    s.removeAt front.length = some (cell, s.without front cell later) := by
  have hfits : cell.size ≤ s.used := by
    rw [h.used_eq, hcells]
    simp only [List.map_append, List.map_cons, List.sum_append, List.sum_cons]
    omega
  have herase : (front ++ cell :: later).eraseIdx front.length = front ++ later := by
    rw [List.eraseIdx_append_of_length_le (Nat.le_refl _), Nat.sub_self, List.eraseIdx_cons_zero]
  simp only [removeAt, discard, hcells, herase, hfits, without, if_true, List.drop_left,
    List.getElem?_append_right (Nat.le_refl _), Nat.sub_self, List.getElem?_cons_zero,
    Option.bind_eq_bind, Option.bind_some, Option.pure_def]

theorem discardAll_eq (cells : List (Cell Key)) (s : Slab Table Key)
    (hused : (cells.map Cell.size).sum ≤ s.used) :
    cells.foldlM discard s = some { s with
      table := (cells.map Cell.key).foldl SlotTable.remove s.table
      used := s.used - (cells.map Cell.size).sum } := by
  induction cells generalizing s with
  | nil => rfl
  | cons cell cells ih =>
      rw [List.map_cons, List.sum_cons] at hused
      have hfits : cell.size ≤ s.used := by omega
      rw [List.foldlM_cons, discard, if_pos hfits, Option.bind_eq_bind, Option.bind_some,
        ih _ (by simp only; omega)]
      simp only [List.map_cons, List.foldl_cons, List.sum_cons, Nat.sub_sub]

/-- The search finds the first of the later nodes, as the nodes are in order. -/
theorem Sound.rollback_eq (h : Sound capacity s) (serial : Nat) :
    ∃ front back, s.cells = front ++ back ∧ (∀ cell ∈ front, cell.serial < serial) ∧
      (∀ cell ∈ back, serial ≤ cell.serial) ∧
      s.rollback serial = if back = [] then some s else
        (back.foldlM discard { s with cells := front }).bind
          ((back.flatMap Cell.children).foldlM Slab.orphan) := by
  obtain ⟨front, back, hcells, hfront, hback⟩ := exists_split h.increasing serial
  have hstart : partitionPoint (fun cell : Cell Key => cell.serial < serial) s.cells =
      front.length := by
    rw [hcells]
    refine partitionPoint_append (fun cell hcell => decide_eq_true (hfront cell hcell))
      fun cell hcell => decide_eq_false ?_
    have hle := hback cell hcell
    omega
  refine ⟨front, back, hcells, hfront, hback, ?_⟩
  unfold Slab.rollback
  simp only [hstart]
  simp only [hcells, List.length_append, List.drop_left, List.take_left,
    Nat.left_eq_add, List.length_eq_zero_iff, Option.bind_eq_bind]

theorem Sound.allocate_short (h : Sound capacity s) {head : Expr} {children : List Key}
    (hshort : capacity - s.used < Node.chargeOf head children.length) :
    s.allocate head children =
      some (.error ⟨Node.chargeOf head children.length, capacity - s.used⟩, s) := by
  simp only [Slab.allocate, h.free_eq, Option.bind_eq_bind, Option.bind_some, if_pos hshort,
    Option.pure_def]

theorem Sound.removeAt_of_get {index : Nat} {cell : Cell Key} (h : Sound capacity s)
    (hcell : s.cells[index]? = some cell) :
    ∃ front later, s.cells = front ++ cell :: later ∧
      s.removeAt index = some (cell, s.without front cell later) := by
  obtain ⟨hindex, hget⟩ := List.getElem?_eq_some_iff.mp hcell
  have hcells : s.cells = s.cells.take index ++ cell :: s.cells.drop (index + 1) := by
    rw [← hget, ← List.drop_eq_getElem_cons hindex, List.take_append_drop]
  have hremove := h.removeAt_eq hcells
  rw [List.length_take_of_le (Nat.le_of_lt hindex)] at hremove
  exact ⟨_, _, hcells, hremove⟩

theorem releaseAll_nil (s : Slab Table Key) : s.releaseAll [] = some s := by
  rw [releaseAll]

theorem releaseAll_stale {rest : List Key} (hget : SlotTable.get s.table key = none) :
    s.releaseAll (key :: rest) = s.releaseAll rest := by
  rw [releaseAll]
  split
  · rfl
  · rename_i hsome
    rw [hget] at hsome
    cases hsome

theorem releaseAll_shared {rest : List Key} {index : Nat} {cell : Cell Key}
    (hget : SlotTable.get s.table key = some index) (hcell : s.cells[index]? = some cell)
    (hshared : 1 < cell.references) :
    s.releaseAll (key :: rest) = (s.decrement key).bind fun t => t.releaseAll rest := by
  rw [releaseAll]
  split
  · rename_i hnone
    rw [hget] at hnone
    cases hnone
  · rename_i place hsome
    rw [hget] at hsome
    cases hsome
    simp only [hcell, if_pos hshared]
    split <;> rename_i hdecrement <;> rw [hdecrement] <;> rfl

theorem releaseAll_last {rest : List Key} {index : Nat} {cell : Cell Key}
    (hget : SlotTable.get s.table key = some index) (hcell : s.cells[index]? = some cell)
    (hlast : ¬ 1 < cell.references) :
    s.releaseAll (key :: rest) =
      (s.freeAt index).bind fun freed => freed.2.releaseAll (freed.1.reverse ++ rest) := by
  rw [releaseAll]
  split
  · rename_i hnone
    rw [hget] at hnone
    cases hnone
  · rename_i place hsome
    rw [hget] at hsome
    cases hsome
    simp only [hcell, if_neg hlast]
    split <;> rename_i hfreed <;> rw [hfreed] <;> rfl

section Freeing

variable [DecidableEq Key]

/-- A node for which there is room is put at the end. All operands have more references than before,
one for each time that they occur. -/
theorem Sound.allocate_fits (h : Sound capacity s) {head : Expr} {children : List Key}
    (hroom : Node.chargeOf head children.length ≤ capacity - s.used) :
    ∃ t, children.foldlM Slab.attach s = some t ∧ Sound capacity t ∧ t.used = s.used ∧ Stays s t ∧
      (∀ cell ∈ t.cells, children.count cell.key < cell.references) ∧
      s.allocate head children =
        some (.ok (t.push head children).1, (t.push head children).2) := by
  obtain ⟨t, ht, hsound, hused, hstays, hcount⟩ :=
    h.attachAll children (fun _ => 0) h.referenced
  refine ⟨t, ht, hsound, hused, hstays, fun cell hcell => by simpa using hcount cell hcell, ?_⟩
  simp only [Slab.allocate, h.free_eq, Option.bind_eq_bind, Option.bind_some,
    if_neg (Nat.not_lt.mpr hroom), ht, Option.pure_def]

variable [LawfulSlotTable Table Key]

theorem Sound.without {front later : List (Cell Key)} {cell : Cell Key}
    (h : Sound capacity s) (hcells : s.cells = front ++ cell :: later) :
    Sound capacity (s.without front cell later) := by
  have hsub : ∀ other ∈ front ++ later, other ∈ s.cells := by
    intro other hother
    rw [hcells]
    simp only [List.mem_append, List.mem_cons] at hother ⊢
    tauto
  refine ⟨?_, ?_, fun other hother => h.issued other (hsub other hother),
    fun other hother => h.sized other (hsub other hother), ?_,
    Nat.le_trans (Nat.sub_le ..) h.used_le, h.capacity_eq, fun other hother => h.referenced other (hsub other hother)⟩
  · have hindexed := h.indexed
    rw [hcells, List.map_append, List.map_cons] at hindexed
    simpa [Slab.without] using hindexed.erase
  · refine h.increasing.sublist ?_
    rw [hcells]
    exact (List.Sublist.refl front).append (List.sublist_cons_self cell later)
  · simp only [Slab.without, h.used_eq, hcells, List.map_append, List.map_cons, List.sum_append,
      List.sum_cons]
    omega

theorem Sound.freeAt {index : Nat} {cell : Cell Key} (h : Sound capacity s)
    (hcell : s.cells[index]? = some cell) :
    ∃ t, s.freeAt index = some (cell.children, t) ∧ Sound capacity t := by
  obtain ⟨front, later, hcells, hremove⟩ := h.removeAt_of_get hcell
  obtain ⟨t, ht, hsound⟩ :=
    foldlM_keeps (fun key h => h.detach key) cell.children (h.without hcells)
  refine ⟨t, ?_, hsound⟩
  simp only [Slab.freeAt, hremove, ht, Option.bind_eq_bind, Option.bind_some, Option.pure_def]

/-- Every step either takes a reference off a node that has others, or frees a node. -/
theorem Sound.releaseAll (h : Sound capacity s) (keys : List Key) :
    ∃ t, s.releaseAll keys = some t ∧ Sound capacity t := by
  fun_induction s.releaseAll keys with
  | case1 s => exact ⟨s, rfl, h⟩
  | case2 s key rest hget ih => exact ih h
  | case3 s key rest index hget hcell =>
      obtain ⟨cell, hcell', -⟩ := h.node_of_get hget
      rw [hcell'] at hcell
      cases hcell
  | case4 s key rest index hget cell hcell hshared hnext =>
      rw [Slab.decrement, h.update_eq] at hnext
      cases hnext
  | case5 s key rest index hget cell hcell hshared t hnext ih =>
      obtain ⟨node, hnode, rfl⟩ := h.node_of_get hget
      rw [hcell, Option.some_inj] at hnode
      subst hnode
      obtain ⟨u, hu, hsound⟩ := h.decrement fun other hother hkey =>
        h.eq_of_key_eq (List.mem_of_getElem? hcell) hother hkey.symm ▸ hshared
      rw [hnext, Option.some_inj] at hu
      exact ih (hu ▸ hsound)
  | case6 s key rest index hget cell hcell hlast hfreed =>
      obtain ⟨t, ht, -⟩ := h.freeAt hcell
      rw [hfreed] at ht
      cases ht
  | case7 s key rest index hget cell hcell hlast children t hfreed ih =>
      obtain ⟨u, hu, hsound⟩ := h.freeAt hcell
      rw [hfreed, Option.some_inj, Prod.mk.injEq] at hu
      exact ih (hu.2 ▸ hsound)

theorem Sound.release (h : Sound capacity s) (key : Key) :
    ∃ t, s.release key = some t ∧ Sound capacity t :=
  h.releaseAll [key]

theorem Sound.dismantle (h : Sound capacity s) (key : Key) :
    ∃ children t, s.dismantle key = some (children, t) ∧ Sound capacity t := by
  unfold Slab.dismantle
  cases hget : SlotTable.get s.table key with
  | none => exact ⟨none, s, rfl, h⟩
  | some index =>
      obtain ⟨cell, hcell, -⟩ := h.node_of_get hget
      simp only [hcell, Option.bind_eq_bind, Option.bind_some, Option.pure_def]
      split
      · exact ⟨none, s, rfl, h⟩
      · obtain ⟨t, ht, hsound⟩ := h.freeAt hcell
        rw [ht]
        exact ⟨some cell.children, t, rfl, hsound⟩

/-! ## Going back -/

theorem Sound.orphan (h : Sound capacity s) (key : Key) :
    ∃ t, s.orphan key = some t ∧ Sound capacity t := by
  unfold Slab.orphan
  cases SlotTable.get s.table key with
  | none => exact ⟨s, rfl, h⟩
  | some index =>
      obtain ⟨t, ht, hsound⟩ := h.detach key
      obtain ⟨u, hu, hsound'⟩ := hsound.release key
      refine ⟨u, ?_, hsound'⟩
      simp only [ht, hu, Option.bind_eq_bind, Option.bind_some]

/-- The nodes at the end of a slab can be given back together. -/
theorem Sound.cut {front back : List (Cell Key)} (h : Sound capacity s)
    (hcells : s.cells = front ++ back) :
    ∃ t, back.foldlM discard { s with cells := front } = some t ∧ Sound capacity t := by
  have hused : s.used = (front.map Cell.size).sum + (back.map Cell.size).sum := by
    rw [h.used_eq, hcells, List.map_append, List.sum_append]
  have hsub : ∀ cell ∈ front, cell ∈ s.cells := fun cell hcell =>
    hcells ▸ List.mem_append_left back hcell
  have hindexed := h.indexed
  rw [hcells, List.map_append] at hindexed
  refine ⟨_, discardAll_eq back _ (by simp only; omega), hindexed.removeAll,
    h.increasing.sublist (hcells ▸ List.sublist_append_left front back),
    fun cell hcell => h.issued cell (hsub cell hcell),
    fun cell hcell => h.sized cell (hsub cell hcell), by simp only; omega,
    Nat.le_trans (Nat.sub_le ..) h.used_le, h.capacity_eq,
    fun cell hcell => h.referenced cell (hsub cell hcell)⟩

theorem Sound.rollback (h : Sound capacity s) (serial : Nat) :
    ∃ t, s.rollback serial = some t ∧ Sound capacity t := by
  obtain ⟨front, back, hcells, -, -, heq⟩ := h.rollback_eq serial
  rw [heq]
  split
  · exact ⟨s, rfl, h⟩
  · obtain ⟨t, ht, hsound⟩ := h.cut hcells
    obtain ⟨u, hu, hsound'⟩ :=
      foldlM_keeps (fun key h => h.orphan key) (back.flatMap Cell.children) hsound
    exact ⟨u, by rw [ht, Option.bind_some, hu], hsound'⟩

/-! ## Allocating -/

/-- A node can be put at the end of a slab that has room for it. -/
theorem Sound.push (h : Sound capacity s) {head : Expr} {children : List Key}
    (hroom : Node.chargeOf head children.length ≤ capacity - s.used) :
    Sound capacity (s.push head children).2 where
  indexed := by
    have hindexed := h.indexed.insert
    rw [List.length_map] at hindexed
    simpa [Slab.push] using hindexed
  increasing := by
    refine List.pairwise_append.mpr ⟨h.increasing, List.pairwise_singleton .., ?_⟩
    intro cell hcell other hother
    rw [List.mem_singleton] at hother
    exact hother ▸ h.issued cell hcell
  issued cell hcell := by
    simp only [Slab.push, List.mem_append, List.mem_singleton] at hcell ⊢
    obtain hcell | rfl := hcell
    · exact Nat.lt_succ_of_lt (h.issued cell hcell)
    · exact Nat.lt_succ_self _
  sized cell hcell := by
    simp only [Slab.push, List.mem_append, List.mem_singleton] at hcell
    obtain hcell | rfl := hcell
    · exact h.sized cell hcell
    · rfl
  used_eq := by simp [Slab.push, h.used_eq]
  used_le := by
    have hle := h.used_le
    simp only [Slab.push]
    omega
  capacity_eq := h.capacity_eq
  referenced cell hcell := by
    simp only [Slab.push, List.mem_append, List.mem_singleton] at hcell
    obtain hcell | rfl := hcell
    · exact h.referenced cell hcell
    · exact Nat.one_pos

theorem Sound.allocate (h : Sound capacity s) (head : Expr) (children : List Key) :
    ∃ outcome t, s.allocate head children = some (outcome, t) ∧ Sound capacity t := by
  by_cases hroom : Node.chargeOf head children.length ≤ capacity - s.used
  · obtain ⟨t, -, hsound, hused, -, -, heq⟩ := h.allocate_fits hroom
    exact ⟨_, _, heq, hsound.push (hused ▸ hroom)⟩
  · exact ⟨_, s, h.allocate_short (Nat.not_le.mp hroom), h⟩

end Freeing

end Slab

end PocketAlgebra
