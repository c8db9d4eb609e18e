import Mathlib.Data.List.Perm.Basic
import PocketAlgebra.Proofs.Pool.NodeTree

/-!
# Nodes made since

While a tree is copied, a slab holds the nodes that it held at first, as they were, and behind them
those that have been made since. The latter make up a forest: each of them has a single reference,
from the one node that it is an operand of or, if it is a root, from the copying itself. Roots become
operands of a new root, and releasing all roots leaves the slab with the nodes that it held at first.
-/

namespace PocketAlgebra

/-- A node as it is when nodes with some keys have become operands. -/
def Cell.adopted {Key : Type} [DecidableEq Key] (keys : List Key) (cell : Cell Key) : Cell Key :=
  { cell with hasParent := cell.hasParent || keys.contains cell.key }

/-- A node as it is when nodes with some keys are no operands any more. -/
def Cell.orphaned {Key : Type} [DecidableEq Key] (keys : List Key) (cell : Cell Key) : Cell Key :=
  { cell with hasParent := cell.hasParent && !keys.contains cell.key }

theorem Cell.map_key {Key : Type} (f : Cell Key → Cell Key) (hf : ∀ cell, (f cell).key = cell.key)
    (cells : List (Cell Key)) : (cells.map f).map Cell.key = cells.map Cell.key := by
  rw [List.map_map]
  exact List.map_congr_left fun cell _ => hf cell

theorem Cell.flatMap_children {Key : Type} (f : Cell Key → Cell Key)
    (hf : ∀ cell, (f cell).children = cell.children) (cells : List (Cell Key)) :
    (cells.map f).flatMap Cell.children = cells.flatMap Cell.children := by
  rw [List.flatMap_map]
  exact List.flatMap_congr fun cell _ => hf cell

namespace Slab

variable {Table Key : Type} {capacity : Nat} {origin s t : Slab Table Key} {key : Key}

/-! ## Changing several nodes -/

section Changes

variable [DecidableEq Key]

/-- Steps that each change the node of a key come together to one change of all nodes. -/
theorem foldlM_adjust {step : Slab Table Key → Key → Option (Slab Table Key)}
    (Keeps : List Key → Slab Table Key → Prop) (f : Cell Key → Cell Key)
    (all : List Key → Cell Key → Cell Key) (hnil : ∀ cell, all [] cell = cell)
    (hcons : ∀ key keys cell,
      all keys (if cell.key = key then f cell else cell) = all (key :: keys) cell)
    (hstep : ∀ {s key keys}, Keeps (key :: keys) s →
      step s key = some (s.adjust key f) ∧ Keeps keys (s.adjust key f))
    {keys : List Key} (h : Keeps keys s) :
    keys.foldlM step s = some { s with cells := s.cells.map (all keys) } := by
  induction keys generalizing s with
  | nil =>
    rw [List.foldlM_nil, funext hnil, List.map_id']
    rfl
  | cons key keys ih =>
    obtain ⟨hfirst, hrest⟩ := hstep h
    rw [List.foldlM_cons, hfirst, Option.bind_eq_bind, Option.bind_some, ih hrest]
    simp only [Slab.adjust, List.map_map]
    congr 2
    exact List.map_congr_left fun cell _ => hcons key keys cell

variable [SlotTable Table Key]

/-- Every node counts how many operands it has become. -/
theorem Sound.attachAll_eq (h : Sound capacity s) (keys : List Key) :
    keys.foldlM Slab.attach s = some { s with cells := s.cells.map fun cell =>
      { cell.adopted keys with references := cell.references + keys.count cell.key } } := by
  refine foldlM_adjust (fun _ s => Sound capacity s)
    (fun cell => { cell with references := cell.references + 1, hasParent := true })
    (fun keys cell => { cell.adopted keys with references := cell.references + keys.count cell.key })
    (fun cell => by simp [Cell.adopted]) (fun key keys cell => ?_) (fun hs => ?_) h
  · by_cases hkey : cell.key = key
    · simp [Cell.adopted, hkey]
      omega
    · simp [Cell.adopted, hkey, Ne.symm hkey]
  · obtain ⟨t, ht, hsound⟩ := hs.attach _
    rw [Slab.attach, hs.update_eq] at ht ⊢
    exact ⟨rfl, Option.some_inj.mp ht ▸ hsound⟩

theorem Sound.detachAll_eq (h : Sound capacity s) (keys : List Key) :
    keys.foldlM Slab.detach s = some { s with cells := s.cells.map (Cell.orphaned keys) } := by
  refine foldlM_adjust (fun _ s => Sound capacity s)
    (fun cell => { cell with hasParent := false }) Cell.orphaned
    (fun cell => by simp [Cell.orphaned]) (fun key keys cell => ?_) (fun hs => ?_) h
  · by_cases hkey : cell.key = key
    · simp [Cell.orphaned, hkey]
    · simp [Cell.orphaned, hkey]
  · obtain ⟨t, ht, hsound⟩ := hs.detach _
    rw [Slab.detach, hs.update_eq] at ht ⊢
    exact ⟨rfl, Option.some_inj.mp ht ▸ hsound⟩

variable [LawfulSlotTable Table Key]

/-- Nodes that have more references than are taken off them stay. -/
theorem Sound.releaseEach_eq (h : Sound capacity s) {keys : List Key}
    (hshared : ∀ cell ∈ s.cells, keys.count cell.key < cell.references) :
    keys.foldlM Slab.release s = some { s with cells := s.cells.map fun cell =>
      { cell with references := cell.references - keys.count cell.key } } := by
  refine foldlM_adjust
    (fun keys s => Sound capacity s ∧ ∀ cell ∈ s.cells, keys.count cell.key < cell.references)
    (fun cell => { cell with references := cell.references - 1 })
    (fun keys cell => { cell with references := cell.references - keys.count cell.key })
    (fun cell => by simp) (fun key keys cell => ?_) (fun {s key keys} hs => ?_) ⟨h, hshared⟩
  · by_cases hkey : cell.key = key
    · simp [hkey]
      omega
    · simp [hkey, Ne.symm hkey]
  · have hone : ∀ cell ∈ s.cells, cell.key = key → 1 < cell.references := by
      rintro cell hcell rfl
      have hlt := hs.2 cell hcell
      rw [List.count_cons_self] at hlt
      omega
    have hrelease := hs.1.release_shared hone
    obtain ⟨t, ht, hsound⟩ := hs.1.release key
    rw [hrelease, Option.some_inj] at ht
    refine ⟨hrelease, ht ▸ hsound, fun cell hcell => ?_⟩
    obtain ⟨old, hold, rfl⟩ := List.mem_map.mp hcell
    have hlt := hs.2 old hold
    rw [List.count_cons] at hlt
    by_cases hkey : old.key = key
    · simp only [hkey, if_true, beq_self_eq_true] at hlt ⊢
      omega
    · simp only [if_neg hkey]
      omega

/-- A slab in which nodes with some keys have become operands. -/
def adopting (s : Slab Table Key) (keys : List Key) : Slab Table Key :=
  { s with cells := s.cells.map (Cell.adopted keys) }

/-- The new node takes references to its operands over, so that all others count as before. -/
theorem Sound.assemble_eq (h : Sound capacity s) {head : Expr}
    (others : List Key) {children : List Key}
    (hlive : ∀ key ∈ children, ∃ cell ∈ s.cells, cell.key = key)
    (hroom : Node.chargeOf head children.length ≤ capacity - s.used) :
    s.assemble head others children =
        some (.ok (others ++ [((s.adopting children).push head children).1]),
          ((s.adopting children).push head children).2) ∧
      Sound capacity ((s.adopting children).push head children).2 := by
  obtain ⟨a, ha, hsound, hused, -, hcount, heq⟩ := h.allocate_fits hroom
  rw [h.attachAll_eq, Option.some_inj] at ha
  have hkey : (a.push head children).1 = ((s.adopting children).push head children).1 := by
    subst ha
    simp only [Slab.push, adopting, List.length_map]
  have hfresh : (a.push head children).1 ∉ children := by
    intro hmem
    obtain ⟨cell, hcell, hsame⟩ := hlive _ hmem
    have hnone := h.indexed.insert_notMem s.cells.length
    subst ha
    simp only [Slab.push, List.length_map] at hsame
    exact hnone (hsame ▸ List.mem_map_of_mem hcell)
  have hpushed : Sound capacity (a.push head children).2 := hsound.push (hused ▸ hroom)
  have hreleased := hpushed.releaseEach_eq (fun cell hcell => show children.count _ < _ by
    obtain hcell | hcell := List.mem_append.mp hcell
    · exact hcount cell hcell
    · rw [List.mem_singleton.mp hcell]
      exact Nat.lt_of_le_of_lt (Nat.le_of_eq (List.count_eq_zero.mpr hfresh)) Nat.one_pos)
  have hresult : ({ (a.push head children).2 with
      cells := (a.push head children).2.cells.map fun cell =>
        { cell with references := cell.references - children.count cell.key } } : Slab Table Key) =
      ((s.adopting children).push head children).2 := by
    have hzero := List.count_eq_zero.mpr hfresh
    subst ha
    simp only [Slab.push, List.length_map] at hzero
    simp [Slab.push, adopting, Cell.adopted, hzero]
  rw [hresult] at hreleased
  obtain ⟨t, ht, hsound'⟩ := foldlM_keeps (fun key h => h.release key) children hpushed
  rw [hreleased, Option.some_inj] at ht
  refine ⟨?_, ht ▸ hsound'⟩
  simp only [assemble, heq, hreleased, hkey, Option.bind_eq_bind, Option.bind_some, Option.pure_def]

end Changes

/-! ## Forests -/

variable [SlotTable Table Key] [LastingSlotTable Table Key] {others children roots rest : List Key}
variable {fresh : List (Cell Key)}

theorem Sound.issued_key (h : Sound capacity s) {cell : Cell Key} (hcell : cell ∈ s.cells) :
    LastingSlotTable.Issued s.table cell.key := by
  obtain ⟨index, hget, -⟩ := h.get_of_node hcell
  exact LastingSlotTable.issued_of_get hget

/-- The copy of a node gets a key that had not been handed out, and is put behind all nodes. -/
theorem Sound.assemble_plants [DecidableEq Key] [LawfulSlotTable Table Key] (h : Sound capacity s)
    {head : Expr} (others : List Key) {children : List Key}
    (hlive : ∀ key ∈ children, ∃ cell ∈ s.cells, cell.key = key)
    (hroom : s.used + Node.chargeOf head children.length ≤ capacity) :
    ∃ copy t, s.assemble head others children = some (.ok (others ++ [copy]), t) ∧
      Sound capacity t ∧
      t.cells = s.cells.map (Cell.adopted children) ++ [⟨head, children, 1, false, s.nextSerial,
        Node.chargeOf head children.length, copy⟩] ∧
      t.used = s.used + Node.chargeOf head children.length ∧
      ¬ LastingSlotTable.Issued s.table copy ∧
      ∀ key : Key, LastingSlotTable.Issued s.table key → LastingSlotTable.Issued t.table key := by
  have hfits : Node.chargeOf head children.length ≤ capacity - s.used := by omega
  obtain ⟨hassemble, hsound⟩ := h.assemble_eq others hlive hfits
  exact ⟨_, _, hassemble, hsound, rfl, rfl, LastingSlotTable.not_issued_insert s.table _,
    fun _ => LastingSlotTable.issued_insert _⟩

/-- A slab with the nodes that it had at first, and a forest of nodes made since. -/
structure Forest (capacity : Nat) (origin s : Slab Table Key) (roots : List Key)
    (fresh : List (Cell Key)) : Prop where
  sound : Sound capacity s
  cells : s.cells = origin.cells ++ fresh
  issued : ∀ key : Key, LastingSlotTable.Issued origin.table key → LastingSlotTable.Issued s.table key
  new : ∀ cell ∈ fresh, ¬ LastingSlotTable.Issued origin.table cell.key
  single : ∀ cell ∈ fresh, cell.references = 1
  owned : (fresh.map Cell.key).Perm (roots ++ fresh.flatMap Cell.children)
  flagged : ∀ cell ∈ fresh, (cell.hasParent = true ↔ cell.key ∉ roots)
  older : ∀ cell ∈ fresh, ∀ operand ∈ fresh, operand.key ∈ cell.children →
    operand.serial < cell.serial

namespace Forest

theorem start (h : Sound capacity origin) : Forest capacity origin origin [] [] where
  sound := h
  cells := (List.append_nil _).symm
  issued _ hkey := hkey
  new := by simp
  single := by simp
  owned := .nil
  flagged := by simp
  older := by simp

theorem perm {roots' : List Key} (h : Forest capacity origin s roots fresh)
    (hperm : roots.Perm roots') : Forest capacity origin s roots' fresh :=
  { h with
    owned := h.owned.trans (hperm.append_right _)
    flagged := fun cell hcell => (h.flagged cell hcell).trans (not_congr hperm.mem_iff) }

theorem mem_cells (h : Forest capacity origin s roots fresh) {cell : Cell Key} (hcell : cell ∈ fresh) :
    cell ∈ s.cells :=
  h.cells ▸ List.mem_append_right _ hcell

/-- Each new node is a root or an operand, and not twice. -/
theorem nodup (h : Forest capacity origin s roots fresh) :
    (roots ++ fresh.flatMap Cell.children).Nodup := by
  have hkeys := h.sound.indexed.nodup
  rw [h.cells, List.map_append] at hkeys
  exact h.owned.nodup_iff.mp (List.nodup_append.mp hkeys).2.1

theorem exists_root (h : Forest capacity origin s roots fresh) (hkey : key ∈ roots) :
    ∃ cell ∈ fresh, cell.key = key :=
  List.mem_map.mp (h.owned.mem_iff.mpr (List.mem_append_left _ hkey))

theorem exists_operand (h : Forest capacity origin s roots fresh) {cell : Cell Key}
    (hcell : cell ∈ fresh) (hkey : key ∈ cell.children) : ∃ operand ∈ fresh, operand.key = key :=
  List.mem_map.mp (h.owned.mem_iff.mpr
    (List.mem_append_right _ (List.mem_flatMap.mpr ⟨cell, hcell, hkey⟩)))

/-- A key that had been handed out at first leads to what it led to. -/
theorem cell_eq (h : Forest capacity origin s roots fresh) (horigin : Sound capacity origin)
    (hkey : LastingSlotTable.Issued origin.table key) : s.cell key = origin.cell key := by
  obtain ⟨hstale, hget⟩ | ⟨cell, hcell, hlive, rfl⟩ := horigin.cell_eq key
  · obtain ⟨hstale', -⟩ | ⟨cell, hcell, -, rfl⟩ := h.sound.cell_eq key
    · rw [hstale, hstale']
    · rw [h.cells, List.mem_append] at hcell
      obtain hcell | hcell := hcell
      · exact absurd rfl (horigin.not_mem_of_get hget cell hcell)
      · exact absurd hkey (h.new cell hcell)
  · rw [hlive]
    exact h.sound.cell_eq_of_mem (h.cells ▸ List.mem_append_left _ hcell)

theorem new_root (h : Forest capacity origin s roots fresh) (hkey : key ∈ roots) :
    ¬ LastingSlotTable.Issued origin.table key := by
  obtain ⟨cell, hcell, rfl⟩ := h.exists_root hkey
  exact h.new cell hcell

/-- Nodes with keys that had not been handed out at first are none of the first ones. -/
theorem map_origin (horigin : Sound capacity origin) {f : Cell Key → Cell Key} (keys : List Key)
    (hf : ∀ cell : Cell Key, cell.key ∉ keys → f cell = cell)
    (hkeys : ∀ key ∈ keys, ¬ LastingSlotTable.Issued origin.table key) :
    origin.cells.map f = origin.cells := by
  refine (List.map_congr_left fun cell hcell => ?_).trans (List.map_id' _)
  exact hf cell fun hmem => hkeys _ hmem (horigin.issued_key hcell)

/-- Without roots there are no nodes, as a node that is an operand is older than another one. -/
theorem eq_nil (h : Forest capacity origin s [] fresh) : fresh = [] := by
  rcases fresh.eq_nil_or_concat' with hnil | ⟨front, last, rfl⟩
  · exact hnil
  have hlast : last ∈ front ++ [last] := by simp
  have howned : last.key ∈ (front ++ [last]).flatMap Cell.children :=
    h.owned.mem_iff.mp (List.mem_map_of_mem hlast)
  obtain ⟨cell, hcell, hmem⟩ := List.mem_flatMap.mp howned
  have holder := h.older cell hcell last hlast hmem
  have hincreasing := h.sound.increasing
  rw [h.cells, List.pairwise_append, List.pairwise_append] at hincreasing
  have hlater := hincreasing.2.1.2.2
  rw [List.mem_append, List.mem_singleton] at hcell
  obtain hcell | rfl := hcell
  · exact absurd (hlater cell hcell last (List.mem_singleton_self last)) (by omega)
  · exact absurd holder (Nat.lt_irrefl _)

/-! ## Planting -/

variable [DecidableEq Key] [LawfulSlotTable Table Key]

/-- The last roots become operands of a new one. -/
theorem assemble (h : Forest capacity origin s (others ++ children) fresh)
    (horigin : Sound capacity origin) {head : Expr}
    (hroom : s.used + Node.chargeOf head children.length ≤ capacity) :
    ∃ node t, s.assemble head others children = some (.ok (others ++ [node.key]), t) ∧
      node.head = head ∧ node.children = children ∧
      t.used = s.used + Node.chargeOf head children.length ∧
      Forest capacity origin t (others ++ [node.key])
        (fresh.map (Cell.adopted children) ++ [node]) := by
  have hlive : ∀ key ∈ children, ∃ cell ∈ s.cells, cell.key = key := by
    intro key hkey
    obtain ⟨cell, hcell, hsame⟩ := h.exists_root (List.mem_append_right _ hkey)
    exact ⟨cell, h.mem_cells hcell, hsame⟩
  obtain ⟨copy, t, hassemble, hsound, hcells, hused, hcopy, hissued⟩ :=
    h.sound.assemble_plants others hlive hroom
  have hnew : ∀ cell ∈ fresh, cell.key ≠ copy := by
    rintro cell hcell rfl
    exact hcopy (h.sound.issued_key (h.mem_cells hcell))
  have hoperand : ∀ cell ∈ fresh, copy ∉ cell.children := by
    intro cell hcell hmem
    obtain ⟨operand, hoperand, hsame⟩ := h.exists_operand hcell hmem
    exact hnew operand hoperand hsame
  refine ⟨⟨head, children, 1, false, s.nextSerial, Node.chargeOf head children.length, copy⟩, t,
    hassemble, rfl, rfl, hused, hsound, ?_, fun key hkey => hissued key (h.issued key hkey), ?_, ?_,
    ?_, ?_, ?_⟩
  · have hkept := map_origin horigin (f := Cell.adopted children) children
      (fun cell hcell => by simp [Cell.adopted, hcell])
      fun key hkey => h.new_root (List.mem_append_right _ hkey)
    rw [hcells, h.cells, List.map_append, hkept, List.append_assoc]
  · simp only [List.forall_mem_append, List.forall_mem_map, List.forall_mem_singleton]
    exact ⟨h.new, fun hkey => hcopy (h.issued copy hkey)⟩
  · simp only [List.forall_mem_append, List.forall_mem_map, List.forall_mem_singleton]
    exact ⟨h.single, trivial⟩
  · rw [List.map_append, List.flatMap_append, Cell.map_key (Cell.adopted children) fun _ => rfl,
      Cell.flatMap_children (Cell.adopted children) fun _ => rfl]
    have howned := h.owned
    simp only [List.perm_iff_count, List.count_append, List.map_cons, List.map_nil, List.flatMap_cons,
      List.flatMap_nil, List.append_nil] at howned ⊢
    intro key
    have := howned key
    omega
  · simp only [List.forall_mem_append, List.forall_mem_map, List.forall_mem_singleton]
    refine ⟨fun cell hcell => ?_, by simp⟩
    have hflagged := h.flagged cell hcell
    have hne := hnew cell hcell
    show (cell.hasParent || children.contains cell.key) = true ↔ cell.key ∉ others ++ [copy]
    by_cases hmem : cell.key ∈ children
    · have hother : cell.key ∉ others := fun hother =>
        (List.nodup_append.mp (List.nodup_append.mp h.nodup).1).2.2 _ hother _ hmem rfl
      simp [hmem, hother, hne]
    · simp only [List.mem_append, not_or] at hflagged
      simp [hmem, hne, hflagged]
  · simp only [List.forall_mem_append, List.forall_mem_map, List.forall_mem_singleton]
    refine ⟨fun cell hcell => ⟨h.older cell hcell, fun hmem => absurd hmem (hoperand cell hcell)⟩,
      fun cell hcell _ => h.sound.issued cell (h.mem_cells hcell), fun hmem => ?_⟩
    obtain ⟨cell, hcell, hsame⟩ := h.exists_root (List.mem_append_right _ hmem)
    exact absurd hsame (hnew cell hcell)

/-! ## Felling -/

/-- A root is freed where it is released, and its operands become roots. -/
theorem free_root (h : Forest capacity origin s (key :: rest) fresh)
    (horigin : Sound capacity origin) :
    ∃ index cell t fewer, SlotTable.get s.table key = some index ∧ s.cells[index]? = some cell ∧
      ¬ 1 < cell.references ∧ s.freeAt index = some (cell.children, t) ∧
      fewer.length < fresh.length ∧
      Forest capacity origin t (cell.children.reverse ++ rest) fewer := by
  obtain ⟨cell, hcell, rfl⟩ := h.exists_root (List.mem_cons_self ..)
  obtain ⟨front, later, rfl⟩ := List.append_of_mem hcell
  have hcells : s.cells = (origin.cells ++ front) ++ cell :: later := by
    rw [h.cells, List.append_assoc]
  have hplace : s.cells[(origin.cells ++ front).length]? = some cell := by
    rw [hcells, List.getElem?_append_right (Nat.le_refl _), Nat.sub_self, List.getElem?_cons_zero]
  have hget : SlotTable.get s.table cell.key = some (origin.cells ++ front).length := by
    rw [h.sound.indexed.get_iff, List.getElem?_map, hplace, Option.map_some]
  obtain ⟨t, ht, hsound⟩ := h.sound.freeAt hplace
  have hremaining := h.sound.without hcells
  have hfree := ht
  simp only [Slab.freeAt, h.sound.removeAt_eq hcells, hremaining.detachAll_eq, Option.bind_eq_bind,
    Option.bind_some, Option.pure_def, Option.some_inj, Prod.mk.injEq, true_and] at hfree
  have hchildren : ∀ key ∈ cell.children, ¬ LastingSlotTable.Issued origin.table key := by
    intro key hkey
    obtain ⟨operand, hoperand, rfl⟩ := h.exists_operand hcell hkey
    exact h.new operand hoperand
  have hsub : ∀ other ∈ front ++ later, other ∈ front ++ cell :: later := by
    intro other hother
    simp only [List.mem_append, List.mem_cons] at hother ⊢
    tauto
  refine ⟨_, cell, t, (front ++ later).map (Cell.orphaned cell.children), hget, hplace, ?_, ht, ?_,
    hsound, ?_, fun key hkey => (descends_freeAt ht).issued key (h.issued key hkey), ?_, ?_, ?_, ?_,
    ?_⟩
  · rw [h.single cell hcell]
    exact Nat.lt_irrefl 1
  · simp
  · have hkept := map_origin horigin (f := Cell.orphaned cell.children) cell.children
      (fun other hother => by simp [Cell.orphaned, hother]) hchildren
    rw [← hfree]
    simp only [Slab.without, List.append_assoc, List.map_append, hkept]
  · exact List.forall_mem_map.mpr fun other hother => h.new other (hsub other hother)
  · exact List.forall_mem_map.mpr fun other hother => h.single other (hsub other hother)
  · rw [Cell.map_key (Cell.orphaned cell.children) fun _ => rfl,
      Cell.flatMap_children (Cell.orphaned cell.children) fun _ => rfl]
    have howned := h.owned
    simp only [List.perm_iff_count, List.map_append, List.map_cons,
      List.flatMap_append, List.flatMap_cons, List.count_append, List.count_cons,
      List.count_reverse] at howned ⊢
    intro key
    have := howned key
    omega
  · refine List.forall_mem_map.mpr fun other hother => ?_
    have hflagged := h.flagged other (hsub other hother)
    have hne : other.key ≠ cell.key := by
      have hnodup := h.owned.nodup_iff.mpr h.nodup
      rw [List.map_append, List.map_cons, List.nodup_middle, ← List.map_append, List.nodup_cons]
        at hnodup
      exact fun hsame => hnodup.1 (hsame ▸ List.mem_map_of_mem hother)
    show (other.hasParent && !cell.children.contains other.key) = true ↔
      other.key ∉ cell.children.reverse ++ rest
    simp only [List.mem_cons, not_or] at hflagged
    simp [hflagged, hne]
    tauto
  · simp only [List.forall_mem_map]
    exact fun other hother operand hoperand =>
      h.older other (hsub other hother) operand (hsub operand hoperand)

/-- Roots are released with all that is below them. -/
theorem releaseAll {pending : List Key} (h : Forest capacity origin s (pending ++ rest) fresh)
    (horigin : Sound capacity origin) :
    ∃ t fewer, s.releaseAll pending = some t ∧ Forest capacity origin t rest fewer := by
  generalize hcount : fresh.length = count
  induction count using Nat.strongRecOn generalizing s pending fresh with
  | ind count ih =>
    subst hcount
    cases pending with
    | nil => exact ⟨s, fresh, releaseAll_nil s, h⟩
    | cons key pending =>
      have hfirst : Forest capacity origin s (key :: (pending ++ rest)) fresh := h
      obtain ⟨index, cell, t, fewer, hget, hcell, hlast, hfree, hlength, hforest⟩ :=
        hfirst.free_root horigin
      rw [← List.append_assoc] at hforest
      obtain ⟨u, fewest, hrelease, hrest⟩ := ih fewer.length hlength hforest rfl
      refine ⟨u, fewest, ?_, hrest⟩
      rw [releaseAll_last hget hcell hlast, hfree]
      exact hrelease

theorem releaseEach {pending : List Key} (h : Forest capacity origin s (pending ++ rest) fresh)
    (horigin : Sound capacity origin) :
    ∃ t fewer, pending.foldlM Slab.release s = some t ∧ Forest capacity origin t rest fewer := by
  induction pending generalizing s fresh with
  | nil => exact ⟨s, fresh, rfl, h⟩
  | cons key pending ih =>
    have hfirst : Forest capacity origin s ([key] ++ (pending ++ rest)) fresh := h
    obtain ⟨t, fewer, hrelease, hforest⟩ := hfirst.releaseAll horigin
    obtain ⟨u, fewest, hrest, hlast⟩ := ih hforest
    refine ⟨u, fewest, ?_, hlast⟩
    rw [List.foldlM_cons, Slab.release, hrelease]
    exact hrest

/-- Where there is no room for a new root, all roots are dropped, which leaves no new nodes. -/
theorem assemble_short (h : Forest capacity origin s (others ++ children) fresh)
    (horigin : Sound capacity origin) {head : Expr}
    (hshort : capacity < s.used + Node.chargeOf head children.length) :
    ∃ shortage t, s.assemble head others children = some (.error shortage, t) ∧
      Forest capacity origin t [] [] := by
  have hfull : capacity - s.used < Node.chargeOf head children.length := by
    have := h.sound.used_le
    omega
  obtain ⟨t, fewer, hrelease, hforest⟩ := (h.perm List.perm_append_comm).releaseEach horigin
  rw [← List.append_nil others] at hforest
  obtain ⟨u, fewest, hrelease', hforest'⟩ := hforest.releaseEach horigin
  obtain rfl := hforest'.eq_nil
  refine ⟨⟨Node.chargeOf head children.length, capacity - s.used⟩, u, ?_, hforest'⟩
  simp only [Slab.assemble, h.sound.allocate_short hfull, hrelease, hrelease', Option.bind_eq_bind,
    Option.bind_some, Option.pure_def]

end Forest

end Slab

end PocketAlgebra
