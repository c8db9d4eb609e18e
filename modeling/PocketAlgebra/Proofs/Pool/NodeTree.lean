import Mathlib.Data.List.Forall2
import PocketAlgebra.Proofs.Pool.SlabRuns

/-!
# Trees of nodes

What lies below a key in a slab is a tree: a stale key stands for an undefined leaf, and any other
one for its node over the trees of its operands. In slabs that are made by requests every key has
exactly one tree, as all operands of a node that are still there are older than the node.
-/

namespace PocketAlgebra

/-- A tree of nodes, without their keys. -/
inductive NodeTree where
  | node (head : Expr) (operands : List NodeTree)

namespace NodeTree

mutual

/-- The bytes that are charged for the nodes of a tree. -/
def charge : NodeTree → Nat
  | node head operands => chargeAll operands + Node.chargeOf head operands.length

/-- The bytes that are charged for the nodes of several trees. -/
def chargeAll : List NodeTree → Nat
  | [] => 0
  | tree :: trees => tree.charge + chargeAll trees

end

mutual

/-- The number of nodes of a tree. -/
def size : NodeTree → Nat
  | node _ operands => sizeAll operands + 1

/-- The number of nodes of several trees. -/
def sizeAll : List NodeTree → Nat
  | [] => 0
  | tree :: trees => tree.size + sizeAll trees

end

/-- What holds of a tree if it holds of all its operands holds of every tree. -/
theorem induction {P : NodeTree → Prop}
    (hnode : ∀ head operands, (∀ tree ∈ operands, P tree) → P (node head operands)) (tree : NodeTree) :
    P tree :=
  match tree with
  | node head operands => hnode head operands fun tree _ => induction hnode tree

end NodeTree

namespace Slab

variable {Table Key : Type} [SlotTable Table Key] {capacity : Nat} {s t u : Slab Table Key}
variable {key : Key} {tree other : NodeTree}

/-! ## The tree below a key -/

/-- The tree below a key, where stale keys stand for undefined leaves. -/
inductive Unfolds (s : Slab Table Key) : Key → NodeTree → Prop
  | stale {key : Key} (h : s.cell key = some none) : Unfolds s key (.node .undefined [])
  | live {key : Key} {cell : Cell Key} {operands : List NodeTree}
      (h : s.cell key = some (some cell))
      (hoperands : List.Forall₂ (Unfolds s) cell.children operands) :
      Unfolds s key (.node cell.head operands)

theorem eq_of_forall₂ {α β : Type} {R : α → β → Prop} {xs : List α} {ys zs : List β}
    (h : List.Forall₂ R xs ys) (h' : List.Forall₂ R xs zs)
    (hunique : ∀ y ∈ ys, ∀ {x z}, R x y → R x z → y = z) : ys = zs := by
  induction h generalizing zs with
  | nil =>
    cases h'
    rfl
  | cons hxy hrest ih =>
    cases h' with
    | cons hxz hrest' =>
      rw [List.forall_mem_cons] at hunique
      rw [hunique.1 hxy hxz, ih hrest' hunique.2]

theorem Unfolds.unique (h : s.Unfolds key tree) (h' : s.Unfolds key other) : tree = other := by
  induction tree using NodeTree.induction generalizing key other with
  | hnode head operands ih =>
    cases h with
    | stale hcell =>
      cases h' with
      | stale => rfl
      | live hcell' => cases hcell.symm.trans hcell'
    | live hcell hoperands =>
      cases h' with
      | stale hcell' => cases hcell.symm.trans hcell'
      | live hcell' hoperands' =>
        cases hcell.symm.trans hcell'
        rw [eq_of_forall₂ hoperands hoperands' fun tree htree => ih tree htree]

/-! ## Slabs without circles -/

variable [LastingSlotTable Table Key]

/-- A slab whose nodes have operands with keys that have been handed out, and older ones where they
are still there. -/
structure Founded (s : Slab Table Key) : Prop where
  issued : ∀ cell ∈ s.cells, ∀ child ∈ cell.children, LastingSlotTable.Issued s.table child
  older : ∀ cell ∈ s.cells, ∀ operand ∈ s.cells, operand.key ∈ cell.children →
    operand.serial < cell.serial

theorem founded_withCapacity (capacity : Nat) :
    Founded (withCapacity capacity : Slab Table Key) where
  issued := by simp [withCapacity]
  older := by simp [withCapacity]

theorem exists_forall₂ {α β : Type} {R : α → β → Prop} {xs : List α}
    (h : ∀ x ∈ xs, ∃ y, R x y) : ∃ ys, List.Forall₂ R xs ys := by
  induction xs with
  | nil => exact ⟨[], .nil⟩
  | cons x xs ih =>
    rw [List.forall_mem_cons] at h
    obtain ⟨y, hy⟩ := h.1
    obtain ⟨ys, hys⟩ := ih h.2
    exact ⟨y :: ys, .cons hy hys⟩

/-- Going down to operands comes to an end, as serial numbers become less. -/
theorem Founded.exists_unfolds (h : Founded s) (hsound : Sound capacity s) (key : Key) :
    ∃ tree, s.Unfolds key tree := by
  have hlive : ∀ serial, ∀ cell ∈ s.cells, cell.serial = serial → ∃ tree, s.Unfolds cell.key tree := by
    intro serial
    induction serial using Nat.strongRecOn with
    | ind serial ih =>
      rintro cell hcell rfl
      have hchildren : ∀ child ∈ cell.children, ∃ tree, s.Unfolds child tree := by
        intro child hchild
        obtain ⟨hstale, -⟩ | ⟨operand, hoperand, -, rfl⟩ := hsound.cell_eq child
        · exact ⟨_, .stale hstale⟩
        · exact ih _ (h.older cell hcell operand hoperand hchild) operand hoperand rfl
      obtain ⟨operands, hoperands⟩ := exists_forall₂ hchildren
      exact ⟨_, .live (hsound.cell_eq_of_mem hcell) hoperands⟩
  obtain ⟨hstale, -⟩ | ⟨cell, hcell, -, rfl⟩ := hsound.cell_eq key
  · exact ⟨_, .stale hstale⟩
  · exact hlive _ cell hcell rfl

/-! ## Requests that make no nodes -/

/-- A slab whose nodes are all nodes that an earlier slab has with the same operands. -/
structure Descends (s t : Slab Table Key) : Prop where
  issued : ∀ key : Key, LastingSlotTable.Issued s.table key → LastingSlotTable.Issued t.table key
  former : ∀ cell ∈ t.cells, ∃ old ∈ s.cells, old.key = cell.key ∧ old.children = cell.children ∧
    old.serial = cell.serial

theorem Descends.refl (s : Slab Table Key) : Descends s s where
  issued _ h := h
  former cell hcell := ⟨cell, hcell, rfl, rfl, rfl⟩

theorem Descends.trans (h : Descends s t) (h' : Descends t u) : Descends s u where
  issued key hkey := h'.issued key (h.issued key hkey)
  former cell hcell := by
    obtain ⟨later, hlater, hkey, hchildren, hserial⟩ := h'.former cell hcell
    obtain ⟨old, hold, hkey', hchildren', hserial'⟩ := h.former later hlater
    exact ⟨old, hold, hkey'.trans hkey, hchildren'.trans hchildren, hserial'.trans hserial⟩

theorem Founded.descends (h : Founded s) (hst : Descends s t) : Founded t where
  issued cell hcell child hchild := by
    obtain ⟨old, hold, -, hchildren, -⟩ := hst.former cell hcell
    exact hst.issued child (h.issued old hold child (hchildren ▸ hchild))
  older cell hcell operand hoperand hmem := by
    obtain ⟨old, hold, -, hchildren, hserial⟩ := hst.former cell hcell
    obtain ⟨old', hold', hkey', -, hserial'⟩ := hst.former operand hoperand
    rw [← hserial, ← hserial']
    exact h.older old hold old' hold' (by rwa [hkey', hchildren])

theorem Descends.foldlM {α : Type} {step : Slab Table Key → α → Option (Slab Table Key)}
    (hstep : ∀ {s t} a, step s a = some t → Descends s t) {items : List α}
    (h : items.foldlM step s = some t) : Descends s t := by
  induction items generalizing s with
  | nil =>
    cases h
    exact Descends.refl _
  | cons item items ih =>
    rw [List.foldlM_cons, Option.bind_eq_bind, Option.bind_eq_some_iff] at h
    obtain ⟨u, hu, ht⟩ := h
    exact (hstep item hu).trans (ih ht)

/-- A change to a node that leaves it what it is. -/
theorem descends_update {f : Cell Key → Cell Key} (h : s.update key f = some t)
    (hf : ∀ cell, (f cell).key = cell.key ∧ (f cell).children = cell.children ∧
      (f cell).serial = cell.serial) :
    Descends s t := by
  unfold update at h
  split at h
  · cases h
    exact Descends.refl s
  · split at h
    · cases h
      refine ⟨fun _ hkey => hkey, fun cell hcell => ?_⟩
      obtain ⟨index, hindex⟩ := List.mem_iff_getElem?.mp hcell
      rw [List.getElem?_modify] at hindex
      obtain ⟨old, hold, rfl⟩ := Option.map_eq_some_iff.mp hindex
      refine ⟨old, List.mem_of_getElem? hold, ?_⟩
      split
      · obtain ⟨hkey, hchildren, hserial⟩ := hf old
        exact ⟨hkey.symm, hchildren.symm, hserial.symm⟩
      · exact ⟨rfl, rfl, rfl⟩
    · cases h

theorem descends_attach (key : Key) (h : s.attach key = some t) : Descends s t :=
  descends_update h fun _ => ⟨rfl, rfl, rfl⟩

theorem descends_detach (key : Key) (h : s.detach key = some t) : Descends s t :=
  descends_update h fun _ => ⟨rfl, rfl, rfl⟩

theorem issued_reindex {table : Table} (index : Nat) (cells : List (Cell Key))
    (h : LastingSlotTable.Issued table key) :
    LastingSlotTable.Issued (reindex table index cells) key := by
  induction cells generalizing table index with
  | nil => exact h
  | cons cell cells ih => exact ih _ (LastingSlotTable.issued_replace _ _ h)

theorem descends_discard (cell : Cell Key) (h : s.discard cell = some t) : Descends s t := by
  unfold discard at h
  split at h
  · cases h
    exact ⟨fun _ => LastingSlotTable.issued_remove _, fun cell hcell => ⟨cell, hcell, rfl, rfl, rfl⟩⟩
  · cases h

/-- Leaving out nodes. -/
theorem descends_of_sublist {cells : List (Cell Key)} (h : cells.Sublist s.cells) :
    Descends s { s with cells } :=
  ⟨fun _ hkey => hkey, fun cell hcell => ⟨cell, h.subset hcell, rfl, rfl, rfl⟩⟩

theorem descends_freeAt {index : Nat} {children : List Key}
    (h : s.freeAt index = some (children, t)) : Descends s t := by
  simp only [freeAt, removeAt, Option.bind_eq_bind, Option.pure_def, Option.bind_assoc,
    Option.bind_some, Option.bind_eq_some_iff] at h
  obtain ⟨cell, -, v, hdiscard, w, hdetach, hresult⟩ := h
  cases hresult
  have hcells : s.cells = v.cells := by
    unfold discard at hdiscard
    split at hdiscard <;> cases hdiscard
    rfl
  refine (descends_discard cell hdiscard).trans (Descends.trans ⟨fun _ => issued_reindex _ _, ?_⟩
    (Descends.foldlM descends_detach hdetach))
  exact fun cell hcell => ⟨cell, hcells ▸ (List.eraseIdx_sublist _ _).subset hcell, rfl, rfl, rfl⟩

theorem descends_releaseAll {keys : List Key} (h : s.releaseAll keys = some t) : Descends s t := by
  fun_induction s.releaseAll keys with
  | case1 s =>
    cases h
    exact Descends.refl _
  | case2 s key rest hget ih => exact ih h
  | case3 => cases h
  | case4 => cases h
  | case5 s key rest index hget cell hcell hshared u hnext ih =>
    exact (descends_update hnext fun _ => ⟨rfl, rfl, rfl⟩).trans (ih h)
  | case6 => cases h
  | case7 s key rest index hget cell hcell hlast children u hfreed ih =>
    exact (descends_freeAt hfreed).trans (ih h)

theorem descends_release (key : Key) (h : s.release key = some t) : Descends s t :=
  descends_releaseAll h

theorem descends_orphan (key : Key) (h : s.orphan key = some t) : Descends s t := by
  unfold orphan at h
  split at h
  · cases h
    exact Descends.refl s
  · rw [Option.bind_eq_bind, Option.bind_eq_some_iff] at h
    obtain ⟨u, hdetach, hrelease⟩ := h
    exact (descends_detach key hdetach).trans (descends_release key hrelease)

theorem descends_dismantle {children : Option (List Key)}
    (h : s.dismantle key = some (children, t)) : Descends s t := by
  unfold dismantle at h
  split at h
  · cases h
    exact Descends.refl s
  · simp only [Option.bind_eq_bind, Option.pure_def, Option.bind_eq_some_iff] at h
    obtain ⟨cell, -, h⟩ := h
    split at h
    · cases h
      exact Descends.refl s
    · rw [Option.bind_eq_some_iff] at h
      obtain ⟨⟨freed, u⟩, hfreed, hresult⟩ := h
      cases hresult
      exact descends_freeAt hfreed

theorem descends_rollback {serial : Nat} (h : s.rollback serial = some t) : Descends s t := by
  simp only [rollback] at h
  split at h
  · cases h
    exact Descends.refl s
  · rw [Option.bind_eq_bind, Option.bind_eq_some_iff] at h
    obtain ⟨u, hdiscard, horphan⟩ := h
    exact (descends_of_sublist (List.take_sublist ..)).trans
      ((Descends.foldlM descends_discard hdiscard).trans (Descends.foldlM descends_orphan horphan))

/-! ## New nodes -/

/-- A new node is younger than its operands, and no operand of older nodes. -/
theorem Founded.push (h : Founded s) (hsound : Sound capacity s) {head : Expr} {children : List Key}
    (hchildren : ∀ child ∈ children, LastingSlotTable.Issued s.table child) :
    Founded (s.push head children).2 := by
  have hnew : ¬ LastingSlotTable.Issued s.table (s.push head children).1 :=
    LastingSlotTable.not_issued_insert s.table s.cells.length
  have hissued : ∀ key : Key, LastingSlotTable.Issued s.table key →
      LastingSlotTable.Issued (s.push head children).2.table key :=
    fun _ hkey => LastingSlotTable.issued_insert s.cells.length hkey
  have hcells : (s.push head children).2.cells = s.cells ++ [⟨head, children, 1, false,
    s.nextSerial, Node.chargeOf head children.length, (s.push head children).1⟩] := rfl
  constructor
  · simp only [hcells, List.forall_mem_append, List.forall_mem_singleton]
    exact ⟨fun cell hcell child hchild => hissued child (h.issued cell hcell child hchild),
      fun child hchild => hissued child (hchildren child hchild)⟩
  · simp only [hcells, List.forall_mem_append, List.forall_mem_singleton]
    exact ⟨fun cell hcell =>
        ⟨h.older cell hcell, fun hmem => absurd (h.issued cell hcell _ hmem) hnew⟩,
      fun cell hcell _ => hsound.issued cell hcell, fun hmem => absurd (hchildren _ hmem) hnew⟩

theorem Founded.allocate [DecidableEq Key] (h : Founded s) (hsound : Sound capacity s) {head : Expr}
    {children : List Key} (hchildren : ∀ child ∈ children, LastingSlotTable.Issued s.table child)
    {outcome : Except Shortage Key} (hallocate : s.allocate head children = some (outcome, t)) :
    Founded t := by
  by_cases hroom : Node.chargeOf head children.length ≤ capacity - s.used
  · obtain ⟨a, hattach, ha, -, -, -, heq⟩ := hsound.allocate_fits hroom
    cases heq.symm.trans hallocate
    have hdescends := Descends.foldlM descends_attach hattach
    exact (h.descends hdescends).push ha fun child hchild =>
      hdescends.issued child (hchildren child hchild)
  · cases (hsound.allocate_short (Nat.not_le.mp hroom)).symm.trans hallocate
    exact h

end Slab

end PocketAlgebra
