import PocketAlgebra.Proofs.Pool.Forest
import PocketAlgebra.Proofs.Pool.SlabCopy

/-!
# Copies are exact

Copying goes through the tree below a key and plants a copy of each node in the forest of nodes made
since. If the bytes that are charged for the tree are left, a single new tree stands in the end, which
is the one that was copied; otherwise the forest is felled, and the slab is as it was.
-/

namespace PocketAlgebra

namespace Slab

variable {Table Key : Type} [SlotTable Table Key] {capacity : Nat} {origin s t : Slab Table Key}
variable {key : Key} {tree : NodeTree} {trees : List NodeTree} {copies made : List Key}
variable {fresh : List (Cell Key)} {cells cells' : List (Cell Key)} {frames : List (Frame Key)}
variable {c d : Copying Table Key}

/-! ## Trees of new nodes -/

/-- A tree of which all nodes are there. -/
inductive Stands (cells : List (Cell Key)) : Key → NodeTree → Prop
  | node {cell : Cell Key} {operands : List NodeTree} (h : cell ∈ cells)
      (hoperands : List.Forall₂ (Stands cells) cell.children operands) :
      Stands cells cell.key (.node cell.head operands)

/-- Nodes are still there, with the heads and the operands that they had. -/
def Standing (cells cells' : List (Cell Key)) : Prop :=
  ∀ cell ∈ cells, ∃ other ∈ cells', other.key = cell.key ∧ other.head = cell.head ∧
    other.children = cell.children

theorem Standing.refl (cells : List (Cell Key)) : Standing cells cells :=
  fun cell hcell => ⟨cell, hcell, rfl, rfl, rfl⟩

theorem Standing.trans {cells'' : List (Cell Key)} (h : Standing cells cells')
    (h' : Standing cells' cells'') : Standing cells cells'' := by
  intro cell hcell
  obtain ⟨other, hother, hkey, hhead, hchildren⟩ := h cell hcell
  obtain ⟨last, hlast, hkey', hhead', hchildren'⟩ := h' other hother
  exact ⟨last, hlast, hkey'.trans hkey, hhead'.trans hhead, hchildren'.trans hchildren⟩

theorem standing_adopted [DecidableEq Key] (keys : List Key) (cells more : List (Cell Key)) :
    Standing cells (cells.map (Cell.adopted keys) ++ more) :=
  fun _ hcell => ⟨_, List.mem_append_left _ (List.mem_map_of_mem hcell), rfl, rfl, rfl⟩

theorem forall₂_of_mem {α β : Type} {R S : α → β → Prop} {xs : List α} {ys : List β}
    (h : List.Forall₂ R xs ys) (himp : ∀ y ∈ ys, ∀ x, R x y → S x y) : List.Forall₂ S xs ys := by
  induction h with
  | nil => exact .nil
  | cons hxy _ ih =>
    rw [List.forall_mem_cons] at himp
    exact .cons (himp.1 _ hxy) (ih himp.2)

theorem Stands.mono (h : Stands cells key tree) (hcells : Standing cells cells') :
    Stands cells' key tree := by
  induction tree using NodeTree.induction generalizing key with
  | hnode head operands ih =>
    cases h with
    | @node cell _ hcell hoperands =>
      obtain ⟨other, hother, hkey, hhead, hchildren⟩ := hcells cell hcell
      rw [← hkey, ← hhead]
      refine .node hother (hchildren ▸ forall₂_of_mem hoperands fun tree htree key hkey => ?_)
      exact ih tree htree hkey

/-- A tree of nodes of a slab is what lies below its key. -/
theorem Stands.unfolds (h : Stands cells key tree) (hs : Sound capacity s)
    (hcells : ∀ cell ∈ cells, cell ∈ s.cells) : s.Unfolds key tree := by
  induction tree using NodeTree.induction generalizing key with
  | hnode head operands ih =>
    cases h with
    | node hcell hoperands =>
      exact .live (hs.cell_eq_of_mem (hcells _ hcell))
        (forall₂_of_mem hoperands fun tree htree key hkey => ih tree htree hkey)

/-! ## What copying comes to -/

/-- A slab after a tree has been copied: behind all nodes as they were lie new ones, which make up the
same tree below the copy. Each of them is owned once, the copy from outside and all others by the
node that they are operands of. -/
structure CopiedTo (s : Slab Table Key) (tree : NodeTree) (copy : Key) (fresh : List (Cell Key))
    (t : Slab Table Key) : Prop where
  cells : t.cells = s.cells ++ fresh
  used : t.used = s.used + tree.charge
  size : fresh.length = tree.size
  tree : t.Unfolds copy tree
  new : ∀ cell ∈ fresh, SlotTable.get s.table cell.key = none
  single : ∀ cell ∈ fresh, cell.references = 1
  flagged : ∀ cell ∈ fresh, (cell.hasParent = true ↔ cell.key ≠ copy)
  owned : (fresh.map Cell.key).Perm (copy :: fresh.flatMap Cell.children)
  kept : ∀ key cell, s.cell key = some (some cell) → t.cell key = some (some cell)

/-- A slab with the nodes and the bytes in use that another one has. -/
structure Resembles (s t : Slab Table Key) : Prop where
  cells : t.cells = s.cells
  used : t.used = s.used
  cell : ∀ key, t.cell key = s.cell key

/-- A single tree lies below a key. It is copied if the bytes that are charged for it are left, and
otherwise an error leaves everything as it was. -/
def CopiesExactly (s : Slab Table Key) (key : Key) : Prop :=
  ∃ tree, s.Unfolds key tree ∧ (∀ other, s.Unfolds key other → other = tree) ∧
    (tree.charge ≤ s.capacity - s.used → ∃ count copy fresh t,
      (∀ more, s.deepCopy key (count + more) = some (some (.ok copy, t))) ∧
        s.CopiedTo tree copy fresh t) ∧
    (s.capacity - s.used < tree.charge → ∃ count shortage t,
      (∀ more, s.deepCopy key (count + more) = some (some (.error shortage, t))) ∧ s.Resembles t)

variable [LastingSlotTable Table Key]

/-- The first nodes stay as they are. -/
theorem Forest.kept (h : Forest capacity s t copies fresh) (hs : Sound capacity s)
    {cell : Cell Key} (hcell : s.cell key = some (some cell)) : t.cell key = some (some cell) := by
  obtain ⟨hstale, -⟩ | ⟨original, hmem, horiginal, rfl⟩ := hs.cell_eq key
  · cases hstale.symm.trans hcell
  · rw [h.cell_eq hs (hs.issued_key hmem), hcell]

theorem Forest.resembles (h : Forest capacity s t [] []) (hs : Sound capacity s) :
    s.Resembles t := by
  have hcells : t.cells = s.cells := h.cells.trans (List.append_nil _)
  refine ⟨hcells, by rw [h.sound.used_eq, hs.used_eq, hcells], fun key => ?_⟩
  obtain ⟨hstale, hget⟩ | ⟨cell, -, hlive, -⟩ := hs.cell_eq key
  · obtain ⟨hstale', -⟩ | ⟨cell, hcell, -, rfl⟩ := h.sound.cell_eq key
    · rw [hstale, hstale']
    · exact absurd rfl (hs.not_mem_of_get hget cell (hcells ▸ hcell))
  · rw [hlive, h.kept hs hlive]

theorem Forest.copiedTo {copy : Key} (h : Forest capacity s t [copy] fresh) (hs : Sound capacity s)
    (htree : Stands fresh copy tree) (hused : t.used = s.used + tree.charge)
    (hsize : fresh.length = tree.size) : s.CopiedTo tree copy fresh t where
  cells := h.cells
  used := hused
  size := hsize
  tree := htree.unfolds h.sound fun _ => h.mem_cells
  new cell hcell := by
    cases hget : SlotTable.get s.table cell.key with
    | none => rfl
    | some index => exact absurd (LastingSlotTable.issued_of_get hget) (h.new cell hcell)
  single := h.single
  flagged cell hcell := by rw [h.flagged cell hcell, List.mem_singleton]
  owned := h.owned
  kept _ _ hcell := h.kept hs hcell

/-- New nodes only have operands among themselves. -/
theorem Forest.founded (h : Forest capacity s t copies fresh) (hs : Sound capacity s)
    (hfounded : Founded s) : Founded t := by
  constructor
  · simp only [h.cells, List.forall_mem_append]
    refine ⟨fun cell hcell child hchild => h.issued child (hfounded.issued cell hcell child hchild),
      fun cell hcell child hchild => ?_⟩
    obtain ⟨operand, hoperand, rfl⟩ := h.exists_operand hcell hchild
    exact h.sound.issued_key (h.mem_cells hoperand)
  · simp only [h.cells, List.forall_mem_append]
    refine ⟨fun cell hcell => ⟨hfounded.older cell hcell, fun operand hoperand hmem => ?_⟩,
      fun cell hcell => ⟨fun operand hoperand hmem => ?_, h.older cell hcell⟩⟩
    · exact absurd (hfounded.issued cell hcell _ hmem) (h.new operand hoperand)
    · obtain ⟨other, hother, hkey⟩ := h.exists_operand hcell hmem
      exact absurd (hkey ▸ hs.issued_key hoperand) (h.new other hother)

/-! ## Copying trees -/

/-- Copying ends without room for a node, and leaves no new nodes. -/
def Drops (capacity : Nat) (origin : Slab Table Key) (c : Copying Table Key) : Prop :=
  ∃ count shortage t, turns c count = some (some (.error shortage, t)) ∧
    Forest capacity origin t [] []

theorem Drops.of_leads (h : Leads c d) (h' : Drops capacity origin d) :
    Drops capacity origin c := by
  obtain ⟨count, hcount⟩ := h
  obtain ⟨more, shortage, t, hturns, hforest⟩ := h'
  exact ⟨count + more, shortage, t, (hcount more).trans hturns, hforest⟩

/-- Copying leads to where the copies of several trees have been planted behind others, with so many
bytes for so many nodes. -/
def Plants (capacity : Nat) (origin s : Slab Table Key) (fresh : List (Cell Key))
    (copies : List Key) (frames : List (Frame Key)) (trees : List NodeTree) (charge size : Nat)
    (c : Copying Table Key) : Prop :=
  ∃ t made grown, Leads c ⟨t, frames, copies ++ made⟩ ∧
    Forest capacity origin t (copies ++ made) grown ∧ Standing fresh grown ∧
    List.Forall₂ (Stands grown) made trees ∧
    t.used = s.used + charge ∧ grown.length = fresh.length + size

/-- Whether copies are planted depends on whether the bytes for them are left. -/
structure PlantsOrDrops (capacity : Nat) (origin s : Slab Table Key) (fresh : List (Cell Key))
    (copies : List Key) (frames : List (Frame Key)) (trees : List NodeTree) (charge size : Nat)
    (c : Copying Table Key) : Prop where
  plants : s.used + charge ≤ capacity →
    Plants capacity origin s fresh copies frames trees charge size c
  drops : capacity < s.used + charge → Drops capacity origin c

namespace PlantsOrDrops

variable {later : List (Frame Key)} {trees' : List NodeTree} {charge charge' size size' : Nat}

theorem of_leads (h : Leads c d)
    (h' : PlantsOrDrops capacity origin s fresh copies frames trees charge size d) :
    PlantsOrDrops capacity origin s fresh copies frames trees charge size c where
  plants hroom := by
    obtain ⟨t, made, grown, hleads, hrest⟩ := h'.plants hroom
    exact ⟨t, made, grown, h.trans hleads, hrest⟩
  drops hshort := (h'.drops hshort).of_leads h

/-- What is done with the copies of some trees when they have been planted. -/
theorem bind (h : PlantsOrDrops capacity origin s fresh copies later trees charge size c)
    (hmore : ∀ {t made grown}, Forest capacity origin t (copies ++ made) grown →
      List.Forall₂ (Stands grown) made trees →
      PlantsOrDrops capacity origin t grown copies frames trees' charge' size'
        ⟨t, later, copies ++ made⟩) :
    PlantsOrDrops capacity origin s fresh copies frames trees' (charge + charge') (size + size')
      c := by
  by_cases hfirst : s.used + charge ≤ capacity
  · obtain ⟨t, made, grown, hleads, hforest, hstanding, htrees, hused, hlength⟩ := h.plants hfirst
    have hrest := (hmore hforest htrees).of_leads hleads
    refine ⟨fun hroom => ?_, fun hshort => hrest.drops (by omega)⟩
    obtain ⟨u, others, grown', hleads', hforest', hstanding', htrees', hused', hlength'⟩ :=
      hrest.plants (by omega)
    exact ⟨u, others, grown', hleads', hforest', hstanding.trans hstanding', htrees', by omega,
      by omega⟩
  · exact ⟨fun hroom => by omega, fun _ => h.drops (by omega)⟩

/-- The copy behind which others are planted counts among them. -/
theorem behind {copy : Key} (hcopy : Stands fresh copy tree)
    (h : PlantsOrDrops capacity origin s fresh (copies ++ [copy]) frames trees charge size c) :
    PlantsOrDrops capacity origin s fresh copies frames (tree :: trees) charge size c where
  plants hroom := by
    obtain ⟨t, made, grown, hleads, hforest, hstanding, htrees, hrest⟩ := h.plants hroom
    rw [List.append_assoc] at hleads hforest
    exact ⟨t, copy :: made, grown, hleads, hforest, hstanding, .cons (hcopy.mono hstanding) htrees,
      hrest⟩
  drops := h.drops

end PlantsOrDrops

/-- Copies of a tree are made wherever its original is found. -/
def Copies (capacity : Nat) (origin : Slab Table Key) (tree : NodeTree) : Prop :=
  ∀ {s : Slab Table Key} {fresh : List (Cell Key)} {copies : List Key} {key : Key}
    (frames : List (Frame Key)), Forest capacity origin s copies fresh →
    s.cell key = origin.cell key → origin.Unfolds key tree →
    PlantsOrDrops capacity origin s fresh copies frames [tree] tree.charge tree.size
      ⟨s, .enter key :: frames, copies⟩

/-- The trees of several keys, one after the other. -/
theorem plantsOrDrops_all (horigin : Sound capacity origin) (frames : List (Frame Key))
    {keys : List Key} (htrees : ∀ tree ∈ trees, Copies capacity origin tree)
    (h : Forest capacity origin s copies fresh)
    (hissued : ∀ key ∈ keys, LastingSlotTable.Issued origin.table key)
    (hunfolds : List.Forall₂ origin.Unfolds keys trees) :
    PlantsOrDrops capacity origin s fresh copies frames trees (NodeTree.chargeAll trees)
      (NodeTree.sizeAll trees) ⟨s, keys.map .enter ++ frames, copies⟩ := by
  induction hunfolds generalizing s copies fresh with
  | nil =>
    have hused := h.sound.used_le
    refine ⟨fun _ => ⟨s, [], fresh, ⟨0, fun more => by simp⟩, by simpa using h, Standing.refl fresh,
      .nil, rfl, rfl⟩, fun hshort => ?_⟩
    rw [NodeTree.chargeAll] at hshort
    omega
  | cons hunfolds hrest ih =>
    rw [List.forall_mem_cons] at htrees hissued
    refine (htrees.1 _ h (h.cell_eq horigin hissued.1) hunfolds).bind fun hforest htree => ?_
    obtain ⟨copy, rfl⟩ := List.length_eq_one_iff.mp htree.length_eq
    exact (ih htrees.2 hforest hissued.2).behind (List.forall₂_cons.mp htree).1

variable [DecidableEq Key] [LawfulSlotTable Table Key]

/-- The copy of a node, when those of its operands have been planted. -/
theorem plantsOrDrops_exit (horigin : Sound capacity origin) (frames : List (Frame Key))
    {original : Option (Cell Key)} {head : Expr} (h : Forest capacity origin s (copies ++ made) fresh)
    (htrees : List.Forall₂ (Stands fresh) made trees) (hcell : s.cell key = some original)
    (hhead : (original.map Cell.head).getD .undefined = head)
    (harity : ((original.map Cell.children).getD []).length = trees.length) :
    PlantsOrDrops capacity origin s fresh copies frames [.node head trees]
      (Node.chargeOf head trees.length) 1 ⟨s, .exit key :: frames, copies ++ made⟩ := by
  have hplace : (copies ++ made).length - made.length = copies.length := by
    rw [List.length_append, Nat.add_sub_cancel]
  have hfits : ¬ (copies ++ made).length < made.length := by
    rw [List.length_append]
    omega
  rw [← htrees.length_eq] at harity ⊢
  refine ⟨fun hroom => ?_, fun hshort => ?_⟩
  · obtain ⟨node, t, hassemble, rfl, rfl, hused, hforest⟩ := h.assemble horigin hroom
    have hstanding := standing_adopted node.children fresh [node]
    have htree : Stands (fresh.map (Cell.adopted node.children) ++ [node]) node.key
        (.node node.head trees) :=
      .node (List.mem_append_right _ (List.mem_singleton_self node))
        (forall₂_of_mem htrees fun _ _ _ hkey => Stands.mono hkey hstanding)
    refine ⟨t, [node.key], _, Leads.of_turn ?_, hforest, hstanding, .cons htree .nil, hused, by simp⟩
    simp only [turn, hcell, hhead, harity, if_neg hfits, hplace, List.take_left, List.drop_left,
      hassemble, Option.bind_eq_bind, Option.bind_some, Option.pure_def]
  · obtain ⟨shortage, t, hassemble, hforest⟩ := h.assemble_short horigin hshort
    refine ⟨1, shortage, t, ?_, hforest⟩
    rw [turns, turn]
    simp only [hcell, hhead, harity, if_neg hfits, hplace, List.take_left, List.drop_left, hassemble,
      Option.bind_eq_bind, Option.bind_some, Option.pure_def]

/-- Copying one tree. -/
theorem copies_tree (horigin : Sound capacity origin) (hfounded : Founded origin)
    (tree : NodeTree) : Copies capacity origin tree := by
  induction tree using NodeTree.induction with
  | hnode head operands ih =>
    intro s fresh copies key frames h hsame hunfolds
    cases hunfolds with
    | stale hcell =>
      -- Nothing is planted in between, so that the key is stale for the second time as well.
      rw [← hsame] at hcell
      have hforest : Forest capacity origin s (copies ++ []) fresh := by rwa [List.append_nil]
      have hexit := plantsOrDrops_exit horigin frames hforest .nil hcell rfl rfl
      rw [List.append_nil] at hexit
      simpa [NodeTree.charge, NodeTree.chargeAll, NodeTree.size, NodeTree.sizeAll] using
        hexit.of_leads (leads_enter hcell)
    | live hcell hoperands =>
      obtain ⟨hstale, -⟩ | ⟨original, hmem, horiginal, rfl⟩ := horigin.cell_eq key
      · cases hstale.symm.trans hcell
      cases horiginal.symm.trans hcell
      refine PlantsOrDrops.of_leads (leads_enter (hsame.trans hcell)) ?_
      exact (plantsOrDrops_all horigin _ ih h (hfounded.issued _ hmem) hoperands).bind
        fun hforest htrees => plantsOrDrops_exit horigin frames hforest htrees
          ((hforest.cell_eq horigin (horigin.issued_key hmem)).trans hcell) rfl hoperands.length_eq

theorem Founded.copiesExactly (h : Founded s) (hs : Sound capacity s) (key : Key) :
    s.CopiesExactly key := by
  obtain ⟨tree, htree⟩ := h.exists_unfolds hs key
  have hcopies := copies_tree hs h tree [] (Forest.start hs) rfl htree
  have hcapacity := hs.capacity_eq
  have hused := hs.used_le
  refine ⟨tree, htree, fun other hother => hother.unique htree, fun hroom => ?_, fun hshort => ?_⟩
  · obtain ⟨t, made, grown, ⟨count, hcount⟩, hforest, -, hstands, hcharge, hsize⟩ :=
      hcopies.plants (by omega)
    obtain ⟨copy, rfl⟩ := List.length_eq_one_iff.mp hstands.length_eq
    have hdone : s.deepCopy key (count + 1) = some (some (.ok copy, t)) := hcount 1
    refine ⟨count + 1, copy, grown, t, turns_more hdone, hforest.copiedTo hs ?_ hcharge ?_⟩
    · exact (List.forall₂_cons.mp hstands).1
    · simpa using hsize
  · obtain ⟨count, shortage, t, hturns, hforest⟩ := hcopies.drops (by omega)
    exact ⟨count, shortage, t, turns_more hturns, hforest.resembles hs⟩

/-! ## Requests -/

theorem Founded.deepCopy (h : Founded s) (hs : Sound capacity s) {count : Nat}
    {outcome : Except Shortage Key} (hcopy : s.deepCopy key count = some (some (outcome, t))) :
    Founded t := by
  obtain ⟨tree, htree⟩ := h.exists_unfolds hs key
  have hcopies := copies_tree hs h tree [] (Forest.start hs) rfl htree
  -- A run that is long enough, and the given one, have the same end.
  have hsame : ∀ {enough : Nat} {result : Except Shortage Key × Slab Table Key},
      s.deepCopy key enough = some (some result) → result = (outcome, t) := by
    intro enough result henough
    have hleft := turns_more henough count
    have hright := turns_more hcopy enough
    rw [Nat.add_comm, hleft] at hright
    simpa using hright
  rcases Nat.lt_or_ge capacity (s.used + tree.charge) with hshort | hroom
  · obtain ⟨enough, shortage, u, hturns, hforest⟩ := hcopies.drops hshort
    cases hsame hturns
    exact hforest.founded hs h
  · obtain ⟨u, made, grown, ⟨enough, hcount⟩, hforest, -, hstands, -, -⟩ := hcopies.plants hroom
    obtain ⟨copy, rfl⟩ := List.length_eq_one_iff.mp hstands.length_eq
    have hdone : s.deepCopy key (enough + 1) = some (some (.ok copy, u)) := hcount 1
    cases hsame hdone
    exact hforest.founded hs h

theorem Founded.perform (h : Founded s) (hs : Sound capacity s) {request : Request Key} {count : Nat}
    (hissued : request.Issued s) (hperform : s.perform count request = some (some t)) :
    Founded t := by
  cases request with
  | allocate head children =>
    obtain ⟨⟨outcome, u⟩, hallocate, hresult⟩ := Option.map_eq_some_iff.mp hperform
    cases hresult
    exact h.allocate hs hissued hallocate
  | retain key =>
    obtain ⟨u, hretain, hresult⟩ := Option.map_eq_some_iff.mp hperform
    cases hresult
    exact h.descends (descends_update hretain fun _ => ⟨rfl, rfl, rfl⟩)
  | release key =>
    obtain ⟨u, hrelease, hresult⟩ := Option.map_eq_some_iff.mp hperform
    cases hresult
    exact h.descends (descends_release key hrelease)
  | dismantle key =>
    obtain ⟨⟨children, u⟩, hdismantle, hresult⟩ := Option.map_eq_some_iff.mp hperform
    cases hresult
    exact h.descends (descends_dismantle hdismantle)
  | deepCopy key =>
    obtain ⟨result, hcopy, hresult⟩ := Option.map_eq_some_iff.mp hperform
    obtain ⟨⟨outcome, u⟩, rfl, rfl⟩ := Option.map_eq_some_iff.mp hresult
    exact h.deepCopy hs hcopy
  | rollback serial =>
    obtain ⟨u, hrollback, hresult⟩ := Option.map_eq_some_iff.mp hperform
    cases hresult
    exact h.descends (descends_rollback hrollback)

/-- Any number of requests. -/
theorem sound_founded_of_made (h : Made capacity s) : Sound capacity s ∧ Founded s := by
  induction h with
  | refl => exact ⟨sound_withCapacity capacity, founded_withCapacity capacity⟩
  | tail _ hmoves ih =>
    obtain ⟨request, count, hissued, hperform⟩ := hmoves
    obtain ⟨result, hresult, hsound⟩ := ih.1.perform count request
    rw [hperform, Option.some_inj] at hresult
    exact ⟨hsound _ hresult.symm, ih.2.perform ih.1 hissued hperform⟩

/-- The operands of a node in a pool that keeps the books are older than the node. -/
theorem Represents.founded {l : Slab Ledger Nat} {p : Pool} {handles : List Nat}
    (h : Represents capacity l p) (hp : Pool.Balanced p [] handles) : Founded l where
  issued cell hcell child hchild := by
    have hmem := h.mem_nodes.mpr ⟨cell, hcell, rfl⟩
    have hless := hp.lesser _ hmem child hchild
    have hkey := hp.node_lt_nextKey hmem
    rw [cell.key_node] at hless hkey
    show child < l.table.issued
    rw [h.issued, ← h.nextKey]
    omega
  older cell hcell operand hoperand hmem := by
    rw [h.serial cell hcell, h.serial operand hoperand]
    exact hp.lesser _ (h.mem_nodes.mpr ⟨cell, hcell, rfl⟩) _ hmem

/-- In every slab to which requests have led, and below every key, stale or not, copying is exact and
all or nothing. This goes for what a program has done with its pool as well: a slab represents the
pool, and the copying has the outcome that it has there. -/
theorem copies_exactly {identity : Nat} {w : World} (h : Made capacity s)
    (hrun : World.Run (World.start capacity identity) w) :
    (∀ key : Key, s.CopiesExactly key) ∧
    ∃ l : Slab Ledger Nat, Represents capacity l w.pool ∧ ∀ key, l.CopiesExactly key ∧
      ∃ count t, l.deepCopy key count = some (some ((w.pool.copying key).1, t)) ∧
        Represents capacity t (w.pool.copying key).2 := by
  obtain ⟨hsound, hfounded⟩ := sound_founded_of_made h
  refine ⟨hfounded.copiesExactly hsound, ?_⟩
  obtain ⟨l, -, hl⟩ := World.run_lies hrun
  have howned := (World.run_owned (World.start_owned capacity identity) hrun).1
  exact ⟨l, hl, fun key => ⟨(hl.founded howned).copiesExactly hl.sound key, hl.deepCopy howned key⟩⟩

/-- A list of two operands whose nodes have been freed, in the slot of their node. -/
def bereft : Slab SlotMap SlotKey :=
  let operand := (withCapacity 100).push (.symbol "x") []
  let freed := operand.2.without [] ⟨.symbol "x", [], 1, false, 0, 18, operand.1⟩ []
  (freed.push (.apply .list []) [operand.1, operand.1]).2

theorem made_bereft : Made 100 bereft :=
  .tail (.tail (.single ⟨.allocate (.symbol "x") [], 0, by simp [Request.Issued], rfl⟩)
    ⟨.dismantle ⟨0, 0⟩, 0, trivial, rfl⟩)
    ⟨.allocate (.apply .list []) [⟨0, 0⟩, ⟨0, 0⟩], 0,
      by simp [Request.Issued, LastingSlotTable.Issued]; decide, rfl⟩

/-- Stale operands are copied as undefined leaves. -/
theorem copies_exactly_bereft :
    Made 100 bereft ∧ World.Run (World.start 100 0) (World.start 100 0) ∧
      ∃ count copy fresh t, (∀ more, bereft.deepCopy ⟨0, 1⟩ (count + more) = some (some (.ok copy, t))) ∧
        bereft.CopiedTo
          (.node (.apply .list []) [.node .undefined [], .node .undefined []]) copy fresh t := by
  have hrun : World.Run (World.start 100 0) (World.start 100 0) := .refl
  obtain ⟨tree, htree, hunique, hfits, -⟩ := (copies_exactly made_bereft hrun).1 ⟨0, 1⟩
  have hcell : bereft.cell ⟨0, 1⟩ =
      some (some ⟨.apply .list [], [⟨0, 0⟩, ⟨0, 0⟩], 1, false, 1, 24, ⟨0, 1⟩⟩) := rfl
  have hlist : bereft.Unfolds ⟨0, 1⟩
      (.node (.apply .list []) [.node .undefined [], .node .undefined []]) :=
    .live hcell (.cons (.stale rfl) (.cons (.stale rfl) .nil))
  obtain rfl := hunique _ hlist
  exact ⟨made_bereft, hrun, hfits (by decide)⟩

end Slab

end PocketAlgebra
