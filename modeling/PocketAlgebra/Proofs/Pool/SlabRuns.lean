import PocketAlgebra.Pool.SlotMap
import PocketAlgebra.Proofs.Pool.Slab

/-!
# Requests to slabs

Every request to a consistent slab has an outcome, which is a consistent slab again. For copying
this is so after every turn: the copies that are at hand are enough for all nodes whose copies are
still to be made, because what is copied stays in the slab in the meantime.
-/

namespace PocketAlgebra

namespace Slab

variable {Table Key : Type} {capacity : Nat} {s t : Slab Table Key} {key : Key}

/-! ## Copying -/

/-- So many copies are enough for what is left to do, and a single one will be left. -/
def Enough (s : Slab Table Key) : List (Frame Key) → Nat → Prop
  | [], count => count = 1
  | .enter _ :: frames, count => Enough s frames (count + 1)
  | .exit key :: frames, count => ∃ cell ∈ s.cells, cell.key = key ∧
      cell.children.length ≤ count ∧ Enough s frames (count - cell.children.length + 1)

theorem Enough.stays {frames : List (Frame Key)} {count : Nat} (h : Enough s frames count)
    (hstays : Stays s t) : Enough t frames count := by
  induction frames generalizing count with
  | nil => exact h
  | cons frame frames ih =>
      cases frame with
      | enter key => exact ih h
      | exit key =>
          obtain ⟨cell, hcell, rfl, hle, hrest⟩ := h
          obtain ⟨other, hother, hkey, hchildren⟩ := hstays cell hcell
          exact ⟨other, hother, hkey, hchildren ▸ hle, hchildren ▸ ih hrest⟩

theorem enough_enter_append (keys : List Key) {frames : List (Frame Key)} {count : Nat}
    (h : Enough s frames (count + keys.length)) :
    Enough s (keys.map .enter ++ frames) count := by
  induction keys generalizing count with
  | nil => exact h
  | cons key keys ih =>
      show Enough s (keys.map .enter ++ frames) (count + 1)
      apply ih
      rw [List.length_cons] at h
      rwa [Nat.add_right_comm]

variable [SlotTable Table Key]

/-- What is being copied, with enough copies that are all in the slab. The copy of a stale key is
made right after coming to it. -/
structure Copying.Sound (capacity : Nat) (c : Copying Table Key) : Prop where
  slab : c.slab.Sound capacity
  live : ∀ key ∈ c.copies, ∃ cell ∈ c.slab.cells, cell.key = key
  enough : Enough c.slab c.frames c.copies.length ∨
    ∃ key frames, c.frames = .exit key :: frames ∧ SlotTable.get c.slab.table key = none ∧
      Enough c.slab frames (c.copies.length + 1)

theorem Sound.cell_eq (h : Sound capacity s) (key : Key) :
    s.cell key = some none ∧ SlotTable.get s.table key = none ∨
      ∃ cell ∈ s.cells, s.cell key = some (some cell) ∧ cell.key = key := by
  unfold cell
  cases hget : SlotTable.get s.table key with
  | none => exact .inl ⟨rfl, rfl⟩
  | some index =>
      obtain ⟨cell, hcell, hkey⟩ := h.node_of_get hget
      exact .inr ⟨cell, List.mem_of_getElem? hcell, by simp only [hcell, Option.map_some], hkey⟩

theorem Sound.cell_eq_of_mem (h : Sound capacity s) {cell : Cell Key} (hcell : cell ∈ s.cells) :
    s.cell cell.key = some (some cell) := by
  obtain ⟨-, hget⟩ | ⟨other, hother, heq, hkey⟩ := h.cell_eq cell.key
  · exact absurd rfl (h.not_mem_of_get hget cell hcell)
  · rw [heq, h.eq_of_key_eq hother hcell hkey]

/-- Going down to the operands of a node. -/
theorem Copying.Sound.turn_enter {c : Copying Table Key} {frames : List (Frame Key)}
    (h : c.Sound capacity) (hframes : c.frames = .enter key :: frames) :
    ∃ d, turn c = some (.inl d) ∧ d.Sound capacity := by
  obtain ⟨slab, _, copies⟩ := c
  cases hframes
  have henough : Enough slab frames (copies.length + 1) := by
    obtain henough | ⟨_, _, hexit, -⟩ := h.enough
    · exact henough
    · cases hexit
  obtain ⟨hcell, hget⟩ | ⟨cell, hmem, hcell, hkey⟩ := h.slab.cell_eq key
  · refine ⟨⟨slab, .exit key :: frames, copies⟩, ?_, h.slab, h.live,
      .inr ⟨_, _, rfl, hget, henough⟩⟩
    simp [turn, hcell]
  · refine ⟨⟨slab, cell.children.map .enter ++ .exit key :: frames, copies⟩, ?_, h.slab, h.live,
      .inl (enough_enter_append _ ?_)⟩
    · simp [turn, hcell]
    · refine ⟨cell, hmem, hkey, Nat.le_add_left .., ?_⟩
      rwa [Nat.add_sub_cancel]

variable [DecidableEq Key]

theorem Sound.release_shared (h : Sound capacity s)
    (hshared : ∀ cell ∈ s.cells, cell.key = key → 1 < cell.references) :
    s.release key =
      some (s.adjust key fun cell => { cell with references := cell.references - 1 }) := by
  have hdecrement : s.decrement key = _ := h.update_eq key _
  cases hget : SlotTable.get s.table key with
  | none =>
      rw [Slab.release, releaseAll_stale hget, releaseAll_nil, ← hdecrement, Slab.decrement, update,
        hget]
  | some index =>
      obtain ⟨cell, hcell, hkey⟩ := h.node_of_get hget
      have hrefs := hshared cell (List.mem_of_getElem? hcell) hkey
      rw [Slab.release, releaseAll_shared hget hcell hrefs, hdecrement, Option.bind_some,
        releaseAll_nil]

variable [LawfulSlotTable Table Key]

/-- Nodes that have more references than are taken off them are not freed. -/
theorem Sound.releaseEach_shared (h : Sound capacity s) (keys : List Key)
    (hshared : ∀ cell ∈ s.cells, keys.count cell.key < cell.references) :
    ∃ t, keys.foldlM Slab.release s = some t ∧ Sound capacity t ∧ Stays s t := by
  induction keys generalizing s with
  | nil => exact ⟨s, rfl, h, Stays.refl s⟩
  | cons key keys ih =>
      have hone : ∀ cell ∈ s.cells, cell.key = key → 1 < cell.references := by
        rintro cell hcell rfl
        have hlt := hshared cell hcell
        rw [List.count_cons_self] at hlt
        omega
      have hrelease := h.release_shared hone
      obtain ⟨t, ht, hsound⟩ := h.release key
      rw [hrelease, Option.some_inj] at ht
      have hrest : ∀ cell ∈ t.cells, keys.count cell.key < cell.references := by
        subst ht
        intro cell hcell
        obtain ⟨old, hold, rfl⟩ := List.mem_map.mp hcell
        have hlt := hshared old hold
        rw [List.count_cons] at hlt
        by_cases hkey : old.key = key
        · simp only [hkey, if_true, beq_self_eq_true] at hlt ⊢
          omega
        · simp only [if_neg hkey]
          omega
      obtain ⟨u, hu, hsound', hstays⟩ := ih hsound hrest
      refine ⟨u, ?_, hsound', Stays.trans (ht ▸ stays_adjust (fun _ => rfl) fun _ => rfl) hstays⟩
      rw [List.foldlM_cons, hrelease, ht]
      exact hu

/-- The copy of a node over those of its operands, where there is room for it. -/
theorem Sound.assemble_fits (h : Sound capacity s) {head : Expr} (others : List Key)
    {children : List Key}
    (hlive : ∀ key ∈ children, ∃ cell ∈ s.cells, cell.key = key)
    (hroom : Node.chargeOf head children.length ≤ capacity - s.used) :
    ∃ copy t, s.assemble head others children = some (.ok (others ++ [copy]), t) ∧
      Sound capacity t ∧ Stays s t ∧ ∃ cell ∈ t.cells, cell.key = copy := by
  obtain ⟨a, -, ha, hused, hstays, hcount, heq⟩ := h.allocate_fits hroom
  have hsound := ha.push (hused ▸ hroom)
  have hnew : (a.push head children).1 ∉ children := by
    intro hmem
    obtain ⟨cell, hcell, hkey⟩ := hlive _ hmem
    obtain ⟨other, hother, hkey', -⟩ := hstays cell hcell
    apply ha.indexed.insert_notMem a.cells.length
    rw [show (SlotTable.insert a.table a.cells.length).1 = other.key from (hkey'.trans hkey).symm]
    exact List.mem_map_of_mem hother
  have hshared : ∀ cell ∈ (a.push head children).2.cells,
      children.count cell.key < cell.references := by
    intro cell hcell
    obtain hcell | hcell := List.mem_append.mp hcell
    · exact hcount cell hcell
    · rw [List.mem_singleton.mp hcell]
      exact Nat.lt_of_le_of_lt (Nat.le_of_eq (List.count_eq_zero.mpr hnew)) Nat.one_pos
  obtain ⟨u, hu, hsound', hstays'⟩ := hsound.releaseEach_shared children hshared
  have hpush : Stays a (a.push head children).2 := fun cell hcell =>
    ⟨cell, List.mem_append_left _ hcell, rfl, rfl⟩
  obtain ⟨cell, hcell, hkey, -⟩ :=
    hstays' _ (List.mem_append_right a.cells (List.mem_singleton_self _))
  refine ⟨_, u, ?_, hsound', hstays.trans (hpush.trans hstays'), cell, hcell, hkey⟩
  simp only [assemble, heq, hu, Option.bind_eq_bind, Option.bind_some, Option.pure_def]
  rfl

theorem Sound.assemble_short (h : Sound capacity s) {head : Expr} (others : List Key)
    {children : List Key}
    (hshort : capacity - s.used < Node.chargeOf head children.length) :
    ∃ shortage t, s.assemble head others children = some (.error shortage, t) ∧
      Sound capacity t := by
  obtain ⟨t, ht, hsound⟩ := foldlM_keeps (fun key h => h.release key) children h
  obtain ⟨u, hu, hsound'⟩ := foldlM_keeps (fun key h => h.release key) others hsound
  refine ⟨⟨Node.chargeOf head children.length, capacity - s.used⟩, u, ?_, hsound'⟩
  simp only [assemble, h.allocate_short hshort, ht, hu, Option.bind_eq_bind, Option.bind_some,
    Option.pure_def]

/-- Making the copy of a node over those of its operands. -/
theorem Copying.Sound.turn_exit {c : Copying Table Key} {frames : List (Frame Key)}
    (h : c.Sound capacity) (hframes : c.frames = .exit key :: frames) :
    (∃ d, turn c = some (.inl d) ∧ d.Sound capacity) ∨
      ∃ outcome t, turn c = some (.inr (outcome, t)) ∧ t.Sound capacity := by
  obtain ⟨slab, _, copies⟩ := c
  cases hframes
  obtain ⟨original, hcell, hle, hrest⟩ : ∃ original, slab.cell key = some original ∧
      ((original.map Cell.children).getD []).length ≤ copies.length ∧
      Enough slab frames (copies.length - ((original.map Cell.children).getD []).length + 1) := by
    obtain ⟨cell, hmem, rfl, hle, hrest⟩ | ⟨_, _, hexit, hget, hrest⟩ := h.enough
    · exact ⟨some cell, h.slab.cell_eq_of_mem hmem, hle, hrest⟩
    · cases hexit
      refine ⟨none, ?_, Nat.zero_le _, hrest⟩
      rw [cell, hget]
  generalize harity : ((original.map Cell.children).getD []).length = arity at hle hrest
  have hchildren : ∀ key ∈ copies.drop (copies.length - arity), ∃ cell ∈ slab.cells,
      cell.key = key := fun key hkey => h.live key (List.mem_of_mem_drop hkey)
  have hothers : ∀ key ∈ copies.take (copies.length - arity), ∃ cell ∈ slab.cells,
      cell.key = key := fun key hkey => h.live key (List.mem_of_mem_take hkey)
  generalize hhead : (original.map Cell.head).getD .undefined = head
  have hfits := Nat.not_lt.mpr hle
  have hslab : Slab.Sound capacity slab := h.slab
  by_cases hroom : Node.chargeOf head (copies.drop (copies.length - arity)).length ≤
      capacity - slab.used
  · left
    obtain ⟨copy, t, hassemble, hsound, hstays, hcopy⟩ :=
      hslab.assemble_fits (copies.take (copies.length - arity)) hchildren hroom
    refine ⟨⟨t, frames, copies.take (copies.length - arity) ++ [copy]⟩, ?_, hsound, ?_, .inl ?_⟩
    · simp only [turn, hcell, harity, hhead, if_neg hfits, hassemble, Option.bind_eq_bind,
        Option.bind_some, Option.pure_def]
    · intro key hkey
      obtain hkey | hkey := List.mem_append.mp hkey
      · obtain ⟨cell, hcell, rfl⟩ := hothers key hkey
        obtain ⟨other, hother, hkey', -⟩ := hstays cell hcell
        exact ⟨other, hother, hkey'⟩
      · rwa [List.mem_singleton.mp hkey]
    · rw [List.length_append, List.length_take, List.length_singleton,
        Nat.min_eq_left (Nat.sub_le ..)]
      exact hrest.stays hstays
  · right
    obtain ⟨shortage, t, hassemble, hsound⟩ :=
      hslab.assemble_short (copies.take (copies.length - arity)) (Nat.not_le.mp hroom)
    refine ⟨.error shortage, t, ?_, hsound⟩
    simp only [turn, hcell, harity, hhead, if_neg hfits, hassemble, Option.bind_eq_bind,
      Option.bind_some, Option.pure_def]

/-- One turn of copying. -/
theorem Copying.Sound.turn {c : Copying Table Key} (h : c.Sound capacity) :
    (∃ d, Slab.turn c = some (.inl d) ∧ d.Sound capacity) ∨
      ∃ outcome t, Slab.turn c = some (.inr (outcome, t)) ∧ t.Sound capacity := by
  cases hframes : c.frames with
  | cons frame frames =>
      cases frame with
      | enter key => exact .inl (h.turn_enter hframes)
      | exit key => exact h.turn_exit hframes
  | nil =>
      obtain ⟨slab, _, copies⟩ := c
      cases hframes
      obtain henough | ⟨_, _, hexit, -⟩ := h.enough
      · obtain ⟨copy, rfl⟩ := List.length_eq_one_iff.mp henough
        exact .inr ⟨.ok copy, slab, rfl, h.slab⟩
      · cases hexit

theorem Copying.Sound.turns {c : Copying Table Key} (h : c.Sound capacity) (count : Nat) :
    ∃ result, Slab.turns c count = some result ∧
      ∀ outcome t, result = some (outcome, t) → t.Sound capacity := by
  induction count generalizing c with
  | zero => exact ⟨none, rfl, by simp⟩
  | succ count ih =>
      obtain ⟨d, hturn, hsound⟩ | ⟨outcome, t, hturn, hsound⟩ := h.turn
      · obtain ⟨result, hresult, hkeeps⟩ := ih hsound
        exact ⟨result, by rw [Slab.turns, hturn]; exact hresult, hkeeps⟩
      · refine ⟨some (outcome, t), by rw [Slab.turns, hturn], ?_⟩
        rintro _ _ ⟨⟩
        exact hsound

theorem Sound.deepCopy (h : Sound capacity s) (key : Key) (count : Nat) :
    ∃ result, s.deepCopy key count = some result ∧
      ∀ outcome t, result = some (outcome, t) → t.Sound capacity :=
  Copying.Sound.turns ⟨h, by simp, .inl (show Enough s [.enter key] 0 from rfl)⟩ count

/-! ## Runs -/

theorem sound_withCapacity (capacity : Nat) :
    Sound capacity (withCapacity capacity : Slab Table Key) where
  indexed := Indexed.empty
  increasing := .nil
  issued := by simp [withCapacity]
  sized := by simp [withCapacity]
  used_eq := rfl
  used_le := Nat.zero_le _
  capacity_eq := rfl
  referenced := by simp [withCapacity]

/-- One request. -/
theorem Sound.perform (h : Sound capacity s) (count : Nat) (request : Request Key) :
    ∃ result, s.perform count request = some result ∧ ∀ t, result = some t → t.Sound capacity := by
  cases request with
  | allocate head children =>
      obtain ⟨outcome, t, ht, hsound⟩ := h.allocate head children
      exact ⟨some t, by rw [Slab.perform, ht]; rfl, by rintro _ ⟨⟩; exact hsound⟩
  | retain key =>
      obtain ⟨t, ht, hsound⟩ := h.retain key
      exact ⟨some t, by rw [Slab.perform, ht]; rfl, by rintro _ ⟨⟩; exact hsound⟩
  | release key =>
      obtain ⟨t, ht, hsound⟩ := h.release key
      exact ⟨some t, by rw [Slab.perform, ht]; rfl, by rintro _ ⟨⟩; exact hsound⟩
  | dismantle key =>
      obtain ⟨children, t, ht, hsound⟩ := h.dismantle key
      exact ⟨some t, by rw [Slab.perform, ht]; rfl, by rintro _ ⟨⟩; exact hsound⟩
  | deepCopy key =>
      obtain ⟨result, hresult, hsound⟩ := h.deepCopy key count
      refine ⟨result.map Prod.snd, by rw [Slab.perform, hresult]; rfl, fun t ht => ?_⟩
      obtain ⟨⟨outcome, _⟩, rfl, rfl⟩ := Option.map_eq_some_iff.mp ht
      exact hsound outcome _ rfl
  | rollback serial =>
      obtain ⟨t, ht, hsound⟩ := h.rollback serial
      exact ⟨some t, by rw [Slab.perform, ht]; rfl, by rintro _ ⟨⟩; exact hsound⟩

/-- Any number of requests. -/
theorem sound_of_reachable (h : Reachable capacity s) : Sound capacity s := by
  induction h with
  | refl => exact sound_withCapacity capacity
  | tail _ hmoves ih =>
      obtain ⟨request, count, hperform⟩ := hmoves
      obtain ⟨result, hresult, hsound⟩ := ih.perform count request
      rw [hperform, Option.some_inj] at hresult
      exact hsound _ hresult.symm

/-- What holds in every slab that requests with any keys lead to. The table leads from a key to a
place exactly if the node in this place has this key; serial numbers increase and have been given
out; the bytes in use are those of the nodes, and there are no more of them than there may be; every
request has an outcome unless copying does not come to an end; and an allocation is refused exactly
if there is no room for the node, and then changes nothing. -/
theorem consistent_of_reachable (h : Reachable capacity s) :
    (∀ key index, SlotTable.get s.table key = some index ↔
      ∃ cell, s.cells[index]? = some cell ∧ cell.key = key) ∧
    s.cells.Pairwise (fun earlier later => earlier.serial < later.serial) ∧
    (∀ cell ∈ s.cells, cell.serial < s.nextSerial) ∧
    (∀ cell ∈ s.cells, cell.size = Node.chargeOf cell.head cell.children.length) ∧
    s.used = (s.cells.map Cell.size).sum ∧ s.used ≤ s.capacity ∧ s.capacity = capacity ∧
    (∀ request count, s.perform count request ≠ none) ∧
    ∀ head children,
      (s.capacity - s.used < Node.chargeOf head children.length →
        s.allocate head children =
          some (.error ⟨Node.chargeOf head children.length, s.capacity - s.used⟩, s)) ∧
      (Node.chargeOf head children.length ≤ s.capacity - s.used →
        ∃ key t, s.allocate head children = some (.ok key, t)) := by
  have hsound := sound_of_reachable h
  refine ⟨fun key index => ?_, hsound.increasing, hsound.issued, hsound.sized, hsound.used_eq,
    hsound.capacity_eq ▸ hsound.used_le, hsound.capacity_eq, fun request count hnone => ?_,
    fun head children => ?_⟩
  · rw [hsound.indexed.get_iff, List.getElem?_map, Option.map_eq_some_iff]
  · obtain ⟨result, hresult, -⟩ := hsound.perform count request
    rw [hnone] at hresult
    cases hresult
  · rw [hsound.capacity_eq]
    refine ⟨hsound.allocate_short, fun hroom => ?_⟩
    obtain ⟨t, -, -, -, -, -, heq⟩ := hsound.allocate_fits hroom
    exact ⟨_, _, heq⟩

/-- Two nodes have been allocated, and the earlier one has been freed. -/
def moved : Slab SlotMap SlotKey :=
  let earlier := (withCapacity 100).push (.symbol "x") []
  let later := earlier.2.push (.infinity true) []
  later.2.without [] ⟨.symbol "x", [], 1, false, 0, 18, earlier.1⟩
    [⟨.infinity true, [], 1, false, 1, 17, later.1⟩]

theorem reachable_moved : Reachable 100 moved :=
  .tail (.tail (.single ⟨.allocate (.symbol "x") [], 0, rfl⟩)
    ⟨.allocate (.infinity true) [], 0, rfl⟩) ⟨.dismantle ⟨0, 0⟩, 0, rfl⟩

/-- The node that has moved up is found by its key, and there is no room for a node of a hundred
bytes any more. -/
theorem consistent_of_reachable_moved :
    Reachable 100 moved ∧
      (∃ cell, moved.cells[0]? = some cell ∧ cell.key = ⟨1, 0⟩) ∧
      moved.allocate (.apply .list []) (List.replicate 21 ⟨1, 0⟩) =
        some (.error ⟨100, 83⟩, moved) := by
  obtain ⟨hlookup, -, -, -, -, -, -, -, hallocate⟩ := consistent_of_reachable reachable_moved
  exact ⟨reachable_moved, (hlookup ⟨1, 0⟩ 0).mp rfl,
    (hallocate (.apply .list []) (List.replicate 21 ⟨1, 0⟩)).1 (by decide)⟩

end Slab

end PocketAlgebra
