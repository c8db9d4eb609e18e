import Mathlib.Logic.Relation
import PocketAlgebra.Pool.Basic

/-!
# Slabs of nodes

How a pool lies in memory. Its nodes are kept in one slab in the order of their allocation, the
latest one last, and a table leads from keys to the places of their nodes. Where a node is freed,
all later ones move up by one place, and their entries of the table are written anew.

Keys are handed out by the table and are opaque; all operations admit any key. Where an operation
would look beyond the end of the slab, or take more off a number than it is, it has no outcome.
-/

namespace PocketAlgebra

/-- A table of numbers that hands out a key for each number put into it. -/
class SlotTable (Table : Type) (Key : outParam Type) where
  empty : Table
  /-- The number of a key, unless the key is stale. -/
  get : Table → Key → Option Nat
  /-- Puts a number into the table, under a key that the table chooses. -/
  insert : Table → Nat → Key × Table
  /-- Gives a key another number, unless the key is stale. -/
  replace : Table → Key → Nat → Table
  /-- Makes a key stale. -/
  remove : Table → Key → Table

/-- What can be relied on: a key that is handed out is no key of another number in the table, and
operations on a key leave other keys alone. -/
class LawfulSlotTable (Table Key : Type) [SlotTable Table Key] [DecidableEq Key] : Prop where
  get_empty (key : Key) : SlotTable.get (SlotTable.empty : Table) key = none
  insert_fresh (table : Table) (number : Nat) :
    SlotTable.get table (SlotTable.insert table number).1 = none
  get_insert (table : Table) (number : Nat) (key : Key) :
    SlotTable.get (SlotTable.insert table number).2 key =
      if key = (SlotTable.insert table number).1 then some number else SlotTable.get table key
  get_replace (table : Table) (other key : Key) (number : Nat) :
    SlotTable.get (SlotTable.replace table other number) key =
      if key = other then (SlotTable.get table key).map (fun _ => number)
      else SlotTable.get table key
  get_remove (table : Table) (other key : Key) :
    SlotTable.get (SlotTable.remove table other) key =
      if key = other then none else SlotTable.get table key

/-- A table that hands out no key twice. A key that is in use counts as handed out, and so does a
key that has once counted so. -/
class LastingSlotTable (Table Key : Type) [SlotTable Table Key] where
  Issued : Table → Key → Prop
  issued_of_get {table : Table} {key : Key} {number : Nat} :
    SlotTable.get table key = some number → Issued table key
  not_issued_insert (table : Table) (number : Nat) :
    ¬ Issued table (SlotTable.insert table number).1
  issued_insert {table : Table} {key : Key} (number : Nat) :
    Issued table key → Issued (SlotTable.insert table number).2 key
  issued_replace {table : Table} {key : Key} (other : Key) (number : Nat) :
    Issued table key → Issued (SlotTable.replace table other number) key
  issued_remove {table : Table} {key : Key} (other : Key) :
    Issued table key → Issued (SlotTable.remove table other) key

/-! ## Searching -/

/-- Where a property that holds up to some place ends, among so many places from one on. -/
def bisect (holds : Nat → Bool) (low size : Nat) : Nat :=
  if size = 0 then
    low
  else if holds (low + size / 2) then
    bisect holds (low + size / 2 + 1) (size - size / 2 - 1)
  else
    bisect holds low (size / 2)
termination_by size

/-- How many elements a property holds of, where it holds of those in front and of no others. -/
def partitionPoint {α : Type} (holds : α → Bool) (xs : List α) : Nat :=
  bisect (fun index => xs[index]?.any holds) 0 xs.length

/-! ## Nodes in a slab -/

/-- A node in a slab. -/
structure Cell (Key : Type) where
  head : Expr
  children : List Key
  /-- How many operands and handles this node is. -/
  references : Nat
  /-- Whether this node is an operand of another one. -/
  hasParent : Bool
  /-- How many nodes were allocated before this one. -/
  serial : Nat
  /-- The bytes that were charged for this node. -/
  size : Nat
  key : Key

/-- A slab of nodes, with the table of their places. -/
structure Slab (Table Key : Type) where
  cells : List (Cell Key)
  table : Table
  capacity : Nat
  used : Nat
  nextSerial : Nat

namespace Slab

variable {Table Key : Type} [SlotTable Table Key]

/-- A slab without nodes. -/
def withCapacity (capacity : Nat) : Slab Table Key :=
  { cells := [], table := SlotTable.empty, capacity, used := 0, nextSerial := 0 }

/-- The bytes that are left. -/
def free (s : Slab Table Key) : Option Nat :=
  if s.used ≤ s.capacity then some (s.capacity - s.used) else none

/-- Applies a function to the node of a key, unless the key is stale. -/
def update (s : Slab Table Key) (key : Key) (f : Cell Key → Cell Key) :
    Option (Slab Table Key) :=
  match SlotTable.get s.table key with
  | none => some s
  | some index =>
    if index < s.cells.length then some { s with cells := s.cells.modify index f } else none

/-- Adds a reference to a node. -/
def retain (s : Slab Table Key) (key : Key) : Option (Slab Table Key) :=
  s.update key fun cell => { cell with references := cell.references + 1 }

/-- Makes a node an operand of another one. -/
def attach (s : Slab Table Key) (key : Key) : Option (Slab Table Key) :=
  s.update key fun cell => { cell with references := cell.references + 1, hasParent := true }

/-- Makes a node no operand any more. -/
def detach (s : Slab Table Key) (key : Key) : Option (Slab Table Key) :=
  s.update key fun cell => { cell with hasParent := false }

/-- Takes a reference off a node. -/
def decrement (s : Slab Table Key) (key : Key) : Option (Slab Table Key) :=
  s.update key fun cell => { cell with references := cell.references - 1 }

/-- Puts a node at the end of a slab, with one reference to it. -/
def push (s : Slab Table Key) (head : Expr) (children : List Key) : Key × Slab Table Key :=
  let (key, table) := SlotTable.insert s.table s.cells.length
  let size := Node.chargeOf head children.length
  (key, { s with
    cells := s.cells ++ [⟨head, children, 1, false, s.nextSerial, size, key⟩]
    table
    used := s.used + size
    nextSerial := s.nextSerial + 1 })

/-- Allocates a node over operands, with one reference to it. -/
def allocate (s : Slab Table Key) (head : Expr) (children : List Key) :
    Option (Except Shortage Key × Slab Table Key) := do
  let available ← s.free
  let size := Node.chargeOf head children.length
  if available < size then
    return (.error ⟨size, available⟩, s)
  let attached ← children.foldlM attach s
  let (key, t) := attached.push head children
  return (.ok key, t)

/-! ## Freeing -/

/-- Gives the keys of several nodes their places, from one place on. -/
def reindex (table : Table) (index : Nat) : List (Cell Key) → Table
  | [] => table
  | cell :: cells => reindex (SlotTable.replace table cell.key index) (index + 1) cells

/-- Gives back the bytes and the key of a node. -/
def discard (s : Slab Table Key) (cell : Cell Key) : Option (Slab Table Key) :=
  if cell.size ≤ s.used then
    some { s with table := SlotTable.remove s.table cell.key, used := s.used - cell.size }
  else
    none

/-- Takes the node at a place out of a slab, and moves up the nodes after it. -/
def removeAt (s : Slab Table Key) (index : Nat) : Option (Cell Key × Slab Table Key) := do
  let cell ← s.cells[index]?
  let t ← s.discard cell
  let cells := s.cells.eraseIdx index
  return (cell, { t with cells, table := reindex t.table index (cells.drop index) })

/-- Frees the node at a place, which leaves its operands without it. -/
def freeAt (s : Slab Table Key) (index : Nat) : Option (List Key × Slab Table Key) := do
  let (cell, t) ← s.removeAt index
  let u ← cell.children.foldlM detach t
  return (cell.children, u)

theorem length_update {s t : Slab Table Key} {key : Key} {f : Cell Key → Cell Key}
    (h : s.update key f = some t) : t.cells.length = s.cells.length := by
  unfold update at h
  split at h
  · cases h
    rfl
  · split at h
    · cases h
      exact List.length_modify ..
    · cases h

theorem length_foldlM_detach {s t : Slab Table Key} {keys : List Key}
    (h : keys.foldlM detach s = some t) : t.cells.length = s.cells.length := by
  induction keys generalizing s with
  | nil =>
      cases h
      rfl
  | cons key keys ih =>
      rw [List.foldlM_cons, Option.bind_eq_bind, Option.bind_eq_some_iff] at h
      obtain ⟨u, hu, ht⟩ := h
      exact (ih ht).trans (length_update hu)

theorem length_freeAt {s u : Slab Table Key} {index : Nat} {children : List Key}
    (h : s.freeAt index = some (children, u)) : u.cells.length < s.cells.length := by
  simp only [freeAt, removeAt, Option.bind_eq_bind, Option.pure_def, Option.bind_assoc,
    Option.bind_some, Option.bind_eq_some_iff] at h
  obtain ⟨cell, hcell, t, -, v, hdetach, hresult⟩ := h
  cases hresult
  obtain ⟨hindex, -⟩ := List.getElem?_eq_some_iff.mp hcell
  rw [length_foldlM_detach hdetach, List.length_eraseIdx, if_pos hindex]
  omega

/-- Takes a reference off each of several nodes, and frees nodes that have lost their last one. -/
def releaseAll (s : Slab Table Key) (keys : List Key) : Option (Slab Table Key) :=
  match keys with
  | [] => some s
  | key :: rest =>
    match SlotTable.get s.table key with
    | none => releaseAll s rest
    | some index =>
      match s.cells[index]? with
      | none => none
      | some cell =>
        if 1 < cell.references then
          match _hnext : s.decrement key with
          | none => none
          | some t => releaseAll t rest
        else
          match _hfreed : s.freeAt index with
          | none => none
          | some (children, t) => releaseAll t (children.reverse ++ rest)
termination_by (s.cells.length, keys.length)
decreasing_by
  · exact .right _ (by simp)
  · rw [length_update _hnext]
    exact .right _ (by simp)
  · exact .left _ _ (length_freeAt _hfreed)

/-- Takes a reference off a node. -/
def release (s : Slab Table Key) (key : Key) : Option (Slab Table Key) :=
  s.releaseAll [key]

/-- Frees a node that has a single reference, and hands over those to its operands. -/
def dismantle (s : Slab Table Key) (key : Key) :
    Option (Option (List Key) × Slab Table Key) :=
  match SlotTable.get s.table key with
  | none => some (none, s)
  | some index => do
    let cell ← s.cells[index]?
    if cell.references ≠ 1 then
      return (none, s)
    let (children, t) ← s.freeAt index
    return (some children, t)

/-- Takes off the reference that a freed node had to an operand. -/
def orphan (s : Slab Table Key) (key : Key) : Option (Slab Table Key) :=
  match SlotTable.get s.table key with
  | none => some s
  | some _ => do
    let t ← s.detach key
    t.release key

/-- Frees all nodes from a serial number on. -/
def rollback (s : Slab Table Key) (serial : Nat) : Option (Slab Table Key) :=
  let start := partitionPoint (fun cell : Cell Key => cell.serial < serial) s.cells
  if start = s.cells.length then
    some s
  else do
    let freed := s.cells.drop start
    let t ← freed.foldlM discard { s with cells := s.cells.take start }
    (freed.flatMap Cell.children).foldlM orphan t

/-! ## Copying -/

/-- What there is to do for a node that is copied: to go down to its operands, or to make its copy
when those of its operands have been made. -/
inductive Frame (Key : Type) where
  | enter (key : Key)
  | exit (key : Key)

/-- A tree that is being copied. -/
structure Copying (Table Key : Type) where
  slab : Slab Table Key
  /-- What is left to do, the next one first. -/
  frames : List (Frame Key)
  /-- The copies that are no operands yet, in the order of their originals. -/
  copies : List Key := []

/-- The node of a key, unless the key is stale. -/
def cell (s : Slab Table Key) (key : Key) : Option (Option (Cell Key)) :=
  match SlotTable.get s.table key with
  | none => some none
  | some index => (s.cells[index]?).map some

/-- Makes the copy of a node over those of its operands, and puts it behind the other copies. Where
there is no room for it, all copies are dropped. -/
def assemble (s : Slab Table Key) (head : Expr) (others children : List Key) :
    Option (Except Shortage (List Key) × Slab Table Key) := do
  let (outcome, t) ← s.allocate head children
  let u ← children.foldlM release t
  match outcome with
  | .ok copy => return (.ok (others ++ [copy]), u)
  | .error shortage => return (.error shortage, ← others.foldlM release u)

/-- One turn of copying: what is being copied after it, or the outcome. -/
def turn (c : Copying Table Key) :
    Option (Copying Table Key ⊕ Except Shortage Key × Slab Table Key) :=
  match c.frames with
  | .enter key :: frames => do
    let children := ((← c.slab.cell key).map Cell.children).getD []
    return .inl { c with frames := children.map .enter ++ .exit key :: frames }
  | .exit key :: frames => do
    let original ← c.slab.cell key
    let arity := ((original.map Cell.children).getD []).length
    if c.copies.length < arity then
      none
    let place := c.copies.length - arity
    match ← c.slab.assemble ((original.map Cell.head).getD .undefined) (c.copies.take place)
      (c.copies.drop place) with
    | (.ok copies, t) => return .inl ⟨t, frames, copies⟩
    | (.error shortage, t) => return .inr (.error shortage, t)
  | [] =>
    match c.copies.getLast? with
    | some copy => some (.inr (.ok copy, c.slab))
    | none => do
      let (outcome, t) ← c.slab.allocate .undefined []
      return .inr (outcome, t)

/-- What so many turns of copying come to, if they are enough. -/
def turns (c : Copying Table Key) : Nat → Option (Option (Except Shortage Key × Slab Table Key))
  | 0 => some none
  | count + 1 =>
    match turn c with
    | none => none
    | some (.inl c) => turns c count
    | some (.inr result) => some (some result)

/-- Copies the tree below a key, if so many turns are enough. -/
def deepCopy (s : Slab Table Key) (key : Key) (count : Nat) :
    Option (Option (Except Shortage Key × Slab Table Key)) :=
  turns { slab := s, frames := [.enter key] } count

/-! ## Runs -/

/-- What is asked of a slab. -/
inductive Request (Key : Type) where
  | allocate (head : Expr) (children : List Key)
  | retain (key : Key)
  | release (key : Key)
  | dismantle (key : Key)
  | deepCopy (key : Key)
  | rollback (serial : Nat)

/-- The slab after a request, if a copy takes no more than so many turns. -/
def perform (s : Slab Table Key) (count : Nat) :
    Request Key → Option (Option (Slab Table Key))
  | .allocate head children => (s.allocate head children).map fun result => some result.2
  | .retain key => (s.retain key).map some
  | .release key => (s.release key).map some
  | .dismantle key => (s.dismantle key).map fun result => some result.2
  | .deepCopy key => (s.deepCopy key count).map fun outcome => outcome.map Prod.snd
  | .rollback serial => (s.rollback serial).map some

/-- A request leads from a slab to another one. -/
def Moves (s t : Slab Table Key) : Prop :=
  ∃ request count, s.perform count request = some (some t)

/-- Requests lead from a slab without nodes to a slab. -/
def Reachable (capacity : Nat) : Slab Table Key → Prop :=
  Relation.ReflTransGen Moves (withCapacity capacity)

/-- A request to a slab makes nodes only over keys that have been handed out. -/
def Request.Issued [LastingSlotTable Table Key] (s : Slab Table Key) : Request Key → Prop
  | .allocate _ children => ∀ child ∈ children, LastingSlotTable.Issued s.table child
  | _ => True

/-- Requests of which none is made with a key before the key is handed out lead from a slab without
nodes to a slab. -/
def Made [LastingSlotTable Table Key] (capacity : Nat) : Slab Table Key → Prop :=
  Relation.ReflTransGen
    (fun s t => ∃ request count, Request.Issued s request ∧ s.perform count request = some (some t))
    (withCapacity capacity)

end Slab

end PocketAlgebra
