import Mathlib.Data.List.Basic
import PocketAlgebra.Pool.Slab

/-!
# Tables of slots

Two tables that hand out keys. A slot map uses the slots of removed numbers again, and tells their
keys apart by a version; a ledger counts its keys.
-/

namespace PocketAlgebra

/-! ## Slot maps -/

/-- A key of a slot map: a slot, and the version that it had when the key was handed out. -/
structure SlotKey where
  slot : Nat
  version : Nat
  deriving DecidableEq, Repr

/-- A slot, and the number in it unless it is vacant. -/
structure Slot where
  version : Nat := 0
  number : Option Nat := none

/-- Slots, of which so many have been used. -/
structure SlotMap where
  slots : Nat → Slot := fun _ => {}
  size : Nat := 0

namespace SlotMap

/-- The number of a key, unless the key is stale. -/
def get (m : SlotMap) (key : SlotKey) : Option Nat :=
  if key.slot < m.size ∧ (m.slots key.slot).version = key.version then
    (m.slots key.slot).number
  else
    none

/-- A slot map with another slot in the place of one. -/
def put (m : SlotMap) (place : Nat) (slot : Slot) : SlotMap :=
  { m with slots := fun other => if other = place then slot else m.slots other }

/-- A vacant slot, or a new one if there is none. -/
def vacancy (m : SlotMap) : Nat :=
  ((List.range m.size).find? fun place => (m.slots place).number.isNone).getD m.size

/-- Puts a number into a vacant slot. -/
def insert (m : SlotMap) (number : Nat) : SlotKey × SlotMap :=
  let place := m.vacancy
  let version := (m.slots place).version
  (⟨place, version⟩, { m.put place ⟨version, some number⟩ with size := max m.size (place + 1) })

/-- Puts another number into the slot of a key. -/
def replace (m : SlotMap) (key : SlotKey) (number : Nat) : SlotMap :=
  match m.get key with
  | some _ => m.put key.slot ⟨key.version, some number⟩
  | none => m

/-- Vacates the slot of a key, which has another version from then on. -/
def remove (m : SlotMap) (key : SlotKey) : SlotMap :=
  match m.get key with
  | some _ => m.put key.slot ⟨key.version + 1, none⟩
  | none => m

instance : SlotTable SlotMap SlotKey where
  empty := {}
  get := get
  insert := insert
  replace := replace
  remove := remove

theorem vacancy_le (m : SlotMap) : m.vacancy ≤ m.size := by
  unfold vacancy
  cases hfind : (List.range m.size).find? fun place => (m.slots place).number.isNone with
  | none => exact Nat.le_refl _
  | some place => exact Nat.le_of_lt (List.mem_range.mp (List.mem_of_find?_eq_some hfind))

theorem get_vacancy (m : SlotMap) (key : SlotKey) (h : key.slot = m.vacancy) :
    m.get key = none := by
  unfold get
  split
  · rename_i hkey
    unfold vacancy at h
    cases hfind : (List.range m.size).find? fun place => (m.slots place).number.isNone with
    | none =>
        rw [hfind, Option.getD_none] at h
        omega
    | some place =>
        rw [hfind, Option.getD_some] at h
        rw [h]
        have hvacant := List.find?_some hfind
        simpa using hvacant
  · rfl

theorem get_insert (m : SlotMap) (number : Nat) (key : SlotKey) :
    (m.insert number).2.get key =
      if key = (m.insert number).1 then some number else m.get key := by
  have hle := m.vacancy_le
  have hvacant := m.get_vacancy key
  obtain ⟨slot, version⟩ := key
  simp only [insert, put, get, SlotKey.mk.injEq] at hvacant ⊢
  grind

/-- What a key leads to after another slot has taken the place of that of a key in use. -/
theorem get_put {m : SlotMap} {other : SlotKey} {number : Nat} (h : m.get other = some number)
    (slot : Slot) (key : SlotKey) :
    (m.put other.slot slot).get key =
      if key.slot = other.slot then
        if slot.version = key.version then slot.number else none
      else m.get key := by
  simp only [put, get] at h ⊢
  grind

theorem get_replace (m : SlotMap) (other key : SlotKey) (number : Nat) :
    (m.replace other number).get key =
      if key = other then (m.get key).map (fun _ => number) else m.get key := by
  unfold replace
  cases hget : m.get other with
  | none => grind
  | some old =>
      obtain ⟨slot, version⟩ := key
      obtain ⟨slot', version'⟩ := other
      rw [get_put hget]
      simp only [get, SlotKey.mk.injEq] at hget ⊢
      grind

theorem get_remove (m : SlotMap) (other key : SlotKey) :
    (m.remove other).get key = if key = other then none else m.get key := by
  unfold remove
  cases hget : m.get other with
  | none => grind
  | some old =>
      obtain ⟨slot, version⟩ := key
      obtain ⟨slot', version'⟩ := other
      rw [get_put hget]
      simp only [get, SlotKey.mk.injEq] at hget ⊢
      grind

instance : LawfulSlotTable SlotMap SlotKey where
  get_empty _ := by simp [SlotTable.get, SlotTable.empty, get]
  insert_fresh m _ := m.get_vacancy _ rfl
  get_insert := get_insert
  get_replace := get_replace
  get_remove := get_remove

/-- A key has been handed out if its version is one that its slot had before, or the one that it has
now and a number is in it. -/
instance : LastingSlotTable SlotMap SlotKey where
  Issued m key := key.slot < m.size ∧ (key.version < (m.slots key.slot).version ∨
    key.version = (m.slots key.slot).version ∧ (m.slots key.slot).number.isSome)
  issued_of_get {m key number} h := by
    simp only [SlotTable.get, get] at h
    grind
  not_issued_insert m number h := by
    have hvacant := m.get_vacancy ⟨m.vacancy, (m.slots m.vacancy).version⟩ rfl
    simp only [SlotTable.insert, insert, get] at h hvacant
    grind
  issued_insert {m key} number h := by
    have hvacant := m.get_vacancy ⟨m.vacancy, (m.slots m.vacancy).version⟩ rfl
    simp only [SlotTable.insert, insert, put, get] at h hvacant ⊢
    grind
  issued_replace {m key} other number h := by
    simp only [SlotTable.replace, replace, put, get] at h ⊢
    grind
  issued_remove {m key} other h := by
    simp only [SlotTable.remove, remove, put, get] at h ⊢
    grind

end SlotMap

/-! ## Ledgers -/

/-- Numbers that are entered under consecutive keys. -/
structure Ledger where
  entry : Nat → Option Nat := fun _ => none
  /-- How many keys have been handed out. -/
  issued : Nat := 0

namespace Ledger

/-- The number of a key, unless the key is stale. -/
def get (l : Ledger) (key : Nat) : Option Nat :=
  if key < l.issued then l.entry key else none

instance : SlotTable Ledger Nat where
  empty := {}
  get := get
  insert l number :=
    (l.issued, {
      entry := fun key => if key = l.issued then some number else l.entry key
      issued := l.issued + 1 })
  replace l other number :=
    { l with entry := fun key =>
        if key = other then (l.entry key).map fun _ => number else l.entry key }
  remove l other :=
    { l with entry := fun key => if key = other then none else l.entry key }

instance : LawfulSlotTable Ledger Nat where
  get_empty _ := by simp [SlotTable.get, SlotTable.empty, get]
  insert_fresh _ _ := by simp [SlotTable.get, SlotTable.insert, get]
  get_insert _ _ _ := by simp only [SlotTable.get, SlotTable.insert, get]; grind
  get_replace _ _ _ _ := by simp only [SlotTable.get, SlotTable.replace, get]; grind
  get_remove _ _ _ := by simp only [SlotTable.get, SlotTable.remove, get]; grind

instance : LastingSlotTable Ledger Nat where
  Issued l key := key < l.issued
  issued_of_get {l key number} h := by
    simp only [SlotTable.get, get] at h
    grind
  not_issued_insert l number := Nat.lt_irrefl l.issued
  issued_insert _ h := Nat.lt_succ_of_lt h
  issued_replace _ _ h := h
  issued_remove _ h := h

end Ledger

end PocketAlgebra
