import Mathlib.Data.List.Nodup
import PocketAlgebra.Pool.Slab

/-!
# Tables of places

The table of a slab leads from the key of each node to the place of the node. What a slab does with
its table keeps this: a node that is added gets the place at the end, and where nodes are taken out,
those after them are given the places that they move up to.
-/

namespace PocketAlgebra

/-! ## Searching -/

theorem bisect_eq {holds : Nat → Bool} {low size bound : Nat}
    (hholds : ∀ index, holds index = decide (index < bound)) (hlow : low ≤ bound)
    (hhigh : bound ≤ low + size) : bisect holds low size = bound := by
  fun_induction bisect holds low size with
  | case1 low => omega
  | case2 low size hsize hmiddle ih =>
      rw [hholds, decide_eq_true_iff] at hmiddle
      exact ih (by omega) (by omega)
  | case3 low size hsize hmiddle ih =>
      rw [hholds, decide_eq_true_iff] at hmiddle
      exact ih hlow (by omega)

theorem partitionPoint_append {α : Type} {holds : α → Bool} {front back : List α}
    (hfront : ∀ x ∈ front, holds x = true) (hback : ∀ x ∈ back, holds x = false) :
    partitionPoint holds (front ++ back) = front.length := by
  refine bisect_eq (fun index => ?_) (Nat.zero_le _) (by simp)
  by_cases hindex : index < front.length
  · rw [List.getElem?_append_left hindex, List.getElem?_eq_getElem hindex]
    simpa [hindex] using hfront _ (List.getElem_mem hindex)
  · rw [List.getElem?_append_right (by omega), decide_eq_false hindex, Option.any_eq_false]
    intro x hx
    rw [hback x (List.mem_of_getElem? hx)]

/-! ## The table of places -/

section Table

variable {Table Key : Type} [SlotTable Table Key]

/-- A table leads from each of several keys to its place among them, and from no other key. -/
structure Indexed (table : Table) (keys : List Key) : Prop where
  place {index : Nat} {key : Key} (h : keys[index]? = some key) :
    SlotTable.get table key = some index
  stale {key : Key} (h : key ∉ keys) : SlotTable.get table key = none

namespace Indexed

variable {table : Table} {keys front back : List Key} {key : Key}

theorem get_iff (h : Indexed table keys) {index : Nat} :
    SlotTable.get table key = some index ↔ keys[index]? = some key := by
  refine ⟨fun hget => ?_, h.place⟩
  by_cases hkey : key ∈ keys
  · obtain ⟨other, hother⟩ := List.mem_iff_getElem?.mp hkey
    have hplace := h.place hother
    rw [hget, Option.some_inj] at hplace
    exact hplace ▸ hother
  · rw [h.stale hkey] at hget
    cases hget

theorem nodup (h : Indexed table keys) : keys.Nodup := by
  rw [List.nodup_iff_getElem?_ne_getElem?]
  intro first second hlt hlast heq
  rw [List.getElem?_eq_getElem hlast] at heq
  have hfirst := h.place heq
  rw [h.place (List.getElem?_eq_getElem hlast), Option.some_inj] at hfirst
  omega

variable [DecidableEq Key] [LawfulSlotTable Table Key]

theorem empty : Indexed (SlotTable.empty : Table) ([] : List Key) where
  place h := by simp at h
  stale _ := LawfulSlotTable.get_empty _

theorem insert_notMem (h : Indexed table keys) (number : Nat) :
    (SlotTable.insert table number).1 ∉ keys := by
  intro hmem
  obtain ⟨index, hindex⟩ := List.mem_iff_getElem?.mp hmem
  have hplace := h.place hindex
  rw [LawfulSlotTable.insert_fresh] at hplace
  cases hplace

/-- A number is put into the table for a key at the end. -/
theorem insert (h : Indexed table keys) :
    Indexed (SlotTable.insert table keys.length).2
      (keys ++ [(SlotTable.insert table keys.length).1]) where
  place {index key} hkey := by
    rw [LawfulSlotTable.get_insert]
    by_cases hindex : index < keys.length
    · rw [List.getElem?_append_left hindex] at hkey
      have hne : key ≠ (SlotTable.insert table keys.length).1 := by
        rintro rfl
        exact h.insert_notMem _ (List.mem_of_getElem? hkey)
      rw [if_neg hne]
      exact h.place hkey
    · rw [List.getElem?_append_right (by omega), List.getElem?_singleton] at hkey
      split at hkey
      · cases hkey
        rw [if_pos rfl, Option.some_inj]
        omega
      · cases hkey
  stale {key} hkey := by
    simp only [List.mem_append, List.mem_singleton, not_or] at hkey
    rw [LawfulSlotTable.get_insert, if_neg hkey.2]
    exact h.stale hkey.1

theorem get_removeAll (table : Table) (removed : List Key) (key : Key) :
    SlotTable.get (removed.foldl SlotTable.remove table) key =
      if key ∈ removed then none else SlotTable.get table key := by
  induction removed generalizing table with
  | nil => simp
  | cons other removed ih =>
      rw [List.foldl_cons, ih, LawfulSlotTable.get_remove]
      simp only [List.mem_cons]
      split <;> split <;> simp_all

/-- The keys at the end are made stale. -/
theorem removeAll (h : Indexed table (front ++ back)) :
    Indexed (back.foldl SlotTable.remove table) front where
  place {index key} hkey := by
    have hfront : key ∈ front := List.mem_of_getElem? hkey
    have hback : key ∉ back := fun hmem =>
      (List.nodup_append.mp h.nodup).2.2 key hfront key hmem rfl
    rw [get_removeAll, if_neg hback]
    apply h.place
    rw [List.getElem?_append_left (List.getElem?_eq_some_iff.mp hkey).1]
    exact hkey
  stale {key} hkey := by
    rw [get_removeAll]
    split
    · rfl
    · rename_i hback
      exact h.stale (by simp [hkey, hback])

end Indexed

variable [DecidableEq Key] [LawfulSlotTable Table Key]

theorem get_reindex_of_notMem {cells : List (Cell Key)} {key : Key}
    (h : key ∉ cells.map Cell.key) (table : Table) (start : Nat) :
    SlotTable.get (Slab.reindex table start cells) key = SlotTable.get table key := by
  induction cells generalizing table start with
  | nil => rfl
  | cons cell cells ih =>
      rw [List.map_cons, List.mem_cons, not_or] at h
      rw [Slab.reindex, ih h.2, LawfulSlotTable.get_replace, if_neg h.1]

theorem get_reindex {cells : List (Cell Key)} {key : Key} {index : Nat}
    (h : (cells.map Cell.key)[index]? = some key) (hnodup : (cells.map Cell.key).Nodup)
    (table : Table) (start : Nat) :
    SlotTable.get (Slab.reindex table start cells) key =
      (SlotTable.get table key).map fun _ => start + index := by
  induction cells generalizing table start index with
  | nil => simp at h
  | cons cell cells ih =>
      rw [List.map_cons, List.nodup_cons] at hnodup
      rw [Slab.reindex]
      cases index with
      | zero =>
          rw [List.map_cons, List.getElem?_cons_zero, Option.some_inj] at h
          subst h
          rw [get_reindex_of_notMem hnodup.1, LawfulSlotTable.get_replace, if_pos rfl]
          rfl
      | succ index =>
          rw [List.map_cons, List.getElem?_cons_succ] at h
          have hne : key ≠ cell.key := by
            rintro rfl
            exact hnodup.1 (List.mem_of_getElem? h)
          rw [ih h hnodup.2, LawfulSlotTable.get_replace, if_neg hne]
          congr 1
          funext _
          omega

/-- A key in the middle is made stale, and those after it move up. -/
theorem Indexed.erase {table : Table} {front : List Key} {cell : Cell Key}
    {later : List (Cell Key)}
    (h : Indexed table (front ++ cell.key :: later.map Cell.key)) :
    Indexed (Slab.reindex (SlotTable.remove table cell.key) front.length later)
      (front ++ later.map Cell.key) := by
  obtain ⟨-, hlater, hapart⟩ := List.nodup_append.mp h.nodup
  rw [List.nodup_cons] at hlater
  refine ⟨fun {index key} hkey => ?_, fun {key} hkey => ?_⟩
  · by_cases hindex : index < front.length
    · rw [List.getElem?_append_left hindex] at hkey
      have hmem : key ∈ front := List.mem_of_getElem? hkey
      have hne : key ≠ cell.key := hapart key hmem _ (List.mem_cons_self ..)
      have hnot : key ∉ later.map Cell.key := fun hlate =>
        hapart key hmem key (List.mem_cons_of_mem _ hlate) rfl
      rw [get_reindex_of_notMem hnot, LawfulSlotTable.get_remove, if_neg hne]
      apply h.place
      rw [List.getElem?_append_left hindex]
      exact hkey
    · rw [List.getElem?_append_right (by omega)] at hkey
      have hne : key ≠ cell.key := by
        rintro rfl
        exact hlater.1 (List.mem_of_getElem? hkey)
      have hplace : SlotTable.get table key = some (index + 1) := by
        apply h.place
        rw [List.getElem?_append_right (by omega), Nat.sub_add_comm (by omega),
          List.getElem?_cons_succ]
        exact hkey
      rw [get_reindex hkey hlater.2, LawfulSlotTable.get_remove, if_neg hne, hplace,
        Option.map_some, Option.some_inj]
      omega
  · rw [List.mem_append, not_or] at hkey
    rw [get_reindex_of_notMem hkey.2, LawfulSlotTable.get_remove]
    split
    · rfl
    · rename_i hne
      exact h.stale (by simp [hne, hkey.1, hkey.2])

end Table

end PocketAlgebra
