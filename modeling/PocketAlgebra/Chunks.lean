/-!
# Lists in pieces

The entries of a matrix are kept in one list, row by row; cutting it into pieces of one length
gives the rows.
-/

namespace PocketAlgebra

/-- A list cut into pieces of the given length, of which the last may be shorter. -/
def chunks {α : Type} (length : Nat) (xs : List α) : List (List α) :=
  match xs with
  | [] => []
  | x :: rest => (x :: rest.take (length - 1)) :: chunks length (rest.drop (length - 1))
termination_by xs.length
decreasing_by
  simp only [List.length_cons, List.length_drop]
  omega

theorem chunks_map {α β : Type} (f : α → β) (count : Nat) (xs : List α) :
    chunks count (xs.map f) = (chunks count xs).map (List.map f) := by
  induction xs using chunks.induct count with
  | case1 => simp [chunks]
  | case2 x rest ih =>
      rw [List.map_cons, chunks, chunks, List.map_cons, List.map_cons, ← List.map_take,
        ← List.map_drop, ih]

variable {α : Type} {count rows : Nat} {xs : List α}

theorem flatten_chunks (count : Nat) (xs : List α) : (chunks count xs).flatten = xs := by
  induction xs using chunks.induct count with
  | case1 => simp [chunks]
  | case2 x rest ih => rw [chunks, List.flatten_cons, ih, List.cons_append, List.take_append_drop]

theorem chunks_rows (hpositive : 0 < count) (hlength : xs.length = rows * count) :
    (chunks count xs).length = rows ∧ ∀ row ∈ chunks count xs, row.length = count := by
  induction rows generalizing xs with
  | zero =>
      rw [Nat.zero_mul, List.length_eq_zero_iff] at hlength
      subst hlength
      simp [chunks]
  | succ rows ih =>
      rw [Nat.succ_mul] at hlength
      cases xs with
      | nil =>
          rw [List.length_nil] at hlength
          omega
      | cons x rest =>
          rw [List.length_cons] at hlength
          have hrest : (rest.drop (count - 1)).length = rows * count := by
            rw [List.length_drop]
            omega
          rcases ih hrest with ⟨hnumber, hrows⟩
          rw [chunks]
          constructor
          · rw [List.length_cons, hnumber]
          · intro row hrow
            rcases List.mem_cons.mp hrow with rfl | hrow
            · rw [List.length_cons, List.length_take]
              omega
            · exact hrows row hrow

/-- The number of entries of rows of one length. -/
theorem length_flatten_of_forall {n : Nat} {rows : List (List α)}
    (h : ∀ row ∈ rows, row.length = n) : rows.flatten.length = rows.length * n := by
  rw [List.length_flatten, List.map_eq_replicate_iff.mpr h, List.sum_replicate_nat]

end PocketAlgebra
