import Mathlib.LinearAlgebra.Matrix.Determinant.Basic
import Mathlib.Tactic.FieldSimp
import Mathlib.Tactic.LinearCombination
import PocketAlgebra.Reduction.Matrix

/-!
# Determinants by elimination

The rows that an elimination works on are those of a matrix. The search for a pivot exchanges at
most two of them, and taking multiples of the pivot row from the others changes no determinant: what
is left is the pivot times the determinant of the smaller matrix.

An elimination without fractions multiplies the determinant by powers of the pivots and divides them
out again one step later, so that the last entry is the determinant. Only pivots are divided by, and
no pivot is zero.
-/

namespace PocketAlgebra

namespace Reduction

/-! ## Rows and matrices -/

/-- The rows of a matrix. -/
def rowsOf {m n : Nat} {α : Type*} (M : Matrix (Fin m) (Fin n) α) : List (List α) :=
  List.ofFn fun i => List.ofFn (M i)

/-- The matrix with the given rows, as far as it reaches; entries that are not there are zero. -/
def matrixOf (m n : Nat) (rows : List (List ℚ)) : Matrix (Fin m) (Fin n) ℚ :=
  Matrix.of fun i j => (rows.getD i []).getD j 0

section RowsOf

variable {m n : Nat} {α : Type*} (M : Matrix (Fin m) (Fin n) α)

@[simp] theorem length_rowsOf : (rowsOf M).length = m :=
  List.length_ofFn

theorem length_of_mem_rowsOf {row : List α} (h : row ∈ rowsOf M) : row.length = n := by
  rcases List.mem_ofFn.mp h with ⟨i, rfl⟩
  exact List.length_ofFn

@[simp] theorem matrixOf_rowsOf (M : Matrix (Fin m) (Fin n) ℚ) : matrixOf m n (rowsOf M) = M := by
  ext i j
  simp [matrixOf, rowsOf]

end RowsOf

theorem rowsOf_matrixOf {m n : Nat} {rows : List (List ℚ)} (hlength : rows.length = m)
    (hrows : ∀ row ∈ rows, row.length = n) : rowsOf (matrixOf m n rows) = rows := by
  subst hlength
  refine List.ext_getElem List.length_ofFn fun i _ hi => ?_
  have hrow : rows[i].length = n := hrows _ (List.getElem_mem hi)
  refine List.ext_getElem (by simp [rowsOf, hrow]) fun j hj _ => ?_
  simp [rowsOf, matrixOf, hrow.symm ▸ (by simpa [rowsOf] using hj : j < n)]

variable {row pivotRow : List ℚ} {rows others : List (List ℚ)} {exchanged : Bool}

theorem headD_eq_getD (row : List ℚ) : row.headD 0 = row.getD 0 0 := by
  cases row <;> rfl

theorem matrixOf_map {m : Nat} (n : Nat) (f : List ℚ → List ℚ) (hlength : rows.length = m)
    (i : Fin m) (j : Fin n) : matrixOf m n (rows.map f) i j = (f (rows.getD i [])).getD j 0 := by
  have hi : (i : Nat) < rows.length := hlength ▸ i.isLt
  simp [matrixOf, hi]

/-- Two rows of one length are combined entry by entry. -/
theorem getD_map_zip {xs ys : List ℚ} (h : xs.length = ys.length) {f : ℚ × ℚ → ℚ}
    (hf : f (0, 0) = 0) (j : Nat) :
    ((xs.zip ys).map f).getD j 0 = f (xs.getD j 0, ys.getD j 0) := by
  rcases lt_or_ge j xs.length with hj | hj
  · simp [hj, h ▸ hj]
  · simp [hj, h ▸ hj, hf]

theorem getD_tail (row : List ℚ) (j : Nat) : row.tail.getD j 0 = row.getD (j + 1) 0 := by
  cases row <;> rfl

theorem length_clear (h : row.length = pivotRow.length) :
    (clear pivotRow row).length = pivotRow.length - 1 := by
  simp [clear, h]

/-! ## The search for a pivot -/

/-- The rows are those that there were, with the first one and the pivot row exchanged where the
first one does not hold the pivot. -/
structure HasPivot (rows : List (List ℚ)) (pivotRow : List ℚ) (others : List (List ℚ))
    (exchanged : Bool) : Prop where
  pivot_ne : pivotRow.headD 0 ≠ 0
  length_eq : others.length + 1 = rows.length
  exists_swap : ∃ k, (exchanged = true ↔ k ≠ 0) ∧
    ∀ i : Nat, (pivotRow :: others)[i]? = rows[Equiv.swap 0 k i]?

/-- The first row is exchanged with one behind those that have been passed. -/
theorem hasPivot_of_exchange {first : List ℚ} {passed : List (List ℚ)}
    (h : pivotToFront?.exchange first passed rows = some (pivotRow, others, exchanged)) :
    HasPivot (first :: (passed.reverse ++ rows)) pivotRow others exchanged := by
  induction rows generalizing passed with
  | nil => cases h
  | cons row rows ih =>
      rw [pivotToFront?.exchange] at h
      split at h
      case isTrue hpivot =>
        cases h
        refine ⟨hpivot, by simp, passed.length + 1, by simp, fun i => ?_⟩
        rcases i with _ | i
        · simp
        · rcases lt_trichotomy i passed.length with hi | rfl | hi
          · rw [Equiv.swap_apply_of_ne_of_ne (by omega) (by omega)]
            simp [List.getElem?_append_left, hi]
          · simp
          · rw [Equiv.swap_apply_of_ne_of_ne (by omega) (by omega)]
            obtain ⟨k, hk⟩ : ∃ k, i - passed.length = k + 1 := ⟨i - passed.length - 1, by omega⟩
            simp [List.getElem?_append_right, hi.le, hk]
      case isFalse =>
        have hrest := ih h
        rwa [List.reverse_cons, List.append_assoc, List.singleton_append] at hrest

theorem hasPivot_of_pivotToFront? (h : pivotToFront? rows = some (pivotRow, others, exchanged)) :
    HasPivot rows pivotRow others exchanged := by
  cases rows with
  | nil => cases h
  | cons row rows =>
      rw [pivotToFront?] at h
      split at h
      case isTrue hpivot =>
        cases h
        exact ⟨hpivot, rfl, 0, by simp, by simp⟩
      case isFalse => exact hasPivot_of_exchange h

/-- What holds of all rows holds of the pivot row and the others. -/
theorem HasPivot.forall (h : HasPivot rows pivotRow others exchanged) {P : List ℚ → Prop}
    (hrows : ∀ row ∈ rows, P row) : P pivotRow ∧ ∀ row ∈ others, P row := by
  rcases h.exists_swap with ⟨k, -, hk⟩
  refine List.forall_mem_cons.mp fun row hrow => ?_
  rcases List.mem_iff_getElem?.mp hrow with ⟨i, hi⟩
  rw [hk] at hi
  exact hrows row (List.mem_of_getElem? hi)

theorem exchange_eq_none {first : List ℚ} {passed : List (List ℚ)}
    (h : pivotToFront?.exchange first passed rows = none) : ∀ row ∈ rows, row.headD 0 = 0 := by
  induction rows generalizing passed with
  | nil => exact List.forall_mem_nil _
  | cons row rows ih =>
      rw [pivotToFront?.exchange] at h
      split at h
      case isTrue => cases h
      case isFalse hzero => exact List.forall_mem_cons.mpr ⟨not_not.mp hzero, ih h⟩

/-- Where no row holds a pivot, the first column is zero. -/
theorem headD_of_pivotToFront? (h : pivotToFront? rows = none) : ∀ row ∈ rows, row.headD 0 = 0 := by
  cases rows with
  | nil => exact List.forall_mem_nil _
  | cons row rows =>
      rw [pivotToFront?] at h
      split at h
      case isTrue => cases h
      case isFalse hzero => exact List.forall_mem_cons.mpr ⟨not_not.mp hzero, exchange_eq_none h⟩

/-! ## Determinants -/

theorem det_eq_zero_of_pivotToFront? (n : Nat) (h : pivotToFront? rows = none) :
    (matrixOf (n + 1) (n + 1) rows).det = 0 := by
  refine Matrix.det_eq_zero_of_column_eq_zero 0 fun i => ?_
  rw [matrixOf, Matrix.of_apply, Fin.val_zero, ← headD_eq_getD, List.getD_eq_getElem?_getD]
  cases hrow : rows[(i : Nat)]? with
  | none => rfl
  | some row => exact headD_of_pivotToFront? h row (List.mem_of_getElem? hrow)

/-- An exchange of rows changes the sign of the determinant. -/
theorem HasPivot.det_eq {n : Nat} (h : HasPivot rows pivotRow others exchanged)
    (hlength : rows.length = n) :
    (matrixOf n n (pivotRow :: others)).det =
      (if exchanged then -1 else 1) * (matrixOf n n rows).det := by
  rcases h.exists_swap with ⟨k, hexchanged, hk⟩
  have hfirst : rows[k]? = some pivotRow := by simpa using (hk 0).symm
  have hkn : k < n := hlength ▸ (List.getElem?_eq_some_iff.mp hfirst).1
  have hn : NeZero n := ⟨by omega⟩
  have hrows : matrixOf n n (pivotRow :: others) =
      (matrixOf n n rows).submatrix (Equiv.swap 0 ⟨k, hkn⟩) id := by
    ext i j
    have hswap : ((Equiv.swap 0 ⟨k, hkn⟩ i : Fin n) : Nat) = Equiv.swap 0 k i := by
      simp only [Equiv.swap_apply_def, Fin.ext_iff, Fin.val_zero]
      split_ifs <;> rfl
    simp [matrixOf, List.getD_eq_getElem?_getD, hk, hswap]
  have hzero : ((0 : Fin n) = ⟨k, hkn⟩) ↔ ¬ exchanged = true := by
    rw [hexchanged, Fin.ext_iff, Fin.val_zero, not_not, eq_comm]
  rw [hrows, Matrix.det_permute, Equiv.Perm.sign_swap']
  cases exchanged <;> simp_all

variable {K : Type*} [Field K]

/-- Multiples of the first row are taken from the others, so that the pivot is left alone in its
column. -/
theorem det_eq_pivot_mul {n : Nat} (A : Matrix (Fin (n + 1)) (Fin (n + 1)) K) (h : A 0 0 ≠ 0) :
    A.det = A 0 0 * (Matrix.of fun i j : Fin n =>
      A i.succ j.succ - A i.succ 0 * (A 0 j.succ / A 0 0)).det := by
  let factor : Fin (n + 1) → K := Fin.cons 0 fun i => A i.succ 0 / A 0 0
  let B := Matrix.of fun i j => A i j - factor i * A 0 j
  have hdet : A.det = B.det := by
    refine Matrix.det_eq_of_forall_row_eq_smul_add_const factor 0 rfl fun i j => ?_
    simp [B, factor]
  have hcolumn : ∀ i : Fin n, B i.succ 0 = 0 := fun i => by simp [B, factor, h]
  rw [hdet, Matrix.det_succ_column_zero, Fin.sum_univ_succ,
    Finset.sum_eq_zero fun i _ => by rw [hcolumn i, mul_zero, zero_mul]]
  have hcorner : B 0 0 = A 0 0 := by simp [B, factor]
  rw [hcorner, Fin.val_zero, pow_zero, one_mul, add_zero]
  congr 2
  ext i j
  simp [B, factor]
  ring

variable {previous : ℚ} {count n : Nat}

/-! ## One step -/

theorem getD_eliminate (previous : ℚ) (h : row.length = pivotRow.length) (j : Nat) :
    (eliminate previous pivotRow row).getD j 0 =
      (row.getD (j + 1) 0 * pivotRow.getD 0 0 - row.getD 0 0 * pivotRow.getD (j + 1) 0) /
        previous := by
  rw [eliminate, getD_map_zip (by simp [h]) (by simp), getD_tail, getD_tail, headD_eq_getD,
    headD_eq_getD]

theorem length_eliminate (previous : ℚ) (h : row.length = pivotRow.length) :
    (eliminate previous pivotRow row).length = pivotRow.length - 1 := by
  simp [eliminate, h]

/-- What is left by a step has the determinant of the rows, times powers of the pivot. -/
theorem det_eliminate (hprevious : previous ≠ 0) (hpivot : pivotRow.headD 0 ≠ 0)
    (hlength : others.length = n) (hothers : ∀ row ∈ others, row.length = pivotRow.length) :
    (matrixOf n n (others.map (eliminate previous pivotRow))).det * previous ^ n *
        pivotRow.headD 0 =
      pivotRow.headD 0 ^ n * (matrixOf (n + 1) (n + 1) (pivotRow :: others)).det := by
  set A := matrixOf (n + 1) (n + 1) (pivotRow :: others) with hA
  have hcorner : A 0 0 = pivotRow.headD 0 := (headD_eq_getD pivotRow).symm
  have hrest : matrixOf n n (others.map (eliminate previous pivotRow)) =
      (A 0 0 / previous) • Matrix.of fun i j : Fin n =>
        A i.succ j.succ - A i.succ 0 * (A 0 j.succ / A 0 0) := by
    ext i j
    have hi : (i : Nat) < others.length := hlength ▸ i.isLt
    have hrow : (others.getD i []).length = pivotRow.length := by
      simpa [hi] using hothers _ (List.getElem_mem hi)
    rw [matrixOf_map n _ hlength, getD_eliminate previous hrow]
    change (A i.succ j.succ * A 0 0 - A i.succ 0 * A 0 j.succ) / previous =
      A 0 0 / previous * (A i.succ j.succ - A i.succ 0 * (A 0 j.succ / A 0 0))
    have hne : A 0 0 ≠ 0 := hcorner ▸ hpivot
    field_simp
  rw [hrest, Matrix.det_smul, Fintype.card_fin, ← hcorner,
    det_eq_pivot_mul A (hcorner ▸ hpivot), div_pow]
  field_simp

/-! ## The whole elimination -/

/-- The elimination divides by the pivot before it as often as it has multiplied by it. -/
theorem eliminatedDeterminant_mul_pow (hprevious : previous ≠ 0)
    (hlength : rows.length = count + 1) (hrows : ∀ row ∈ rows, row.length = count + 1) :
    eliminatedDeterminant previous (count + 1) rows * previous ^ count =
      (matrixOf (count + 1) (count + 1) rows).det := by
  induction count generalizing previous rows with
  | zero =>
      rw [eliminatedDeterminant, pow_zero, mul_one, Matrix.det_fin_one, headD_eq_getD]
      cases rows <;> rfl
  | succ count ih =>
      rw [eliminatedDeterminant]
      split
      case h_1 hnone => rw [det_eq_zero_of_pivotToFront? _ hnone, zero_mul]
      case h_2 pivotRow others exchanged hfront =>
        have hpivot := hasPivot_of_pivotToFront? hfront
        rcases hpivot.forall hrows with ⟨hpivotRow, hothers⟩
        have hnumber : others.length = count + 1 := by
          have := hpivot.length_eq
          omega
        have hrest := @ih (others.map (eliminate previous pivotRow)) (pivotRow.headD 0)
          hpivot.pivot_ne (by simp [hnumber])
          (List.forall_mem_map.mpr fun row hrow => by
            rw [length_eliminate _ ((hothers row hrow).trans hpivotRow.symm), hpivotRow]
            rfl)
        have hstep := det_eliminate hprevious hpivot.pivot_ne hnumber
          fun row hrow => (hothers row hrow).trans hpivotRow.symm
        have hpower : eliminatedDeterminant (pivotRow.headD 0) (count + 1)
            (others.map (eliminate previous pivotRow)) * previous ^ (count + 1) =
              (matrixOf (count + 2) (count + 2) (pivotRow :: others)).det := by
          refine mul_left_cancel₀ (pow_ne_zero (count + 1) hpivot.pivot_ne) ?_
          rw [← hrest] at hstep
          linear_combination hstep
        rw [hpivot.det_eq hlength] at hpower
        cases exchanged with
        | false => simpa using hpower
        | true => simpa [neg_eq_iff_eq_neg] using hpower

/-- The determinant that is computed for a matrix of rational numbers is its determinant. -/
theorem rationalDeterminant_rowsOf {n : Nat} (M : Matrix (Fin n) (Fin n) ℚ) :
    rationalDeterminant (rowsOf M) = M.det := by
  rw [rationalDeterminant, length_rowsOf]
  cases n with
  | zero => rw [eliminatedDeterminant, Matrix.det_fin_zero]
  | succ n =>
      have hdet := eliminatedDeterminant_mul_pow one_ne_zero (length_rowsOf M)
        fun row => length_of_mem_rowsOf M
      rwa [one_pow, mul_one, matrixOf_rowsOf] at hdet

/-! ## Divisions -/

/-- A quotient; there is none by zero. -/
def divide? (x y : ℚ) : Option ℚ :=
  if y = 0 then none else some (x / y)

theorem divide?_of_ne {y : ℚ} (x : ℚ) (hy : y ≠ 0) : divide? x y = some (x / y) :=
  if_neg hy

/-- A row with its leading entry eliminated, unless that takes a division by zero. -/
def checkedEliminate? (previous : ℚ) (pivotRow row : List ℚ) : Option (List ℚ) :=
  let pivot := pivotRow.headD 0
  let head := row.headD 0
  (row.tail.zip pivotRow.tail).mapM fun (x, y) => divide? (x * pivot - head * y) previous

/-- What an elimination comes to, unless it takes a division by zero. -/
def checkedEliminatedDeterminant? (previous : ℚ) : Nat → List (List ℚ) → Option ℚ
  | 0, _ => some 1
  | 1, rows => some ((rows.headD []).headD 0)
  | count + 2, rows =>
    match pivotToFront? rows with
    | none => some 0
    | some (pivotRow, others, exchanged) => do
      let others ← others.mapM (checkedEliminate? previous pivotRow)
      let rest ← checkedEliminatedDeterminant? (pivotRow.headD 0) (count + 1) others
      return if exchanged then -rest else rest

/-- The determinant of a square matrix, unless computing it takes a division by zero. -/
def checkedDeterminant? (rows : List (List ℚ)) : Option ℚ :=
  checkedEliminatedDeterminant? 1 rows.length rows

theorem checkedEliminate?_eq_some (hprevious : previous ≠ 0) (pivotRow row : List ℚ) :
    checkedEliminate? previous pivotRow row = some (eliminate previous pivotRow row) := by
  have hdivide (entry : ℚ × ℚ) (pivot head : ℚ) :
      divide? (entry.1 * pivot - head * entry.2) previous =
        pure ((entry.1 * pivot - head * entry.2) / previous) := divide?_of_ne _ hprevious
  simp only [checkedEliminate?, hdivide, List.mapM_pure, eliminate]
  rfl

/-- The first step divides by a number that is not zero, and every other one by a pivot. -/
theorem checkedEliminatedDeterminant?_eq_some : ∀ (count : Nat) {previous : ℚ}, previous ≠ 0 →
    ∀ rows : List (List ℚ), checkedEliminatedDeterminant? previous count rows =
      some (eliminatedDeterminant previous count rows)
  | 0, _, _, _ | 1, _, _, _ => rfl
  | count + 2, previous, hprevious, rows => by
      rw [checkedEliminatedDeterminant?, eliminatedDeterminant]
      cases hfront : pivotToFront? rows with
      | none => rfl
      | some found =>
          rcases found with ⟨pivotRow, others, exchanged⟩
          have hothers : others.mapM (checkedEliminate? previous pivotRow) =
              some (others.map (eliminate previous pivotRow)) := by
            rw [funext (checkedEliminate?_eq_some hprevious pivotRow)]
            exact List.mapM_pure
          have hpivot := (hasPivot_of_pivotToFront? hfront).pivot_ne
          dsimp only
          rw [hothers, Option.bind_eq_bind, Option.bind_some,
            checkedEliminatedDeterminant?_eq_some (count + 1) hpivot]
          rfl

theorem checkedDeterminant?_eq_some (rows : List (List ℚ)) :
    checkedDeterminant? rows = some (rationalDeterminant rows) :=
  checkedEliminatedDeterminant?_eq_some _ one_ne_zero rows

end Reduction

end PocketAlgebra
