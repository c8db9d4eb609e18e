import Mathlib.Algebra.BigOperators.Field
import Mathlib.LinearAlgebra.Matrix.NonsingularInverse
import Mathlib.Tactic.NormNum
import PocketAlgebra.Proofs.Matrix.Determinant

/-!
# Inverses by elimination

An elimination on the rows of a matrix, extended by those of the identity matrix, keeps for each row
the combination of the rows of the matrix that it has become: the extension holds its coefficients.
So at the end the extensions are the rows of an inverse. An elimination gets that far exactly if the
determinant of the rows that have not held a pivot is not zero at any step, and it is at none or at
all.
-/

namespace PocketAlgebra

namespace Reduction

variable {pivotRow row : List ℚ} {rows others done result : List (List ℚ)}
  {count width n k : Nat} {M : Matrix (Fin n) (Fin n) ℚ}

/-! ## One step -/

/-- The pivot row, multiplied so that it begins with 1. -/
def unitRow (pivotRow : List ℚ) : List ℚ :=
  pivotRow.map (· * (pivotRow.headD 0)⁻¹)

@[simp] theorem length_unitRow (pivotRow : List ℚ) : (unitRow pivotRow).length = pivotRow.length :=
  List.length_map _

theorem getD_unitRow (pivotRow : List ℚ) (j : Nat) :
    (unitRow pivotRow).getD j 0 = pivotRow.getD j 0 / pivotRow.headD 0 := by
  rw [unitRow, div_eq_mul_inv]
  rcases lt_or_ge j pivotRow.length with hj | hj
  · simp [hj]
  · simp [hj]

theorem getD_clear (h : row.length = pivotRow.length) (j : Nat) :
    (clear pivotRow row).getD j 0 =
      row.getD (j + 1) 0 - row.getD 0 0 * pivotRow.getD (j + 1) 0 := by
  rw [clear, getD_map_zip (by simp [h]) (by simp), getD_tail, getD_tail, headD_eq_getD]

/-- A step divides the determinant of the rows without a pivot by the pivot. -/
theorem det_clear (hpivot : pivotRow.headD 0 ≠ 0) (hlength : others.length = n)
    (hothers : ∀ row ∈ others, row.length = pivotRow.length) :
    (matrixOf (n + 1) (n + 1) (pivotRow :: others)).det =
      pivotRow.headD 0 * (matrixOf n n (others.map (clear (unitRow pivotRow)))).det := by
  set A := matrixOf (n + 1) (n + 1) (pivotRow :: others) with hA
  have hcorner : A 0 0 = pivotRow.headD 0 := (headD_eq_getD pivotRow).symm
  rw [det_eq_pivot_mul A (hcorner ▸ hpivot), hcorner]
  congr 2
  ext i j
  have hi : (i : Nat) < others.length := hlength ▸ i.isLt
  have hrow : (others.getD i []).length = (unitRow pivotRow).length := by
    simpa [hi] using hothers _ (List.getElem_mem hi)
  rw [matrixOf_map n _ hlength, getD_clear hrow, getD_unitRow]
  rfl

theorem gaussJordan?_of_pivot {exchanged : Bool} (done : List (List ℚ))
    (h : pivotToFront? rows = some (pivotRow, others, exchanged)) :
    gaussJordan? (count + 1) rows done = gaussJordan? count (others.map (clear (unitRow pivotRow)))
      (done.map (clear (unitRow pivotRow)) ++ [(unitRow pivotRow).tail]) := by
  rw [gaussJordan?, h]
  rfl

/-- An elimination gets to its end exactly if the columns that it eliminates from the rows without
a pivot have a determinant other than zero. -/
theorem gaussJordan?_eq_none_iff (done : List (List ℚ)) (hlength : rows.length = count)
    (hrows : ∀ row ∈ rows, row.length = count + width) :
    gaussJordan? count rows done = none ↔ (matrixOf count count rows).det = 0 := by
  induction count generalizing rows done with
  | zero => simp [gaussJordan?]
  | succ count ih =>
      cases hfront : pivotToFront? rows with
      | none => simp [gaussJordan?, hfront, det_eq_zero_of_pivotToFront? _ hfront]
      | some found =>
          rcases found with ⟨pivotRow, others, exchanged⟩
          have hpivot := hasPivot_of_pivotToFront? hfront
          rcases hpivot.forall hrows with ⟨hpivotRow, hothers⟩
          have hnumber : others.length = count := by
            have := hpivot.length_eq
            omega
          have hequal : ∀ row ∈ others, row.length = pivotRow.length :=
            fun row hrow => (hothers row hrow).trans hpivotRow.symm
          have hdet := hpivot.det_eq hlength
          rw [det_clear hpivot.pivot_ne hnumber hequal] at hdet
          have hzero : (matrixOf (count + 1) (count + 1) rows).det = 0 ↔
              (matrixOf count count (others.map (clear (unitRow pivotRow)))).det = 0 := by
            rw [← mul_eq_zero_iff_left hpivot.pivot_ne (b := (matrixOf count count _).det), hdet]
            cases exchanged <;> simp
          have hcleared : ∀ row ∈ others.map (clear (unitRow pivotRow)),
              row.length = count + width :=
            List.forall_mem_map.mpr fun row hrow => by
              rw [length_clear (by simp [hequal row hrow]), length_unitRow, hpivotRow]
              omega
          rw [gaussJordan?_of_pivot done hfront, hzero]
          exact ih _ (by simp [hnumber]) hcleared

/-! ## Rows as combinations -/

/-- A row stands for a combination of the rows of a matrix. Its last entries are the coefficients,
and those before them are the entries of the combination behind the columns that have been taken
away; in these it has the given entries. -/
structure Combines (M : Matrix (Fin n) (Fin n) ℚ) (k count : Nat) (taken : Nat → ℚ)
    (row : List ℚ) : Prop where
  length_eq : row.length = count + n
  entry : ∀ j : Fin n, ∑ i : Fin n, row.getD (count + i) 0 * M i j =
    if (j : Nat) < k then taken j else row.getD (j - k) 0

namespace Combines

variable {taken : Nat → ℚ}

theorem scaled (h : Combines M k (count + 1) 0 pivotRow) :
    Combines M k (count + 1) 0 (unitRow pivotRow) where
  length_eq := (length_unitRow pivotRow).trans h.length_eq
  entry j := by
    simp only [getD_unitRow, div_mul_eq_mul_div, ← Finset.sum_div, h.entry j]
    split <;> simp

/-- A multiple of the pivot row is taken away, so that another column is zero. -/
theorem cleared {unit : List ℚ} (h : Combines M k (count + 1) taken row)
    (hunit : Combines M k (count + 1) 0 unit) (hone : unit.getD 0 0 = 1) (htaken : taken k = 0) :
    Combines M (k + 1) count taken (clear unit row) where
  length_eq := by
    rw [length_clear (h.length_eq.trans hunit.length_eq.symm), hunit.length_eq]
    omega
  entry j := by
    have hclear := getD_clear (h.length_eq.trans hunit.length_eq.symm)
    have hshift (i : Nat) : count + i + 1 = count + 1 + i := by omega
    simp only [hclear, sub_mul, mul_assoc, Finset.sum_sub_distrib, ← Finset.mul_sum, hshift,
      h.entry j, hunit.entry j]
    rcases lt_trichotomy (j : Nat) k with hj | hj | hj
    · simp [hj, hj.trans k.lt_succ_self]
    · simp only [hj, lt_irrefl, if_false, Nat.sub_self, k.lt_succ_self, if_true, htaken, hone]
      ring
    · have hnext : (j : Nat) - (k + 1) + 1 = j - k := by omega
      simp only [hj.not_gt, (Nat.succ_le_of_lt hj).not_gt, if_false, hnext]

/-- The pivot row, which begins with 1. -/
theorem tail {unit : List ℚ} (hunit : Combines M k (count + 1) 0 unit) (hone : unit.getD 0 0 = 1) :
    Combines M (k + 1) count (Pi.single k 1) unit.tail where
  length_eq := by
    rw [List.length_tail, hunit.length_eq]
    omega
  entry j := by
    have hshift (i : Nat) : count + i + 1 = count + 1 + i := by omega
    simp only [getD_tail, hshift, hunit.entry j]
    rcases lt_trichotomy (j : Nat) k with hj | hj | hj
    · simp [hj, hj.trans k.lt_succ_self, hj.ne]
    · simp only [hj, lt_irrefl, if_false, Nat.sub_self, k.lt_succ_self, if_true, hone,
        Pi.single_eq_same]
    · have hnext : (j : Nat) - (k + 1) + 1 = j - k := by omega
      simp only [hj.not_gt, (Nat.succ_le_of_lt hj).not_gt, if_false, hnext]

end Combines

/-- The rows that have held a pivot stand for the rows of the identity matrix, as far as columns
have been taken away, and the others for combinations that are zero there. -/
structure Eliminates (M : Matrix (Fin n) (Fin n) ℚ) (k count : Nat) (rows done : List (List ℚ)) :
    Prop where
  number_eq : k + count = n
  length_eq : done.length = k
  pending : ∀ row ∈ rows, Combines M k count 0 row
  finished : ∀ i row, done[i]? = some row → Combines M k count (Pi.single i 1) row

theorem Eliminates.step {exchanged : Bool} (h : Eliminates M k (count + 1) rows done)
    (hpivot : HasPivot rows pivotRow others exchanged) :
    Eliminates M (k + 1) count (others.map (clear (unitRow pivotRow)))
      (done.map (clear (unitRow pivotRow)) ++ [(unitRow pivotRow).tail]) := by
  rcases hpivot.forall h.pending with ⟨hpivotRow, hothers⟩
  have hunit := hpivotRow.scaled
  have hone : (unitRow pivotRow).getD 0 0 = 1 := by
    rw [getD_unitRow, ← headD_eq_getD, div_self hpivot.pivot_ne]
  refine ⟨by rw [← h.number_eq]; omega, by simp [h.length_eq], ?_, fun i row hrow => ?_⟩
  · exact List.forall_mem_map.mpr fun row hrow => (hothers row hrow).cleared hunit hone rfl
  · rcases lt_or_ge i k with hi | hi
    · rw [List.getElem?_append_left (by simpa [h.length_eq] using hi), List.getElem?_map,
        Option.map_eq_some_iff] at hrow
      rcases hrow with ⟨row, hrow, rfl⟩
      exact (h.finished i row hrow).cleared hunit hone (Pi.single_eq_of_ne hi.ne' 1)
    · rw [List.getElem?_append_right (by simpa [h.length_eq] using hi), List.length_map,
        h.length_eq] at hrow
      have hlast : i - k = 0 := by simpa using (List.getElem?_eq_some_iff.mp hrow).1
      obtain rfl : i = k := by omega
      rw [hlast] at hrow
      cases hrow
      exact hunit.tail hone

/-- What an elimination leaves at its end are the rows of a matrix whose product with the given one
is the identity. -/
theorem Eliminates.run (h : Eliminates M k count rows done)
    (hresult : gaussJordan? count rows done = some result) : Eliminates M n 0 [] result := by
  induction count generalizing k rows done with
  | zero =>
      cases hresult
      obtain rfl : k = n := h.number_eq
      exact ⟨rfl, h.length_eq, List.forall_mem_nil _, h.finished⟩
  | succ count ih =>
      cases hfront : pivotToFront? rows with
      | none => simp [gaussJordan?, hfront] at hresult
      | some found =>
          rcases found with ⟨pivotRow, others, exchanged⟩
          rw [gaussJordan?_of_pivot done hfront] at hresult
          exact ih (h.step (hasPivot_of_pivotToFront? hfront)) hresult

theorem Eliminates.mul_eq_one (h : Eliminates M n 0 [] result) : matrixOf n n result * M = 1 := by
  ext i j
  have hi : (i : Nat) < result.length := h.length_eq ▸ i.isLt
  have hentry := (h.finished i _ (List.getElem?_eq_getElem hi)).entry j
  simp only [Nat.zero_add, j.isLt, if_true] at hentry
  have hrow (l : Fin n) : matrixOf n n result i l = result[(i : Nat)].getD l 0 := by
    simp [matrixOf, hi]
  simp only [Matrix.mul_apply, hrow, hentry, Matrix.one_apply, Pi.single_apply, Fin.ext_iff,
    eq_comm (a := (j : Nat))]

/-- The extension of a matrix by the identity, before any step. -/
theorem eliminates_extended (M : Matrix (Fin n) (Fin n) ℚ) :
    Eliminates M 0 n ((rowsOf M).mapIdx fun i row => row ++ unitVector n i) [] := by
  refine ⟨Nat.zero_add n, rfl, fun row hrow => ?_, by simp⟩
  rcases List.mem_mapIdx.mp hrow with ⟨i, hi, rfl⟩
  have hin : i < n := by simpa using hi
  have hlength : (rowsOf M)[i].length = n := length_of_mem_rowsOf M (List.getElem_mem hi)
  refine ⟨by simp [hlength, unitVector], fun j => ?_⟩
  have hunit (l : Fin n) : ((rowsOf M)[i] ++ unitVector n i).getD (n + l) 0 =
      if i = l then 1 else 0 := by
    simp [hlength, unitVector]
  have hentry : ((rowsOf M)[i] ++ unitVector n i).getD j 0 = M ⟨i, hin⟩ j := by
    simp [List.getElem?_append_left, rowsOf]
  simp only [hunit, Nat.not_lt_zero, if_false, Nat.sub_zero, hentry, ite_mul, one_mul, zero_mul]
  rw [Finset.sum_eq_single ⟨i, hin⟩ (fun l _ hl => ?_) (by simp), if_pos rfl]
  exact if_neg fun hil => hl (Fin.ext hil.symm)

/-! ## The whole elimination -/

theorem matrixOf_extended (M : Matrix (Fin n) (Fin n) ℚ) :
    matrixOf n n ((rowsOf M).mapIdx fun i row => row ++ unitVector n i) = M := by
  ext i j
  simp [matrixOf, rowsOf, List.getElem?_append_left]

/-- There is no inverse exactly of the matrices that are singular. -/
theorem rationalInverse?_eq_none_iff (M : Matrix (Fin n) (Fin n) ℚ) :
    rationalInverse? (rowsOf M) = none ↔ M.det = 0 := by
  have hextended := (eliminates_extended M).pending
  rw [rationalInverse?, length_rowsOf, gaussJordan?_eq_none_iff [] (by simp)
    fun row hrow => (hextended row hrow).length_eq, matrixOf_extended]

/-- An inverse that is computed is one. -/
theorem mul_eq_one_of_rationalInverse? (h : rationalInverse? (rowsOf M) = some result) :
    ∃ B : Matrix (Fin n) (Fin n) ℚ, result = rowsOf B ∧ M * B = 1 ∧ B * M = 1 := by
  rw [rationalInverse?, length_rowsOf] at h
  have hend := (eliminates_extended M).run h
  have hrows : ∀ row ∈ result, row.length = n := by
    intro row hrow
    rcases List.mem_iff_getElem?.mp hrow with ⟨i, hi⟩
    rw [(hend.finished i row hi).length_eq, Nat.zero_add]
  exact ⟨matrixOf n n result, (rowsOf_matrixOf hend.length_eq hrows).symm,
    mul_eq_one_comm.mp hend.mul_eq_one, hend.mul_eq_one⟩

/-! ## Reciprocals -/

/-- The steps of an elimination with pivots that are inverted, unless one of them is zero. -/
def checkedGaussJordan? :
    Nat → List (List ℚ) → List (List ℚ) → Option (Option (List (List ℚ)))
  | 0, _, done => some (some done)
  | count + 1, rows, done =>
    match pivotToFront? rows with
    | none => some none
    | some (pivotRow, others, _) => do
      let scale ← divide? 1 (pivotRow.headD 0)
      let unitRow := pivotRow.map (· * scale)
      checkedGaussJordan? count (others.map (clear unitRow))
        (done.map (clear unitRow) ++ [unitRow.tail])

/-- The inverse of a square matrix, where it has one, unless a pivot that is inverted is zero. -/
def checkedInverse? (rows : List (List ℚ)) : Option (Option (List (List ℚ))) :=
  let n := rows.length
  checkedGaussJordan? n (rows.mapIdx fun i row => row ++ unitVector n i) []

theorem checkedGaussJordan?_eq_some (count : Nat) (rows done : List (List ℚ)) :
    checkedGaussJordan? count rows done = some (gaussJordan? count rows done) := by
  induction count generalizing rows done with
  | zero => rfl
  | succ count ih =>
      rw [checkedGaussJordan?]
      cases hfront : pivotToFront? rows with
      | none => rw [gaussJordan?, hfront]
      | some found =>
          rcases found with ⟨pivotRow, others, exchanged⟩
          dsimp only
          rw [divide?_of_ne 1 (hasPivot_of_pivotToFront? hfront).pivot_ne, one_div,
            gaussJordan?_of_pivot done hfront]
          exact ih _ _

/-- For every square matrix of rational numbers, an inverse is missing exactly if the determinant is
zero, and otherwise the result is the inverse on both sides. No pivot that is inverted is zero. -/
theorem rationalInverse?_exact (M : Matrix (Fin n) (Fin n) ℚ) :
    (rationalInverse? (rowsOf M) = none ↔ M.det = 0) ∧
      (M.det ≠ 0 → ∃ B : Matrix (Fin n) (Fin n) ℚ,
        rationalInverse? (rowsOf M) = some (rowsOf B) ∧ M * B = 1 ∧ B * M = 1) ∧
      checkedInverse? (rowsOf M) = some (rationalInverse? (rowsOf M)) := by
  have hnone := rationalInverse?_eq_none_iff M
  refine ⟨hnone, fun hdet => ?_, checkedGaussJordan?_eq_some _ _ _⟩
  rcases Option.ne_none_iff_exists'.mp fun h => hdet (hnone.mp h) with ⟨result, hresult⟩
  rcases mul_eq_one_of_rationalInverse? hresult with ⟨B, rfl, hB⟩
  exact ⟨B, hresult, hB⟩

/-- A matrix whose first pivot is found in its second row. -/
theorem rationalInverse?_exact_exchange :
    let M : Matrix (Fin 2) (Fin 2) ℚ := !![0, 2; 1, 3]
    M.det ≠ 0 ∧ ∃ B : Matrix (Fin 2) (Fin 2) ℚ,
      rationalInverse? (rowsOf M) = some (rowsOf B) ∧ M * B = 1 ∧ B * M = 1 := by
  intro M
  have hdet : M.det ≠ 0 := by
    rw [Matrix.det_fin_two_of]
    norm_num
  exact ⟨hdet, (rationalInverse?_exact M).2.1 hdet⟩

end Reduction

end PocketAlgebra
