import Mathlib.Data.List.OfFn
import Mathlib.Data.List.Sort
import PocketAlgebra.Proofs.Extent.Matrix
import PocketAlgebra.Proofs.Field.Reduction
import PocketAlgebra.Proofs.Matrix.Determinant
import PocketAlgebra.Proofs.Principal.Value

/-!
# Matrices of expressions

A matrix of expressions is kept as one list, row by row. Where the list is complete, it is that of a
function of rows and columns, and the matrices that the rules compute are given by such functions.

The expansion along the first row has the determinant of the values of the entries for its value,
in every field of characteristic zero. Together with the elimination this gives the value of the
determinant of any small matrix of field expressions.
-/

namespace PocketAlgebra

namespace Reduction

open PocketAlgebra.Expr

variable {m n rows columns : Nat}

/-! ## Lists of entries -/

section Rows

variable {α β : Type*}

theorem rowsOf_succ (X : Matrix (Fin (m + 1)) (Fin n) α) :
    rowsOf X = List.ofFn (X 0) :: rowsOf (X.submatrix Fin.succ id) :=
  List.ofFn_succ

theorem getElem?_flatten_rowsOf (X : Matrix (Fin m) (Fin n) α) (i : Fin m) (j : Fin n) :
    (rowsOf X).flatten[(i : Nat) * n + j]? = some (X i j) := by
  induction m with
  | zero => exact i.elim0
  | succ m ih =>
      rw [rowsOf_succ, List.flatten_cons]
      refine Fin.cases ?_ (fun i => ?_) i
      · rw [Fin.val_zero, Nat.zero_mul, Nat.zero_add,
          List.getElem?_append_left (by simp), List.getElem?_ofFn, dif_pos j.isLt]
      · rw [Fin.val_succ, Nat.succ_mul, List.getElem?_append_right (by simp; omega),
          List.length_ofFn, Nat.add_right_comm, Nat.add_sub_cancel, ih]
        rfl

theorem mem_flatten_rowsOf {X : Matrix (Fin m) (Fin n) α} {x : α} :
    x ∈ (rowsOf X).flatten ↔ ∃ i j, X i j = x := by
  simp [rowsOf, List.mem_flatten, List.mem_ofFn]

theorem rowsOf_map (X : Matrix (Fin m) (Fin n) α) (f : α → β) :
    rowsOf (X.map f) = (rowsOf X).map (List.map f) := by
  simp only [rowsOf, List.map_ofFn, Function.comp_def]
  rfl

theorem map_range_eq_ofFn (f : Nat → α) :
    (List.range n).map f = List.ofFn fun i : Fin n => f i := by
  rw [← List.map_coe_finRange_eq_range, List.map_map, List.ofFn_eq_map]
  rfl

/-- A list of the right length is one of rows. -/
theorem exists_flatten_rowsOf {xs : List α} (h : xs.length = m * n) :
    ∃ X : Matrix (Fin m) (Fin n) α, xs = (rowsOf X).flatten := by
  obtain ⟨f, rfl⟩ : ∃ f : Fin (m * n) → α, xs = List.ofFn f := by
    rw [← h]
    exact ⟨xs.get, xs.ofFn_get.symm⟩
  exact ⟨_, List.ofFn_mul f⟩

theorem flatten_rowsOf_injective :
    Function.Injective fun X : Matrix (Fin m) (Fin n) α => (rowsOf X).flatten := by
  intro X Y h
  ext i j
  have hentry := congrArg (fun xs => xs[(i : Nat) * n + j]?) h
  rwa [getElem?_flatten_rowsOf, getElem?_flatten_rowsOf, Option.some_inj] at hentry

theorem forall_of_forall₂_flatten_rowsOf {X : Matrix (Fin m) (Fin n) α}
    {Y : Matrix (Fin m) (Fin n) β} {R : α → β → Prop}
    (h : List.Forall₂ R (rowsOf X).flatten (rowsOf Y).flatten) (i : Fin m) (j : Fin n) :
    R (X i j) (Y i j) := by
  rcases List.getElem?_eq_some_iff.mp (getElem?_flatten_rowsOf X i j) with ⟨hx, hX⟩
  rcases List.getElem?_eq_some_iff.mp (getElem?_flatten_rowsOf Y i j) with ⟨hy, hY⟩
  rw [← hX, ← hY]
  exact h.get hx hy

theorem chunks_flatten {α : Type} {rows : List (List α)} (hn : 0 < n)
    (h : ∀ row ∈ rows, row.length = n) :
    chunks n rows.flatten = rows := by
  induction rows with
  | nil => simp [chunks]
  | cons row rows ih =>
      rcases List.forall_mem_cons.mp h with ⟨hrow, hrows⟩
      cases row with
      | nil => simp at hrow; omega
      | cons x rest =>
          rw [List.length_cons] at hrow
          rw [List.flatten_cons, List.cons_append, chunks, ← hrow, Nat.add_sub_cancel,
            List.take_left', List.drop_left', hrow, ih hrows]
          all_goals rfl

theorem eq_map_of_mapM_eq_some {α β : Type} {part? : α → Option β} {f : β → α} {xs : List α}
    {parts : List β} (hf : ∀ x part, part? x = some part → x = f part)
    (h : xs.mapM part? = some parts) : xs = parts.map f := by
  rw [← List.forall₂_eq_eq_eq, List.forall₂_map_right_iff]
  exact (forall₂_of_mapM_eq_some h).imp hf

end Rows

namespace Grid

/-- The matrix with the given entries. -/
def ofMatrix (X : Matrix (Fin m) (Fin n) Expr) : Grid :=
  ⟨m, n, (rowsOf X).flatten⟩

@[simp] theorem ofMatrix_rows (X : Matrix (Fin m) (Fin n) Expr) : (ofMatrix X).rows = m :=
  rfl

theorem entry_ofMatrix (X : Matrix (Fin m) (Fin n) Expr) (i : Fin m) (j : Fin n) :
    (ofMatrix X).entry i j = X i j := by
  rw [entry, ofMatrix, getElem?_flatten_rowsOf]
  rfl

theorem length_entries_ofMatrix (X : Matrix (Fin m) (Fin n) Expr) :
    (ofMatrix X).entries.length = m * n := by
  rw [ofMatrix, length_flatten_of_forall fun row => length_of_mem_rowsOf X, length_rowsOf]

theorem ofFunction_eq_ofMatrix (entry : Nat → Nat → Expr) :
    ofFunction m n entry = ofMatrix (Matrix.of fun (i : Fin m) (j : Fin n) => entry i j) := by
  rw [ofFunction, ofMatrix, List.flatMap_def, map_range_eq_ofFn]
  simp only [map_range_eq_ofFn]
  rfl

/-! ## Minors -/

/-- All columns but one, in order. -/
theorem filter_range_ne (column : Fin (n + 1)) :
    (List.range (n + 1)).filter (fun j => j ≠ (column : Nat)) =
      List.ofFn fun j : Fin n => (column.succAbove j : Nat) := by
  have hsorted : (List.ofFn fun j : Fin n => (column.succAbove j : Nat)).Pairwise (· < ·) := by
    rw [List.pairwise_ofFn]
    exact fun i j hij => column.strictMono_succAbove hij
  refine List.Perm.eq_of_pairwise' (List.pairwise_lt_range.filter _) hsorted ?_
  refine (List.perm_ext_iff_of_nodup (List.nodup_range.filter _)
    (hsorted.imp fun h => ne_of_lt h)).mpr fun k => ?_
  simp only [List.mem_filter, List.mem_range, List.mem_ofFn, decide_eq_true_eq]
  constructor
  · rintro ⟨hk, hne⟩
    have hother : (⟨k, hk⟩ : Fin (n + 1)) ≠ column := fun h => hne (congrArg Fin.val h)
    rcases Fin.exists_succAbove_eq hother with ⟨j, hj⟩
    exact ⟨j, by rw [hj]⟩
  · rintro ⟨j, rfl⟩
    exact ⟨(column.succAbove j).isLt, fun h => column.succAbove_ne j (Fin.ext h)⟩

theorem minor_ofMatrix (X : Matrix (Fin (n + 1)) (Fin (n + 1)) Expr) (column : Fin (n + 1)) :
    (ofMatrix X).minor column = ofMatrix (X.submatrix Fin.succ column.succAbove) := by
  have hentry (i j : Fin n) :
      (ofMatrix X).entry (i + 1) (column.succAbove j) = X i.succ (column.succAbove j) :=
    entry_ofMatrix X i.succ (column.succAbove j)
  simp only [minor, ofMatrix_rows, filter_range_ne, Nat.add_sub_cancel, List.map_ofFn,
    List.flatMap_def, map_range_eq_ofFn, Function.comp_def, hentry]
  rfl

/-! ## Rational numbers -/

theorem rationals?_ofMatrix (M : Matrix (Fin n) (Fin n) ℚ) :
    (ofMatrix (M.map .rational)).rationals? = some (rowsOf M) := by
  have hchunks : chunks n (rowsOf M).flatten = rowsOf M := by
    rcases n.eq_zero_or_pos with rfl | hn
    · simp [rowsOf, chunks]
    · exact chunks_flatten hn fun row => length_of_mem_rowsOf M
  have hrow (row : List ℚ) : (row.map .rational).mapM Expr.rational? = some row := by
    rw [List.mapM_map]
    exact List.mapM_pure.trans (congrArg some row.map_id)
  rw [rationals?, ofMatrix, rowsOf_map, ← List.map_flatten, chunks_map, hchunks, List.mapM_map,
    Function.comp_def]
  simp only [hrow]
  exact List.mapM_pure.trans (congrArg some (rowsOf M).map_id)

theorem exists_of_rationals? {X : Matrix (Fin n) (Fin n) Expr} {qs : List (List ℚ)}
    (h : (ofMatrix X).rationals? = some qs) :
    ∃ M : Matrix (Fin n) (Fin n) ℚ, X = M.map .rational ∧ qs = rowsOf M := by
  rcases rows_of_rationals? rfl (length_entries_ofMatrix X) h with ⟨hlength, hrows⟩
  have hqs : rowsOf (matrixOf n n qs) = qs := rowsOf_matrixOf hlength hrows
  refine ⟨matrixOf n n qs, flatten_rowsOf_injective ?_, hqs.symm⟩
  have hchunks : chunks n (rowsOf X).flatten = qs.map (List.map .rational) :=
    eq_map_of_mapM_eq_some (fun _ _ hrow => eq_map_of_mapM_eq_some (fun _ _ => eq_rational) hrow) h
  dsimp only
  rw [rowsOf_map, hqs, ← hchunks, flatten_chunks]

theorem ofRationals_rowsOf (M : Matrix (Fin n) (Fin n) ℚ) :
    ofRationals (rowsOf M) = ofMatrix (M.map .rational) := by
  have hcolumns : ((rowsOf M).headD []).length = n := by
    cases n with
    | zero => rfl
    | succ n => rw [rowsOf_succ, List.headD_cons, List.length_ofFn]
  rw [ofRationals, ofMatrix, rowsOf_map, ← List.map_flatten, length_rowsOf, hcolumns]

theorem identity_eq_ofMatrix (n : Nat) :
    identity n = ofMatrix ((1 : Matrix (Fin n) (Fin n) ℚ).map .rational) := by
  rw [identity, ofFunction_eq_ofMatrix]
  congr 1
  ext i j
  simp only [Matrix.of_apply, Matrix.map_apply, Matrix.one_apply, Fin.val_inj, Expr.integer]
  split <;> rfl

end Grid

end Reduction

open PocketAlgebra.Expr

namespace Reduction

variable {K : Type*} [Field K] [CharZero K] {ρ : Valuation K} {node : NodeReducer} {ctx : Context}
  {n : Nat}

/-! ## The expansion along the first row -/

/-- A cofactor is negated in every other column. -/
theorem term_spec (hnode : KeepsValues ρ node) {x y : Expr} {v : K} (hx : Normal ρ x)
    (hy : Represents ρ v y) (column : Nat) :
    Yields (do
        let term ← multiply node [x, y]
        if column % 2 = 1 then negate node term else return term)
      (Represents ρ ((-1) ^ column * x.value ρ * v)) := by
  have hproduct := hnode.product (forall_mem_pair hx hy.normal)
  refine hproduct.bind fun term hterm => ?_
  have hvalue : ([x, y].map (value ρ)).prod = x.value ρ * v := by simp [hy.value_eq]
  rw [hvalue] at hterm
  split
  case isTrue hodd =>
    rw [(Nat.odd_iff.mpr hodd).neg_one_pow, neg_one_mul, neg_mul]
    exact negate_spec hnode hterm
  case isFalse heven =>
    rw [(Nat.even_iff.mpr (by omega)).neg_one_pow, one_mul]
    exact Yields.pure hterm

/-- The expansion of the determinant of a matrix of reduced field expressions. -/
theorem cofactorDeterminant_spec (hnode : KeepsValues ρ node) :
    ∀ {n : Nat} (X : Matrix (Fin (n + 1)) (Fin (n + 1)) Expr), (∀ i j, Normal ρ (X i j)) →
      Yields (Grid.cofactorDeterminant node (n + 1) (.ofMatrix X))
        (Represents ρ (X.map (value ρ)).det)
  | 0, X, hX => by
      have hentry := Grid.entry_ofMatrix X 0 0
      rw [Grid.cofactorDeterminant, Matrix.det_fin_one]
      exact Yields.pure (hentry ▸ ⟨hX 0 0, rfl⟩)
  | n + 1, X, hX => by
      let minor (column : Fin (n + 2)) := X.submatrix Fin.succ column.succAbove
      let cofactor (column : Fin (n + 2)) : K :=
        (-1) ^ (column : Nat) * (X 0 column).value ρ * ((minor column).map (value ρ)).det
      rw [Grid.cofactorDeterminant, ← List.map_coe_finRange_eq_range, List.mapM_map]
      refine (Yields.mapM (R := fun column => Represents ρ (cofactor column))
        fun column _ => ?_).bind fun terms hterms => ?_
      · have hentry : (Grid.ofMatrix X).entry 0 column = X 0 column :=
          Grid.entry_ofMatrix X 0 column
        rw [Function.comp_apply, Grid.minor_ofMatrix, hentry]
        have hminor := cofactorDeterminant_spec hnode (minor column) fun i j => hX _ _
        exact hminor.bind fun y hy => term_spec hnode (hX 0 column) hy column
      · rcases represents_map_of_forall₂ hterms with ⟨hnormal, hvalues⟩
        have hdet : (X.map (value ρ)).det = (terms.map (value ρ)).sum := by
          rw [hvalues, Matrix.det_succ_row_zero, ← List.ofFn_eq_map, List.sum_ofFn]
          rfl
        rw [hdet]
        exact hnode.sum hnormal

/-! ## Determinants of reduced matrices -/

/-- The determinant of a matrix of at most three rows, which are expanded unless all entries are
numbers. -/
theorem determinant_spec (hnode : KeepsValues ρ node) (X : Matrix (Fin n) (Fin n) Expr)
    (hX : ∀ i j, Normal ρ (X i j)) (hn : n ≤ maxExpandedRows) :
    Yields (determinant node (.ofMatrix X)) (Represents ρ (X.map (value ρ)).det) := by
  rw [determinant]
  cases hrationals : (Grid.ofMatrix X).rationals? with
  | some rows =>
      rcases Grid.exists_of_rationals? hrationals with ⟨M, rfl, rfl⟩
      have hdet : ((M.map Expr.rational).map (value ρ)).det = ((M.det : ℚ) : K) :=
        (RingHom.map_det (Rat.castHom K) M).symm
      dsimp only
      rw [hdet, rationalDeterminant_rowsOf]
      exact Yields.pure ⟨.rational _, rfl⟩
  | none =>
      dsimp only
      rw [Grid.ofMatrix_rows, if_pos hn]
      cases n with
      | zero =>
          -- A matrix without entries has only numbers for entries.
          have hnone := Grid.rationals?_ofMatrix (0 : Matrix (Fin 0) (Fin 0) ℚ)
          rw [Subsingleton.elim X ((0 : Matrix (Fin 0) (Fin 0) ℚ).map .rational), hnone]
            at hrationals
          cases hrationals
      | succ n => exact cofactorDeterminant_spec hnode X hX

/-! ## Whole reductions -/

/-- A matrix is reduced entry by entry. -/
theorem treeWithin_ofMatrix {m : Nat} (X : Matrix (Fin m) (Fin n) Expr)
    (hdefinitions : ctx.definitions = {}) (hadmitted : ∀ i j, Admitted ctx.settings (X i j))
    (hX : ∀ i j, Defined ρ (X i j)) (nesting : Nat) :
    Yields (treeWithin nesting ctx (Grid.ofMatrix X).toExpr) fun y =>
      ∃ Y : Matrix (Fin m) (Fin n) Expr, y = (Grid.ofMatrix Y).toExpr ∧
        ∀ i j, Represents ρ ((X i j).value ρ) (Y i j) := by
  refine treeWithin_apply (R := fun x => Represents ρ (x.value ρ)) (by nofun) rfl
    (fun x hx k => ?_) (fun ys hys k => ?_) nesting
  · rcases mem_flatten_rowsOf.mp hx with ⟨i, j, rfl⟩
    exact treeWithin_spec hdefinitions (hadmitted i j) (hX i j) k
  · have hlength : ys.length = m * n :=
      hys.length_eq.symm.trans (Grid.length_entries_ofMatrix X)
    rcases exists_flatten_rowsOf hlength with ⟨Y, rfl⟩
    have hentries := forall_of_forall₂_flatten_rowsOf hys
    refine nodeWithin_apply (ρ := ρ) (fun y hy => ?_)
      fun inner _ => Yields.pure ⟨Y, rfl, hentries⟩
    rcases mem_flatten_rowsOf.mp hy with ⟨i, j, rfl⟩
    exact (hentries i j).normal

theorem treeWithin_determinant (X : Matrix (Fin n) (Fin n) Expr) (hn : n ≤ maxExpandedRows)
    (hdefinitions : ctx.definitions = {}) (hadmitted : ∀ i j, Admitted ctx.settings (X i j))
    (hX : ∀ i j, Defined ρ (X i j)) (nesting : Nat) :
    Yields (treeWithin nesting ctx (.apply .determinant [(Grid.ofMatrix X).toExpr]))
      (Represents ρ (X.map (value ρ)).det) := by
  refine treeWithin_apply (R := fun _ y => ∃ Y : Matrix (Fin n) (Fin n) Expr,
      y = (Grid.ofMatrix Y).toExpr ∧ ∀ i j, Represents ρ ((X i j).value ρ) (Y i j))
    (by decide) rfl (List.forall_mem_singleton.mpr
      (treeWithin_ofMatrix X hdefinitions hadmitted hX)) (fun ys hys k => ?_) nesting
  rcases eq_singleton_of_forall₂ hys with ⟨y, ⟨Y, rfl, hY⟩, rfl⟩
  have hvalues : X.map (value ρ) = Y.map (value ρ) := by
    ext i j
    exact (hY i j).value_eq.symm
  rw [hvalues]
  refine nodeWithin_unspoiled rfl fun inner _ => ?_
  have hsquare : (Grid.ofMatrix Y).isSquare = true := decide_eq_true rfl
  have hdeterminant := determinant_spec (keepsValues_nodeWithin ρ ctx inner) Y
    (fun i j => (hY i j).normal) hn
  change Yields (if !(Grid.ofMatrix Y).isSquare then _ else _) _
  rw [hsquare]
  exact hdeterminant

/--
Determinants are exact. Of numbers the elimination computes the sum over all permutations, and
never divides by zero; the expansion along the first row has the determinant of the values of its
entries for its value, and so has the whole reduction of a determinant of at most three rows.
-/
theorem determinant_exact (ρ : Valuation K) (n : Nat) :
    (∀ M : Matrix (Fin n) (Fin n) ℚ,
      checkedDeterminant? (rowsOf M) = some (rationalDeterminant (rowsOf M)) ∧
        rationalDeterminant (rowsOf M) =
          ∑ σ : Equiv.Perm (Fin n), (Equiv.Perm.sign σ : ℚ) * ∏ i, M (σ i) i) ∧
    (∀ (X : Matrix (Fin (n + 1)) (Fin (n + 1)) Expr) (ctx : Context) (nesting : Nat),
      (∀ i j, Normal ρ (X i j)) →
        Yields (Grid.cofactorDeterminant (nodeWithin nesting ctx) (n + 1) (.ofMatrix X))
          (Represents ρ (X.map (value ρ)).det)) ∧
    (∀ (X : Matrix (Fin n) (Fin n) Expr) (ctx : Context) (breaker : Breaker) (r : Expr),
      n ≤ 3 → ctx.definitions = {} → (∀ i j, Admitted ctx.settings (X i j)) →
        (∀ i j, Defined ρ (X i j)) →
          (Expr.apply .determinant [(Grid.ofMatrix X).toExpr]).reduce ctx breaker = .ok r →
            Denotes ρ (X.map (value ρ)).det r) := by
  refine ⟨fun M => ⟨checkedDeterminant?_eq_some _, ?_⟩, fun X ctx nesting hX => ?_,
    fun X ctx breaker r hn hdefinitions hadmitted hX hr => ?_⟩
  · rw [rationalDeterminant_rowsOf, Matrix.det_apply']
  · exact cofactorDeterminant_spec (keepsValues_nodeWithin ρ ctx nesting) X hX
  · have hdeterminant := treeWithin_determinant X hn hdefinitions hadmitted hX maxNesting
    rcases exists_of_reduce hdeterminant hr with ⟨c, hc, rfl⟩
    have hbeautiful := denotes_beautify hc.normal
    rw [hc.value_eq] at hbeautiful
    split
    · exact hbeautiful
    · exact ⟨hc.normal.defined, hc.value_eq⟩

/-- The matrix `[[x,2,0][3,y,1][0,1,x]]`. -/
def symbolicEntries : Matrix (Fin 3) (Fin 3) Expr :=
  !![.symbol "x", .rational 2, .rational 0;
    .rational 3, .symbol "y", .rational 1;
    .rational 0, .rational 1, .symbol "x"]

theorem normal_symbolicEntries (i j : Fin 3) :
    Normal valuationAtTwo (symbolicEntries i j) := by
  fin_cases i <;> fin_cases j <;> constructor

theorem det_symbolicEntries : (symbolicEntries.map (value valuationAtTwo)).det = -6 := by
  have hx : (Expr.symbol "x").value valuationAtTwo = 2 := rfl
  have hy : (Expr.symbol "y").value valuationAtTwo = 2 := rfl
  simp [symbolicEntries, Matrix.det_fin_three, hx, hy]
  norm_num

/-- A determinant that takes an exchange of rows, and one whose value at 2 is -6. -/
theorem determinant_exact_symbolicEntries :
    checkedDeterminant? (rowsOf !![(0 : ℚ), 2; 3, 4]) = some (-6) ∧
    Yields
      (Grid.cofactorDeterminant (nodeWithin 8 ⟨{}, {}, 4096, []⟩) 3 (.ofMatrix symbolicEntries))
      (Represents valuationAtTwo (-6)) ∧
    ∃ r, (Expr.apply .determinant [(Grid.ofMatrix symbolicEntries).toExpr]).reduce
        ⟨{}, {}, 4096, []⟩ {} = .ok r ∧
      r.text = "-7×x+x^2×y" ∧ Denotes valuationAtTwo (-6) r := by
  have hnumbers := (determinant_exact valuationAtTwo 2).1 !![0, 2; 3, 4]
  have hexpansion := (determinant_exact valuationAtTwo 2).2.1 symbolicEntries
    ⟨{}, {}, 4096, []⟩ 8 normal_symbolicEntries
  have htext : ((Expr.apply .determinant [(Grid.ofMatrix symbolicEntries).toExpr]).reduce
      ⟨{}, {}, 4096, []⟩ {}).toOption.map Expr.text = some "-7×x+x^2×y" := by
    decide +kernel
  rcases exists_ok htext with ⟨r, hr, hrtext⟩
  have hadmitted (i j : Fin 3) : Admitted {} (symbolicEntries i j) := by
    fin_cases i <;> fin_cases j <;> exact ⟨fun _ => rfl, by nofun⟩
  have hwhole := (determinant_exact valuationAtTwo 3).2.2 symbolicEntries ⟨{}, {}, 4096, []⟩ {} r
    le_rfl rfl hadmitted (fun i j => (normal_symbolicEntries i j).defined) hr
  rw [det_symbolicEntries] at hexpansion hwhole
  refine ⟨?_, hexpansion, r, hr, hrtext, hwhole⟩
  rw [hnumbers.1, hnumbers.2]
  decide +kernel

end Reduction

end PocketAlgebra
