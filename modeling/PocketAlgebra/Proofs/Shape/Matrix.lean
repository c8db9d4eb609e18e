import PocketAlgebra.Proofs.Shape.Canonical
import PocketAlgebra.Reduction.Matrix

/-!
# Canonical matrices

Whatever has no list among its entries may be a matrix, so the rules for matrices only have to see
that the entries they compute are no lists.
-/

namespace PocketAlgebra

namespace Shape

open PocketAlgebra.Expr Reduction

variable {node : NodeReducer} {f : Operator} {x : Expr} {xs : List Expr} {m n : Grid}

/-- A matrix whose entries may be those of a canonical matrix. -/
def Filled (m : Grid) : Prop :=
  ∀ x ∈ m.entries, Entry x

theorem Filled.proper (h : Filled m) : Proper m.toExpr :=
  proper_matrix h

theorem Filled.entry (h : Filled m) (row column : Nat) : Entry (m.entry row column) := by
  rw [Grid.entry]
  cases hentry : m.entries[row * m.columns + column]? with
  | none => exact entry_undefined
  | some x => exact h x (List.mem_of_getElem? hentry)

theorem filled_ofExpr? (hx : Canonical x) (h : Grid.ofExpr? x = some m) : Filled m := by
  rw [Grid.ofExpr?.eq_def] at h
  split at h
  · cases h
    exact fun y hy => hx.operand_entry rfl hy
  · cases h

theorem filled_ofFunction {rows columns : Nat} {entry : Nat → Nat → Expr}
    (h : ∀ i j, Entry (entry i j)) : Filled (Grid.ofFunction rows columns entry) := by
  intro x hx
  rcases List.mem_flatMap.mp hx with ⟨i, _, hx⟩
  rcases List.mem_map.mp hx with ⟨j, _, rfl⟩
  exact h i j

theorem filled_ofComputation {rows columns : Nat} {entry : Nat → Nat → ReduceM Expr}
    (h : ∀ i j, Yields (entry i j) Entry) :
    Yields (Grid.ofComputation rows columns entry) Filled := by
  refine (Yields.mapM_forall fun i _ => Yields.mapM_forall fun j _ => h i j).bind
    fun entries hentries => Yields.pure fun x hx => ?_
  rcases List.mem_flatten.mp hx with ⟨row, hrow, hx⟩
  exact hentries row hrow x hx

theorem filled_identity (k : Nat) : Filled (Grid.identity k) :=
  filled_ofFunction fun _ _ => (proper_integer _).1

theorem filled_ofRationals (rows : List (List Rat)) : Filled (Grid.ofRationals rows) := by
  intro x hx
  rcases List.mem_map.mp hx with ⟨q, _, rfl⟩
  exact (proper_rational q).1

theorem filled_minor (h : Filled m) (column : Nat) : Filled (m.minor column) := by
  intro x hx
  rcases List.mem_flatMap.mp hx with ⟨i, _, hx⟩
  rcases List.mem_map.mp hx with ⟨j, _, rfl⟩
  exact h.entry _ _

/-! ## Products and powers -/

theorem filled_multiply? (hnode : KeepsShape node) (hm : Filled m) (hn : Filled n) :
    Yields (Grid.multiply? node m n) fun product => ∀ p ∈ product, Filled p := by
  rw [Grid.multiply?]
  split
  · exact Yields.pure nofun
  · have hproduct : Yields (Grid.ofComputation m.rows n.columns fun i j => do
        let terms ← (List.range m.columns).mapM fun k =>
          Reduction.multiply node [m.entry i k, n.entry k j]
        Reduction.add node terms) Filled := by
      refine filled_ofComputation fun i j => ?_
      refine (Yields.mapM_forall fun k _ => hnode.multiply ?_).bind fun terms hterms =>
        hnode.add hterms
      simp [hm.entry i k, hn.entry k j]
    refine hproduct.bind fun product hproduct => Yields.pure ?_
    rintro _ ⟨⟩
    exact hproduct

theorem filled_multiplyOr (hnode : KeepsShape node) {other : Grid} (hother : Filled other)
    (hm : Filled m) (hn : Filled n) : Yields (Grid.multiplyOr node other m n) Filled := by
  refine (filled_multiply? hnode hm hn).bind fun product hproduct => Yields.pure ?_
  cases product with
  | none => exact hother
  | some p => exact hproduct p rfl

theorem filled_powerTimes (hnode : KeepsShape node) (steps exponent : Nat) {product square : Grid}
    (hproduct : Filled product) (hsquare : Filled square) :
    Yields (Grid.powerTimes node steps exponent product square) Filled := by
  induction steps generalizing exponent product square with
  | zero => exact Yields.pure hproduct
  | succ steps ih =>
      rw [Grid.powerTimes]
      split
      · exact Yields.pure hproduct
      · extract_lets rest
        have hrest : ∀ next, Filled next → Yields (rest next) Filled := by
          intro next hnext
          dsimp only [rest]
          split
          · exact Yields.pure hnext
          · exact (filled_multiplyOr hnode hsquare hsquare hsquare).bind fun square' hsquare' =>
              ih _ hnext hsquare'
        split
        · exact (filled_multiplyOr hnode hproduct hproduct hsquare).bind hrest
        · exact (Yields.pure hproduct).bind hrest

theorem filled_multiplyInOrder (hnode : KeepsShape node) {product : Grid} {ms : List Grid}
    (hproduct : Filled product) (hms : ∀ m ∈ ms, Filled m) :
    Yields (multiplyInOrder node product ms) fun result => ∀ r ∈ result, Filled r := by
  induction ms generalizing product with
  | nil =>
      refine Yields.pure ?_
      rintro _ ⟨⟩
      exact hproduct
  | cons m ms ih =>
      rw [multiplyInOrder]
      refine (filled_multiply? hnode hproduct (hms m List.mem_cons_self)).bind fun next hnext => ?_
      split
      · exact ih (hnext _ rfl) fun p hp => hms p (List.mem_cons_of_mem m hp)
      · exact Yields.pure nofun

theorem invert_entry (hnode : KeepsShape node) (hm : Filled m) :
    Yields (m.invert node) Entry := by
  rw [Grid.invert]
  split
  · split
    · exact Yields.pure (filled_ofRationals _).proper.1
    · exact Yields.pure entry_undefined
  · split
    · refine (hnode.invert (hm.entry 0 0)).bind fun x hx => Yields.pure ?_
      exact (proper_matrix (List.forall_mem_singleton.mpr hx)).1
    · exact Yields.pure (proper_plain rfl (List.forall_mem_singleton.mpr hm.proper)).1

theorem powerOfMatrix_entry (hnode : KeepsShape node) (hm : Filled m) (k : Int) :
    Yields (powerOfMatrix node m k) Entry := by
  rw [powerOfMatrix]
  split
  · exact Yields.pure entry_undefined
  · split
    · exact invert_entry hnode hm
    · split
      · exact Yields.pure entry_undefined
      · split
        · exact Yields.pure (proper_plain rfl (by simp [hm.proper, proper_integer k])).1
        · exact (filled_powerTimes hnode _ _ (filled_identity _) hm).bind fun power hpower =>
            Yields.pure hpower.proper.1

/-! ## Sums and products of operands -/

theorem sumOfMatrices_entry (hnode : KeepsShape node) (hxs : ∀ x ∈ xs, Proper x) :
    Yields (sumOfMatrices node xs) Entry := by
  rw [sumOfMatrices]
  split
  · rename_i m ms hms
    have hfilled := forall_of_mapM_eq_some
      (fun x hx n hn => filled_ofExpr? (hxs x hx).canonical hn) hms
    split
    · refine (filled_ofComputation fun i j => hnode.add fun x hx => ?_).bind fun sum hsum =>
        Yields.pure hsum.proper.1
      rcases List.mem_map.mp hx with ⟨n, hn, rfl⟩
      exact (hfilled n hn).entry i j
    · exact Yields.pure entry_undefined
  · exact Yields.pure entry_undefined

theorem productOfMatrices_entry (hnode : KeepsShape node) (hxs : ∀ x ∈ xs, Proper x) :
    Yields (productOfMatrices node xs) Entry := by
  have hscalars : ∀ x ∈ xs.filter (fun x => !x.isMatrix), Entry x := fun x hx =>
    (hxs x (List.mem_of_mem_filter hx)).1
  have hmatrices : ∀ m ∈ xs.filterMap Grid.ofExpr?, Filled m := by
    intro m hm
    rcases List.mem_filterMap.mp hm with ⟨x, hx, hm⟩
    exact filled_ofExpr? (hxs x hx).canonical hm
  rw [productOfMatrices]
  split
  · exact hnode.multiply hscalars
  · rename_i m ms hms
    rw [hms] at hmatrices
    refine (filled_multiplyInOrder hnode (hmatrices m List.mem_cons_self) fun p hp =>
      hmatrices p (List.mem_cons_of_mem m hp)).bind fun product hproduct => ?_
    split
    · exact Yields.pure entry_undefined
    · rename_i product
      have hfilled := hproduct product rfl
      split
      · exact Yields.pure hfilled.proper.1
      · refine (Yields.mapM_forall fun x hx => hnode.multiply ?_).bind fun entries hentries =>
          Yields.pure (proper_matrix hentries).1
        exact List.forall_mem_append.mpr
          ⟨hscalars, List.forall_mem_singleton.mpr (hfilled x hx)⟩

/-! ## Functions of matrices -/

theorem matrixFunctionOfScalar_entry (hnode : KeepsShape node) (hx : Proper x) :
    Yields (matrixFunctionOfScalar node f x) Entry := by
  rw [matrixFunctionOfScalar.eq_def]
  split
  · exact hnode.invert hx.1
  · exact Yields.pure (proper_matrix (by simp [(proper_integer 1).1])).1
  · exact Yields.pure hx.1

theorem cofactorDeterminant_entry (hnode : KeepsShape node) :
    ∀ (rows : Nat) {m : Grid}, Filled m → Yields (m.cofactorDeterminant node rows) Entry
  | 0, _, _ => hnode.add (List.forall_mem_nil _)
  | 1, _, hm => Yields.pure (hm.entry 0 0)
  | count + 2, m, hm => by
      rw [Grid.cofactorDeterminant]
      refine (Yields.mapM_forall fun column _ => ?_).bind fun terms hterms => hnode.add hterms
      have hminor := cofactorDeterminant_entry hnode (count + 1) (filled_minor hm column)
      refine hminor.bind fun cofactor hcofactor => ?_
      have hterm : Yields (Reduction.multiply node [m.entry 0 column, cofactor]) Entry :=
        hnode.multiply (by simp [hm.entry 0 column, hcofactor])
      refine hterm.bind fun term hterm => ?_
      split
      · exact hnode.negate hterm
      · exact Yields.pure hterm

theorem determinant_entry (hnode : KeepsShape node) (hm : Filled m) :
    Yields (determinant node m) Entry := by
  rw [determinant]
  split
  · exact Yields.pure (proper_rational _).1
  · split
    · exact cofactorDeterminant_entry hnode _ hm
    · exact Yields.pure (proper_plain rfl (List.forall_mem_singleton.mpr hm.proper)).1

theorem matrixFunction_entry (hnode : KeepsShape node) (hxs : ∀ x ∈ xs, Proper x) :
    Yields (matrixFunction node f xs) Entry := by
  rw [matrixFunction.eq_def]
  split
  · have hx := hxs _ List.mem_cons_self
    split
    · exact matrixFunctionOfScalar_entry hnode hx
    · rename_i m hmatrix
      have hm := filled_ofExpr? hx.canonical hmatrix
      split
      · exact Yields.pure (proper_matrix (by simp [(proper_integer _).1])).1
      · exact Yields.pure (filled_ofFunction fun i j => hm.entry j i).proper.1
      · split
        · exact Yields.pure entry_undefined
        · split
          · refine hnode.add fun x hx => ?_
            rcases List.mem_map.mp hx with ⟨i, _, rfl⟩
            exact hm.entry i i
          · exact invert_entry hnode hm
          · exact determinant_entry hnode hm
          · exact Yields.pure entry_undefined
  · exact Yields.pure entry_undefined

end Shape

end PocketAlgebra
