import PocketAlgebra.Proofs.Closed.Basic
import PocketAlgebra.Reduction.Matrix

/-!
# Matrices keep properties

A matrix of computed entries has as many of them as its sides call for, whichever rule it comes
from; the sides themselves are those of matrices that were there before, or small.
-/

namespace PocketAlgebra

namespace Reduction

open PocketAlgebra.Expr Shape

/-- A computation for each of some things gives as many results. -/
theorem Yields.mapM_length {α β : Type} {P : α → Prop} {g : β → ReduceM α} {zs : List β}
    (hg : ∀ z ∈ zs, Yields (g z) P) :
    Yields (zs.mapM g) fun ys => ys.length = zs.length ∧ ∀ y ∈ ys, P y := by
  have hlength : Yields (zs.mapM g) fun ys => ys.length = zs.length :=
    (Yields.mapM (R := fun _ => P) hg).mono fun ys hys => hys.length_eq.symm
  exact hlength.and (Yields.mapM_forall hg)

variable {side : Nat → Prop} {E P : Expr → Prop} {node : NodeReducer} {f : Operator} {x : Expr}
  {xs : List Expr} {m n : Grid} {rows columns : Nat}

theorem Grid.toExpr_of_ofExpr? (h : Grid.ofExpr? x = some m) : m.toExpr = x := by
  rw [Grid.ofExpr?.eq_def] at h
  split at h
  · cases h
    rfl
  · cases h

/-! ## Entries of any matrix -/

namespace ClosedArithmetic

theorem entry (hP : ClosedArithmetic E P) (hm : ∀ x ∈ m.entries, P x) (row column : Nat) :
    P (m.entry row column) := by
  rw [Grid.entry]
  cases hentry : m.entries[row * m.columns + column]? with
  | none => exact hP.undefined
  | some x => exact hm x (List.mem_of_getElem? hentry)

theorem minor (hP : ClosedArithmetic E P) (hm : ∀ x ∈ m.entries, P x) (column : Nat) :
    ∀ x ∈ (m.minor column).entries, P x := by
  intro x hx
  rcases List.mem_flatMap.mp hx with ⟨i, _, hx⟩
  rcases List.mem_map.mp hx with ⟨j, _, rfl⟩
  exact hP.entry hm _ _

theorem cofactorDeterminant (hP : ClosedArithmetic E P) (hnode : KeepsArithmetic E P node) :
    ∀ (rows : Nat) {m : Grid}, (∀ x ∈ m.entries, P x) → Yields (m.cofactorDeterminant node rows) P
  | 0, _, _ => hnode.add (List.forall_mem_nil _)
  | 1, _, hm => Yields.pure (hP.entry hm 0 0)
  | count + 2, m, hm => by
      rw [Grid.cofactorDeterminant]
      refine (Yields.mapM_forall fun column _ => ?_).bind fun terms hterms => hnode.add hterms
      have hminor := hP.cofactorDeterminant hnode (count + 1) (hP.minor hm column)
      refine hminor.bind fun cofactor hcofactor => ?_
      have hterm : Yields (Reduction.multiply node [m.entry 0 column, cofactor]) P :=
        hnode.multiply (by simp [hP.entry hm 0 column, hcofactor])
      refine hterm.bind fun term hterm => ?_
      split
      · exact hnode.multiply (by simp [hterm, hP.integer (-1)])
      · exact Yields.pure hterm

end ClosedArithmetic

namespace Composed

/-! ## Entries and shapes -/

theorem entriesOf (hP : Composed side P) (hm : P m.toExpr) : ∀ x ∈ m.entries, P x :=
  fun _ hx => hP.operand hm hx

theorem ofExpr? (hx : P x) (h : Grid.ofExpr? x = some m) : P m.toExpr :=
  Grid.toExpr_of_ofExpr? h ▸ hx

theorem ofFunction (hP : Composed side P) (hrows : side rows) (hcolumns : side columns)
    {entry : Nat → Nat → Expr} (h : ∀ i j, P (entry i j)) :
    P (Grid.ofFunction rows columns entry).toExpr := by
  refine hP.matrix hrows hcolumns ?_ fun x hx => ?_
  · rw [Grid.ofFunction, List.flatMap_def, length_flatten_of_forall (n := columns)]
    · rw [List.length_map, List.length_range]
    · intro row hrow
      rcases List.mem_map.mp hrow with ⟨i, _, rfl⟩
      rw [List.length_map, List.length_range]
  · rcases List.mem_flatMap.mp hx with ⟨i, _, hx⟩
    rcases List.mem_map.mp hx with ⟨j, _, rfl⟩
    exact h i j

theorem ofComputation (hP : Composed side P) (hrows : side rows) (hcolumns : side columns)
    {entry : Nat → Nat → ReduceM Expr} (h : ∀ i j, Yields (entry i j) P) :
    Yields (Grid.ofComputation rows columns entry) fun m => P m.toExpr := by
  refine (Yields.mapM_length fun i _ => Yields.mapM_length fun j _ => h i j).bind
    fun entries hentries => Yields.pure (hP.matrix hrows hcolumns ?_ fun x hx => ?_)
  · rw [length_flatten_of_forall fun row hrow => (hentries.2 row hrow).1, hentries.1,
      List.length_range, List.length_range]
  · rcases List.mem_flatten.mp hx with ⟨row, hrow, hx⟩
    exact (hentries.2 row hrow).2 x hx

/-! ## Products and powers -/

theorem multiplyMatrices? (hP : Composed side P) (hnode : Keeps P node) (hm : P m.toExpr)
    (hn : P n.toExpr) :
    Yields (Grid.multiply? node m n) fun product => ∀ p ∈ product, P p.toExpr := by
  rw [Grid.multiply?]
  split
  · exact Yields.pure nofun
  · have hproduct : Yields (Grid.ofComputation m.rows n.columns fun i j => do
        let terms ← (List.range m.columns).mapM fun k =>
          Reduction.multiply node [m.entry i k, n.entry k j]
        Reduction.add node terms) fun product => P product.toExpr := by
      refine hP.ofComputation (hP.sides hm).1 (hP.sides hn).2 fun i j => ?_
      refine (Yields.mapM_forall fun k _ => hnode.multiply ?_).bind fun terms hterms =>
        hnode.add hterms
      simp [hP.arithmetic.entry (hP.entriesOf hm) i k, hP.arithmetic.entry (hP.entriesOf hn) k j]
    refine hproduct.bind fun product hproduct => Yields.pure ?_
    rintro _ ⟨⟩
    exact hproduct

theorem multiplyOr (hP : Composed side P) (hnode : Keeps P node) {other : Grid}
    (hother : P other.toExpr) (hm : P m.toExpr) (hn : P n.toExpr) :
    Yields (Grid.multiplyOr node other m n) fun product => P product.toExpr := by
  refine (hP.multiplyMatrices? hnode hm hn).bind fun product hproduct => Yields.pure ?_
  cases product with
  | none => exact hother
  | some p => exact hproduct p rfl

theorem powerTimes (hP : Composed side P) (hnode : Keeps P node) (steps exponent : Nat)
    {product square : Grid} (hproduct : P product.toExpr) (hsquare : P square.toExpr) :
    Yields (Grid.powerTimes node steps exponent product square) fun power => P power.toExpr := by
  induction steps generalizing exponent product square with
  | zero => exact Yields.pure hproduct
  | succ steps ih =>
      rw [Grid.powerTimes]
      split
      · exact Yields.pure hproduct
      · extract_lets rest
        have hrest : ∀ next : Grid, P next.toExpr →
            Yields (rest next) fun power => P power.toExpr := by
          intro next hnext
          dsimp only [rest]
          split
          · exact Yields.pure hnext
          · exact (hP.multiplyOr hnode hsquare hsquare hsquare).bind fun square' hsquare' =>
              ih _ hnext hsquare'
        split
        · exact (hP.multiplyOr hnode hproduct hproduct hsquare).bind hrest
        · exact Yields.bind (P := fun next : Grid => P next.toExpr) (Yields.pure hproduct) hrest

theorem multiplyInOrder (hP : Composed side P) (hnode : Keeps P node) {product : Grid}
    {ms : List Grid} (hproduct : P product.toExpr) (hms : ∀ m ∈ ms, P m.toExpr) :
    Yields (Reduction.multiplyInOrder node product ms) fun result =>
      ∀ r ∈ result, P r.toExpr := by
  induction ms generalizing product with
  | nil =>
      refine Yields.pure ?_
      rintro _ ⟨⟩
      exact hproduct
  | cons m ms ih =>
      rw [Reduction.multiplyInOrder]
      refine (hP.multiplyMatrices? hnode hproduct (hms m List.mem_cons_self)).bind
        fun next hnext => ?_
      split
      · exact ih (hnext _ rfl) fun p hp => hms p (List.mem_cons_of_mem m hp)
      · exact Yields.pure nofun

theorem invertMatrix (hP : Composed side P) (hnode : Keeps P node) (hm : P m.toExpr)
    (hsquare : m.isSquare = true) : Yields (m.invert node) P := by
  rw [Grid.invert]
  split
  · rename_i hrationals
    split
    · rename_i hinverse
      exact Yields.pure (hP.inverse hm hsquare hrationals hinverse)
    · exact Yields.pure hP.undefined
  · rename_i hrationals
    split
    · have hentry := hP.arithmetic.entry (hP.entriesOf hm) 0 0
      refine (hnode.invert hP hentry).bind fun x hx => Yields.pure ?_
      exact hP.matrix hP.small.1 hP.small.1 rfl (List.forall_mem_singleton.mpr hx)
    · rename_i hrows
      exact Yields.pure (hP.reciprocal hm hsquare hrationals hrows)

theorem powerOfMatrix (hP : Composed side P) (hnode : Keeps P node) (hm : P m.toExpr) (k : Int) :
    Yields (Reduction.powerOfMatrix node m k) (OrKept P (.apply .power [m.toExpr, .integer k])) := by
  rw [Reduction.powerOfMatrix]
  split
  · exact Yields.pure (.inr hP.undefined)
  · rename_i hsquare
    split
    · exact (hP.invertMatrix hnode hm (by simpa using hsquare)).orKept
    · split
      · exact Yields.pure (.inr hP.undefined)
      · split
        · exact Yields.kept P _
        · have hrows : side m.rows := (hP.sides hm).1
          have hidentity : P (Grid.identity m.rows).toExpr :=
            hP.ofFunction hrows hrows fun _ _ => hP.integer _
          exact (hP.powerTimes hnode _ _ hidentity hm).bind fun power hpower =>
            Yields.pure (.inr hpower)

/-! ## Sums and products of operands -/

theorem sumOfMatrices (hP : Composed side P) (hnode : Keeps P node) (hxs : ∀ x ∈ xs, P x) :
    Yields (Reduction.sumOfMatrices node xs) P := by
  rw [Reduction.sumOfMatrices]
  split
  · rename_i m ms hms
    have hmatrices := forall_of_mapM_eq_some (P := fun m : Grid => P m.toExpr)
      (fun x hx n hn => Composed.ofExpr? (hxs x hx) hn) hms
    have hsides := hP.sides (hmatrices m List.mem_cons_self)
    split
    · refine (hP.ofComputation hsides.1 hsides.2 fun i j => hnode.add fun x hx => ?_).bind
        fun sum hsum => Yields.pure hsum
      rcases List.mem_map.mp hx with ⟨n, hn, rfl⟩
      exact hP.arithmetic.entry (hP.entriesOf (hmatrices n hn)) i j
    · exact Yields.pure hP.undefined
  · exact Yields.pure hP.undefined

theorem productOfMatrices (hP : Composed side P) (hnode : Keeps P node) (hxs : ∀ x ∈ xs, P x) :
    Yields (Reduction.productOfMatrices node xs) P := by
  have hscalars : ∀ x ∈ xs.filter (fun x => !x.isMatrix), P x := fun x hx =>
    hxs x (List.mem_of_mem_filter hx)
  have hmatrices : ∀ m ∈ xs.filterMap Grid.ofExpr?, P m.toExpr := by
    intro m hm
    rcases List.mem_filterMap.mp hm with ⟨x, hx, hm⟩
    exact Composed.ofExpr? (hxs x hx) hm
  rw [Reduction.productOfMatrices]
  split
  · exact hnode.multiply hscalars
  · rename_i m ms hms
    rw [hms] at hmatrices
    refine (hP.multiplyInOrder hnode (hmatrices m List.mem_cons_self) fun p hp =>
      hmatrices p (List.mem_cons_of_mem m hp)).bind fun product hproduct => ?_
    split
    · exact Yields.pure hP.undefined
    · rename_i product
      have hentries := hP.entriesOf (hproduct product rfl)
      split
      · exact Yields.pure (hproduct product rfl)
      · refine (Yields.mapM_length fun x hx => hnode.multiply ?_).bind fun entries hscaled =>
          Yields.pure (hP.entries (hproduct product rfl) hscaled.1 hscaled.2)
        exact List.forall_mem_append.mpr
          ⟨hscalars, List.forall_mem_singleton.mpr (hentries x hx)⟩

/-! ## Functions of matrices -/

theorem matrixFunctionOfScalar (hP : Composed side P) (hnode : Keeps P node) (hx : P x) :
    Yields (Reduction.matrixFunctionOfScalar node f x) P := by
  rw [Reduction.matrixFunctionOfScalar.eq_def]
  split
  · exact hnode.invert hP hx
  · exact Yields.pure (hP.matrix hP.small.1 hP.small.2 rfl (by simp [hP.integer 1]))
  · exact Yields.pure hx

theorem determinant (hP : Composed side P) (hnode : Keeps P node) (hm : P m.toExpr) :
    Yields (Reduction.determinant node m) (OrKept P (.apply .determinant [m.toExpr])) := by
  rw [Reduction.determinant]
  split
  · exact Yields.pure (.inr (hP.rational _))
  · split
    · exact (hP.arithmetic.cofactorDeterminant hnode.arithmetic _ (hP.entriesOf hm)).orKept
    · exact Yields.kept P _

theorem matrixFunction (hP : Composed side P) (hnode : Keeps P node) (hxs : ∀ x ∈ xs, P x) :
    Yields (Reduction.matrixFunction node f xs) (OrKept P (.apply f xs)) := by
  rw [Reduction.matrixFunction.eq_def]
  split
  · have hx := hxs _ List.mem_cons_self
    split
    · exact (hP.matrixFunctionOfScalar hnode hx).orKept
    · rename_i m hmatrix
      have hm : P m.toExpr := Composed.ofExpr? hx hmatrix
      split
      · exact Yields.pure (.inr (hP.matrix hP.small.1 hP.small.2 rfl (by simp [hP.integer _])))
      · have hsides := hP.sides hm
        exact Yields.pure (.inr (hP.ofFunction hsides.2 hsides.1 fun i j =>
          hP.arithmetic.entry (hP.entriesOf hm) j i))
      · split
        · exact Yields.pure (.inr hP.undefined)
        · rename_i hsquare
          split
          · refine (hnode.add fun x hx => ?_).orKept
            rcases List.mem_map.mp hx with ⟨i, _, rfl⟩
            exact hP.arithmetic.entry (hP.entriesOf hm) i i
          · exact (hP.invertMatrix hnode hm (by simpa using hsquare)).orKept
          · rw [← Grid.toExpr_of_ofExpr? hmatrix]
            exact hP.determinant hnode hm
          · exact Yields.pure (.inr hP.undefined)
  · exact Yields.pure (.inr hP.undefined)

end Composed

end Reduction

end PocketAlgebra
