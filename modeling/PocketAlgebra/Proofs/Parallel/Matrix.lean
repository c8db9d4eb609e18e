import PocketAlgebra.Proofs.Parallel.Arithmetic
import PocketAlgebra.Proofs.Shape.Canonical

/-!
# Matrices side by side

Matrices are computed entry by entry. Their sides, and their entries where all are numbers, are the
same under other names.
-/

namespace PocketAlgebra

namespace Reduction

open PocketAlgebra.Expr Shape Comparison

variable {C : Comparison} {ρ : String → String} {P : Expr → Prop} {node node' : NodeReducer}
  {f : Operator} {x : Expr} {xs : List Expr} {m n : Grid}

/-! ## Matrices under other names -/

/-- The entries of a matrix have a property. -/
def Grid.All (P : Expr → Prop) (m : Grid) : Prop :=
  ∀ x ∈ m.entries, P x

/-- A matrix under other names. -/
def Grid.rename (ρ : String → String) (m : Grid) : Grid :=
  ⟨m.rows, m.columns, m.entries.map (Expr.rename ρ)⟩

@[simp] theorem Grid.rows_rename (ρ : String → String) (m : Grid) :
    (m.rename ρ).rows = m.rows := rfl

@[simp] theorem Grid.columns_rename (ρ : String → String) (m : Grid) :
    (m.rename ρ).columns = m.columns := rfl

@[simp] theorem Grid.isSquare_rename (ρ : String → String) (m : Grid) :
    (m.rename ρ).isSquare = m.isSquare := rfl

theorem Grid.toExpr_rename (ρ : String → String) (m : Grid) :
    m.toExpr.rename ρ = (m.rename ρ).toExpr := by
  rw [Grid.toExpr, rename_apply]
  rfl

theorem Grid.ofExpr?_rename (ρ : String → String) (x : Expr) :
    Grid.ofExpr? (x.rename ρ) = (Grid.ofExpr? x).map (Grid.rename ρ) := by
  cases x with
  | apply f xs =>
      rw [rename_apply]
      cases f <;> rfl
  | _ => rfl

theorem Grid.entry_rename (ρ : String → String) (m : Grid) (row column : Nat) :
    (m.rename ρ).entry row column = (m.entry row column).rename ρ := by
  rw [Grid.entry, Grid.entry, Grid.rename, List.getElem?_map]
  cases m.entries[row * m.columns + column]? <;> rfl

theorem Grid.ofFunction_rename (ρ : String → String) (rows columns : Nat)
    (entry : Nat → Nat → Expr) :
    Grid.ofFunction rows columns (fun i j => (entry i j).rename ρ) =
      (Grid.ofFunction rows columns entry).rename ρ := by
  simp [Grid.ofFunction, Grid.rename, List.map_flatMap, Function.comp_def]

theorem Grid.minor_rename (ρ : String → String) (m : Grid) (column : Nat) :
    (m.rename ρ).minor column = (m.minor column).rename ρ := by
  simp [Grid.minor, Grid.rename, List.map_flatMap, Function.comp_def, ← Grid.entry_rename]

theorem Grid.rationals?_rename (ρ : String → String) (m : Grid) :
    (m.rename ρ).rationals? = m.rationals? := by
  have hrow : ∀ row : List Expr, (row.map (Expr.rename ρ)).mapM rational? = row.mapM rational? := by
    intro row
    rw [List.mapM_map]
    exact congrArg (fun k => row.mapM k) (funext fun x => rational?_rename ρ x)
  rw [Grid.rationals?, Grid.rationals?, Grid.rename, chunks_map, List.mapM_map]
  exact congrArg (fun k => (chunks m.columns m.entries).mapM k) (funext hrow)

theorem Grid.ofRationals_rename (ρ : String → String) (rows : List (List Rat)) :
    (Grid.ofRationals rows).rename ρ = Grid.ofRationals rows := by
  simp [Grid.ofRationals, Grid.rename, Function.comp_def]

namespace Respects

theorem all_of_ofExpr? (hP : Respects ρ P) (hx : P x) (h : Grid.ofExpr? x = some m) :
    m.All P := by
  rw [Grid.ofExpr?.eq_def] at h
  split at h
  · cases h
    exact hP.operand rfl hx
  · cases h

theorem grid (hP : Respects ρ P) (hm : m.All P) : P m.toExpr :=
  (hP.apply rfl).mpr hm

theorem renamed_grid (hP : Respects ρ P) (hm : m.All P) :
    C.Image (Expr.rename ρ) P (pure m.toExpr) (pure (m.rename ρ).toExpr) :=
  C.pure ⟨hP.grid hm, (Grid.toExpr_rename ρ m).symm⟩

theorem entry (hP : Respects ρ P) (hm : m.All P) (row column : Nat) : P (m.entry row column) := by
  rw [Grid.entry]
  cases hentry : m.entries[row * m.columns + column]? with
  | none => exact hP.undefined
  | some x => exact hm x (List.mem_of_getElem? hentry)

theorem all_ofFunction {rows columns : Nat} {entry : Nat → Nat → Expr} (h : ∀ i j, P (entry i j)) :
    (Grid.ofFunction rows columns entry).All P := by
  intro x hx
  rcases List.mem_flatMap.mp hx with ⟨i, _, hx⟩
  rcases List.mem_map.mp hx with ⟨j, _, rfl⟩
  exact h i j

theorem all_minor (hP : Respects ρ P) (hm : m.All P) (column : Nat) : (m.minor column).All P := by
  intro x hx
  rcases List.mem_flatMap.mp hx with ⟨i, _, hx⟩
  rcases List.mem_map.mp hx with ⟨j, _, rfl⟩
  exact hP.entry hm _ _

end Respects

/-! ## Products and powers -/

theorem image_ofComputation {rows columns : Nat} {entry entry' : Nat → Nat → ReduceM Expr}
    (h : ∀ i j, C.Image (rename ρ) P (entry i j) (entry' i j)) :
    C.Image (Grid.rename ρ) (Grid.All P) (Grid.ofComputation rows columns entry)
      (Grid.ofComputation rows columns entry') := by
  refine image_bind (image_mapM fun i _ => image_mapM fun j _ => h i j) fun entries hentries => ?_
  refine C.pure ⟨?_, by rw [Grid.rename, List.map_flatten]⟩
  intro x hx
  rcases List.mem_flatten.mp hx with ⟨row, hrow, hx⟩
  exact hentries row hrow x hx

theorem Respects.multiplyMatrices? (hP : Respects ρ P) (hnode : Parallel C ρ P node node')
    (hm : m.All P) (hn : n.All P) :
    C.Image (Option.map (Grid.rename ρ)) (fun product => ∀ p ∈ product, p.All P)
      (Grid.multiply? node m n) (Grid.multiply? node' (m.rename ρ) (n.rename ρ)) := by
  simp only [Grid.multiply?, Grid.columns_rename, Grid.rows_rename, Grid.entry_rename]
  split
  · exact C.pure ⟨nofun, rfl⟩
  · refine image_bind (image_ofComputation (ρ := ρ) (P := P) fun i j => ?_)
      fun product hproduct => C.pure ⟨?_, rfl⟩
    · refine image_bind (image_mapM fun k _ => ?_) fun terms hterms => hnode.add hterms
      exact hnode.multiply (forall_mem_pair (hP.entry hm i k) (hP.entry hn k j))
    · rintro _ ⟨⟩
      exact hproduct

theorem Respects.multiplyOr (hP : Respects ρ P) (hnode : Parallel C ρ P node node') {other : Grid}
    (hother : other.All P) (hm : m.All P) (hn : n.All P) :
    C.Image (Grid.rename ρ) (Grid.All P) (Grid.multiplyOr node other m n)
      (Grid.multiplyOr node' (other.rename ρ) (m.rename ρ) (n.rename ρ)) := by
  refine image_bind (hP.multiplyMatrices? hnode hm hn) fun product hproduct => ?_
  cases product with
  | none => exact image_pure hother
  | some p => exact image_pure (hproduct p rfl)

theorem Respects.powerTimes (hP : Respects ρ P) (hnode : Parallel C ρ P node node')
    (steps exponent : Nat) {product square : Grid} (hproduct : product.All P)
    (hsquare : square.All P) :
    C.Image (Grid.rename ρ) (Grid.All P) (Grid.powerTimes node steps exponent product square)
      (Grid.powerTimes node' steps exponent (product.rename ρ) (square.rename ρ)) := by
  induction steps generalizing exponent product square with
  | zero => exact image_pure hproduct
  | succ steps ih =>
      rw [Grid.powerTimes, Grid.powerTimes]
      split
      · exact image_pure hproduct
      · have hrest : ∀ next : Grid, next.All P → C.Image (Grid.rename ρ) (Grid.All P)
            (if exponent / 2 = 0 then return next
              else do
                Grid.powerTimes node steps (exponent / 2) next
                  (← Grid.multiplyOr node square square square))
            (if exponent / 2 = 0 then return next.rename ρ
              else do
                Grid.powerTimes node' steps (exponent / 2) (next.rename ρ)
                  (← Grid.multiplyOr node' (square.rename ρ) (square.rename ρ)
                    (square.rename ρ))) := by
          intro next hnext
          split
          · exact image_pure hnext
          · exact image_bind (hP.multiplyOr hnode hsquare hsquare hsquare) fun square' hsquare' =>
              ih _ hnext hsquare'
        by_cases hodd : exponent % 2 = 1
        · simp only [hodd, if_true]
          exact image_bind (hP.multiplyOr hnode hproduct hproduct hsquare) hrest
        · simp only [hodd, if_false]
          exact image_bind (image_pure hproduct) hrest

theorem Respects.multiplyInOrder (hP : Respects ρ P) (hnode : Parallel C ρ P node node')
    {product : Grid} {ms : List Grid} (hproduct : product.All P) (hms : ∀ m ∈ ms, m.All P) :
    C.Image (Option.map (Grid.rename ρ)) (fun result => ∀ r ∈ result, r.All P)
      (Reduction.multiplyInOrder node product ms)
      (Reduction.multiplyInOrder node' (product.rename ρ) (ms.map (Grid.rename ρ))) := by
  induction ms generalizing product with
  | nil =>
      refine C.pure ⟨?_, rfl⟩
      rintro _ ⟨⟩
      exact hproduct
  | cons m ms ih =>
      rw [List.map_cons, Reduction.multiplyInOrder, Reduction.multiplyInOrder]
      refine image_bind (hP.multiplyMatrices? hnode hproduct (hms m List.mem_cons_self))
        fun next hnext => ?_
      cases next with
      | none => exact C.pure ⟨nofun, rfl⟩
      | some next => exact ih (hnext next rfl) fun p hp => hms p (List.mem_cons_of_mem m hp)

theorem Respects.invertMatrix (hP : Respects ρ P) (hnode : Parallel C ρ P node node')
    (hm : m.All P) : C.Image (rename ρ) P (m.invert node) ((m.rename ρ).invert node') := by
  rw [Grid.invert, Grid.invert, Grid.rationals?_rename]
  split
  · split
    · rename_i inverse _
      have hinverse : (Grid.ofRationals inverse).All P := by
        intro x hx
        rcases List.mem_map.mp hx with ⟨q, _, rfl⟩
        exact hP.rational q
      have hresult := hP.renamed_grid (C := C) hinverse
      rw [Grid.ofRationals_rename] at hresult
      exact hresult
    · exact hP.renamed_undefined
  · rw [Grid.rows_rename, Grid.entry_rename]
    split
    · refine image_bind (hnode.invert hP (hP.entry hm 0 0)) fun x hx => ?_
      exact hP.renamed_grid (m := ⟨1, 1, [x]⟩) (List.forall_mem_singleton.mpr hx)
    · exact C.pure ⟨hP.one rfl (hP.grid hm), by simp [Grid.toExpr_rename]⟩

theorem Respects.powerOfMatrix (hP : Respects ρ P) (hnode : Parallel C ρ P node node')
    (hm : m.All P) (k : Int) :
    C.Image (rename ρ) P (Reduction.powerOfMatrix node m k)
      (Reduction.powerOfMatrix node' (m.rename ρ) k) := by
  rw [Reduction.powerOfMatrix, Reduction.powerOfMatrix, Grid.isSquare_rename]
  split
  · exact hP.renamed_undefined
  · split
    · exact hP.invertMatrix hnode hm
    · split
      · exact hP.renamed_undefined
      · split
        · exact C.pure ⟨hP.two rfl (hP.grid hm) (hP.integer k), by simp [Grid.toExpr_rename]⟩
        · have hidentity : (Grid.identity m.rows).All P :=
            Respects.all_ofFunction fun _ _ => hP.integer _
          have hrenamed : (Grid.identity m.rows).rename ρ = Grid.identity m.rows := by
            rw [Grid.identity, ← Grid.ofFunction_rename]
            rfl
          have hpower := hP.powerTimes hnode (k.toNat + 1) k.toNat hidentity hm
          rw [hrenamed] at hpower
          exact image_bind hpower fun power hpower => hP.renamed_grid hpower

/-! ## Sums and products of operands -/

theorem mapM_ofExpr?_rename (ρ : String → String) (xs : List Expr) :
    (xs.map (rename ρ)).mapM Grid.ofExpr? =
      (xs.mapM Grid.ofExpr?).map (List.map (Grid.rename ρ)) := by
  induction xs with
  | nil => rfl
  | cons x xs ih =>
      rw [List.map_cons, List.mapM_cons, List.mapM_cons, ih, Grid.ofExpr?_rename]
      cases Grid.ofExpr? x with
      | none => rfl
      | some m => cases xs.mapM Grid.ofExpr? <;> rfl

theorem Respects.sumOfMatrices (hP : Respects ρ P) (hnode : Parallel C ρ P node node')
    (hxs : ∀ x ∈ xs, P x) : C.Image (rename ρ) P (Reduction.sumOfMatrices node xs)
      (Reduction.sumOfMatrices node' (xs.map (rename ρ))) := by
  rw [Reduction.sumOfMatrices, Reduction.sumOfMatrices, mapM_ofExpr?_rename]
  cases hmatrices : xs.mapM Grid.ofExpr? with
  | none => exact hP.renamed_undefined
  | some matrices =>
      have hall := forall_of_mapM_eq_some (P := Grid.All P)
        (fun x hx n hn => hP.all_of_ofExpr? (hxs x hx) hn) hmatrices
      cases matrices with
      | nil => exact hP.renamed_undefined
      | cons m ms =>
          have hshape : ((ms.map (Grid.rename ρ)).all fun n => n.rows = (m.rename ρ).rows &&
              n.columns = (m.rename ρ).columns) =
              ms.all fun n => n.rows = m.rows && n.columns = m.columns := by
            rw [List.all_map]
            rfl
          simp only [Option.map_some, List.map_cons, hshape]
          split
          · refine image_bind (image_ofComputation (ρ := ρ) (P := P) fun i j => ?_)
              fun sum hsum => hP.renamed_grid hsum
            have hentries : ∀ x ∈ (m :: ms).map (fun n => n.entry i j), P x := by
              intro x hx
              rcases List.mem_map.mp hx with ⟨n, hn, rfl⟩
              exact hP.entry (hall n hn) i j
            have hsum := hnode.add hentries
            simpa [Grid.entry_rename, Function.comp_def] using hsum
          · exact hP.renamed_undefined

theorem Respects.productOfMatrices (hP : Respects ρ P) (hnode : Parallel C ρ P node node')
    (hxs : ∀ x ∈ xs, P x) : C.Image (rename ρ) P (Reduction.productOfMatrices node xs)
      (Reduction.productOfMatrices node' (xs.map (rename ρ))) := by
  have hscalars : ∀ x ∈ xs.filter (fun x => !x.isMatrix), P x := fun x hx =>
    hxs x (List.mem_of_mem_filter hx)
  have hall : ∀ m ∈ xs.filterMap Grid.ofExpr?, m.All P := by
    intro m hm
    rcases List.mem_filterMap.mp hm with ⟨x, hx, hm⟩
    exact hP.all_of_ofExpr? (hxs x hx) hm
  have hfilter : (xs.map (rename ρ)).filter (fun x => !x.isMatrix) =
      (xs.filter fun x => !x.isMatrix).map (rename ρ) :=
    filter_map_rename (fun x => by rw [isMatrix_rename]) xs
  have hmatrices : (xs.map (rename ρ)).filterMap Grid.ofExpr? =
      (xs.filterMap Grid.ofExpr?).map (Grid.rename ρ) := by
    rw [List.filterMap_map, List.map_filterMap]
    exact congrArg (fun k => xs.filterMap k) (funext fun x => Grid.ofExpr?_rename ρ x)
  rw [Reduction.productOfMatrices, Reduction.productOfMatrices]
  simp only [hfilter, hmatrices]
  cases hms : xs.filterMap Grid.ofExpr? with
  | nil => exact hnode.multiply hscalars
  | cons m ms =>
      rw [hms] at hall
      refine image_bind (hP.multiplyInOrder hnode (hall m List.mem_cons_self) fun p hp =>
        hall p (List.mem_cons_of_mem m hp)) fun product hproduct => ?_
      cases product with
      | none => exact hP.renamed_undefined
      | some product =>
          have hentries := hproduct product rfl
          simp only [Option.map_some, List.isEmpty_map]
          split
          · exact hP.renamed_grid hentries
          · rw [Grid.rename, List.mapM_map]
            refine image_bind (image_mapM fun x hx => ?_) fun entries hscaled =>
              hP.renamed_grid (m := ⟨product.rows, product.columns, entries⟩) hscaled
            have hproduct := hnode.multiply
              (List.forall_mem_append.mpr ⟨hscalars, List.forall_mem_singleton.mpr (hentries x hx)⟩)
            rw [List.map_append] at hproduct
            exact hproduct

/-! ## Functions of matrices -/

theorem Respects.shape (hP : Respects ρ P) (rows columns : Int) :
    C.Image (rename ρ) P (pure (.apply (.matrix 1 2) [.integer rows, .integer columns]))
      (pure (.apply (.matrix 1 2) [.integer rows, .integer columns])) :=
  C.pure ⟨hP.two rfl (hP.integer _) (hP.integer _), by simp⟩

theorem Respects.matrixFunctionOfScalar (hP : Respects ρ P) (hnode : Parallel C ρ P node node')
    (hx : P x) : C.Image (rename ρ) P (Reduction.matrixFunctionOfScalar node f x)
      (Reduction.matrixFunctionOfScalar node' f (x.rename ρ)) := by
  rw [Reduction.matrixFunctionOfScalar.eq_def, Reduction.matrixFunctionOfScalar.eq_def]
  split
  · exact hnode.invert hP hx
  · exact hP.shape 1 1
  · exact image_pure hx

theorem Respects.cofactorDeterminant (hP : Respects ρ P) (hnode : Parallel C ρ P node node') :
    ∀ (rows : Nat) {m : Grid}, m.All P → C.Image (rename ρ) P (m.cofactorDeterminant node rows)
      ((m.rename ρ).cofactorDeterminant node' rows)
  | 0, _, _ => hnode.add (List.forall_mem_nil _)
  | 1, m, hm => by
      rw [Grid.cofactorDeterminant, Grid.cofactorDeterminant, Grid.entry_rename]
      exact image_pure (hP.entry hm 0 0)
  | count + 2, m, hm => by
      rw [Grid.cofactorDeterminant, Grid.cofactorDeterminant]
      refine image_bind (image_mapM fun column _ => ?_) fun terms hterms => hnode.add hterms
      have hminor := hP.cofactorDeterminant hnode (count + 1) (hP.all_minor hm column)
      rw [Grid.minor_rename, Grid.entry_rename]
      refine image_bind hminor fun cofactor hcofactor => ?_
      refine image_bind (hnode.multiply (forall_mem_pair (hP.entry hm 0 column) hcofactor))
        fun term hterm => ?_
      split
      · exact hnode.negate hP hterm
      · exact image_pure hterm

theorem Respects.determinant (hP : Respects ρ P) (hnode : Parallel C ρ P node node')
    (hm : m.All P) : C.Image (rename ρ) P (Reduction.determinant node m)
      (Reduction.determinant node' (m.rename ρ)) := by
  rw [Reduction.determinant, Reduction.determinant, Grid.rationals?_rename, Grid.rows_rename]
  split
  · exact hP.renamed_rational _
  · split
    · exact hP.cofactorDeterminant hnode _ hm
    · exact C.pure ⟨hP.one rfl (hP.grid hm), by simp [Grid.toExpr_rename]⟩

theorem Respects.trace (hP : Respects ρ P) (hnode : Parallel C ρ P node node') (hm : m.All P) :
    C.Image (rename ρ) P (add node ((List.range m.rows).map fun i => m.entry i i))
      (add node' ((List.range m.rows).map fun i => (m.rename ρ).entry i i)) := by
  have hentries : ∀ x ∈ (List.range m.rows).map (fun i => m.entry i i), P x := by
    intro x hx
    rcases List.mem_map.mp hx with ⟨i, _, rfl⟩
    exact hP.entry hm i i
  have hsum := hnode.add hentries
  rw [List.map_map] at hsum
  simpa only [Grid.entry_rename, Function.comp_def] using hsum

theorem Respects.transpose (hP : Respects ρ P) (hm : m.All P) :
    C.Image (rename ρ) P (pure m.transpose.toExpr) (pure (m.rename ρ).transpose.toExpr) := by
  have htransposed : m.transpose.All P := Respects.all_ofFunction fun i j => hP.entry hm j i
  have hrenamed : (m.rename ρ).transpose = m.transpose.rename ρ := by
    rw [Grid.transpose, Grid.transpose, ← Grid.ofFunction_rename]
    simp only [Grid.entry_rename, Grid.rows_rename, Grid.columns_rename]
  rw [hrenamed]
  exact hP.renamed_grid htransposed

theorem Respects.matrixFunction (hP : Respects ρ P) (hnode : Parallel C ρ P node node')
    (hxs : ∀ x ∈ xs, P x) : C.Image (rename ρ) P (Reduction.matrixFunction node f xs)
      (Reduction.matrixFunction node' f (xs.map (rename ρ))) := by
  match xs with
  | [] | _ :: _ :: _ => exact hP.renamed_undefined
  | [x] =>
      have hx := hxs x List.mem_cons_self
      rw [List.map_cons, List.map_nil, Reduction.matrixFunction, Reduction.matrixFunction,
        Grid.ofExpr?_rename]
      cases hmatrix : Grid.ofExpr? x with
      | none => exact hP.matrixFunctionOfScalar hnode hx
      | some m =>
          have hm := hP.all_of_ofExpr? hx hmatrix
          have hsquare : ∀ {r r' : ReduceM Expr}, C.Image (rename ρ) P r r' →
              C.Image (rename ρ) P (if !m.isSquare then return .undefined else r)
                (if !m.isSquare then return .undefined else r') := by
            intro r r' hr
            split
            · exact hP.renamed_undefined
            · exact hr
          cases f with
          | dimension => exact hP.shape _ _
          | transpose => exact hP.transpose hm
          | trace => exact hsquare (hP.trace hnode hm)
          | matrixInverse => exact hsquare (hP.invertMatrix hnode hm)
          | determinant => exact hsquare (hP.determinant hnode hm)
          | _ => exact hsquare hP.renamed_undefined

end Reduction

end PocketAlgebra
