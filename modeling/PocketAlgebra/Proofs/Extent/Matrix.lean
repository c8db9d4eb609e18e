import PocketAlgebra.Proofs.Extent.Basic
import PocketAlgebra.Proofs.Matrix.Determinant

/-!
# Extents of computed matrices

The rules for matrices compute as many entries as the extent of the result calls for, from entries
that are there: none is missing where the extents of the operands fit.
-/

namespace PocketAlgebra

namespace Reduction

open PocketAlgebra.Expr

/-! ## Inverses of rational matrices -/

section Rationals

variable {row pivotRow : List Rat} {rows others done result : List (List Rat)}
  {count width : Nat}

/-- An elimination leaves one row for each column that it takes away. -/
theorem rows_of_gaussJordan? (h : gaussJordan? count rows done = some result)
    (hrows : ∀ row ∈ rows, row.length = count + width)
    (hdone : ∀ row ∈ done, row.length = count + width) :
    result.length = done.length + count ∧ ∀ row ∈ result, row.length = width := by
  induction count generalizing rows done with
  | zero =>
      cases h
      simpa using hdone
  | succ count ih =>
      rw [gaussJordan?] at h
      split at h
      · cases h
      · rename_i pivotRow others _ hfront
        rcases (hasPivot_of_pivotToFront? hfront).forall hrows with ⟨hpivot, hothers⟩
        extract_lets scale unitRow at h
        have hunit : unitRow.length = count + width + 1 := by
          rw [List.length_map, hpivot]
          omega
        have hcleared : ∀ row, row.length = count + 1 + width →
            (clear unitRow row).length = count + width :=
          fun row hrow => by
            rw [length_clear (hrow.trans (by omega)), hunit, Nat.add_sub_cancel]
        have hothers' : ∀ row ∈ others.map (clear unitRow), row.length = count + width := by
          intro row hrow
          rcases List.mem_map.mp hrow with ⟨other, hother, rfl⟩
          exact hcleared other (hothers other hother)
        have hdone' : ∀ row ∈ done.map (clear unitRow) ++ [unitRow.tail],
            row.length = count + width := by
          intro row hrow
          rcases List.mem_append.mp hrow with hrow | hrow
          · rcases List.mem_map.mp hrow with ⟨other, hother, rfl⟩
            exact hcleared other (hdone other hother)
          · rw [List.mem_singleton.mp hrow, List.length_tail, hunit]
            omega
        rcases ih h hothers' hdone' with ⟨hlength, hresult⟩
        refine ⟨?_, hresult⟩
        rw [hlength]
        simp only [List.length_append, List.length_map, List.length_singleton]
        omega

theorem rows_of_rationalInverse? (h : rationalInverse? rows = some result)
    (hrows : ∀ row ∈ rows, row.length = rows.length) :
    result.length = rows.length ∧ ∀ row ∈ result, row.length = rows.length := by
  rw [rationalInverse?] at h
  have hextended : ∀ row ∈ rows.mapIdx fun i row => row ++ unitVector rows.length i,
      row.length = rows.length + rows.length := by
    intro row hrow
    rcases List.mem_mapIdx.mp hrow with ⟨i, hi, rfl⟩
    rw [List.length_append, hrows _ (List.getElem_mem hi), unitVector, List.length_map,
      List.length_range]
  rcases rows_of_gaussJordan? h hextended (List.forall_mem_nil _) with ⟨hlength, hresult⟩
  exact ⟨by simpa using hlength, hresult⟩

end Rationals

theorem forall₂_of_mapM_eq_some {α β : Type} {part? : α → Option β} {xs : List α} {parts : List β}
    (h : xs.mapM part? = some parts) :
    List.Forall₂ (fun x part => part? x = some part) xs parts := by
  induction xs generalizing parts with
  | nil =>
      cases h
      exact .nil
  | cons x xs ih =>
      rw [List.mapM_cons] at h
      rcases Option.bind_eq_some_iff.mp h with ⟨part, hx, h⟩
      rcases Option.bind_eq_some_iff.mp h with ⟨tail, htail, h⟩
      cases h
      exact .cons hx (ih htail)

/-! ## Entries -/

variable {node : NodeReducer} {ctx : Context} {m n : Grid} {rows inner columns : Nat} {s : Extent}
  {ss : List Extent} {x : Expr} {xs : List Expr}

namespace Grid

theorem Sized.entry (hm : m.Sized rows columns) {i j : Nat} (hi : i < rows) (hj : j < columns) :
    IsScalar (m.entry i j) := by
  have hindex : i * columns + j < m.entries.length := by
    rw [hm.length_eq]
    calc i * columns + j < i * columns + columns := Nat.add_lt_add_left hj _
      _ = (i + 1) * columns := (Nat.succ_mul i columns).symm
      _ ≤ rows * columns := Nat.mul_le_mul_right columns hi
  rw [Grid.entry, hm.columns_eq, List.getElem?_eq_getElem hindex]
  exact hm.entries _ (List.getElem_mem hindex)

theorem sized_ofFunction {entry : Nat → Nat → Expr}
    (h : ∀ i < rows, ∀ j < columns, IsScalar (entry i j)) :
    (ofFunction rows columns entry).Sized rows columns := by
  refine ⟨rfl, rfl, ?_, fun x hx => ?_⟩
  · rw [ofFunction, List.flatMap_def, length_flatten_of_forall (n := columns)]
    · rw [List.length_map, List.length_range]
    · intro row hrow
      rcases List.mem_map.mp hrow with ⟨i, _, rfl⟩
      rw [List.length_map, List.length_range]
  · rcases List.mem_flatMap.mp hx with ⟨i, hi, hx⟩
    rcases List.mem_map.mp hx with ⟨j, hj, rfl⟩
    exact h i (List.mem_range.mp hi) j (List.mem_range.mp hj)

theorem sized_ofComputation {entry : Nat → Nat → ReduceM Expr}
    (h : ∀ i < rows, ∀ j < columns, Yields (entry i j) IsScalar) :
    Yields (ofComputation rows columns entry) (Sized rows columns) := by
  have hentries : Yields ((List.range rows).mapM fun i => (List.range columns).mapM (entry i))
      fun entries => entries.length = (List.range rows).length ∧
        ∀ row ∈ entries, row.length = (List.range columns).length ∧ ∀ x ∈ row, IsScalar x :=
    Yields.mapM_length fun i hi => Yields.mapM_length fun j hj =>
      h i (List.mem_range.mp hi) j (List.mem_range.mp hj)
  refine hentries.bind fun entries hentries => Yields.pure ⟨rfl, rfl, ?_, fun x hx => ?_⟩
  · rw [length_flatten_of_forall fun row hrow => (hentries.2 row hrow).1, hentries.1,
      List.length_range, List.length_range]
  · rcases List.mem_flatten.mp hx with ⟨row, hrow, hx⟩
    exact (hentries.2 row hrow).2 x hx

theorem Sized.transpose (hm : m.Sized rows columns) : m.transpose.Sized columns rows := by
  rw [Grid.transpose, hm.rows_eq, hm.columns_eq]
  exact sized_ofFunction fun i hi j hj => hm.entry hj hi

/-! ## Matrices of rational numbers -/

/-- There are as many rows of rational numbers as the matrix has, and all of them are complete. -/
theorem rows_of_rationals? (hcolumns : m.columns = rows)
    (hentries : m.entries.length = rows * rows) {qs : List (List Rat)}
    (h : m.rationals? = some qs) : qs.length = rows ∧ ∀ row ∈ qs, row.length = rows := by
  have hlengths := (forall₂_of_mapM_eq_some h).imp fun _ _ hrow =>
    (forall₂_of_mapM_eq_some hrow).length_eq
  rw [hcolumns] at hlengths
  rcases rows.eq_zero_or_pos with hzero | hpositive
  · have hnone : m.entries = [] := by
      rw [← List.length_eq_zero_iff, hentries, hzero]
    rw [hnone, chunks] at hlengths
    cases hlengths
    exact ⟨hzero.symm, List.forall_mem_nil _⟩
  · rcases chunks_rows hpositive hentries with ⟨hnumber, hcomplete⟩
    refine ⟨hlengths.length_eq.symm.trans hnumber, fun row hrow => ?_⟩
    rcases List.forall₂_iff_get.mp hlengths with ⟨hlength, hget⟩
    rcases List.get_of_mem hrow with ⟨⟨i, hi⟩, rfl⟩
    have hi' : i < (chunks rows m.entries).length := hlength ▸ hi
    rw [← hget i hi' hi]
    exact hcomplete _ (List.get_mem _ _)

theorem sized_ofRationals {qs : List (List Rat)} (hlength : qs.length = rows)
    (hrows : ∀ row ∈ qs, row.length = rows) : (ofRationals qs).Sized rows rows := by
  refine ⟨hlength, ?_, ?_, fun x hx => ?_⟩
  · cases qs with
    | nil => exact hlength
    | cons row qs => exact hrows row List.mem_cons_self
  · rw [ofRationals, List.length_map, length_flatten_of_forall hrows, hlength]
  · rcases List.mem_map.mp hx with ⟨q, _, rfl⟩
    exact .rational q

theorem sized_rationalInverse? (hcolumns : m.columns = rows)
    (hentries : m.entries.length = rows * rows) {qs inverse : List (List Rat)}
    (hqs : m.rationals? = some qs) (hinverse : rationalInverse? qs = some inverse) :
    (ofRationals inverse).Sized rows rows := by
  rcases rows_of_rationals? hcolumns hentries hqs with ⟨rfl, hrows⟩
  rcases rows_of_rationalInverse? hinverse hrows with ⟨hlength, hrows'⟩
  exact sized_ofRationals hlength hrows'

end Grid

/-! ## Products and powers -/

theorem sized_multiply? (hnode : KeepsScalars node) (hm : m.Sized rows inner)
    (hn : n.Sized inner columns) :
    Yields (Grid.multiply? node m n) fun product =>
      ∃ p, product = some p ∧ p.Sized rows columns := by
  rw [Grid.multiply?, if_neg (by rw [hm.columns_eq, hn.rows_eq]; simp), hm.rows_eq, hm.columns_eq,
    hn.columns_eq]
  refine (Grid.sized_ofComputation fun i hi j hj => ?_).bind fun p hp => Yields.pure ⟨p, rfl, hp⟩
  refine (Yields.mapM_forall fun k hk => hnode.multiply ?_).bind fun terms hterms =>
    hnode.add hterms
  rw [List.mem_range] at hk
  exact forall_mem_pair (hm.entry hi hk) (hn.entry hk hj)

theorem sized_multiplyOr (hnode : KeepsScalars node) {other : Grid} (hm : m.Sized rows inner)
    (hn : n.Sized inner columns) :
    Yields (Grid.multiplyOr node other m n) (Grid.Sized rows columns) := by
  refine (sized_multiply? hnode hm hn).bind fun product hproduct => Yields.pure ?_
  rcases hproduct with ⟨p, rfl, hp⟩
  exact hp

theorem sized_powerTimes (hnode : KeepsScalars node) (steps exponent : Nat) {product square : Grid}
    (hproduct : product.Sized rows rows) (hsquare : square.Sized rows rows) :
    Yields (Grid.powerTimes node steps exponent product square) (Grid.Sized rows rows) := by
  induction steps generalizing exponent product square with
  | zero => exact Yields.pure hproduct
  | succ steps ih =>
      rw [Grid.powerTimes]
      split
      · exact Yields.pure hproduct
      · extract_lets rest
        have hrest : ∀ next : Grid, next.Sized rows rows →
            Yields (rest next) (Grid.Sized rows rows) := by
          intro next hnext
          dsimp only [rest]
          split
          · exact Yields.pure hnext
          · exact (sized_multiplyOr hnode hsquare hsquare).bind fun square' hsquare' =>
              ih _ hnext hsquare'
        split
        · exact (sized_multiplyOr hnode hproduct hsquare).bind hrest
        · exact (Yields.pure hproduct).bind hrest

theorem sized_identity (rows : Nat) :
    (Grid.identity rows).Sized rows rows :=
  Grid.sized_ofFunction fun _ _ _ _ => .rational _

/-- A product that begins with a matrix is one with as many rows. -/
theorem exists_columns_of_foldlM (h : ss.foldlM Extent.times? (.matrix rows inner) = some s) :
    ∃ columns, s = .matrix rows columns := by
  induction ss generalizing inner with
  | nil =>
      cases h
      exact ⟨inner, rfl⟩
  | cons t ss ih =>
      rw [List.foldlM_cons] at h
      rcases Option.bind_eq_some_iff.mp h with ⟨next, hnext, h⟩
      cases t with
      | scalar =>
          cases hnext
          exact ih h
      | matrix inner' columns =>
          rw [Extent.times?] at hnext
          split at hnext
          · cases hnext
            exact ih h
          · cases hnext

theorem sized_multiplyInOrder (hnode : KeepsScalars node)
    (hxs : List.Forall₂ HasExtent ss xs) {product : Grid}
    (hproduct : product.Sized rows inner)
    (hs : ss.foldlM Extent.times? (.matrix rows inner) = some (.matrix rows columns)) :
    Yields (multiplyInOrder node product (xs.filterMap Grid.ofExpr?)) fun result =>
      ∃ p, result = some p ∧ p.Sized rows columns := by
  induction hxs generalizing product inner with
  | nil =>
      cases hs
      exact Yields.pure ⟨product, rfl, hproduct⟩
  | @cons t x ss xs hx _ ih =>
      rw [List.foldlM_cons] at hs
      rcases Option.bind_eq_some_iff.mp hs with ⟨next, hnext, hs⟩
      cases t with
      | scalar =>
          cases hnext
          rw [List.filterMap_cons_none (IsScalar.ofExpr? hx)]
          exact ih hproduct hs
      | matrix inner' columns =>
          rcases hx with ⟨m, hm, rfl⟩
          rw [Extent.times?] at hnext
          split at hnext
          · rename_i hinner
            subst hinner
            cases hnext
            refine (sized_multiply? hnode hproduct hm).bind fun result hresult => ?_
            rcases hresult with ⟨p, rfl, hp⟩
            exact ih hp hs
          · cases hnext

/-- Where not all factors are scalars, there is a first matrix among them. -/
theorem exists_first_matrix (hxs : List.Forall₂ HasExtent ss xs)
    (hs : ss.foldlM Extent.times? .scalar = some (.matrix rows columns)) :
    ∃ m inner ts ys, xs.filterMap Grid.ofExpr? = m :: ys.filterMap Grid.ofExpr? ∧
      m.Sized rows inner ∧ List.Forall₂ HasExtent ts ys ∧
      ts.foldlM Extent.times? (.matrix rows inner) = some (.matrix rows columns) := by
  induction hxs with
  | nil => cases hs
  | @cons t x ss xs hx hxs ih =>
      rw [List.foldlM_cons] at hs
      cases t with
      | scalar =>
          rw [List.filterMap_cons_none (IsScalar.ofExpr? hx)]
          exact ih hs
      | matrix rows' inner =>
          rcases hx with ⟨m, hm, rfl⟩
          rcases exists_columns_of_foldlM hs with ⟨_, hrows⟩
          cases hrows
          exact ⟨m, inner, ss, xs, rfl, hm, hxs, hs⟩

theorem forall_scalars (hxs : List.Forall₂ HasExtent ss xs) :
    ∀ x ∈ xs.filter (fun x => !x.isMatrix), IsScalar x := by
  induction hxs with
  | nil => exact List.forall_mem_nil _
  | @cons t x ss xs hx _ ih =>
      cases t with
      | scalar =>
          intro y hy
          rw [List.filter_cons] at hy
          split at hy
          · rcases List.mem_cons.mp hy with rfl | hy
            · exact hx
            · exact ih y hy
          · exact ih y hy
      | matrix rows columns =>
          rcases hx with ⟨m, _, rfl⟩
          exact ih

theorem hasExtent_productOfMatrices (hnode : KeepsScalars node)
    (hxs : List.Forall₂ HasExtent ss xs)
    (hs : ss.foldlM Extent.times? .scalar = some (.matrix rows columns)) :
    Yields (productOfMatrices node xs) (HasExtent (.matrix rows columns)) := by
  have hscalars := forall_scalars hxs
  rcases exists_first_matrix hxs hs with ⟨m, inner, ts, ys, hfilter, hm, hys, hts⟩
  rw [productOfMatrices, hfilter]
  refine (sized_multiplyInOrder hnode hys hm hts).bind fun result hresult => ?_
  rcases hresult with ⟨p, rfl, hp⟩
  dsimp only
  split
  · exact Yields.pure ⟨p, hp, rfl⟩
  · refine (Yields.mapM_length fun x hx => hnode.multiply ?_).bind fun entries hentries =>
      Yields.pure ⟨{ p with entries := entries },
        ⟨hp.rows_eq, hp.columns_eq, hentries.1.trans hp.length_eq, hentries.2⟩, rfl⟩
    exact List.forall_mem_append.mpr ⟨hscalars, List.forall_mem_singleton.mpr (hp.entries x hx)⟩

/-! ## Sums -/

theorem mapM_ofExpr? (hxs : ∀ x ∈ xs, HasExtent (.matrix rows columns) x) :
    ∃ ms, xs.mapM Grid.ofExpr? = some ms ∧ ms.length = xs.length ∧
      ∀ m ∈ ms, m.Sized rows columns := by
  induction xs with
  | nil => exact ⟨[], rfl, rfl, List.forall_mem_nil _⟩
  | cons x xs ih =>
      rcases hxs x List.mem_cons_self with ⟨m, hm, rfl⟩
      rcases ih fun y hy => hxs y (List.mem_cons_of_mem _ hy) with ⟨ms, hms, hlength, hsized⟩
      refine ⟨m :: ms, ?_, by rw [List.length_cons, hlength, List.length_cons],
        List.forall_mem_cons.mpr ⟨hm, hsized⟩⟩
      rw [List.mapM_cons, hms]
      rfl

theorem hasExtent_sumOfMatrices (hnode : KeepsScalars node) (hne : xs ≠ [])
    (hxs : ∀ x ∈ xs, HasExtent (.matrix rows columns) x) :
    Yields (sumOfMatrices node xs) (HasExtent (.matrix rows columns)) := by
  rcases mapM_ofExpr? hxs with ⟨ms, hms, hlength, hsized⟩
  rw [sumOfMatrices, hms]
  cases ms with
  | nil => exact absurd (List.length_eq_zero_iff.mp hlength.symm) hne
  | cons m ms =>
      have hm := hsized m List.mem_cons_self
      have hall : (ms.all fun n => n.rows = m.rows && n.columns = m.columns) = true := by
        rw [List.all_eq_true]
        intro n hn
        have hn := hsized n (List.mem_cons_of_mem m hn)
        simp [hn.rows_eq, hn.columns_eq, hm.rows_eq, hm.columns_eq]
      dsimp only
      rw [if_pos hall, hm.rows_eq, hm.columns_eq]
      refine (Grid.sized_ofComputation fun i hi j hj => hnode.add fun x hx => ?_).bind
        fun sum hsum => Yields.pure ⟨sum, hsum, rfl⟩
      rcases List.mem_map.mp hx with ⟨n, hn, rfl⟩
      exact (hsized n hn).entry hi hj

/-! ## Powers and inverses -/

/-- A power or an inverse. -/
def isPowerOrInverse (x : Expr) : Bool :=
  x.kind = .power || x.kind = .matrixInverse

/-- The power or the inverse of a matrix that is left as it is. -/
structure Untouched (s : Extent) (x : Expr) : Prop where
  ne_scalar : s ≠ .scalar
  isPowerOrInverse : isPowerOrInverse x = true
  extent?_eq : x.extent? = some s

theorem untouched_inverse (hm : m.Sized rows rows) :
    Untouched (.matrix rows rows) (.apply .matrixInverse [m.toExpr]) := by
  have hextent : HasExtent (.matrix rows rows) m.toExpr := ⟨m, hm, rfl⟩
  exact ⟨by simp, rfl, extent?_inverse hextent.extent? (decide_eq_true rfl)⟩

theorem untouched_power (hm : m.Sized rows rows) (k : Int) :
    Untouched (.matrix rows rows) (.apply .power [m.toExpr, .integer k]) := by
  have hextent : HasExtent (.matrix rows rows) m.toExpr := ⟨m, hm, rfl⟩
  exact ⟨by simp, rfl, extent?_power.mpr
    ⟨⟨k, wholeLiteral?_integer k⟩, hextent.extent?, decide_eq_true rfl⟩⟩

/-- The inverse of a matrix is missing, or computed, or kept. -/
theorem yields_invertGrid (hnode : KeepsScalars node) (hm : m.Sized rows rows) :
    Yields (m.invert node) fun r =>
      Fits (.matrix rows rows) r ∨ Untouched (.matrix rows rows) r := by
  rw [Grid.invert]
  split
  · rename_i qs hqs
    split
    · rename_i inverse hinverse
      have hsized := Grid.sized_rationalInverse? hm.columns_eq hm.length_eq hqs hinverse
      exact Yields.pure (.inl (.inr ⟨_, hsized, rfl⟩))
    · exact Yields.pure (.inl (.inl rfl))
  · rw [hm.rows_eq]
    split
    · rename_i hone
      subst hone
      have hentry := hm.entry Nat.one_pos Nat.one_pos
      refine (hnode.power hentry ⟨-1, rfl⟩).bind fun x hx => Yields.pure (.inl (.inr ?_))
      exact ⟨⟨1, 1, [x]⟩, ⟨rfl, rfl, rfl, List.forall_mem_singleton.mpr hx⟩, rfl⟩
    · exact Yields.pure (.inr (untouched_inverse hm))

/-- The power of a square matrix is its inverse, or undefined, or kept, or multiplied out. -/
theorem yields_powerOfMatrix (hnode : KeepsScalars node) (hm : m.Sized rows rows) (k : Int) :
    Yields (powerOfMatrix node m k) fun r =>
      Fits (.matrix rows rows) r ∨ Untouched (.matrix rows rows) r := by
  have hsquare : m.isSquare = true := (Grid.isSquare_iff hm).mpr rfl
  rw [powerOfMatrix, hsquare]
  simp only [Bool.not_true, Bool.false_eq_true, if_false]
  split
  · exact yields_invertGrid hnode hm
  · split
    · exact Yields.pure (.inl (.inl rfl))
    · split
      · exact Yields.pure (.inr (untouched_power hm k))
      · rw [hm.rows_eq]
        exact (sized_powerTimes hnode _ _ (sized_identity rows) hm).bind fun power hpower =>
          Yields.pure (.inl (.inr ⟨power, hpower, rfl⟩))

theorem yields_power (hnode : KeepsScalars node) (hx : HasExtent s x) (hs : s.isSquare = true)
    (k : Int) :
    Yields (reducePower ctx node [x, .integer k]) fun r => Fits s r ∨ Untouched s r := by
  cases s with
  | scalar => exact (closedScalars_isScalar.reducePower hnode hx k).mono fun r hr => .inl (.inr hr)
  | matrix rows columns =>
      rcases hx with ⟨m, hm, rfl⟩
      obtain rfl : rows = columns := of_decide_eq_true hs
      have hexponent : (Expr.integer k).isMatrix = false := rfl
      simp only [reducePower, hexponent, Grid.toExpr, Grid.ofExpr?, integer?_integer,
        Bool.false_eq_true, if_false]
      exact yields_powerOfMatrix hnode hm k

/-! ## Functions of matrices -/

theorem hasExtent_dimension (r : Extent) :
    HasExtent (.matrix 1 2)
      (.apply (.matrix 1 2) [.integer r.sides.1, .integer r.sides.2]) := by
  refine ⟨⟨1, 2, _⟩, ⟨rfl, rfl, rfl, ?_⟩, rfl⟩
  exact forall_mem_pair (.rational _) (.rational _)

/-- The dimensions of a scalar or a matrix. -/
theorem yields_dimension (hx : HasExtent s x) :
    Yields (matrixFunction node .dimension [x])
      (· = .apply (.matrix 1 2) [.integer s.sides.1, .integer s.sides.2]) := by
  cases s with
  | scalar =>
      rw [matrixFunction.eq_def]
      dsimp only
      rw [IsScalar.ofExpr? hx]
      exact Yields.pure rfl
  | matrix rows columns =>
      rcases hx with ⟨m, hm, rfl⟩
      refine Yields.pure ?_
      rw [hm.rows_eq, hm.columns_eq]
      rfl

/-- A function of a square matrix, which is the number itself for a scalar. -/
theorem yields_ofSquare {f : Operator} {g : Grid → ReduceM Expr}
    (hscalar : ∀ x, Grid.ofExpr? x = none → matrixFunction node f [x] = pure x)
    (hmatrix : ∀ m : Grid, m.isSquare = true → matrixFunction node f [m.toExpr] = g m)
    (hg : ∀ {rows m}, m.Sized rows rows → Yields (g m) IsScalar) (hx : HasExtent s x)
    (hs : s.isSquare = true) : Yields (matrixFunction node f [x]) IsScalar := by
  cases s with
  | scalar =>
      rw [hscalar x (IsScalar.ofExpr? hx)]
      exact Yields.pure hx
  | matrix rows columns =>
      rcases hx with ⟨m, hm, rfl⟩
      obtain rfl : rows = columns := of_decide_eq_true hs
      rw [hmatrix m ((Grid.isSquare_iff hm).mpr rfl)]
      exact hg hm

theorem determinant_isScalar (hnode : KeepsScalars node) (hm : m.Sized rows rows) :
    Yields (determinant node m) IsScalar := by
  rw [determinant]
  split
  · exact Yields.pure (.rational _)
  · split
    · exact closedScalars_isScalar.cofactorDeterminant hnode _ hm.entries
    · refine Yields.pure ?_
      rw [Grid.toExpr, hm.rows_eq, hm.columns_eq]
      exact .determinant hm.length_eq hm.entries

theorem yields_determinant (hnode : KeepsScalars node) (hx : HasExtent s x)
    (hs : s.isSquare = true) : Yields (matrixFunction node .determinant [x]) IsScalar := by
  refine yields_ofSquare (fun x hx => ?_) (fun m hm => ?_) (determinant_isScalar hnode) hx hs
  · simp only [matrixFunction, hx, matrixFunctionOfScalar]
  · simp only [matrixFunction, Grid.toExpr, Grid.ofExpr?, hm, Bool.not_true, Bool.false_eq_true,
      if_false]

theorem yields_trace (hnode : KeepsScalars node) (hx : HasExtent s x)
    (hs : s.isSquare = true) : Yields (matrixFunction node .trace [x]) IsScalar := by
  refine yields_ofSquare (g := fun m => add node ((List.range m.rows).map fun i => m.entry i i))
    (fun x hx => ?_) (fun m hm => ?_) (fun {rows m} hm => hnode.add fun x hx => ?_) hx hs
  · simp only [matrixFunction, hx, matrixFunctionOfScalar]
  · simp only [matrixFunction, Grid.toExpr, Grid.ofExpr?, hm, Bool.not_true, Bool.false_eq_true,
      if_false]
  · rcases List.mem_map.mp hx with ⟨i, hi, rfl⟩
    rw [List.mem_range, hm.rows_eq] at hi
    exact hm.entry hi hi

theorem yields_inverse (hnode : KeepsScalars node) (hx : HasExtent s x)
    (hs : s.isSquare = true) :
    Yields (matrixFunction node .matrixInverse [x]) fun r => Fits s r ∨ Untouched s r := by
  cases s with
  | scalar =>
      simp only [matrixFunction, IsScalar.ofExpr? hx, matrixFunctionOfScalar]
      exact (hnode.power hx ⟨-1, rfl⟩).mono fun r hr => .inl (.inr hr)
  | matrix rows columns =>
      rcases hx with ⟨m, hm, rfl⟩
      obtain rfl : rows = columns := of_decide_eq_true hs
      simp only [matrixFunction, Grid.toExpr, Grid.ofExpr?, (Grid.isSquare_iff hm).mpr rfl,
        Bool.not_true, Bool.false_eq_true, if_false]
      exact yields_invertGrid hnode hm

theorem yields_transpose (hx : HasExtent s x) :
    Yields (matrixFunction node .transpose [x]) (HasExtent s.transpose) := by
  cases s with
  | scalar =>
      simp only [matrixFunction, IsScalar.ofExpr? hx, matrixFunctionOfScalar]
      exact Yields.pure hx
  | matrix rows columns =>
      rcases hx with ⟨m, hm, rfl⟩
      exact Yields.pure ⟨m.transpose, hm.transpose, rfl⟩

end Reduction

end PocketAlgebra
