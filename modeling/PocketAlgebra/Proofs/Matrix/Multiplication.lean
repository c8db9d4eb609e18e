import Mathlib.Data.Matrix.Mul
import PocketAlgebra.Proofs.Matrix.Grid
import PocketAlgebra.Proofs.Reduction.Settles

/-!
# Products of numbers and matrices

A product of rational numbers and matrices of them is a number, a matrix, or undefined where the
shapes of two matrices do not fit. Together these values form a monoid, in which the numbers commute
with everything; so how the factors of a product are grouped does not matter, and the numbers may be
taken out of it.

The reduction of a product works through its matrices from the left, entry by entry with the rules
for sums and products of numbers, and multiplies the result by the numbers. So a product of numbers
and matrices of numbers, nested in any way, is reduced to its value.
-/

namespace PocketAlgebra

open Reduction

/-- A matrix of rational numbers, of any shape. -/
structure RationalMatrix where
  rows : Nat
  columns : Nat
  entries : Matrix (Fin rows) (Fin columns) ℚ

namespace RationalMatrix

/-- The matrix as one of expressions. -/
def toGrid (a : RationalMatrix) : Grid :=
  .ofMatrix (a.entries.map .rational)

/-- The matrix as an expression. -/
def toExpr (a : RationalMatrix) : Expr :=
  a.toGrid.toExpr

/-- The product of two matrices whose shapes fit. -/
def times (a b : RationalMatrix) (h : a.columns = b.rows) : RationalMatrix :=
  ⟨a.rows, b.columns, a.entries * b.entries.submatrix (Fin.cast h) id⟩

/-- A multiple of a matrix. -/
def scale (q : ℚ) (a : RationalMatrix) : RationalMatrix :=
  ⟨a.rows, a.columns, q • a.entries⟩

/-- The shapes of two matrices fit. -/
def Fits (a b : RationalMatrix) : Prop :=
  a.columns = b.rows

theorem scale_one (a : RationalMatrix) : a.scale 1 = a := by
  rw [scale, one_smul]

theorem scale_scale (p q : ℚ) (a : RationalMatrix) : (a.scale q).scale p = a.scale (p * q) := by
  rw [scale, scale, scale, smul_smul]

theorem scale_times (q : ℚ) {a b : RationalMatrix} (h : a.columns = b.rows) :
    (a.scale q).times b h = (a.times b h).scale q :=
  congrArg (mk _ _) (Matrix.smul_mul q a.entries _)

theorem times_scale (q : ℚ) {a b : RationalMatrix} (h : a.columns = b.rows) :
    a.times (b.scale q) h = (a.times b h).scale q :=
  congrArg (mk _ _) (Matrix.mul_smul a.entries q _)

theorem times_assoc {a b c : RationalMatrix} (h : a.columns = b.rows) (h' : b.columns = c.rows) :
    (a.times b h).times c h' = a.times (b.times c h') h := by
  rcases a with ⟨m, n, A⟩
  rcases b with ⟨_, k, B⟩
  rcases c with ⟨_, l, C⟩
  cases h
  cases h'
  exact congrArg (mk _ _) (Matrix.mul_assoc A B C)

end RationalMatrix

/-- What a product of numbers and matrices comes to. -/
inductive Exact where
  | undefined
  | scalar (q : ℚ)
  | matrix (a : RationalMatrix)

namespace Exact

open RationalMatrix

/-- The value as a reduced expression. -/
def toExpr : Exact → Expr
  | undefined => .undefined
  | scalar q => .rational q
  | matrix a => a.toExpr

/-- The product of two values. -/
def mul : Exact → Exact → Exact
  | scalar p, scalar q => scalar (p * q)
  | scalar p, matrix a => matrix (a.scale p)
  | matrix a, scalar q => matrix (a.scale q)
  | matrix a, matrix b => if h : a.columns = b.rows then matrix (a.times b h) else undefined
  | _, _ => undefined

theorem mul_matrix_matrix {a b : RationalMatrix} (h : a.columns = b.rows) :
    mul (matrix a) (matrix b) = matrix (a.times b h) :=
  dif_pos h

theorem mul_matrix_matrix_of_ne {a b : RationalMatrix} (h : a.columns ≠ b.rows) :
    mul (matrix a) (matrix b) = undefined :=
  dif_neg h

/-- A number may be taken out of the first factor. -/
theorem mul_scalar_mul (q : ℚ) (x y : Exact) :
    mul (mul (scalar q) x) y = mul (scalar q) (mul x y) := by
  cases x with
  | undefined => rfl
  | scalar p =>
      cases y with
      | undefined => rfl
      | scalar r => exact congrArg scalar (mul_assoc q p r)
      | matrix b => exact congrArg matrix (b.scale_scale q p).symm
  | matrix a =>
      cases y with
      | undefined => rfl
      | scalar p => exact congrArg matrix (by rw [scale_scale, scale_scale, mul_comm])
      | matrix b =>
          by_cases h : a.columns = b.rows
          · have h' : (a.scale q).columns = b.rows := h
            rw [mul_matrix_matrix h]
            exact (mul_matrix_matrix h').trans (congrArg matrix (scale_times q h))
          · have h' : (a.scale q).columns ≠ b.rows := h
            rw [mul_matrix_matrix_of_ne h]
            exact mul_matrix_matrix_of_ne h'

theorem mul_scalar_comm (q : ℚ) (x : Exact) : mul x (scalar q) = mul (scalar q) x := by
  cases x with
  | scalar p => exact congrArg scalar (mul_comm p q)
  | _ => rfl

/-- A number may be taken out of the second factor. -/
theorem mul_mul_scalar (q : ℚ) (x y : Exact) :
    mul x (mul (scalar q) y) = mul (scalar q) (mul x y) := by
  cases x with
  | undefined => cases y <;> rfl
  | scalar p => rw [← mul_scalar_mul, mul_scalar_comm, mul_scalar_mul]
  | matrix a =>
      cases y with
      | undefined => rfl
      | scalar p => exact congrArg matrix (a.scale_scale q p).symm
      | matrix b =>
          by_cases h : a.columns = b.rows
          · have h' : a.columns = (b.scale q).rows := h
            rw [mul_matrix_matrix h]
            exact (mul_matrix_matrix h').trans (congrArg matrix (times_scale q h))
          · have h' : a.columns ≠ (b.scale q).rows := h
            rw [mul_matrix_matrix_of_ne h]
            exact mul_matrix_matrix_of_ne h'

theorem mul_undefined (x : Exact) : mul x undefined = undefined := by
  cases x <;> rfl

theorem undefined_mul (x : Exact) : mul undefined x = undefined := by
  cases x <;> rfl

theorem mul_matrices (a b c : RationalMatrix) :
    mul (mul (matrix a) (matrix b)) (matrix c) = mul (matrix a) (mul (matrix b) (matrix c)) := by
  by_cases h : a.columns = b.rows
  · rw [mul_matrix_matrix h]
    by_cases h' : b.columns = c.rows
    · have hleft : (a.times b h).columns = c.rows := h'
      have hright : a.columns = (b.times c h').rows := h
      rw [mul_matrix_matrix h', mul_matrix_matrix hleft, mul_matrix_matrix hright]
      exact congrArg matrix (times_assoc h h')
    · have hleft : (a.times b h).columns ≠ c.rows := h'
      rw [mul_matrix_matrix_of_ne h', mul_matrix_matrix_of_ne hleft, mul_undefined]
  · rw [mul_matrix_matrix_of_ne h, undefined_mul]
    by_cases h' : b.columns = c.rows
    · have hright : a.columns ≠ (b.times c h').rows := h
      rw [mul_matrix_matrix h', mul_matrix_matrix_of_ne hright]
    · rw [mul_matrix_matrix_of_ne h', mul_undefined]

theorem mul_grouped (x y z : Exact) : mul (mul x y) z = mul x (mul y z) := by
  cases x with
  | undefined => rw [undefined_mul, undefined_mul, undefined_mul]
  | scalar p => exact mul_scalar_mul p y z
  | matrix a =>
      cases y with
      | undefined => rw [mul_undefined, undefined_mul, mul_undefined]
      | scalar q => rw [mul_scalar_comm, mul_scalar_mul, mul_mul_scalar]
      | matrix b =>
          cases z with
          | undefined => rw [mul_undefined, mul_undefined, mul_undefined]
          | scalar q => rw [mul_scalar_comm, mul_scalar_comm, mul_mul_scalar]
          | matrix c => exact mul_matrices a b c

/-- Values of products, under multiplication; 1 is the empty product. -/
instance : Monoid Exact where
  mul := mul
  one := scalar 1
  mul_assoc := mul_grouped
  one_mul x := by
    cases x with
    | undefined => rfl
    | scalar q => exact congrArg scalar (one_mul q)
    | matrix a => exact congrArg matrix a.scale_one
  mul_one x := by
    cases x with
    | undefined => rfl
    | scalar q => exact congrArg scalar (mul_one q)
    | matrix a => exact congrArg matrix a.scale_one

/-! ## Lists of factors -/

/-- A factor as a value. -/
def ofFactor : ℚ ⊕ RationalMatrix → Exact :=
  Sum.elim scalar matrix

theorem prod_eq_undefined {xs : List Exact} (h : undefined ∈ xs) : xs.prod = undefined := by
  induction xs with
  | nil => cases h
  | cons x xs ih =>
      rw [List.prod_cons]
      rcases List.mem_cons.mp h with rfl | h
      · exact undefined_mul _
      · rw [ih h]
        exact mul_undefined x

theorem exists_factors {xs : List Exact} (h : undefined ∉ xs) :
    ∃ fs : List (ℚ ⊕ RationalMatrix), xs = fs.map ofFactor := by
  induction xs with
  | nil => exact ⟨[], rfl⟩
  | cons x xs ih =>
      rcases ih fun hmem => h (List.mem_cons_of_mem x hmem) with ⟨fs, rfl⟩
      cases x with
      | undefined => exact (h List.mem_cons_self).elim
      | scalar q => exact ⟨.inl q :: fs, rfl⟩
      | matrix a => exact ⟨.inr a :: fs, rfl⟩

theorem prod_scalars (qs : List ℚ) : (qs.map scalar).prod = scalar qs.prod := by
  induction qs with
  | nil => rfl
  | cons q qs ih =>
      rw [List.map_cons, List.prod_cons, ih, List.prod_cons]
      rfl

/-- The numbers may be taken out of a product. -/
theorem prod_factors (fs : List (ℚ ⊕ RationalMatrix)) :
    (fs.map ofFactor).prod =
      scalar (fs.filterMap Sum.getLeft?).prod *
        ((fs.filterMap Sum.getRight?).map matrix).prod := by
  induction fs with
  | nil => exact (one_mul 1).symm
  | cons f fs ih =>
      rw [List.map_cons, List.prod_cons, ih]
      cases f with
      | inl q => exact (mul_scalar_mul q _ _).symm
      | inr a => exact mul_mul_scalar _ (matrix a) _

/-- A product of matrices has as many rows as the first one, and is undefined exactly where the
shapes of two neighbours do not fit. -/
theorem prod_matrices (a : RationalMatrix) (as : List RationalMatrix) :
    (¬ (a :: as).IsChain Fits ∧ ((a :: as).map matrix).prod = undefined) ∨
      (a :: as).IsChain Fits ∧ ∃ m, m.rows = a.rows ∧ ((a :: as).map matrix).prod = matrix m := by
  induction as generalizing a with
  | nil => exact .inr ⟨.singleton a, a, rfl, mul_one _⟩
  | cons b as ih =>
      rw [List.map_cons, List.prod_cons, List.isChain_cons_cons]
      rcases ih b with ⟨hchain, hprod⟩ | ⟨hchain, m, hrows, hprod⟩
      · rw [hprod]
        exact .inl ⟨fun h => hchain h.2, rfl⟩
      · rw [hprod]
        by_cases h : a.columns = m.rows
        · exact .inr ⟨⟨h.trans hrows, hchain⟩, a.times m h, rfl, mul_matrix_matrix h⟩
        · exact .inl ⟨fun hfits => h (hfits.1.trans hrows.symm), mul_matrix_matrix_of_ne h⟩

end Exact

namespace Reduction

open PocketAlgebra.Expr

variable {ctx : Context} {nesting : Nat}

/-! ## Products of two matrices -/

theorem settles_ofComputation {rows columns : Nat} {entry : Nat → Nat → Nat → ReduceM Expr}
    {X : Matrix (Fin rows) (Fin columns) Expr}
    (h : ∀ i j, Settles (fun room => entry room (i : Fin rows) (j : Fin columns)) (X i j)) :
    Settles (fun room => Grid.ofComputation rows columns (entry room)) (.ofMatrix X) :=
  (Settles.mapM_range fun i => Settles.mapM_range (h i)).bind (.pure _)

theorem entry_toGrid (a : RationalMatrix) (i : Fin a.rows) (j : Fin a.columns) :
    a.toGrid.entry i j = .rational (a.entries i j) :=
  Grid.entry_ofMatrix _ i j

/-- An entry of a product is the sum of the products that it is defined as. -/
theorem settles_entry {a b : RationalMatrix} (h : a.columns = b.rows) (i : Fin a.rows)
    (j : Fin b.columns) :
    Settles (fun room => do
        let terms ← (List.range a.columns).mapM fun k =>
          multiply (nodeWithin (nesting + 1) (ctx.withRoom room))
            [a.toGrid.entry i k, b.toGrid.entry k j]
        add (nodeWithin (nesting + 1) (ctx.withRoom room)) terms)
      (.rational ((a.times b h).entries i j)) := by
  have hterm (k : Fin a.columns) : Settles
      (fun room => multiply (nodeWithin (nesting + 1) (ctx.withRoom room))
        [a.toGrid.entry i k, b.toGrid.entry k j])
      (.rational (a.entries i k * b.entries (Fin.cast h k) j)) := by
    have hproduct := settles_product ctx nesting [a.entries i k, b.entries (Fin.cast h k) j]
    rw [List.prod_pair] at hproduct
    rw [entry_toGrid a i k, show b.toGrid.entry k j = _ from entry_toGrid b (Fin.cast h k) j]
    exact hproduct
  have hsum := settles_sum ctx nesting
    (List.ofFn fun k => a.entries i k * b.entries (Fin.cast h k) j)
  rw [List.map_ofFn, List.sum_ofFn] at hsum
  exact (Settles.mapM_range hterm).bind hsum

theorem settles_multiply? (ctx : Context) (nesting : Nat) {a b : RationalMatrix}
    (h : a.columns = b.rows) :
    Settles
      (fun room => Grid.multiply? (nodeWithin (nesting + 1) (ctx.withRoom room)) a.toGrid b.toGrid)
      (some (a.times b h).toGrid) := by
  have hfits : ¬ a.toGrid.columns ≠ b.toGrid.rows := not_not.mpr h
  simp only [Grid.multiply?, if_neg hfits]
  exact (settles_ofComputation (settles_entry h)).bind (.pure _)

theorem multiply?_of_ne {node : NodeReducer} {a b : RationalMatrix} (h : a.columns ≠ b.rows) :
    Grid.multiply? node a.toGrid b.toGrid = pure none :=
  if_pos h

/-! ## Products of several matrices -/

/-- The matrix that a value is. -/
def gridOf? : Exact → Option Grid
  | .matrix a => some a.toGrid
  | _ => none

theorem settles_multiplyInOrder (ctx : Context) (nesting : Nat) (a : RationalMatrix)
    (as : List RationalMatrix) :
    Settles
      (fun room => multiplyInOrder (nodeWithin (nesting + 1) (ctx.withRoom room)) a.toGrid
        (as.map RationalMatrix.toGrid))
      (gridOf? ((a :: as).map Exact.matrix).prod) := by
  induction as generalizing a with
  | nil =>
      have hprod : ([a].map Exact.matrix).prod = .matrix a := mul_one _
      rw [hprod]
      exact Settles.pure _
  | cons b as ih =>
      have hprod : ((a :: b :: as).map Exact.matrix).prod =
          .matrix a * .matrix b * (as.map Exact.matrix).prod := (mul_assoc _ _ _).symm
      rw [hprod]
      simp only [List.map_cons, multiplyInOrder]
      by_cases h : a.columns = b.rows
      · have hproduct : Exact.matrix a * Exact.matrix b = .matrix (a.times b h) :=
          Exact.mul_matrix_matrix h
        rw [hproduct]
        exact (settles_multiply? ctx nesting h).bind (ih (a.times b h))
      · have hproduct : Exact.matrix a * Exact.matrix b = .undefined :=
          Exact.mul_matrix_matrix_of_ne h
        have hundefined : Exact.undefined * (as.map Exact.matrix).prod = .undefined :=
          Exact.undefined_mul _
        simp only [hproduct, hundefined, multiply?_of_ne h, pure_bind]
        exact Settles.pure _

/-- Every entry is multiplied by the numbers. -/
theorem settles_scale (ctx : Context) (nesting : Nat) (qs : List ℚ) (m : RationalMatrix) :
    Settles
      (fun room => m.toGrid.entries.mapM fun x =>
        multiply (nodeWithin (nesting + 1) (ctx.withRoom room)) (qs.map .rational ++ [x]))
      (m.scale qs.prod).toGrid.entries := by
  have hentries (M : Matrix (Fin m.rows) (Fin m.columns) ℚ) :
      (Grid.ofMatrix (M.map .rational)).entries = (rowsOf M).flatten.map .rational := by
    rw [Grid.ofMatrix, rowsOf_map, List.map_flatten]
  have hscale : (rowsOf (qs.prod • m.entries)).flatten =
      (rowsOf m.entries).flatten.map (qs.prod * ·) := by
    rw [List.map_flatten, ← rowsOf_map]
    rfl
  rw [RationalMatrix.toGrid, RationalMatrix.toGrid, hentries, RationalMatrix.scale, hentries,
    hscale, List.map_map]
  refine Settles.mapM ?_
  rw [List.forall₂_map_left_iff, List.forall₂_map_right_iff, List.forall₂_same]
  intro q _
  have hproduct := settles_product ctx nesting (qs ++ [q])
  rwa [List.map_append, List.prod_append, List.prod_singleton] at hproduct

/-! ## Products of numbers and matrices -/

/-- A factor as an expression. -/
def factorExpr : ℚ ⊕ RationalMatrix → Expr :=
  Sum.elim .rational RationalMatrix.toExpr

variable {fs : List (ℚ ⊕ RationalMatrix)}

theorem filter_factorExpr (fs : List (ℚ ⊕ RationalMatrix)) :
    (fs.map factorExpr).filter (fun x => !x.isMatrix) =
      (fs.filterMap Sum.getLeft?).map .rational := by
  induction fs with
  | nil => rfl
  | cons f fs ih =>
      cases f with
      | inl q => exact congrArg (.rational q :: ·) ih
      | inr a => exact ih

theorem filterMap_factorExpr (fs : List (ℚ ⊕ RationalMatrix)) :
    (fs.map factorExpr).filterMap Grid.ofExpr? =
      (fs.filterMap Sum.getRight?).map RationalMatrix.toGrid := by
  induction fs with
  | nil => rfl
  | cons f fs ih =>
      cases f with
      | inl q => exact ih
      | inr a => exact congrArg (a.toGrid :: ·) ih

theorem settles_productOfMatrices (ctx : Context) (nesting : Nat) {a : RationalMatrix}
    {as : List RationalMatrix} (h : fs.filterMap Sum.getRight? = a :: as) :
    Settles
      (fun room => productOfMatrices (nodeWithin (nesting + 1) (ctx.withRoom room))
        (fs.map factorExpr))
      (fs.map Exact.ofFactor).prod.toExpr := by
  simp only [productOfMatrices, filter_factorExpr, filterMap_factorExpr, h, List.map_cons]
  rw [Exact.prod_factors, h]
  refine (settles_multiplyInOrder ctx nesting a as).bind ?_
  rcases Exact.prod_matrices a as with ⟨-, hprod⟩ | ⟨-, m, -, hprod⟩
  · rw [hprod]
    exact Settles.pure _
  · have hvalue (q : ℚ) : Exact.scalar q * .matrix m = .matrix (m.scale q) := rfl
    rw [hprod, hvalue]
    dsimp only [gridOf?]
    rw [List.isEmpty_map]
    cases hscalars : fs.filterMap Sum.getLeft? with
    | nil =>
        rw [List.prod_nil, m.scale_one]
        exact Settles.pure _
    | cons q qs =>
        have hscale := settles_scale ctx nesting (q :: qs) m
        exact hscale.bind (.pure _)

theorem factorExpr_kind (f : ℚ ⊕ RationalMatrix) :
    (factorExpr f).isList = false ∧ (factorExpr f).kind.isPoison = false ∧
      (factorExpr f).kind ≠ .multiplication := by
  cases f <;> exact ⟨rfl, rfl, by nofun⟩

theorem flattenAll_factors (fs : List (ℚ ⊕ RationalMatrix)) :
    flattenAll .multiplication (fs.map factorExpr) = fs.map factorExpr := by
  induction fs with
  | nil => rfl
  | cons f fs ih =>
      rw [List.map_cons, flattenAll, ih, flatten_of_ne (factorExpr_kind f).2.2]
      rfl

theorem eq_map_inl (h : fs.filterMap Sum.getRight? = []) :
    fs = (fs.filterMap Sum.getLeft?).map Sum.inl := by
  induction fs with
  | nil => rfl
  | cons f fs ih =>
      cases f with
      | inl q => exact congrArg (.inl q :: ·) (ih h)
      | inr a => cases h

theorem settles_productOfFactors (ctx : Context) (nesting : Nat) (fs : List (ℚ ⊕ RationalMatrix)) :
    Settles
      (fun room => nodeWithin (nesting + 2) (ctx.withRoom room)
        (.apply .multiplication (fs.map factorExpr)))
      (fs.map Exact.ofFactor).prod.toExpr := by
  have hpoison : poison? (fs.map factorExpr) = none :=
    poison?_eq_none (List.forall_mem_map.mpr fun f _ => (factorExpr_kind f).2.1)
  have hspoiled : spoiled? .multiplication (fs.map factorExpr) = none := by
    have hlists : (fs.map factorExpr).any isList = false :=
      List.any_eq_false.mpr (List.forall_mem_map.mpr fun f _ => by simp [(factorExpr_kind f).1])
    rw [spoiled?, hlists, hpoison]
    rfl
  refine settles_unspoiled hspoiled ?_
  simp only [reduceApply, reduceProduct, flattenAll_factors, hpoison]
  cases hmatrices : fs.filterMap Sum.getRight? with
  | nil =>
      obtain ⟨qs, rfl⟩ : ∃ qs : List ℚ, fs = qs.map Sum.inl := ⟨_, eq_map_inl hmatrices⟩
      have hexprs : (qs.map Sum.inl).map factorExpr = qs.map .rational := List.map_map
      have hvalues : (qs.map Sum.inl).map Exact.ofFactor = qs.map .scalar := List.map_map
      rw [hexprs, hvalues, Exact.prod_scalars]
      simp only [any_isMatrix_plain (plain_rationals qs), Bool.false_eq_true, if_false,
        productOfScalars_rationals]
      exact Settles.pure _
  | cons a as =>
      have hany : (fs.map factorExpr).any isMatrix = true := by
        have ha : a ∈ fs.filterMap Sum.getRight? := hmatrices ▸ List.mem_cons_self
        rcases List.mem_filterMap.mp ha with ⟨f, hf, hfa⟩
        rw [Sum.getRight?_eq_some_iff] at hfa
        exact List.any_eq_true.mpr ⟨factorExpr f, List.mem_map_of_mem hf, by rw [hfa]; rfl⟩
      simp only [hany, if_true]
      exact settles_productOfMatrices ctx nesting hmatrices

/-- A product is reduced to the product of the values of its factors. -/
theorem settles_productNode (ctx : Context) (nesting : Nat) (es : List Exact) :
    Settles
      (fun room => nodeWithin (nesting + 2) (ctx.withRoom room)
        (.apply .multiplication (es.map Exact.toExpr)))
      es.prod.toExpr := by
  by_cases hundefined : Exact.undefined ∈ es
  · rw [Exact.prod_eq_undefined hundefined]
    refine settles_spoiled ?_
    have hlists : (es.map Exact.toExpr).any isList = false :=
      List.any_eq_false.mpr <| List.forall_mem_map.mpr fun e _ => by
        cases e <;> exact Bool.false_ne_true
    have hpoison : (es.map Exact.toExpr).any (·.kind == .undefined) = true :=
      List.any_eq_true.mpr ⟨_, List.mem_map_of_mem hundefined, rfl⟩
    rw [spoiled?, hlists, poison?, hpoison]
    rfl
  · rcases Exact.exists_factors hundefined with ⟨fs, rfl⟩
    have hexprs : (fs.map Exact.ofFactor).map Exact.toExpr = fs.map factorExpr := by
      rw [List.map_map]
      exact List.map_congr_left fun f _ => by cases f <;> rfl
    rw [hexprs]
    exact settles_productOfFactors ctx nesting fs

end Reduction

/-! ## Nested products -/

/-- A product of numbers and matrices, with products nested in it in any way. -/
inductive ProductTree where
  | factor (f : ℚ ⊕ RationalMatrix)
  | product (ts : List ProductTree)

namespace ProductTree

mutual

/-- The product as it is written. -/
def toExpr : ProductTree → Expr
  | factor f => Reduction.factorExpr f
  | product ts => .apply .multiplication (toExprs ts)

/-- Several products as they are written. -/
def toExprs : List ProductTree → List Expr
  | [] => []
  | t :: ts => t.toExpr :: toExprs ts

end

mutual

/-- The factors of a product, in the written order. -/
def factors : ProductTree → List (ℚ ⊕ RationalMatrix)
  | factor f => [f]
  | product ts => factorsOfAll ts

/-- The factors of several products, in the written order. -/
def factorsOfAll : List ProductTree → List (ℚ ⊕ RationalMatrix)
  | [] => []
  | t :: ts => t.factors ++ factorsOfAll ts

end

/-- The numbers in a product. -/
def scalars (t : ProductTree) : List ℚ :=
  t.factors.filterMap Sum.getLeft?

/-- The matrices in a product, in the written order. -/
def matrices (t : ProductTree) : List RationalMatrix :=
  t.factors.filterMap Sum.getRight?

/-- The value of a product. -/
def value (t : ProductTree) : Exact :=
  (t.factors.map Exact.ofFactor).prod

theorem prod_factorsOfAll (ts : List ProductTree) :
    ((factorsOfAll ts).map Exact.ofFactor).prod = (ts.map value).prod := by
  induction ts with
  | nil => rfl
  | cons t ts ih => rw [factorsOfAll, List.map_append, List.prod_append, ih]; rfl

end ProductTree

namespace Reduction

open PocketAlgebra.Expr

theorem exists_of_mem_toGrid {a : RationalMatrix} {x : Expr} (hx : x ∈ a.toGrid.entries) :
    ∃ q, x = .rational q := by
  rcases mem_flatten_rowsOf.mp hx with ⟨i, j, rfl⟩
  exact ⟨_, rfl⟩

/-- A matrix of numbers is reduced already. -/
theorem settles_matrix (ctx : Context) (nesting : Nat) (a : RationalMatrix) :
    Settles (fun room => treeWithin (nesting + 3) (ctx.withRoom room) a.toExpr) a.toExpr := by
  have hlists : a.toGrid.entries.any isList = false := by
    refine List.any_eq_false.mpr fun x hx => ?_
    rcases exists_of_mem_toGrid hx with ⟨q, rfl⟩
    exact Bool.false_ne_true
  refine settles_apply (by nofun) rfl (List.forall₂_same.mpr fun x hx => ?_) ?_
  · rcases exists_of_mem_toGrid hx with ⟨q, rfl⟩
    exact settles_rational ctx nesting q
  · refine settles_unspoiled ?_ (.pure _)
    rw [spoiled?, hlists]
    rfl

mutual

/-- A nested product is reduced to its value. -/
theorem settles_productTree (ctx : Context) : ∀ (t : ProductTree) (n : Nat),
    t.toExpr.depth + 2 ≤ n →
    Settles (fun room => treeWithin n (ctx.withRoom room) t.toExpr) t.value.toExpr
  | .factor f, n, hn => by
      have hvalue : (ProductTree.factor f).value = Exact.ofFactor f := mul_one _
      have hdepth : 1 ≤ (ProductTree.factor f).toExpr.depth := by
        rw [depth_eq]
        omega
      obtain ⟨k, rfl⟩ : ∃ k, n = k + 3 := ⟨n - 3, by omega⟩
      rw [hvalue]
      cases f with
      | inl q => exact settles_rational ctx (k + 1) q
      | inr a => exact settles_matrix ctx k a
  | .product ts, n, hn => by
      have hdepth : (ProductTree.product ts).toExpr.depth = depthAll (ProductTree.toExprs ts) + 1 :=
        rfl
      obtain ⟨k, rfl⟩ : ∃ k, n = k + 3 := ⟨n - 3, by omega⟩
      have hvalue : (ProductTree.product ts).value = (ts.map ProductTree.value).prod :=
        ProductTree.prod_factorsOfAll ts
      have hnode := settles_productNode ctx k (ts.map ProductTree.value)
      rw [List.map_map] at hnode
      rw [hvalue]
      exact settles_apply (by decide) rfl (settles_productTrees ctx ts (k + 2) (by omega)) hnode

theorem settles_productTrees (ctx : Context) : ∀ (ts : List ProductTree) (n : Nat),
    depthAll (ProductTree.toExprs ts) + 2 ≤ n →
      List.Forall₂ (fun x y => Settles (fun room => treeWithin n (ctx.withRoom room) x) y)
        (ProductTree.toExprs ts) (ts.map fun t => t.value.toExpr)
  | [], _, _ => .nil
  | t :: ts, n, hn => by
      rw [ProductTree.toExprs, depthAll] at hn
      exact .cons (settles_productTree ctx t n (by omega))
        (settles_productTrees ctx ts n (by omega))

end

/-! ## Results -/

/-- Numbers and matrices of them are shown as they are. -/
theorem beautify_toExpr (e : Exact) : beautify e.toExpr = e.toExpr := by
  cases e with
  | matrix a =>
      have hentries : (shownAll a.toGrid.entries).map (fun p => standalone p.1 p.2) =
          a.toGrid.entries := by
        rw [shownAll_eq_map, List.map_map]
        refine (List.map_congr_left fun x hx => ?_).trans (List.map_id _)
        rcases exists_of_mem_toGrid hx with ⟨q, rfl⟩
        rfl
      exact congrArg (Expr.apply (.matrix a.rows a.columns)) hentries
  | _ => rfl

/-- A nested product is reduced to the product of its numbers times the product of its matrices in
the written order, which is undefined exactly where the shapes of two neighbours do not fit. -/
theorem reducesTo_productTree (ctx : Context) (t : ProductTree) :
    ReducesTo ctx t.toExpr
      (Exact.scalar t.scalars.prod * (t.matrices.map Exact.matrix).prod).toExpr := by
  have hreduces := reducesTo_of_settles (settles_productTree ctx t)
  rwa [beautify_toExpr, ite_self, ProductTree.value, Exact.prod_factors] at hreduces

end Reduction

end PocketAlgebra
