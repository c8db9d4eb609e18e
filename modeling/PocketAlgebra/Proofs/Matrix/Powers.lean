import PocketAlgebra.Proofs.Matrix.Inverse
import PocketAlgebra.Proofs.Matrix.Multiplication

/-!
# Powers of matrices

A power of a square matrix of rational numbers is computed by repeated squaring, and the power with
exponent -1 by elimination. Together with the products this is the exact arithmetic of matrices.
-/

namespace PocketAlgebra

namespace Reduction

open PocketAlgebra.Expr

variable {k : Nat} {M : Matrix (Fin k) (Fin k) ℚ} {ctx : Context}

/-! ## Repeated squaring -/

/-- A square matrix of numbers as one of expressions. -/
abbrev squareGrid (M : Matrix (Fin k) (Fin k) ℚ) : Grid :=
  RationalMatrix.toGrid ⟨k, k, M⟩

theorem settles_multiplyOr (ctx : Context) (nesting : Nat) (A B C : Matrix (Fin k) (Fin k) ℚ) :
    Settles
      (fun room => Grid.multiplyOr (nodeWithin (nesting + 1) (ctx.withRoom room)) (squareGrid C)
        (squareGrid A) (squareGrid B))
      (squareGrid (A * B)) := by
  have hproduct := settles_multiply? ctx nesting (a := ⟨k, k, A⟩) (b := ⟨k, k, B⟩) rfl
  exact hproduct.bind (.pure _)

/-- The invariant of the loop: the product times the power of the square that is still to come. -/
theorem settles_powerTimes (ctx : Context) (nesting : Nat) {steps exponent : Nat}
    (hsteps : exponent < 2 ^ steps) (P S : Matrix (Fin k) (Fin k) ℚ) :
    Settles
      (fun room => Grid.powerTimes (nodeWithin (nesting + 1) (ctx.withRoom room)) steps exponent
        (squareGrid P) (squareGrid S))
      (squareGrid (P * S ^ exponent)) := by
  induction steps generalizing exponent P S with
  | zero =>
      obtain rfl : exponent = 0 := by omega
      rw [pow_zero, mul_one]
      exact Settles.pure _
  | succ steps ih =>
      rw [pow_succ] at hsteps
      by_cases hzero : exponent = 0
      · simp only [Grid.powerTimes, if_pos hzero]
        rw [hzero, pow_zero, mul_one]
        exact Settles.pure _
      · -- What is left once the last bit of the exponent has been taken into the product.
        have hrest (product : Matrix (Fin k) (Fin k) ℚ) : Settles
            (fun room => if exponent / 2 = 0 then pure (squareGrid product) else do
              let node := nodeWithin (nesting + 1) (ctx.withRoom room)
              Grid.powerTimes node steps (exponent / 2) (squareGrid product)
                (← Grid.multiplyOr node (squareGrid S) (squareGrid S) (squareGrid S)))
            (squareGrid (product * (S ^ 2) ^ (exponent / 2))) := by
          by_cases hlast : exponent / 2 = 0
          · simp only [if_pos hlast]
            rw [hlast, pow_zero, mul_one]
            exact Settles.pure _
          · simp only [if_neg hlast]
            rw [pow_two]
            exact (settles_multiplyOr ctx nesting S S S).bind (ih (by omega) product (S * S))
        simp only [Grid.powerTimes, if_neg hzero]
        by_cases hodd : exponent % 2 = 1
        · have hpower : P * S ^ exponent = P * S * (S ^ 2) ^ (exponent / 2) := by
            rw [← pow_mul, mul_assoc, ← pow_succ', ← hodd, Nat.div_add_mod]
          simp only [if_pos hodd]
          rw [hpower]
          exact (settles_multiplyOr ctx nesting P S P).bind (hrest (P * S))
        · have hpower : P * S ^ exponent = P * (S ^ 2) ^ (exponent / 2) := by
            rw [← pow_mul, Nat.mul_div_cancel' (by omega)]
          simp only [if_neg hodd, pure_bind]
          rw [hpower]
          exact hrest P

/-! ## Powers with whole exponents -/

theorem isSquare_squareGrid (M : Matrix (Fin k) (Fin k) ℚ) : (squareGrid M).isSquare = true :=
  decide_eq_true rfl

theorem settles_powerOfMatrix (ctx : Context) (nesting : Nat) (M : Matrix (Fin k) (Fin k) ℚ)
    {n : Nat} (hn : n ≤ maxMatrixExponent) :
    Settles
      (fun room => powerOfMatrix (nodeWithin (nesting + 1) (ctx.withRoom room)) (squareGrid M) n)
      (squareGrid (M ^ n)).toExpr := by
  have hne : (n : Int) ≠ -1 := by omega
  have hlarge : ¬ (decide ((n : Int) < 0) || decide (0x100000000 ≤ (n : Int))) = true := by
    have hmax : maxMatrixExponent = 1024 := rfl
    simp only [Bool.or_eq_true, decide_eq_true_eq]
    omega
  have hmax : ¬ (maxMatrixExponent : Int) < n := by omega
  have hsteps : n < 2 ^ (n + 1) :=
    n.lt_two_pow_self.trans (Nat.pow_lt_pow_right one_lt_two n.lt_succ_self)
  have hloop := settles_powerTimes ctx nesting hsteps 1 M
  rw [one_mul] at hloop
  simp only [powerOfMatrix, isSquare_squareGrid, Bool.not_true, Bool.false_eq_true, if_false,
    if_neg hne, if_neg hlarge, if_neg hmax, Int.toNat_natCast]
  rw [Grid.identity_eq_ofMatrix]
  exact hloop.bind (.pure _)

/-- The power with exponent -1 is the inverse, where there is one. -/
theorem powerOfMatrix_neg_one (node : NodeReducer) (M : Matrix (Fin k) (Fin k) ℚ) :
    powerOfMatrix node (squareGrid M) (-1) =
      pure (if M.det = 0 then Exact.undefined else .matrix ⟨k, k, M⁻¹⟩).toExpr := by
  simp only [powerOfMatrix, isSquare_squareGrid, Bool.not_true, Bool.false_eq_true, if_false,
    if_true, Grid.invert]
  have hrationals : (squareGrid M).rationals? = some (rowsOf M) := Grid.rationals?_ofMatrix M
  rw [hrationals]
  dsimp only
  cases hinverse : rationalInverse? (rowsOf M) with
  | none =>
      rw [if_pos ((rationalInverse?_eq_none_iff M).mp hinverse)]
      rfl
  | some rows =>
      rcases mul_eq_one_of_rationalInverse? hinverse with ⟨B, rfl, hright, -⟩
      have hdet : M.det ≠ 0 := by
        intro hdet
        rw [(rationalInverse?_eq_none_iff M).mpr hdet] at hinverse
        cases hinverse
      rw [if_neg hdet, Matrix.inv_eq_right_inv hright]
      dsimp only
      rw [Grid.ofRationals_rowsOf]
      rfl

/-! ## Whole reductions -/

/-- A power is computed once its exponent is known. -/
theorem reducesTo_power (ctx : Context) {p : Expr} {n : Int} (hp : p.wholeLiteral? = some n)
    {e : Exact}
    (h : ∀ nesting, Settles (fun room =>
      powerOfMatrix (nodeWithin (nesting + 1) (ctx.withRoom room)) (squareGrid M) n) e.toExpr) :
    ReducesTo ctx (.apply .power [(squareGrid M).toExpr, p]) e.toExpr := by
  suffices hsettles : ∀ m, (Expr.apply .power [(squareGrid M).toExpr, p]).depth + 2 ≤ m →
      Settles
        (fun room => treeWithin m (ctx.withRoom room) (.apply .power [(squareGrid M).toExpr, p]))
        e.toExpr by
    have hreduces := reducesTo_of_settles hsettles
    rwa [beautify_toExpr, ite_self] at hreduces
  intro m hm
  have hdepth : (Expr.apply .power [(squareGrid M).toExpr, p]).depth =
      max (squareGrid M).toExpr.depth (max p.depth 0) + 1 := rfl
  obtain ⟨j, rfl⟩ : ∃ j, m = j + 4 := by
    rw [depth_eq p] at hdepth
    exact ⟨m - 4, by omega⟩
  have hmatrix := settles_matrix ctx j ⟨k, k, M⟩
  have hexponent := settles_literal ctx hp (show p.depth + 2 ≤ j + 3 by omega)
  refine settles_apply (by decide) rfl (.cons hmatrix (.cons hexponent .nil)) ?_
  refine settles_unspoiled rfl ?_
  have hscalar : (Expr.integer n).isMatrix = false := rfl
  have hbase : Grid.ofExpr? (RationalMatrix.toExpr ⟨k, k, M⟩) = some (squareGrid M) := rfl
  simp only [reduceApply, reducePower, hscalar, Bool.false_eq_true, if_false, hbase,
    integer?_integer]
  exact h (j + 1)

/--
Products of numbers and matrices keep their order. A product of numbers and at least one matrix,
nested in any way, is reduced to the product of the numbers times the product of the matrices in the
written order, and to `undefined` exactly where the shapes of two neighbours do not fit. The power
of a square matrix with an exponent up to 1024 is reduced to the product of so many copies of it,
and that with exponent -1 to the inverse, or to `undefined` where there is none.
-/
theorem products_keep_order (ctx : Context) :
    (∀ t : ProductTree, t.matrices ≠ [] →
      (t.matrices.IsChain RationalMatrix.Fits →
        ∃ m, (t.matrices.map Exact.matrix).prod = .matrix m ∧
          ReducesTo ctx t.toExpr (m.scale t.scalars.prod).toExpr) ∧
      (¬ t.matrices.IsChain RationalMatrix.Fits → ReducesTo ctx t.toExpr .undefined)) ∧
    (∀ (k : Nat) (M : Matrix (Fin k) (Fin k) ℚ) (p : Expr),
      (∀ n : Nat, n ≤ 1024 → p.wholeLiteral? = some (n : Int) →
        ReducesTo ctx (.apply .power [(squareGrid M).toExpr, p]) (squareGrid (M ^ n)).toExpr) ∧
      (p.wholeLiteral? = some (-1) →
        ReducesTo ctx (.apply .power [(squareGrid M).toExpr, p])
          (if M.det = 0 then .undefined else (squareGrid M⁻¹).toExpr))) := by
  refine ⟨fun t hmatrices => ?_, fun k M p => ⟨fun n hn hp => ?_, fun hp => ?_⟩⟩
  · obtain ⟨a, as, hlist⟩ := List.exists_cons_of_ne_nil hmatrices
    have hreduces := reducesTo_productTree ctx t
    rw [hlist] at hreduces ⊢
    rcases Exact.prod_matrices a as with ⟨hchain, hprod⟩ | ⟨hchain, m, -, hprod⟩
    · rw [hprod] at hreduces
      exact ⟨fun h => (hchain h).elim, fun _ => hreduces⟩
    · rw [hprod] at hreduces
      exact ⟨fun _ => ⟨m, hprod, hreduces⟩, fun h => (h hchain).elim⟩
  · exact reducesTo_power ctx hp (e := .matrix ⟨k, k, M ^ n⟩)
      fun nesting => settles_powerOfMatrix ctx nesting M hn
  · have hinverse (nesting : Nat) : Settles
        (fun room =>
          powerOfMatrix (nodeWithin (nesting + 1) (ctx.withRoom room)) (squareGrid M) (-1))
        (if M.det = 0 then Exact.undefined else .matrix ⟨k, k, M⁻¹⟩).toExpr := by
      simp only [powerOfMatrix_neg_one]
      exact Settles.pure _
    have hreduces := reducesTo_power ctx hp hinverse
    rwa [apply_ite Exact.toExpr] at hreduces

/-- The product `2×([[1,2]]×1/2)×[[3][4]]`. -/
def rowTimesColumn : ProductTree :=
  .product [.factor (.inl 2),
    .product [.factor (.inr ⟨1, 2, !![1, 2]⟩), .factor (.inl (1 / 2))],
    .factor (.inr ⟨2, 1, !![3; 4]⟩)]

/-- The product `[[1,2]]×[[1,2]]`. -/
def rowTimesRow : ProductTree :=
  .product [.factor (.inr ⟨1, 2, !![1, 2]⟩), .factor (.inr ⟨1, 2, !![1, 2]⟩)]

/-- A row times a column, a row times a row, a power of the matrix behind the Fibonacci numbers, and
the inverse of a singular matrix. -/
theorem products_keep_order_rowTimesColumn :
    ReducesTo ⟨{}, {}, 0, []⟩ rowTimesColumn.toExpr (squareGrid !![11]).toExpr ∧
    ReducesTo ⟨{}, {}, 0, []⟩ rowTimesRow.toExpr .undefined ∧
    ReducesTo ⟨{}, {}, 0, []⟩
      (.apply .power [(squareGrid !![0, 1; 1, 1]).toExpr, .integer 10])
      (squareGrid !![34, 55; 55, 89]).toExpr ∧
    ReducesTo ⟨{}, {}, 0, []⟩
      (.apply .power [(squareGrid !![1, 2; 2, 4]).toExpr, .apply .opposite [.integer 1]])
      .undefined := by
  rcases products_keep_order ⟨{}, {}, 0, []⟩ with ⟨hproducts, hpowers⟩
  refine ⟨?_, ?_, ?_, ?_⟩
  · have hchain : rowTimesColumn.matrices.IsChain RationalMatrix.Fits :=
      .cons_cons rfl (.singleton _)
    rcases (hproducts rowTimesColumn (by nofun)).1 hchain with ⟨m, hm, hreduces⟩
    have hprod : (rowTimesColumn.matrices.map Exact.matrix).prod = .matrix ⟨1, 1, !![11]⟩ := by
      have hfits : (2 : Nat) = 2 := rfl
      have hentries : !![(1 : ℚ), 2] * !![(3 : ℚ); 4] = !![11] := by decide +kernel
      rw [← hentries]
      change Exact.matrix ⟨1, 2, _⟩ * (Exact.matrix ⟨2, 1, _⟩ * 1) = _
      rw [mul_one]
      exact Exact.mul_matrix_matrix hfits
    have hscalars : rowTimesColumn.scalars.prod = 1 := by decide +kernel
    rw [hprod] at hm
    cases hm
    rwa [hscalars, RationalMatrix.scale_one] at hreduces
  · have hchain : ¬ rowTimesRow.matrices.IsChain RationalMatrix.Fits := by
      intro h
      cases h with
      | cons_cons h => cases h
    exact (hproducts rowTimesRow (by nofun)).2 hchain
  · have hpower := (hpowers 2 !![0, 1; 1, 1] (.integer 10)).1 10 (by decide) rfl
    have hentries : (!![0, 1; 1, 1] : Matrix (Fin 2) (Fin 2) ℚ) ^ 10 = !![34, 55; 55, 89] := by
      decide +kernel
    rwa [hentries] at hpower
  · have hinverse := (hpowers 2 !![1, 2; 2, 4] (.apply .opposite [.integer 1])).2 rfl
    have hdet : (!![1, 2; 2, 4] : Matrix (Fin 2) (Fin 2) ℚ).det = 0 := by
      rw [Matrix.det_fin_two_of]
      norm_num
    rwa [if_pos hdet] at hinverse

end Reduction

end PocketAlgebra
