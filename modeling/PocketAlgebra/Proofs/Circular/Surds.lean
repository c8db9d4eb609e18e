import PocketAlgebra.Proofs.Circular.Table
import PocketAlgebra.Proofs.Principal.RationalPower
import PocketAlgebra.Proofs.Reduction.Settles

/-!
# Products and reciprocals of surds

The tangent of an angle is the quotient of two numbers of the table of sines. Its reduction works
through the rules for products and powers, and gives the quotient as another surd.
-/

namespace PocketAlgebra

namespace Reduction

open PocketAlgebra.Expr

/-! ## Arithmetic -/

namespace Surd

/-- The reciprocal of a surd. -/
def inverse (s : Surd) : Surd :=
  ⟨(s.coefficient * s.radicand)⁻¹, s.radicand⟩

/-- The product of two surds: equal radicands make up a whole number. -/
def times (s c : Surd) : Surd :=
  if s.radicand = c.radicand then
    ⟨s.coefficient * c.coefficient * s.radicand, 1⟩
  else
    ⟨s.coefficient * c.coefficient, s.radicand * c.radicand⟩

theorem value_inverse (s : Surd) : s.inverse.value = s.value⁻¹ := by
  have hroot : √(s.radicand : ℝ) / s.radicand = (√s.radicand)⁻¹ := by
    rw [Real.sqrt_div_self', one_div]
  calc s.inverse.value = (s.coefficient : ℝ)⁻¹ * (√s.radicand / s.radicand) := by
        rw [inverse, value]
        push_cast
        rw [mul_inv]
        ring
    _ = s.value⁻¹ := by rw [hroot, value, mul_inv]

theorem value_times (s c : Surd) : (s.times c).value = s.value * c.value := by
  have hproduct : s.value * c.value =
      s.coefficient * c.coefficient * (√s.radicand * √c.radicand) := by
    rw [value, value]
    ring
  rw [hproduct, times]
  split
  case isTrue h =>
    rw [← h, Real.mul_self_sqrt s.radicand.cast_nonneg, value]
    push_cast
    rw [Real.sqrt_one, mul_one]
  case isFalse =>
    rw [value]
    push_cast
    rw [Real.sqrt_mul s.radicand.cast_nonneg]

/-! ## Surds as expressions -/

/-- A coefficient as a factor, which is left out where it is one. -/
def coefficientOf (p : ℚ) : List Expr :=
  if p = 1 then [] else [.rational p]

/-- The square root of a radicand. -/
def rootOf (r : Nat) : Expr :=
  rawPower (.integer r) (.rational (mkRat 1 2))

variable {σ : Assignment} {s c : Surd} {p : ℚ} {r : Nat}

theorem toExpr_rational (h : s.radicand = 1 ∨ s.coefficient = 0) :
    s.toExpr = .rational s.coefficient := by
  rw [toExpr, if_pos (by simpa using h)]

theorem toExpr_root (hr : s.radicand ≠ 1) (hp : s.coefficient ≠ 0) :
    s.toExpr =
      assemble .multiplication 1 (coefficientOf s.coefficient ++ [rootOf s.radicand]) := by
  rw [toExpr, if_neg (by simp [hr, hp]), coefficientOf]
  dsimp only
  split <;> rfl

theorem plain_toExpr (s : Surd) : IsPlain s.toExpr := by
  rw [toExpr]
  split
  · exact ⟨rfl, rfl, rfl⟩
  · dsimp only
    split <;> exact ⟨rfl, rfl, rfl⟩

theorem principal?_rootOf (σ : Assignment) (hr : 0 < r) :
    (rootOf r).principal? σ = some ((√r : ℝ) : ℂ) := by
  have hpos : (0 : ℚ) < r := by exact_mod_cast hr
  have hroot := principal?_power_of_pos σ hpos (mkRat 1 2)
  rw [mkRat_one_two] at hroot
  rw [rootOf, mkRat_one_two, Real.sqrt_eq_rpow]
  refine Eq.trans ?_ (hroot.trans ?_)
  · rw [Expr.integer, Int.cast_natCast]
  · push_cast
    rfl

/-- A surd as an expression has its value. -/
theorem principal?_toExpr (σ : Assignment) (s : Surd) (h : 0 < s.radicand) :
    s.toExpr.principal? σ = some (s.value : ℂ) := by
  by_cases hrational : s.radicand = 1 ∨ s.coefficient = 0
  · rw [toExpr_rational hrational, Expr.principal?, value]
    rcases hrational with hone | hzero
    · rw [hone, Nat.cast_one, Real.sqrt_one, mul_one, Complex.ofReal_ratCast]
    · rw [hzero, Rat.cast_zero, Rat.cast_zero, zero_mul, Complex.ofReal_zero]
  · rcases not_or.mp hrational with ⟨hr, hp⟩
    have hroot := principal?_rootOf σ h
    rw [toExpr_root hr hp, coefficientOf, value, Complex.ofReal_mul, Complex.ofReal_ratCast]
    split
    case isTrue hone =>
      rw [hone, Rat.cast_one, one_mul]
      exact hroot
    case isFalse => exact principal?_product rfl hroot

/-! ## Factors -/

theorem flatten_toExpr (hr : s.radicand ≠ 1) (hp : s.coefficient ≠ 0) :
    flatten .multiplication s.toExpr = coefficientOf s.coefficient ++ [rootOf s.radicand] := by
  rw [toExpr_root hr hp, coefficientOf]
  split <;> rfl

/-- The factors of a surd: its coefficient and its root. -/
theorem factors_toExpr (hp : s.coefficient ≠ 0) :
    numberOf (flatten .multiplication s.toExpr) = s.coefficient ∧
      atomsOf (flatten .multiplication s.toExpr) =
        if s.radicand = 1 then [] else [rootOf s.radicand] := by
  by_cases hr : s.radicand = 1
  · rw [toExpr_rational (.inl hr), if_pos hr]
    exact ⟨mul_one _, rfl⟩
  · rw [flatten_toExpr hr hp, if_neg hr, coefficientOf]
    split
    case isTrue hone => exact ⟨hone.symm, rfl⟩
    case isFalse => exact ⟨mul_one _, rfl⟩

end Surd

/-! ## Reduction -/

variable {ctx : Context} {nesting : Nat} {s c : Surd} {xs : List Expr} {r : Nat}

/-- A product with one factor besides numbers. -/
theorem settles_atomProduct (ctx : Context) (nesting : Nat) {y : Expr} (hy : IsAtom y)
    (hinfinity : y.kind ≠ .infinity) (hp : numberOf (flattenAll .multiplication xs) ≠ 0)
    (h : atomsOf (flattenAll .multiplication xs) = [y]) :
    Settles (fun room => multiply (nodeWithin (nesting + 1) (ctx.withRoom room)) xs)
      (assemble .multiplication 1
        (Surd.coefficientOf (numberOf (flattenAll .multiplication xs)) ++ [y])) := by
  have hatoms := areAtoms_of_eq_singleton hy hinfinity hp h
  have hsort : Expr.sort [y] = [y] := List.perm_singleton.mp (sort_perm [y])
  refine settles_unspoiled (spoiled?_plain _ fun x hx => hatoms.operand_plain hx) ?_
  simp only [reduceApply, reduceProduct_atoms _ hatoms, atomicProduct, h, hsort]
  exact Settles.pure _

theorem settles_rootProduct (ctx : Context) (nesting : Nat) (hr : r ≠ 1)
    (hp : numberOf (flattenAll .multiplication xs) ≠ 0)
    (hroot : atomsOf (flattenAll .multiplication xs) = [Surd.rootOf r]) :
    Settles (fun room => multiply (nodeWithin (nesting + 1) (ctx.withRoom room)) xs)
      (⟨numberOf (flattenAll .multiplication xs), r⟩ : Surd).toExpr := by
  rw [Surd.toExpr_root hr hp]
  exact settles_atomProduct ctx nesting (.power rfl) nofun hp hroot

theorem isRational_rational {p q : ℚ} : (Expr.rational p).isRational q = true ↔ p = q := by
  simp [isRational, rational?]

theorem powerOfScalars_whole (node : NodeReducer) {base : ℚ} {n : ℤ} (hbase : base ≠ 0)
    (hn : n ≠ 0) (hraised : IsRaised base n) :
    powerOfScalars ctx node (.rational base) (.integer n) = pure (.rational (base ^ n)) := by
  have hzero : ¬ (Expr.integer n).isRational 0 = true :=
    mt isRational_rational.mp (Int.cast_ne_zero.mpr hn)
  rw [powerOfScalars, if_neg hzero, if_neg (mt isRational_rational.mp hbase)]
  split
  case isTrue hone =>
    have hone : n = 1 := by exact_mod_cast isRational_rational.mp hone
    rw [hone, zpow_one]
  case isFalse =>
    split
    case isTrue hone =>
      have hone : base = 1 := isRational_rational.mp (Bool.and_eq_true_iff.mp hone).1
      rw [hone, one_zpow]
      rfl
    case isFalse =>
      have hnum : (n : ℚ).num = n := Rat.num_intCast n
      have hint : (n : ℚ).isInt = true := by simp [Rat.isInt]
      have hwhole : rationalPower ctx node base n = pure (.rational (base ^ n)) := by
        rw [rationalPower_whole node hint, hnum, if_pos hraised]
      exact hwhole

theorem settles_power_whole (ctx : Context) (nesting : Nat) {base : ℚ} {n : ℤ} (hbase : base ≠ 0)
    (hn : n ≠ 0) (hraised : IsRaised base n) :
    Settles
      (fun room => power (nodeWithin (nesting + 1) (ctx.withRoom room)) (.rational base)
        (.integer n))
      (.rational (base ^ n)) := by
  refine settles_power ⟨rfl, rfl, rfl⟩ ⟨rfl, rfl, rfl⟩ ?_
  simp only [powerOfScalars_whole _ hbase hn hraised]
  exact Settles.pure _

/-- The radicands of the table. -/
def IsRadicand (r : Nat) : Prop :=
  r = 2 ∨ r = 3

instance (r : Nat) : Decidable (IsRadicand r) :=
  inferInstanceAs (Decidable (_ ∨ _))

theorem IsRadicand.ne_one (hr : IsRadicand r) : r ≠ 1 := by
  rcases hr with rfl | rfl <;> decide

theorem IsRadicand.cast_ne_zero (hr : IsRadicand r) : (r : ℚ) ≠ 0 := by
  rcases hr with rfl | rfl <;> decide

theorem radical?_inverse (hr : IsRadicand r) :
    radical? r (-1 / 2) = some ⟨(r : ℚ)⁻¹, r, 2⟩ := by
  have hparts : (radical? r (-1 / 2)).map (fun p => (p.coefficient, p.radicand, p.index)) =
      some ((r : ℚ)⁻¹, (r : ℚ), 2) := by
    rcases hr with rfl | rfl <;> decide +kernel
  rcases Option.map_eq_some_iff.mp hparts with ⟨⟨_, _, _⟩, hradical, ⟨⟩⟩
  exact hradical

/-- A square root that is computed, as a surd. -/
theorem toExpr_radical {p : ℚ} (hp : p ≠ 0) (hr : r ≠ 1) :
    (⟨p, r, 2⟩ : Radical).toExpr = (⟨p, r⟩ : Surd).toExpr := by
  have hone : (r : ℚ) ≠ 1 := by exact_mod_cast hr
  have hkept : ¬ (decide (r = 1) || decide (p = 0)) = true := by simp [hr, hp]
  rw [Radical.toExpr, if_neg hone, Surd.toExpr, if_neg hkept]
  simp only [integer, Int.cast_natCast]

theorem powerOfScalars_inverse_rootOf (node : NodeReducer) (hr : IsRadicand r) :
    powerOfScalars ctx node (.integer r) (.rational (-1 / 2)) =
      pure (⟨(r : ℚ)⁻¹, r⟩ : Surd).toExpr := by
  have hint : ¬ (-1 / 2 : ℚ).isInt = true := by decide +kernel
  have hpos : (0 : ℚ) < r := by rcases hr with rfl | rfl <;> decide
  have hone : r ≠ 1 := by rcases hr with rfl | rfl <;> decide
  have hbase : Expr.integer r = .rational r := congrArg Expr.rational (Int.cast_natCast r)
  have hbaseOne : ¬ (Expr.rational r).isRational 1 = true :=
    mt isRational_rational.mp (by exact_mod_cast hone)
  rw [hbase, powerOfScalars, if_neg (mt isRational_rational.mp (ne_of_not_isInt hint rfl)),
    if_neg (mt isRational_rational.mp (ne_of_not_isInt hint rfl)),
    if_neg (mt isRational_rational.mp hpos.ne'),
    if_neg fun h => hbaseOne (Bool.and_eq_true_iff.mp h).1]
  refine (rationalPower_of_pos node hint (by decide +kernel) hpos).trans ?_
  rw [radical?_inverse hr, Option.map_some, toExpr_radical (inv_ne_zero hpos.ne') hone]
  rfl

/-- The reciprocal of a root: the exponents are multiplied, and the whole part goes before the
root. -/
theorem settles_inverse_rootOf (ctx : Context) (nesting : Nat) (hr : IsRadicand r) :
    Settles
      (fun room => power (nodeWithin (nesting + 2) (ctx.withRoom room)) (Surd.rootOf r)
        (.integer (-1)))
      (⟨(r : ℚ)⁻¹, r⟩ : Surd).toExpr := by
  have hexponent := settles_product ctx nesting [mkRat 1 2, ((-1 : ℤ) : ℚ)]
  have hquotient : [mkRat 1 2, ((-1 : ℤ) : ℚ)].prod = -1 / 2 := by decide +kernel
  rw [hquotient] at hexponent
  refine settles_power ⟨rfl, rfl, rfl⟩ ⟨rfl, rfl, rfl⟩ ?_
  change Settles (fun room =>
    multiply (nodeWithin (nesting + 1) (ctx.withRoom room)) _ >>= fun exponent =>
      power (nodeWithin (nesting + 1) (ctx.withRoom room)) (.integer r) exponent) _
  refine hexponent.bind (settles_power ⟨rfl, rfl, rfl⟩ ⟨rfl, rfl, rfl⟩ ?_)
  simp only [powerOfScalars_inverse_rootOf _ hr]
  exact Settles.pure _

/-! ## Products of two surds -/

theorem settles_times_rational (ctx : Context) (nesting : Nat) (hs : s.radicand = 1)
    (hc : c.radicand = 1) :
    Settles
      (fun room => multiply (nodeWithin (nesting + 1) (ctx.withRoom room)) [s.toExpr, c.toExpr])
      (s.times c).toExpr := by
  have hproduct := settles_product ctx nesting [s.coefficient, c.coefficient]
  have htimes : s.times c = ⟨s.coefficient * c.coefficient, 1⟩ := by
    rw [Surd.times, if_pos (hs.trans hc.symm), hs, Nat.cast_one, mul_one]
  rw [Surd.toExpr_rational (.inl hs), Surd.toExpr_rational (.inl hc), htimes,
    Surd.toExpr_rational (.inl rfl), ← List.prod_pair]
  exact hproduct

/-- A surd times a number. -/
theorem settles_times_root (ctx : Context) (nesting : Nat) (hs : s.coefficient ≠ 0)
    (hc : c.coefficient ≠ 0)
    (hr : s.radicand = 1 ∧ c.radicand ≠ 1 ∨ s.radicand ≠ 1 ∧ c.radicand = 1) :
    Settles
      (fun room => multiply (nodeWithin (nesting + 1) (ctx.withRoom room)) [s.toExpr, c.toExpr])
      (s.times c).toExpr := by
  rcases Surd.factors_toExpr hs with ⟨hsnumber, hsatoms⟩
  rcases Surd.factors_toExpr hc with ⟨hcnumber, hcatoms⟩
  have hnumber : numberOf (flattenAll .multiplication [s.toExpr, c.toExpr]) =
      s.coefficient * c.coefficient := by
    rw [flattenAll_pair, numberOf_append, hsnumber, hcnumber]
  have hatoms : atomsOf (flattenAll .multiplication [s.toExpr, c.toExpr]) =
      [Surd.rootOf (s.radicand * c.radicand)] := by
    rw [flattenAll_pair, atomsOf_append, hsatoms, hcatoms]
    rcases hr with ⟨hone, hr⟩ | ⟨hr, hone⟩
    · rw [if_pos hone, if_neg hr, hone, one_mul, List.nil_append]
    · rw [if_pos hone, if_neg hr, hone, mul_one, List.append_nil]
  have hproduct := settles_rootProduct ctx nesting
    (show s.radicand * c.radicand ≠ 1 by rcases hr with ⟨hone, hr⟩ | ⟨hr, hone⟩ <;> simp [hone, hr])
    (hnumber ▸ mul_ne_zero hs hc) hatoms
  have htimes : s.times c = ⟨s.coefficient * c.coefficient, s.radicand * c.radicand⟩ := by
    rw [Surd.times, if_neg]
    rintro heq
    rcases hr with ⟨hone, hr⟩ | ⟨hr, hone⟩
    · exact hr (heq ▸ hone)
    · exact hr (heq ▸ hone)
  rw [htimes, ← hnumber]
  exact hproduct

theorem foldlM_coefficientOf (p : ℚ) (product : PowerProduct) (xs : List Expr) :
    (Surd.coefficientOf p ++ xs).foldlM PowerProduct.multiply? product =
      xs.foldlM PowerProduct.multiply? { product with coefficient := product.coefficient * p } := by
  rw [Surd.coefficientOf]
  split
  case isTrue hone => rw [hone, mul_one, List.nil_append]
  case isFalse => rfl

/-- The factors of two surds with one radicand. -/
def rootPair (p q : ℚ) (r : Nat) : List Expr :=
  Surd.coefficientOf p ++ [Surd.rootOf r] ++ (Surd.coefficientOf q ++ [Surd.rootOf r])

variable {p q : ℚ}

theorem rootPair_cases (hp : p ≠ 0) (hq : q ≠ 0) {x : Expr} (hx : x ∈ rootPair p q r) :
    (∃ a, a ≠ 0 ∧ x = .rational a) ∨ x = Surd.rootOf r := by
  have hcoefficient {a : ℚ} (ha : a ≠ 0) (h : x ∈ Surd.coefficientOf a) :
      ∃ a, a ≠ 0 ∧ x = .rational a := by
    rw [Surd.coefficientOf] at h
    split at h
    case isTrue => nomatch h
    case isFalse => exact ⟨a, ha, List.mem_singleton.mp h⟩
  simp only [rootPair, List.mem_append, List.mem_singleton] at hx
  rcases hx with (h | h) | h | h
  · exact .inl (hcoefficient hp h)
  · exact .inr h
  · exact .inl (hcoefficient hq h)
  · exact .inr h

theorem rootPair_plain (hp : p ≠ 0) (hq : q ≠ 0) : ∀ x ∈ rootPair p q r, IsPlain x := by
  intro x hx
  rcases rootPair_cases hp hq hx with ⟨a, -, rfl⟩ | rfl <;> exact ⟨rfl, rfl, rfl⟩

/-- Two roots of one radicand are collected in one group. -/
theorem foldlM_rootPair (p q : ℚ) (r : Nat) :
    (rootPair p q r).foldlM PowerProduct.multiply? {} =
      some ⟨p * q, [⟨.integer r, [.rational (mkRat 1 2), .rational (mkRat 1 2)]⟩]⟩ := by
  have hinsert (exponent : Expr) :
      PowerGroup.insert (.integer r) exponent [⟨.integer r, [exponent]⟩] =
        [⟨.integer r, [exponent, exponent]⟩] := by
    rw [PowerGroup.insert, if_pos (same_self _)]
    rfl
  rw [rootPair, List.append_assoc, foldlM_coefficientOf, List.singleton_append, List.foldlM_cons]
  change (Surd.coefficientOf q ++ [Surd.rootOf r]).foldlM PowerProduct.multiply?
    ⟨1 * p, [⟨.integer r, [.rational (mkRat 1 2)]⟩]⟩ = _
  rw [foldlM_coefficientOf, one_mul, List.foldlM_cons]
  change some (PowerProduct.mk (p * q) (PowerGroup.insert (.integer r) _ _)) = _
  rw [hinsert]

theorem productOfScalars_rootPair (node : NodeReducer) (hp : p ≠ 0) (hq : q ≠ 0) :
    productOfScalars node (rootPair p q r) = (do
      match ← mergeGroups node
        [⟨.integer r, [.rational (mkRat 1 2), .rational (mkRat 1 2)]⟩] ⟨p * q, [], false⟩ with
      | .error poison => return poison
      | .ok factors => finishProduct node factors) := by
  have hnone {test : Expr → Bool} (hnumber : ∀ a : ℚ, a ≠ 0 → ¬ test (.rational a) = true)
      (hroot : ¬ test (Surd.rootOf r) = true) : (rootPair p q r).any test = false := by
    refine List.any_eq_false.mpr fun x hx => ?_
    rcases rootPair_cases hp hq hx with ⟨a, ha, rfl⟩ | rfl
    · exact hnumber a ha
    · exact hroot
  have hzero : (rootPair p q r).any (·.isRational 0) = false :=
    hnone (fun _ => mt isRational_rational.mp) Bool.false_ne_true
  have hinfinite : (rootPair p q r).any (·.kind == .infinity) = false :=
    hnone (fun _ _ => Bool.false_ne_true) Bool.false_ne_true
  rw [productOfScalars, hzero, hinfinite, if_neg Bool.false_ne_true, Bool.false_and,
    if_neg Bool.false_ne_true]
  split
  case h_1 hnone => cases (foldlM_rootPair p q r).symm.trans hnone
  case h_2 product hsome =>
    cases (foldlM_rootPair p q r).symm.trans hsome
    rfl

/-- Their exponents add up to one. -/
theorem settles_mergeGroups_roots (ctx : Context) (nesting : Nat) (hr : IsRadicand r) (p : ℚ) :
    Settles
      (fun room => mergeGroups (nodeWithin (nesting + 1) (ctx.withRoom room))
        [⟨.integer r, [.rational (mkRat 1 2), .rational (mkRat 1 2)]⟩] ⟨p, [], false⟩)
      (.ok ⟨p * r, [], false⟩) := by
  have hsum := settles_sum ctx nesting [mkRat 1 2, mkRat 1 2]
  have hone : [mkRat 1 2, mkRat 1 2].sum = 1 := by decide +kernel
  have hraised : IsRaised r 1 := by rcases hr with rfl | rfl <;> decide +kernel
  have hpower := settles_power_whole ctx nesting hr.cast_ne_zero one_ne_zero hraised
  rw [zpow_one] at hpower
  rw [hone] at hsum
  have hmerged : Settles
      (fun room => PowerGroup.merge (nodeWithin (nesting + 1) (ctx.withRoom room))
        ⟨.integer r, [.rational (mkRat 1 2), .rational (mkRat 1 2)]⟩)
      (.rational r) :=
    hsum.bind hpower
  exact hmerged.bind (.pure _)

/-- Two equal roots make up a whole number. -/
theorem settles_times_equal (ctx : Context) (nesting : Nat) (hs : s.coefficient ≠ 0)
    (hc : c.coefficient ≠ 0) (hr : IsRadicand s.radicand) (heq : s.radicand = c.radicand) :
    Settles
      (fun room => multiply (nodeWithin (nesting + 2) (ctx.withRoom room)) [s.toExpr, c.toExpr])
      (s.times c).toExpr := by
  have hfactors : flattenAll .multiplication [s.toExpr, c.toExpr] =
      rootPair s.coefficient c.coefficient s.radicand := by
    rw [flattenAll_pair, Surd.flatten_toExpr hr.ne_one hs,
      Surd.flatten_toExpr (heq ▸ hr.ne_one) hc, ← heq, rootPair]
  have hplain := rootPair_plain hs hc (r := s.radicand)
  have htimes : s.times c = ⟨s.coefficient * c.coefficient * s.radicand, 1⟩ := if_pos heq
  have hproduct : s.coefficient * c.coefficient * s.radicand ≠ 0 :=
    mul_ne_zero (mul_ne_zero hs hc) hr.cast_ne_zero
  refine settles_unspoiled
    (spoiled?_plain _ (forall_mem_pair s.plain_toExpr c.plain_toExpr)) ?_
  simp only [reduceApply, reduceProduct, hfactors, poison?_plain hplain,
    any_isMatrix_plain hplain, Bool.false_eq_true, if_false, productOfScalars_rootPair _ hs hc]
  rw [htimes, Surd.toExpr_rational (.inl rfl)]
  refine (settles_mergeGroups_roots ctx nesting hr _).bind ?_
  simp only [finishProduct, if_neg hproduct, Bool.false_eq_true, if_false, splitAtSum?]
  have hsort : Expr.sort [] = [] := List.perm_nil.mp (sort_perm [])
  rw [hsort, List.append_nil]
  split
  case isTrue hone =>
    rw [hone]
    exact Settles.pure _
  case isFalse => exact Settles.pure _

/-! ## Reciprocals -/

/-- A surd whose reciprocal is computed. -/
structure Surd.Invertible (s : Surd) : Prop where
  coefficient_ne : s.coefficient ≠ 0
  raised : IsRaised s.coefficient (-1)
  radicand : s.radicand = 1 ∨ IsRadicand s.radicand

theorem settles_invert_rational (ctx : Context) (nesting : Nat) {p : ℚ} (hp : p ≠ 0)
    (hraised : IsRaised p (-1)) :
    Settles (fun room => invert (nodeWithin (nesting + 1) (ctx.withRoom room)) (.rational p))
      (.rational p⁻¹) := by
  have hpower := settles_power_whole ctx nesting hp (show (-1 : ℤ) ≠ 0 by decide) hraised
  rwa [zpow_neg_one] at hpower

/-- The reciprocal of a product is taken factor by factor. -/
theorem settles_invert_product (ctx : Context) (nesting : Nat) {p : ℚ} (hp : p ≠ 0)
    (hraised : IsRaised p (-1)) (hr : IsRadicand r) :
    Settles
      (fun room => invert (nodeWithin (nesting + 3) (ctx.withRoom room))
        (.apply .multiplication [.rational p, Surd.rootOf r]))
      (Surd.inverse ⟨p, r⟩).toExpr := by
  have hpowers : List.Forall₂
      (fun x y => Settles
        (fun room => power (nodeWithin (nesting + 2) (ctx.withRoom room)) x (.integer (-1))) y)
      [.rational p, Surd.rootOf r] [.rational p⁻¹, (⟨(r : ℚ)⁻¹, r⟩ : Surd).toExpr] :=
    .cons (settles_invert_rational ctx (nesting + 1) hp hraised)
      (.cons (settles_inverse_rootOf ctx nesting hr) .nil)
  have hproduct := settles_times_root ctx (nesting + 1) (s := ⟨p⁻¹, 1⟩) (c := ⟨(r : ℚ)⁻¹, r⟩)
    (inv_ne_zero hp) (inv_ne_zero hr.cast_ne_zero) (.inl ⟨rfl, hr.ne_one⟩)
  have htimes : (⟨p⁻¹, 1⟩ : Surd).times ⟨(r : ℚ)⁻¹, r⟩ = Surd.inverse ⟨p, r⟩ := by
    rw [Surd.times, if_neg (Ne.symm hr.ne_one), one_mul, ← mul_inv]
    rfl
  have hnumber : (⟨p⁻¹, 1⟩ : Surd).toExpr = .rational p⁻¹ := Surd.toExpr_rational (.inl rfl)
  rw [htimes, hnumber] at hproduct
  refine settles_power ⟨rfl, rfl, rfl⟩ ⟨rfl, rfl, rfl⟩ ?_
  change Settles (fun room =>
    ([.rational p, Surd.rootOf r].mapM fun x =>
      power (nodeWithin (nesting + 2) (ctx.withRoom room)) x (.integer (-1))) >>= fun powers =>
        multiply (nodeWithin (nesting + 2) (ctx.withRoom room)) powers) _
  exact (Settles.mapM hpowers).bind hproduct

theorem settles_invert (ctx : Context) (nesting : Nat) (hs : s.Invertible) :
    Settles (fun room => invert (nodeWithin (nesting + 3) (ctx.withRoom room)) s.toExpr)
      s.inverse.toExpr := by
  rcases hs.radicand with hone | hr
  · have hinverse : s.inverse.toExpr = .rational s.coefficient⁻¹ := by
      have hrational : s.inverse.radicand = 1 := hone
      rw [Surd.toExpr_rational (.inl hrational), Surd.inverse, hone, Nat.cast_one, mul_one]
    rw [hinverse, Surd.toExpr_rational (.inl hone)]
    exact settles_invert_rational ctx (nesting + 2) hs.coefficient_ne hs.raised
  · rw [Surd.toExpr_root hr.ne_one hs.coefficient_ne, Surd.coefficientOf]
    by_cases hunit : s.coefficient = 1
    · rw [if_pos hunit, Surd.inverse, hunit, one_mul]
      exact settles_inverse_rootOf ctx (nesting + 1) hr
    · rw [if_neg hunit]
      exact settles_invert_product ctx nesting hs.coefficient_ne hs.raised hr

/-! ## Quotients of sine and cosine -/

/-- Sine and cosine have the same radicand, or one of them is rational. -/
theorem surds_quotient : ∀ s ∈ surds, ∀ c ∈ surds,
    s.coefficient ^ 2 * s.radicand + c.coefficient ^ 2 * c.radicand = 1 → c.coefficient ≠ 0 →
      (IsRaised c.coefficient (-1) ∧ (c.radicand = 1 ∨ IsRadicand c.radicand)) ∧
        (s.radicand = 1 ∧ c.radicand = 1 ∨
          s.coefficient ≠ 0 ∧ (s.radicand = 1 ∧ c.radicand ≠ 1 ∨ s.radicand ≠ 1 ∧ c.radicand = 1 ∨
            IsRadicand s.radicand ∧ s.radicand = c.radicand)) := by
  decide +kernel

variable {t : ℚ}

theorem invertible_of_exactCosine? (hs : exactSine? t = some s) (hc : exactCosine? t = some c)
    (hcosine : c.coefficient ≠ 0) : c.Invertible := by
  rcases surds_quotient s (mem_surds_of_exactSine? hs) c (mem_surds_of_exactCosine? hc)
    (square_add_square hs hc) hcosine with ⟨⟨hraised, hradicand⟩, -⟩
  exact ⟨hcosine, hraised, hradicand⟩

theorem settles_times_inverse (ctx : Context) (nesting : Nat) (hs : exactSine? t = some s)
    (hc : exactCosine? t = some c) (hcosine : c.coefficient ≠ 0) :
    Settles
      (fun room => multiply (nodeWithin (nesting + 2) (ctx.withRoom room))
        [s.toExpr, c.inverse.toExpr])
      (s.times c.inverse).toExpr := by
  rcases surds_quotient s (mem_surds_of_exactSine? hs) c (mem_surds_of_exactCosine? hc)
    (square_add_square hs hc) hcosine with ⟨⟨-, hradicand⟩, ⟨hs, hc⟩ | ⟨hsine, hcases⟩⟩
  · exact settles_times_rational ctx (nesting + 1) hs hc
  · have hinverse : c.inverse.coefficient ≠ 0 := by
      refine inv_ne_zero (mul_ne_zero hcosine ?_)
      rcases hradicand with hone | hr
      · rw [hone]
        decide
      · exact hr.cast_ne_zero
    rcases hcases with h | h | ⟨hr, heq⟩
    · exact settles_times_root ctx (nesting + 1) hsine hinverse (.inl h)
    · exact settles_times_root ctx (nesting + 1) hsine hinverse (.inr h)
    · exact settles_times_equal ctx nesting hsine hinverse hr heq

/-- The quotient of sine and cosine is computed. -/
theorem comesTo_quotient (ctx : Context) (hs : exactSine? t = some s)
    (hc : exactCosine? t = some c) (hcosine : c.coefficient ≠ 0) :
    ComesTo ctx 3 (fun node => do multiply node [s.toExpr, ← invert node c.toExpr])
      (s.times c.inverse).toExpr := by
  have hinvert : ComesTo ctx 3 (fun node => invert node c.toExpr) c.inverse.toExpr :=
    .node fun nesting => settles_invert ctx nesting (invertible_of_exactCosine? hs hc hcosine)
  have htimes : ComesTo ctx 3 (fun node => multiply node [s.toExpr, c.inverse.toExpr])
      (s.times c.inverse).toExpr :=
    .node fun nesting => settles_times_inverse ctx (nesting + 1) hs hc hcosine
  exact hinvert.bind htimes

end Reduction

end PocketAlgebra
