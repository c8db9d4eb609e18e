import Mathlib.Analysis.SpecialFunctions.Pow.Real
import PocketAlgebra.Proofs.Principal.Power
import PocketAlgebra.Reduction.Power

/-!
# Rational powers of rational numbers

Trial division takes perfect powers out of a number and changes nothing but how the number is
written. So a rational power of a positive rational number is, where it is computed, the product of
a rational number and of a root of one whose power with the index of the root is exactly the power
of the base. A power of a negative number is that of its magnitude, with a sign or turned by a power
of the imaginary unit.
-/

namespace PocketAlgebra

namespace Reduction

/-! ## Perfect powers taken out of a number -/

/-- A positive number is split into a perfect power and what is left of it. -/
structure RootParts.Splits (q n : Nat) (parts : RootParts) : Prop where
  outside_pos : 0 < parts.outside
  inside_pos : 0 < parts.inside
  number_eq : parts.outside ^ q * parts.inside = n

variable {q n : Nat} {parts : RootParts}

theorem RootParts.Splits.divideOut {divisor : Nat} (hdivisor : 0 < divisor)
    (h : parts.Splits q n) : (Reduction.divideOut divisor (divisor ^ q) parts).Splits q n := by
  fun_induction Reduction.divideOut divisor (divisor ^ q) parts with
  | case1 parts hstep ih =>
      have hdvd : divisor ^ q ∣ parts.inside := Nat.dvd_of_mod_eq_zero hstep.2.2
      refine ih ⟨Nat.mul_pos h.outside_pos hdivisor,
        Nat.div_pos (Nat.le_of_dvd h.inside_pos hdvd) (Nat.pow_pos hdivisor), ?_⟩
      calc (parts.outside * divisor) ^ q * (parts.inside / divisor ^ q)
          = parts.outside ^ q * (divisor ^ q * (parts.inside / divisor ^ q)) := by
            rw [Nat.mul_pow, Nat.mul_assoc]
        _ = n := by rw [Nat.mul_div_cancel' hdvd, h.number_eq]
  | case2 parts hstep => exact h

theorem RootParts.Splits.trialDivision {count divisor : Nat} (hdivisor : 0 < divisor)
    (h : parts.Splits q n) : (Reduction.trialDivision q count divisor parts).Splits q n := by
  induction count generalizing divisor parts with
  | zero => exact h
  | succ count ih =>
      rw [Reduction.trialDivision]
      split
      · exact h
      · dsimp only
        split
        · exact h
        · exact ih (Nat.succ_pos divisor) (h.divideOut hdivisor)

theorem splits_extractRoot (hq : 0 < q) (hn : 0 < n) : (extractRoot n q).Splits q n := by
  have hwhole : RootParts.Splits q n ⟨1, n⟩ := ⟨one_pos, hn, by simp⟩
  rw [extractRoot]
  split
  case isTrue hroot =>
    refine ⟨Nat.pos_of_ne_zero fun hzero => ?_, one_pos, (Nat.mul_one _).trans hroot⟩
    have hroot : floorRoot n q ^ q = n := hroot
    have hzero : floorRoot n q = 0 := hzero
    rw [hzero, Nat.zero_pow hq] at hroot
    exact hn.ne hroot
  case isFalse => exact hwhole.trialDivision two_pos

/-! ## Radicals -/

/-- A radical that is a power of a base: it is positive, and its power with the index is the power
of the base with the numerator of the exponent. -/
structure Radical.Exact (r : Radical) (base exponent : ℚ) : Prop where
  coefficient_pos : 0 < r.coefficient
  radicand_pos : 0 < r.radicand
  index_eq : r.index = exponent.den
  power_eq : r.coefficient ^ exponent.den * r.radicand = base ^ exponent.num

/-- Whether a power of a positive base with an exponent that is not whole is computed. -/
def IsComputed (base exponent : ℚ) : Prop :=
  fitsInt32 (exponent.num / exponent.den) = true ∧
    bitLength base * ((exponent.num % exponent.den).toNat +
      (exponent.num / exponent.den).natAbs) ≤ maxExactBits

variable {base exponent : ℚ}

theorem isComputed_iff : IsComputed base exponent ↔ (radical? base exponent).isSome = true := by
  rw [IsComputed, radical?]
  dsimp only
  split
  case isTrue h => simpa using h
  case isFalse h => simpa using h

/-- The parts of numerator and denominator are those of the quotient. -/
theorem RootParts.Splits.quotient {m n : Nat} {numerator denominator : RootParts}
    (hm : numerator.Splits q m) (hn : denominator.Splits q n) :
    0 < mkRat numerator.outside denominator.outside ∧
      0 < mkRat numerator.inside denominator.inside ∧
      mkRat numerator.outside denominator.outside ^ q *
        mkRat numerator.inside denominator.inside = (m : ℚ) / n := by
  rw [← hm.number_eq, ← hn.number_eq, Rat.mkRat_eq_div, Rat.mkRat_eq_div]
  refine ⟨div_pos (mod_cast hm.outside_pos) (mod_cast hn.outside_pos),
    div_pos (mod_cast hm.inside_pos) (mod_cast hn.inside_pos), ?_⟩
  push_cast
  rw [div_pow, div_mul_div_comm]

theorem natAbs_num_div_den (hbase : 0 < base) (e : Nat) :
    ((base.num.natAbs ^ e : Nat) : ℚ) / (base.den ^ e : Nat) = base ^ e := by
  have hnum : ((base.num.natAbs : ℤ) : ℚ) = base.num :=
    congrArg _ (Int.natAbs_of_nonneg (Rat.num_pos.mpr hbase).le)
  rw [Int.cast_natCast] at hnum
  rw [Nat.cast_pow, Nat.cast_pow, hnum, ← div_pow, Rat.num_div_den]

/-- The whole part of the exponent goes to the coefficient, and the power with what is left of it is
split up. -/
theorem exact_of_radical? {r : Radical} (hbase : 0 < base) (h : radical? base exponent = some r) :
    r.Exact base exponent := by
  rw [radical?] at h
  dsimp only at h
  split at h
  case isFalse => nomatch h
  case isTrue =>
    cases h
    set remainder := (exponent.num % exponent.den).toNat with hremainder
    have hnumerator := splits_extractRoot exponent.den_pos
      (Nat.pow_pos (n := remainder) (Int.natAbs_pos.mpr (Rat.num_ne_zero.mpr hbase.ne')))
    have hdenominator := splits_extractRoot exponent.den_pos
      (Nat.pow_pos (n := remainder) base.den_pos)
    rcases hnumerator.quotient hdenominator with ⟨houtside, hinside, hquotient⟩
    refine ⟨mul_pos (zpow_pos hbase _) houtside, hinside, rfl, ?_⟩
    have hrest : (remainder : ℤ) = exponent.num % exponent.den :=
      Int.toNat_of_nonneg (Int.emod_nonneg _ (mod_cast exponent.den_nz))
    rw [natAbs_num_div_den hbase] at hquotient
    change (base ^ (exponent.num / exponent.den) * _) ^ exponent.den * _ = _
    rw [mul_pow, mul_assoc]
    refine (congrArg _ hquotient).trans ?_
    rw [← zpow_natCast, ← zpow_natCast, ← zpow_mul, ← zpow_add₀ hbase.ne', hrest,
      Int.ediv_mul_add_emod]

/-! ## Values of radicals -/

theorem principal?_power_of_pos (σ : Assignment) (hbase : 0 < base) (exponent : ℚ) :
    (rawPower (.rational base) (.rational exponent)).principal? σ =
      some (((base : ℝ) ^ (exponent : ℝ) : ℝ) : ℂ) := by
  have hreal : (0 : ℝ) < base := Rat.cast_pos.mpr hbase
  have hne : (base : ℂ) ≠ 0 := Rat.cast_ne_zero.mpr hbase.ne'
  refine (Expr.principal?_power rfl rfl).trans ((Principal.power?_of_ne hne _).trans ?_)
  rw [Complex.ofReal_cpow hreal.le, Complex.ofReal_ratCast, Complex.ofReal_ratCast]

theorem Radical.Exact.value_eq {r : Radical} (hbase : 0 < base) (h : r.Exact base exponent) :
    (r.coefficient : ℝ) * (r.radicand : ℝ) ^ ((mkRat 1 r.index : ℚ) : ℝ) =
      (base : ℝ) ^ (exponent : ℝ) := by
  have hq : exponent.den ≠ 0 := exponent.den_nz
  have hbase : (0 : ℝ) < base := Rat.cast_pos.mpr hbase
  have hcoefficient : (0 : ℝ) < r.coefficient := Rat.cast_pos.mpr h.coefficient_pos
  have hradicand : (0 : ℝ) < r.radicand := Rat.cast_pos.mpr h.radicand_pos
  have hindex : ((mkRat 1 r.index : ℚ) : ℝ) = (exponent.den : ℝ)⁻¹ := by
    rw [h.index_eq, Rat.mkRat_eq_div]
    push_cast
    exact one_div _
  have hnum : (exponent : ℝ) * exponent.den = (exponent.num : ℝ) := by
    exact_mod_cast Rat.mul_den_eq_num exponent
  refine (pow_left_inj₀ (by positivity) (by positivity) hq).mp ?_
  rw [mul_pow, hindex, Real.rpow_inv_natCast_pow hradicand.le hq]
  calc (r.coefficient : ℝ) ^ exponent.den * r.radicand
      = (base : ℝ) ^ exponent.num := by exact_mod_cast h.power_eq
    _ = ((base : ℝ) ^ (exponent : ℝ)) ^ exponent.den := by
        rw [← Real.rpow_mul_natCast hbase.le, hnum, Real.rpow_intCast]

/-- The value of a radical that is a power of a base is the power. -/
theorem Radical.Exact.principal? {r : Radical} (σ : Assignment) (hbase : 0 < base)
    (h : r.Exact base exponent) :
    r.toExpr.principal? σ = some (((base : ℝ) ^ (exponent : ℝ) : ℝ) : ℂ) := by
  rw [← h.value_eq hbase, Radical.toExpr]
  split
  case isTrue hone =>
    rw [hone, Rat.cast_one, Real.one_rpow, mul_one, Complex.ofReal_ratCast]
    rfl
  case isFalse =>
    have hroot := principal?_power_of_pos σ h.radicand_pos (mkRat 1 r.index)
    dsimp only
    split
    case isTrue hone => rwa [hone, Rat.cast_one, one_mul]
    case isFalse =>
      rw [Complex.ofReal_mul, Complex.ofReal_ratCast]
      exact Expr.principal?_product rfl hroot

open PocketAlgebra.Expr

variable {σ : Assignment} {ctx : Context} {nesting : Nat} {x y : Expr} {xs ys : List Expr}

/-! ## Factors of radicals and rotations -/

/-- A number, a root of a number, or the product of both. -/
inductive IsRadical : Expr → Prop
  | rational {c : ℚ} : c ≠ 0 → IsRadical (.rational c)
  | root {r e : ℚ} : e ≠ 1 → IsRadical (rawPower (.rational r) (.rational e))
  | product {c r e : ℚ} : c ≠ 0 → e ≠ 1 →
      IsRadical (.apply .multiplication [.rational c, rawPower (.rational r) (.rational e)])

theorem isAtom_rawPower {r e : ℚ} (he : e ≠ 1) : IsAtom (rawPower (.rational r) (.rational e)) :=
  .power (by simpa [isRational, rational?] using he)

theorem areAtoms_root {r e : ℚ} (he : e ≠ 1) : AreAtoms [rawPower (.rational r) (.rational e)] :=
  areAtoms_singleton (isAtom_rawPower he) nofun rfl

/-- The factors of a radical are a number and powers of numbers. -/
theorem IsRadical.areAtoms (h : IsRadical x) :
    AreAtoms (flatten .multiplication x) ∧
      ∀ y ∈ atomsOf (flatten .multiplication x), ∃ r : ℚ, (groupOf y).base = .rational r := by
  have hroot (r e : ℚ) : atomsOf [rawPower (.rational r) (.rational e)] =
      [rawPower (.rational r) (.rational e)] := rfl
  cases h with
  | rational hc => exact ⟨areAtoms_rational hc, nofun⟩
  | @root r e he =>
      refine ⟨areAtoms_root he, fun y hy => ⟨r, ?_⟩⟩
      rw [List.mem_singleton.mp hy]
      rfl
  | @product c r e hc he =>
      refine ⟨(areAtoms_rational hc).append (areAtoms_root he) nofun, fun y hy => ⟨r, ?_⟩⟩
      rw [List.mem_singleton.mp hy]
      rfl

/-- The imaginary unit or its opposite. -/
inductive IsRotation : Expr → Prop
  | unit : IsRotation .i
  | opposite : IsRotation (.apply .multiplication [.integer (-1), .i])

theorem areAtoms_opposite_unit : AreAtoms [.integer (-1), .i] :=
  (areAtoms_rational (by decide)).append (areAtoms_singleton (.constant _) nofun rfl) nofun

theorem atomicProduct_opposite_unit :
    atomicProduct [.integer (-1), .i] = .apply .multiplication [.integer (-1), .i] := by
  have hsort : Expr.sort [.i] = [.i] := List.perm_singleton.mp (sort_perm [.i])
  have hatoms : atomsOf [.integer (-1), .i] = [.i] := rfl
  have hnumber : numberOf [.integer (-1), .i] = -1 := mul_one _
  rw [atomicProduct, hatoms, hsort, hnumber, if_neg (by decide)]
  rfl

theorem IsRotation.areAtoms (h : IsRotation x) :
    AreAtoms (flatten .multiplication x) ∧ ∀ y ∈ atomsOf (flatten .multiplication x), y = .i := by
  cases h with
  | unit =>
      exact ⟨areAtoms_singleton (.constant _) nofun rfl, fun y hy => List.mem_singleton.mp hy⟩
  | opposite => exact ⟨areAtoms_opposite_unit, fun y hy => List.mem_singleton.mp hy⟩

theorem flattenAll_pair (f : Operator) (x y : Expr) :
    flattenAll f [x, y] = flatten f x ++ flatten f y := by
  rw [flattenAll, flattenAll, flattenAll, List.append_nil]

theorem IsRadical.areAtoms_signed (h : IsRadical x) {q : ℚ} (hq : q ≠ 0) :
    AreAtoms (flattenAll .multiplication [.rational q, x]) := by
  rw [flattenAll_pair]
  exact (areAtoms_rational hq).append h.areAtoms.1 nofun

theorem IsRotation.areAtoms_radical (hx : IsRotation x) (hy : IsRadical y) :
    AreAtoms (flattenAll .multiplication [x, y]) := by
  rw [flattenAll_pair]
  refine hx.areAtoms.1.append hy.areAtoms.1 fun z hz w hw => ?_
  rcases hy.areAtoms.2 w hw with ⟨r, hr⟩
  rw [hx.areAtoms.2 z hz, Apart, hr]
  rfl

/-! ## Powers of positive numbers -/

theorem ne_of_not_isInt {q : ℚ} (h : ¬exponent.isInt = true) (hq : q.isInt = true) :
    exponent ≠ q :=
  fun heq => h (heq ▸ hq)

theorem rationalPower_of_pos (node : NodeReducer) (hint : ¬exponent.isInt = true)
    (hden : exponent.den < UInt32.size) (hbase : 0 < base) :
    rationalPower ctx node base exponent =
      pure (((radical? base exponent).map Radical.toExpr).getD
        (rawPower (.rational base) (.rational exponent))) := by
  rw [rationalPower, if_neg hint, if_neg (not_le.mpr hden), if_neg (not_lt.mpr hbase.le)]

theorem mkRat_one_ne_one (hint : ¬exponent.isInt = true) : mkRat 1 exponent.den ≠ 1 := by
  intro hone
  rw [Rat.mkRat_eq_div, Int.cast_one, one_div, inv_eq_one] at hone
  exact hint (by simpa [Rat.isInt] using hone)

theorem Radical.Exact.isRadical {r : Radical} (h : r.Exact base exponent)
    (hint : ¬exponent.isInt = true) : IsRadical r.toExpr := by
  have hindex : mkRat 1 r.index ≠ 1 := by
    rw [h.index_eq]
    exact mkRat_one_ne_one hint
  rw [Radical.toExpr]
  split
  case isTrue => exact .rational h.coefficient_pos.ne'
  case isFalse =>
    dsimp only
    split
    case isTrue => exact .root hindex
    case isFalse => exact .product h.coefficient_pos.ne' hindex

/-- A power of a positive number, computed or kept, is a radical with the value of the power. -/
theorem rationalPower_positive (σ : Assignment) (node : NodeReducer)
    (hint : ¬exponent.isInt = true) (hden : exponent.den < UInt32.size) (hbase : 0 < base) :
    ∃ y, rationalPower ctx node base exponent = pure y ∧ IsRadical y ∧
      y.principal? σ = some (((base : ℝ) ^ (exponent : ℝ) : ℝ) : ℂ) := by
  refine ⟨_, rationalPower_of_pos node hint hden hbase, ?_⟩
  cases hradical : radical? base exponent with
  | some r =>
      have hexact := exact_of_radical? hbase hradical
      exact ⟨hexact.isRadical hint, hexact.principal? σ hbase⟩
  | none =>
      exact ⟨.root (ne_of_not_isInt hint rfl), principal?_power_of_pos σ hbase exponent⟩

theorem powerOfScalars_positive (σ : Assignment) (node : NodeReducer)
    (hint : ¬exponent.isInt = true) (hden : exponent.den < UInt32.size) (hbase : 0 < base) :
    ∃ y, powerOfScalars ctx node (.rational base) (.rational exponent) = pure y ∧ IsRadical y ∧
      y.principal? σ = some (((base : ℝ) ^ (exponent : ℝ) : ℝ) : ℂ) := by
  have hnot {q r : ℚ} (h : q ≠ r) : ¬(Expr.rational q).isRational r = true := by
    simpa [isRational, rational?] using h
  rw [powerOfScalars, if_neg (hnot (ne_of_not_isInt hint rfl)),
    if_neg (hnot (ne_of_not_isInt hint rfl)), if_neg (hnot hbase.ne')]
  split
  case isTrue hone =>
    have hone : base = 1 := by simpa [isRational, rational?, kind] using hone
    refine ⟨_, rfl, .rational one_ne_zero, ?_⟩
    rw [hone, Rat.cast_one, Real.one_rpow]
    exact (principal?_integer 1).trans (by simp)
  case isFalse => exact rationalPower_positive σ node hint hden hbase

/-- The power of the magnitude of a negative base. -/
theorem nodeWithin_positive (ctx : Context) (nesting : Nat) (σ : Assignment)
    (hint : ¬exponent.isInt = true) (hden : exponent.den < UInt32.size) (hbase : 0 < base) :
    Yields (power (nodeWithin nesting ctx) (.rational base) (.rational exponent)) fun y =>
      IsRadical y ∧ y.principal? σ = some (((base : ℝ) ^ (exponent : ℝ) : ℝ) : ℂ) := by
  refine nodeWithin_unspoiled (spoiled?_plain _ (plain_rationals [base, exponent]))
    fun inner _ => ?_
  rcases powerOfScalars_positive σ (nodeWithin inner ctx) hint hden hbase with ⟨y, hpower, hy⟩
  change Yields (powerOfScalars ctx (nodeWithin inner ctx) (.rational base) (.rational exponent)) _
  rw [hpower]
  exact Yields.pure hy

/-! ## Powers of the imaginary unit -/

theorem I_zpow_emod (n : ℤ) : Complex.I ^ n = Complex.I ^ (n % 4) := by
  have hfour : Complex.I ^ (4 : ℤ) = 1 := by exact_mod_cast Complex.I_pow_four
  conv_lhs => rw [← Int.mul_ediv_add_emod n 4]
  rw [zpow_add₀ Complex.I_ne_zero, zpow_mul, hfour, one_zpow, one_mul]

theorem principal?_unit : Expr.i.principal? σ = some Complex.I :=
  rfl

theorem principal?_opposite_unit :
    (Expr.apply .multiplication [.integer (-1), .i]).principal? σ = some (-Complex.I) := by
  rw [principal?_product (principal?_integer (-1)) principal?_unit]
  simp

/-- An odd power of the imaginary unit is the unit or its opposite. -/
theorem imaginaryUnitPower_odd (ctx : Context) (nesting : Nat) (σ : Assignment) {n : ℤ}
    (hodd : n % 2 = 1) :
    Yields (imaginaryUnitPower (nodeWithin nesting ctx) n) fun y =>
      IsRotation y ∧ y.principal? σ = some (Complex.I ^ n) := by
  rw [imaginaryUnitPower, I_zpow_emod n]
  have hcases : n % 4 = 1 ∨ n % 4 = 3 := by omega
  rcases hcases with h | h
  · rw [h, zpow_one]
    exact Yields.pure ⟨.unit, principal?_unit⟩
  · rw [h]
    have hcube : Complex.I ^ (3 : ℤ) = -Complex.I := by exact_mod_cast Complex.I_pow_three
    have hatoms : AreAtoms (flattenAll .multiplication [.integer (-1), .i]) :=
      areAtoms_opposite_unit
    refine (nodeWithin_atoms ctx nesting hatoms).mono fun y hy => ?_
    rw [hy, hcube]
    exact atomicProduct_opposite_unit ▸ ⟨.opposite, principal?_opposite_unit⟩

/-- The imaginary unit to an odd power, as a node. -/
theorem nodeWithin_unit (ctx : Context) (nesting : Nat) (σ : Assignment) {n : ℤ}
    (hodd : n % 2 = 1) :
    Yields (power (nodeWithin nesting ctx) .i (.integer n)) fun y =>
      IsRotation y ∧ y.principal? σ = some (Complex.I ^ n) := by
  refine nodeWithin_unspoiled (spoiled?_plain _ ?_) fun inner _ => ?_
  · exact forall_mem_pair ⟨rfl, rfl, rfl⟩ ⟨rfl, rfl, rfl⟩
  · change Yields (powerOfScalars ctx (nodeWithin inner ctx) .i (.integer n)) _
    have hzero : ¬(Expr.integer n).isRational 0 = true := by
      have hne : (n : ℚ) ≠ 0 := by exact_mod_cast (by omega : n ≠ 0)
      simpa [isRational, rational?, integer] using hne
    rw [powerOfScalars, if_neg hzero]
    split
    case isTrue hone =>
      have hone : n = 1 := by simpa [isRational, rational?, integer] using hone
      rw [hone, zpow_one]
      exact Yields.pure ⟨.unit, principal?_unit⟩
    case isFalse =>
      have hproper : properPower ctx (nodeWithin inner ctx) .i (.integer n) =
          imaginaryUnitPower (nodeWithin inner ctx) n := by
        rw [i, properPower, integer?_integer]
      exact hproper ▸ imaginaryUnitPower_odd ctx inner σ hodd

/-! ## Powers of negative numbers -/

theorem principal_pair (σ : Assignment) {v w : ℂ} (hx : x.principal? σ = some v)
    (hy : y.principal? σ = some w) :
    (∀ z ∈ [x, y], HasPrincipal σ z) ∧ ([x, y].map (principal σ)).prod = v * w := by
  refine ⟨forall_mem_pair (hasPrincipal_iff.mpr ⟨v, hx⟩) (hasPrincipal_iff.mpr ⟨w, hy⟩), ?_⟩
  simp [principal_eq hx, principal_eq hy]

theorem nodeWithin_pair_principal (ctx : Context) (nesting : Nat) {v w : ℂ}
    (hatoms : AreAtoms (flattenAll .multiplication [x, y])) (hx : x.principal? σ = some v)
    (hy : y.principal? σ = some w) :
    Yields (multiply (nodeWithin nesting ctx) [x, y]) fun r => r.principal? σ = some (v * w) := by
  rcases principal_pair σ hx hy with ⟨hall, hprod⟩
  exact hprod ▸ nodeWithin_atoms_principal ctx nesting hatoms hall

/-- An odd root of a negative number, in the real format, is that of its magnitude, with the sign of
the power. -/
theorem negativeBasePower_odd (ctx : Context) (nesting : Nat) (σ : Assignment)
    (hint : ¬exponent.isInt = true) (hden : exponent.den < UInt32.size) (hbase : base < 0)
    (hreal : ctx.settings.complexFormat = .real) (hodd : exponent.den % 2 = 1) :
    Yields (negativeBasePower ctx (nodeWithin nesting ctx) base exponent) fun y =>
      y.principal? σ =
        some (((-1) ^ exponent.num * (-base : ℝ) ^ (exponent : ℝ) : ℝ) : ℂ) := by
  have heven : ¬exponent.den % 2 = 0 := by omega
  rw [negativeBasePower]
  dsimp only
  rw [if_neg heven, if_neg (not_not.mpr hreal)]
  refine (nodeWithin_positive ctx nesting σ hint hden (neg_pos.mpr hbase)).bind fun root hroot => ?_
  have hsign : ((if exponent.num % 2 = 0 then 1 else -1 : ℤ) : ℝ) = (-1) ^ exponent.num := by
    split
    case isTrue h => rw [(Int.even_iff.mpr h).neg_one_zpow, Int.cast_one]
    case isFalse h =>
      rw [(Int.not_even_iff_odd.mp (mt Int.even_iff.mp h)).neg_one_zpow, Int.cast_neg, Int.cast_one]
  have hne : ((if exponent.num % 2 = 0 then 1 else -1 : ℤ) : ℚ) ≠ 0 := by split <;> decide
  refine (nodeWithin_pair_principal ctx nesting (hroot.1.areAtoms_signed hne)
    (principal?_integer _) hroot.2).mono fun y hy => ?_
  rw [hy, ← hsign, Complex.ofReal_mul, Complex.ofReal_intCast, Rat.cast_neg]

/-- A power of the square root of a negative number is that of its magnitude, turned by the power of
the imaginary unit. -/
theorem negativeBasePower_half (ctx : Context) (nesting : Nat) (σ : Assignment)
    (hint : ¬exponent.isInt = true) (hbase : base < 0)
    (hreal : ctx.settings.complexFormat ≠ .real) (htwo : exponent.den = 2) :
    Yields (negativeBasePower ctx (nodeWithin nesting ctx) base exponent) fun y =>
      y.principal? σ =
        some (Complex.I ^ exponent.num * (((-base : ℝ) ^ (exponent : ℝ) : ℝ) : ℂ)) := by
  have hodd : exponent.num % 2 = 1 := by
    have hcoprime := exponent.reduced
    rw [htwo, Nat.coprime_two_right, Int.natAbs_odd] at hcoprime
    exact Int.odd_iff.mp hcoprime
  have hden : exponent.den < UInt32.size := by rw [htwo]; decide
  have heven : exponent.den % 2 = 0 := by rw [htwo]
  rw [negativeBasePower]
  dsimp only
  rw [if_pos heven, if_neg hreal, if_neg (not_not.mpr htwo)]
  refine (nodeWithin_unit ctx nesting σ hodd).bind fun rotation hrotation => ?_
  refine (nodeWithin_positive ctx nesting σ hint hden (neg_pos.mpr hbase)).bind fun root hroot => ?_
  refine (nodeWithin_pair_principal ctx nesting (hrotation.1.areAtoms_radical hroot.1)
    hrotation.2 hroot.2).mono fun y hy => ?_
  rw [hy, Rat.cast_neg]

theorem rationalPower_of_neg (node : NodeReducer) (hint : ¬exponent.isInt = true)
    (hden : exponent.den < UInt32.size) (hbase : base < 0) :
    rationalPower ctx node base exponent = negativeBasePower ctx node base exponent := by
  rw [rationalPower, if_neg hint, if_neg (not_le.mpr hden), if_pos hbase]

/-! ## All rational powers -/

/-- Whether a power with a whole exponent is computed. -/
def IsRaised (base : ℚ) (n : ℤ) : Prop :=
  fitsInt32 n = true ∧ bitLength base * n.natAbs ≤ maxExactBits

/-- Whether a rational power comes to anything but itself. -/
def IsEvaluated (ctx : Context) (base exponent : ℚ) : Prop :=
  if exponent.isInt then
    IsRaised base exponent.num
  else
    exponent.den < UInt32.size ∧
      if base < 0 then
        ctx.settings.complexFormat = .real ∨ exponent.den = 2
      else
        IsComputed base exponent

instance (base exponent : ℚ) : Decidable (IsComputed base exponent) :=
  inferInstanceAs (Decidable (_ ∧ _))

instance (base : ℚ) (n : ℤ) : Decidable (IsRaised base n) :=
  inferInstanceAs (Decidable (_ ∧ _))

theorem rationalPower_whole (node : NodeReducer) (hint : exponent.isInt = true) :
    rationalPower ctx node base exponent =
      if IsRaised base exponent.num then pure (.rational (base ^ exponent.num))
      else pure (rawPower (.rational base) (.rational exponent)) := by
  rw [rationalPower, if_pos hint, wholePower?]
  by_cases h : IsRaised base exponent.num
  · rw [if_pos h, if_pos (by simpa [IsRaised] using h), Option.map_some, Option.getD_some]
  · rw [if_neg h, if_neg (by simpa [IsRaised] using h), Option.map_none, Option.getD_none]

theorem negativeBasePower_kept (node : NodeReducer)
    (h : ¬(ctx.settings.complexFormat = .real ∨ exponent.den = 2)) :
    negativeBasePower ctx node base exponent =
      pure (rawPower (.rational base) (.rational exponent)) := by
  rcases not_or.mp h with ⟨hreal, htwo⟩
  rw [negativeBasePower]
  dsimp only
  rw [if_neg hreal, if_pos htwo, if_pos hreal, ite_self]

theorem rationalPower_kept (node : NodeReducer) (h : ¬IsEvaluated ctx base exponent) :
    rationalPower ctx node base exponent =
      pure (rawPower (.rational base) (.rational exponent)) := by
  rw [IsEvaluated] at h
  by_cases hint : exponent.isInt = true
  · rw [if_pos hint] at h
    rw [rationalPower_whole node hint, if_neg h]
  · rw [if_neg hint] at h
    rw [rationalPower, if_neg hint]
    split
    case isTrue => rfl
    case isFalse hden =>
      replace h := not_and.mp h (not_le.mp hden)
      split
      case isTrue hbase =>
        rw [if_pos hbase] at h
        exact negativeBasePower_kept node h
      case isFalse hbase =>
        rw [if_neg hbase, isComputed_iff, Option.not_isSome_iff_eq_none] at h
        rw [h]
        rfl

/-- A power of rational numbers that is computed is exact. With a whole exponent it is the power.
With another one it is, for a positive base, a radical that is exactly the power; for a negative one
an odd root of it has the sign of the power, a square root is turned by the power of the imaginary
unit, and there is no even root in the real format. -/
theorem rationalPower_exact (ctx : Context) (nesting : Nat) (σ : Assignment) (base exponent : ℚ) :
    let power := rationalPower ctx (nodeWithin nesting ctx) base exponent
    let real := ctx.settings.complexFormat = .real
    (exponent.isInt = true → IsRaised base exponent.num →
      power = pure (.rational (base ^ exponent.num))) ∧
    (¬exponent.isInt = true → exponent.den < UInt32.size →
      (0 < base → IsComputed base exponent →
        ∃ r : Radical, r.Exact base exponent ∧ power = pure r.toExpr) ∧
      (0 < base →
        Yields power fun y =>
          y.principal? σ = some (((base : ℝ) ^ (exponent : ℝ) : ℝ) : ℂ)) ∧
      (base < 0 → real → exponent.den % 2 = 0 → power = pure .nonreal) ∧
      (base < 0 → real → exponent.den % 2 = 1 →
        Yields power fun y =>
          y.principal? σ =
            some (((-1) ^ exponent.num * (-base : ℝ) ^ (exponent : ℝ) : ℝ) : ℂ)) ∧
      (base < 0 → ¬real → exponent.den = 2 →
        Yields power fun y =>
          y.principal? σ =
            some (Complex.I ^ exponent.num * (((-base : ℝ) ^ (exponent : ℝ) : ℝ) : ℂ)))) ∧
    (¬IsEvaluated ctx base exponent →
      power = pure (rawPower (.rational base) (.rational exponent))) := by
  intro power real
  have hnegative (hint : ¬exponent.isInt = true) (hden : exponent.den < UInt32.size)
      (hbase : base < 0) : power = negativeBasePower ctx (nodeWithin nesting ctx) base exponent :=
    rationalPower_of_neg _ hint hden hbase
  refine ⟨fun hint hraised => ?_, fun hint hden => ⟨fun hbase hcomputed => ?_, fun hbase => ?_,
    fun hbase hreal heven => ?_, fun hbase hreal hodd => ?_, fun hbase hreal htwo => ?_⟩,
    rationalPower_kept _⟩
  · exact (rationalPower_whole _ hint).trans (if_pos hraised)
  · rcases Option.isSome_iff_exists.mp (isComputed_iff.mp hcomputed) with ⟨r, hr⟩
    refine ⟨r, exact_of_radical? hbase hr, (rationalPower_of_pos _ hint hden hbase).trans ?_⟩
    rw [hr]
    rfl
  · rcases rationalPower_positive σ (nodeWithin nesting ctx) hint hden hbase with
      ⟨y, hpower, -, hy⟩
    have hpower : power = pure y := hpower
    rw [hpower]
    exact Yields.pure hy
  · rw [hnegative hint hden hbase, negativeBasePower]
    dsimp only
    rw [if_pos heven, if_pos hreal]
  · rw [hnegative hint hden hbase]
    exact negativeBasePower_odd ctx nesting σ hint hden hbase hreal hodd
  · rw [hnegative hint hden hbase]
    exact negativeBasePower_half ctx nesting σ hint hbase hreal htwo

/-- A power with a whole exponent below zero, one with a root of a positive number, an odd root of a
negative number in the real format, and a square root of one in the cartesian format. -/
theorem rationalPower_exact_roots :
    let real : Context := { settings := { complexFormat := .real }, room := 1000 }
    let cartesian : Context := { settings := { complexFormat := .cartesian }, room := 1000 }
    let σ : Assignment := ⟨fun _ => 0, fun _ _ => none⟩
    rationalPower real (nodeWithin 3 real) (2 / 3) (-3) = pure (.rational ((2 / 3) ^ (-3 : ℤ))) ∧
    (∃ r : Radical, r.Exact 12 (-3 / 2) ∧
      rationalPower real (nodeWithin 3 real) 12 (-3 / 2) = pure r.toExpr) ∧
    rationalPower real (nodeWithin 3 real) (-8) (1 / 2) = pure .nonreal ∧
    Yields (rationalPower real (nodeWithin 3 real) (-8) (1 / 3)) (fun y =>
      y.principal? σ = some ((((-1) ^ (1 : ℤ) * (-(-8 : ℚ) : ℝ) ^ ((1 / 3 : ℚ) : ℝ) : ℝ)) : ℂ)) ∧
    Yields (rationalPower cartesian (nodeWithin 3 cartesian) (-12) (1 / 2)) (fun y =>
      y.principal? σ =
        some (Complex.I ^ (1 : ℤ) * (((-(-12 : ℚ) : ℝ) ^ ((1 / 2 : ℚ) : ℝ) : ℝ) : ℂ))) := by
  intro real cartesian σ
  have hcube : (1 / 3 : ℚ).num = 1 := by decide +kernel
  have hhalf : (1 / 2 : ℚ).num = 1 := by decide +kernel
  have hwhole := (rationalPower_exact real 3 σ (2 / 3) (-3)).1 (by decide) (by decide +kernel)
  have hroot := ((rationalPower_exact real 3 σ 12 (-3 / 2)).2.1 (by decide +kernel)
    (by decide +kernel)).1 (by norm_num) (by decide +kernel)
  have heven := ((rationalPower_exact real 3 σ (-8) (1 / 2)).2.1 (by decide +kernel)
    (by decide +kernel)).2.2.1 (by norm_num) rfl (by decide +kernel)
  have hodd := ((rationalPower_exact real 3 σ (-8) (1 / 3)).2.1 (by decide +kernel)
    (by decide +kernel)).2.2.2.1 (by norm_num) rfl (by decide +kernel)
  have hsquare := ((rationalPower_exact cartesian 3 σ (-12) (1 / 2)).2.1 (by decide +kernel)
    (by decide +kernel)).2.2.2.2 (by norm_num) nofun (by decide +kernel)
  rw [hcube] at hodd
  rw [hhalf] at hsquare
  exact ⟨hwhole, hroot, heven, hodd, hsquare⟩

end Reduction

end PocketAlgebra
