import Mathlib.Algebra.Order.Field.Power
import Mathlib.Algebra.Order.Ring.Rat
import Mathlib.Data.Rat.Lemmas
import PocketAlgebra.Proofs.Reduction.Settles

/-!
# Whole logarithms

A logarithm of a rational number in a whole base of at least 2 is a number just where it is whole.
It is found by divisions by the base, as long as they leave nothing, down to 1: of the number
itself if that is whole, and of its denominator if it is the reciprocal of a whole number. No other
number is a power of the base.
-/

namespace PocketAlgebra

namespace Reduction

/-! ## Dividing by the base -/

section Counting

variable {base n k : ℕ}

theorem powerCount?_one (base : ℕ) : powerCount? base 1 = some 0 := by
  rw [powerCount?, if_pos rfl]

/-- One division by the base, which the test for 1 does not stop. -/
theorem powerCount?_mul (hbase : 1 < base) (hn : 0 < n) :
    powerCount? base (base * n) = (powerCount? base n).map (· + 1) := by
  have hmore : base * n ≠ 1 := by
    have hle := Nat.le_mul_of_pos_right base hn
    omega
  have hdivides : 1 < base ∧ 0 < base * n ∧ base * n % base = 0 :=
    ⟨hbase, Nat.mul_pos (by omega) hn, Nat.mul_mod_right base n⟩
  rw [powerCount?, if_neg hmore, if_pos hdivides, Nat.mul_div_cancel_left n (by omega)]

theorem powerCount?_pow (hbase : 1 < base) (k : ℕ) : powerCount? base (base ^ k) = some k := by
  induction k with
  | zero => exact powerCount?_one base
  | succ k ih => rw [pow_succ', powerCount?_mul hbase (Nat.pow_pos (by omega)), ih, Option.map_some]

theorem eq_pow_of_powerCount? (h : powerCount? base n = some k) : n = base ^ k := by
  induction n using powerCount?.induct base generalizing k with
  | case1 =>
      rw [powerCount?_one, Option.some.injEq] at h
      rw [← h, pow_zero]
  | case2 n hmore hdivides ih =>
      rw [powerCount?, if_neg hmore, if_pos hdivides, Option.map_eq_some_iff] at h
      rcases h with ⟨j, hj, rfl⟩
      have hquotient := Nat.mul_div_cancel' (Nat.dvd_of_mod_eq_zero hdivides.2.2)
      rw [ih hj] at hquotient
      rw [pow_succ', hquotient]
  | case3 n hmore hleaves =>
      rw [powerCount?, if_neg hmore, if_neg hleaves] at h
      cases h

theorem powerCount?_eq_some_iff (hbase : 1 < base) :
    powerCount? base n = some k ↔ n = base ^ k :=
  ⟨eq_pow_of_powerCount?, fun h => h ▸ powerCount?_pow hbase k⟩

end Counting

/-! ## Logarithms of rational numbers -/

section Logarithm

variable {x : ℚ} {base : ℕ} {k : ℤ}

theorem wholeLogarithm?_natCast (x : ℚ) (hbase : 1 < base) :
    wholeLogarithm? x base =
      if 0 < x then
        if x.isInt then (powerCount? base x.num.natAbs).map Int.ofNat
        else if x.num = 1 then (powerCount? base x.den).map fun k => -Int.ofNat k
        else none
      else none := by
  have hwhole : (base : ℚ).isInt = true := by simp [Rat.isInt]
  have hleast : (2 : ℚ) ≤ base := by exact_mod_cast hbase
  simp only [wholeLogarithm?, hwhole, hleast, decide_true, Bool.true_and, decide_eq_true_eq,
    Rat.num_natCast, Int.natAbs_natCast]

theorem wholeLogarithm?_of_nonpos (hbase : 1 < base) (hx : x ≤ 0) :
    wholeLogarithm? x base = none := by
  rw [wholeLogarithm?_natCast x hbase, if_neg (not_lt.mpr hx)]

theorem eq_zpow_of_wholeLogarithm? (hbase : 1 < base) (h : wholeLogarithm? x base = some k) :
    x = (base : ℚ) ^ k := by
  rw [wholeLogarithm?_natCast x hbase] at h
  split_ifs at h with hpositive hwhole hunit
  · rcases Option.map_eq_some_iff.mp h with ⟨j, hj, rfl⟩
    have hpower := (powerCount?_eq_some_iff hbase).mp hj
    have hden : x.den = 1 := by simpa [Rat.isInt] using hwhole
    have hnum : x.num = (base ^ j : ℕ) := by
      rw [← hpower, Int.natAbs_of_nonneg (Rat.num_pos.mpr hpositive).le]
    rw [← (Rat.den_eq_one_iff x).mp hden, hnum, Int.ofNat_eq_natCast, zpow_natCast,
      Int.cast_natCast, Nat.cast_pow]
  · rcases Option.map_eq_some_iff.mp h with ⟨j, hj, rfl⟩
    have hpower := (powerCount?_eq_some_iff hbase).mp hj
    rw [← Rat.num_div_den x, hunit, hpower, Int.cast_one, one_div, Nat.cast_pow, zpow_neg,
      Int.ofNat_eq_natCast, zpow_natCast]

theorem wholeLogarithm?_zpow (hbase : 1 < base) (k : ℤ) :
    wholeLogarithm? ((base : ℚ) ^ k) base = some k := by
  have hpositive : (0 : ℚ) < (base : ℚ) ^ k :=
    zpow_pos (Nat.cast_pos.mpr (Nat.zero_lt_of_lt hbase)) k
  rw [wholeLogarithm?_natCast _ hbase, if_pos hpositive]
  cases k with
  | ofNat j =>
      have hpower : (base : ℚ) ^ Int.ofNat j = (base ^ j : ℕ) := by
        rw [Int.ofNat_eq_natCast, zpow_natCast, Nat.cast_pow]
      have hwhole : ((base ^ j : ℕ) : ℚ).isInt = true := by
        rw [Rat.isInt, Rat.den_natCast]
        rfl
      rw [hpower, if_pos hwhole, Rat.num_natCast, Int.natAbs_natCast, powerCount?_pow hbase,
        Option.map_some]
  | negSucc j =>
      have hmore : 1 < base ^ (j + 1) := Nat.one_lt_pow (Nat.succ_ne_zero j) hbase
      have hpower : (base : ℚ) ^ Int.negSucc j = ((base ^ (j + 1) : ℕ) : ℚ)⁻¹ := by
        rw [zpow_negSucc, Nat.cast_pow]
      have hden := Rat.inv_natCast_den_of_pos (Nat.zero_lt_of_lt hmore)
      have hnum := Rat.inv_natCast_num_of_pos (Nat.zero_lt_of_lt hmore)
      have hbroken : ¬ ((base ^ (j + 1) : ℕ) : ℚ)⁻¹.isInt = true := by
        rw [Rat.isInt, hden, beq_iff_eq]
        exact hmore.ne'
      rw [hpower, if_neg hbroken, if_pos hnum, hden, powerCount?_pow hbase, Option.map_some]
      rfl

theorem wholeLogarithm?_eq_some_iff (hbase : 1 < base) :
    wholeLogarithm? x base = some k ↔ x = (base : ℚ) ^ k :=
  ⟨eq_zpow_of_wholeLogarithm? hbase, fun h => h ▸ wholeLogarithm?_zpow hbase k⟩

end Logarithm

/-! ## Reduced logarithms -/

section Reduced

variable {ctx : Context} {x : ℚ} {base : ℕ}

/-- What the logarithm of a rational number in a whole base is reduced to. -/
def logarithmForm (format : ComplexFormat) (x base : ℚ) : Expr :=
  if x = 0 then
    .undefined
  else
    match wholeLogarithm? x base with
    | some k => .integer k
    | none =>
      if format = .real ∧ x < 0 then .nonreal
      else .apply .logarithm [.rational x, .rational base]

theorem sign_negative (q : ℚ) : ((Expr.rational q).sign == .negative) = decide (q < 0) := by
  rw [Expr.sign, Sign.ofRat, Sign.ofInt]
  by_cases hnegative : q < 0
  · have hnum := Rat.num_neg.mpr hnegative
    rw [if_neg hnum.ne, if_pos hnum, decide_eq_true hnegative]
    rfl
  · have hnum : ¬ q.num < 0 := fun h => hnegative (Rat.num_neg.mp h)
    rw [if_neg hnum, decide_eq_false hnegative]
    split_ifs <;> rfl

theorem sign_positive {q : ℚ} (h : 0 < q) : ((Expr.rational q).sign == .positive) = true := by
  have hnum := Rat.num_pos.mpr h
  rw [Expr.sign, Sign.ofRat, Sign.ofInt, if_neg hnum.ne', if_neg (not_lt.mpr hnum.le)]
  rfl

theorem properLogarithm_rational (ctx : Context) (node : NodeReducer) (hbase : 1 < base)
    (hx : x ≠ 0) : properLogarithm ctx node (.rational x) (.rational base) =
      pure (logarithmForm ctx.settings.complexFormat x base) := by
  have hpositive : (0 : ℚ) < base := Nat.cast_pos.mpr (Nat.zero_lt_of_lt hbase)
  rw [properLogarithm, logarithmForm, if_neg hx, sign_negative, sign_positive hpositive]
  by_cases hnonreal : ctx.settings.complexFormat = .real ∧ x < 0
  · rw [if_pos (by simp [hnonreal]), wholeLogarithm?_of_nonpos hbase hnonreal.2.le]
    simp only [hnonreal, and_self, if_true]
  · rw [if_neg (by simpa using hnonreal)]
    change (match wholeLogarithm? x base with
      | some k => (pure (.integer k) : ReduceM Expr)
      | none => pure (.apply .logarithm [.rational x, .rational base])) = _
    cases wholeLogarithm? x base with
    | some k => rfl
    | none => simp only [hnonreal, if_false]

/-- A logarithm that is known by the looks of its argument is the same as one that is computed. -/
theorem logarithmForm_zpow (format : ComplexFormat) (hbase : 1 < base) (k : ℤ) :
    logarithmForm format ((base : ℚ) ^ k) base = .integer k := by
  have hne : (base : ℚ) ^ k ≠ 0 := zpow_ne_zero k (Nat.cast_ne_zero.mpr (by omega))
  rw [logarithmForm, if_neg hne, wholeLogarithm?_zpow hbase]

theorem logarithm_rational (ctx : Context) (node : NodeReducer) (x : ℚ) (hbase : 1 < base) :
    logarithm ctx node [.rational x, .rational base] =
      pure (logarithmForm ctx.settings.complexFormat x base) := by
  have hadmitted : ((Expr.rational base).rational?.any fun b => b ≤ 0 || b = 1) = false := by
    have hleast : ¬ (base : ℚ) ≤ 0 := not_le.mpr (Nat.cast_pos.mpr (Nat.zero_lt_of_lt hbase))
    have hmore : (base : ℚ) ≠ 1 := Nat.cast_ne_one.mpr hbase.ne'
    rw [Expr.rational?, Option.any_some, decide_eq_false hleast, decide_eq_false hmore,
      Bool.false_or]
  rw [logarithm, hadmitted, if_neg Bool.false_ne_true]
  split_ifs with hzero hone hsame
  · obtain rfl : x = 0 := by simpa [Expr.isRational, Expr.rational?] using hzero
    rw [logarithmForm, if_pos rfl]
  · obtain rfl : x = 1 := by simpa [Expr.isRational, Expr.rational?] using hone
    have hform := logarithmForm_zpow ctx.settings.complexFormat hbase 0
    rw [zpow_zero] at hform
    rw [hform]
  · obtain rfl : x = base := by simpa [Expr.same] using hsame
    have hform := logarithmForm_zpow ctx.settings.complexFormat hbase 1
    rw [zpow_one] at hform
    rw [hform]
  · exact properLogarithm_rational ctx node hbase
      (by simpa [Expr.isRational, Expr.rational?] using hzero)

theorem reducesTo_logarithm (ctx : Context) (x : ℚ) (hbase : 1 < base) :
    let form := logarithmForm ctx.settings.complexFormat x base
    ReducesTo ctx (.apply .logarithm [.rational x, .rational base])
      (if ctx.settings.target = .user then beautify form else form) := by
  intro form
  have hnode : Settles
      (fun room => nodeWithin 2 (ctx.withRoom room)
        (.apply .logarithm [.rational x, .rational base])) form := by
    refine settles_unspoiled (spoiled?_plain _ (plain_rationals [x, base])) ?_
    have hrule (room : Nat) := logarithm_rational (ctx.withRoom room)
      (nodeWithin 1 (ctx.withRoom room)) x hbase
    simp only [reduceApply, hrule]
    exact Settles.pure form
  have htree := settles_apply (f := .logarithm) (by decide) rfl
    (.cons (settles_rational ctx 0 x) (.cons (settles_rational ctx 0 base) .nil)) hnode
  exact htree.reducesTo (by decide)

/-- A logarithm in a whole base that is not whole is reduced to no number at all, under whatever
name it is shown. -/
theorem logarithmForm_of_none (settings : Settings) (h : wholeLogarithm? x base = none) (k : ℤ) :
    let form := logarithmForm settings.complexFormat x base
    (if settings.target = .user then beautify form else form) ≠ .integer k := by
  intro form
  have hkept : beautify (.apply .logarithm [.rational x, .rational base]) =
      showLogarithm (.rational base) (.rational x) (.rational base) := rfl
  have hform : form = .undefined ∨ form = .nonreal ∨
      form = .apply .logarithm [.rational x, .rational base] := by
    simp only [form, logarithmForm, h]
    split_ifs <;> simp
  rcases hform with hform | hform | hform <;> rw [hform] <;> split
  · nofun
  · nofun
  · nofun
  · nofun
  · rw [hkept, showLogarithm]
    split_ifs <;> nofun
  · nofun

/-- The logarithm is reduced to a whole number just where it is one. -/
theorem shown_logarithmForm_eq_integer_iff (settings : Settings) (hbase : 1 < base) (k : ℤ) :
    (let form := logarithmForm settings.complexFormat x base
      if settings.target = .user then beautify form else form) = .integer k ↔
        x = (base : ℚ) ^ k := by
  have hinteger (j : ℤ) : (let form := logarithmForm settings.complexFormat ((base : ℚ) ^ j) base
      if settings.target = .user then beautify form else form) = .integer j := by
    have hshown : beautify (.integer j) = .integer j := rfl
    dsimp only
    rw [logarithmForm_zpow settings.complexFormat hbase, hshown, ite_self]
  refine ⟨fun h => ?_, fun h => h ▸ hinteger k⟩
  cases hx : wholeLogarithm? x base with
  | none => exact absurd h (logarithmForm_of_none settings hx k)
  | some j =>
      obtain rfl := eq_zpow_of_wholeLogarithm? hbase hx
      rw [hinteger j, Expr.integer, Expr.integer, Expr.rational.injEq, Int.cast_inj] at h
      rw [h]

end Reduced

/-! ## Exact logarithms -/

/--
Logarithms of rational numbers in whole bases from 2 on are exact: there is a whole number as their
value just for the powers of the base, with exponents of either sign or zero, and it is the
exponent; no other number has such a logarithm, in particular none that is not positive. And just
for these powers is a logarithm reduced to a whole number.
-/
theorem wholeLogarithm?_exact (x : ℚ) {base : ℤ} (hbase : 2 ≤ base) :
    (∀ k : ℤ, wholeLogarithm? x base = some k ↔ x = (base : ℚ) ^ k) ∧
      (wholeLogarithm? x base = none ↔ ∀ k : ℤ, x ≠ (base : ℚ) ^ k) ∧
      (x ≤ 0 → wholeLogarithm? x base = none) ∧
      ∀ (ctx : Context) (k : ℤ),
        ReducesTo ctx (.apply .logarithm [.rational x, .rational base]) (.integer k) ↔
          x = (base : ℚ) ^ k := by
  obtain ⟨n, rfl⟩ := Int.eq_ofNat_of_zero_le (by omega : 0 ≤ base)
  have hn : 1 < n := by omega
  rw [Int.cast_natCast]
  have hsome (k : ℤ) := wholeLogarithm?_eq_some_iff (x := x) (k := k) hn
  refine ⟨hsome, ?_, wholeLogarithm?_of_nonpos hn, fun ctx k => ?_⟩
  · rw [Option.eq_none_iff_forall_ne_some]
    exact forall_congr' fun k => not_congr (hsome k)
  · have hreduces := reducesTo_logarithm ctx x hn
    rw [← shown_logarithmForm_eq_integer_iff ctx.settings hn k]
    have hdepth : 2 + 2 ≤ maxNesting := by decide
    exact ⟨fun h => hreduces.unique h hdepth, fun h => h ▸ hreduces⟩

/-- A reciprocal in base 4, and 8 in the same base, which has no whole logarithm there although both
are powers of 2. -/
theorem wholeLogarithm?_exact_powersOfTwo :
    (2 : ℤ) ≤ 4 ∧ wholeLogarithm? (1 / 64) 4 = some (-3) ∧ (∀ k : ℤ, (8 : ℚ) ≠ (4 : ℤ) ^ k) ∧
      wholeLogarithm? (-2) 4 = none ∧
      ReducesTo ⟨{}, {}, 0, []⟩ (.apply .logarithm [.rational (1 / 64), .rational (4 : ℤ)])
        (.integer (-3)) := by
  have hbase : (2 : ℤ) ≤ 4 := by decide
  have hpower : (1 / 64 : ℚ) = (4 : ℤ) ^ (-3 : ℤ) := by norm_num
  have hnone : wholeLogarithm? 8 (4 : ℤ) = none := by decide +kernel
  exact ⟨hbase, ((wholeLogarithm?_exact (1 / 64) hbase).1 (-3)).mpr hpower,
    (wholeLogarithm?_exact 8 hbase).2.1.mp hnone,
    (wholeLogarithm?_exact (-2) hbase).2.2.1 (by norm_num),
    ((wholeLogarithm?_exact (1 / 64) hbase).2.2.2 _ (-3)).mpr hpower⟩

end Reduction

end PocketAlgebra
