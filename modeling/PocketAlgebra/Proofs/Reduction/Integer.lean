import Mathlib.Data.Finset.Powerset
import Mathlib.Data.Int.ModEq
import Mathlib.RingTheory.Polynomial.Pochhammer
import PocketAlgebra.Proofs.Reduction.Settles

/-!
# Division and counting with whole numbers

The rules for quotients, remainders, binomial coefficients and numbers of arrangements are checked
against the definitions of these numbers. A quotient leaves a remainder that is not negative, while
the remainder itself has the sign of the divisor, so that the two belong to different divisions
where the divisor is negative.
-/

namespace PocketAlgebra

namespace Reduction

/-! ## Rules that give a number -/

/-- The functions of two numbers that have a rule for whole numbers. -/
def binaryFunctions : List Operator :=
  [.greatestCommonDivisor, .leastCommonMultiple, .quotient, .remainder, .binomial, .permutations]

/-- A function of two numbers is computed: its rule gives a number at once, and the function is
reduced to it, whatever the expressions are that its operands are written as. -/
structure Computes (ctx : Context) (f : Operator) (p q r : ℚ) : Prop where
  rule : ∀ node tree, reduceApply ctx node tree f [.rational p, .rational q] = pure (.rational r)
  reduces : ∀ {x y : Expr} {nesting : Nat}, nesting + 2 ≤ maxNesting →
    Settles (fun room => treeWithin nesting (ctx.withRoom room) x) (.rational p) →
    Settles (fun room => treeWithin nesting (ctx.withRoom room) y) (.rational q) →
      ReducesTo ctx (.apply f [x, y]) (.rational r)

section Computes

variable {ctx : Context} {f : Operator} {p q r : ℚ}

theorem reduceApply_of_binaryRational (hf : f ∈ binaryFunctions)
    (h : binaryRational f p q = .value r) (ctx : Context) (node tree : NodeReducer) :
    reduceApply ctx node tree f [.rational p, .rational q] = pure (.rational r) := by
  have hrule : reduceApply ctx node tree f [.rational p, .rational q] =
      pure ((binaryRational f p q).toExpr (.apply f [.rational p, .rational q])) := by
    simp only [binaryFunctions, List.mem_cons, List.not_mem_nil, or_false] at hf
    rcases hf with rfl | rfl | rfl | rfl | rfl | rfl <;> rfl
  rw [hrule, h]
  rfl

/-- No function of two numbers stores its operand or binds a variable. -/
theorem plain_of_mem_binaryFunctions (hf : f ∈ binaryFunctions) :
    f ≠ .store ∧ f.kind.isParametered = false := by
  simp only [binaryFunctions, List.mem_cons, List.not_mem_nil, or_false] at hf
  rcases hf with rfl | rfl | rfl | rfl | rfl | rfl <;> exact ⟨nofun, rfl⟩

theorem computes_of_binaryRational (ctx : Context) (hf : f ∈ binaryFunctions)
    (h : binaryRational f p q = .value r) : Computes ctx f p q r where
  rule := reduceApply_of_binaryRational hf h ctx
  reduces := by
    intro x y nesting hnesting hx hy
    have hplain := plain_of_mem_binaryFunctions hf
    have hnode : Settles
        (fun room => nodeWithin (nesting + 1) (ctx.withRoom room)
          (.apply f [.rational p, .rational q])) (.rational r) := by
      refine settles_unspoiled (spoiled?_plain _ (plain_rationals [p, q])) ?_
      simp only [reduceApply_of_binaryRational hf h]
      exact Settles.pure _
    have htree := settles_apply hplain.1 hplain.2
      (.cons (hx.deeper (Nat.le_succ nesting)) (.cons (hy.deeper (Nat.le_succ nesting)) .nil)) hnode
    have hreduces := htree.reducesTo hnesting
    have hshown : beautify (.rational r) = .rational r := rfl
    rwa [hshown, ite_self] at hreduces

end Computes

/-! ## Division -/

section Division

variable {a b q r : ℤ}

/-- The remainder of a division with the sign of the divisor. -/
structure IsRemainder (a b r : ℤ) : Prop where
  congruent : r ≡ a [ZMOD b]
  sign : r = 0 ∨ r.sign = b.sign
  small : |r| < |b|

/-- The quotient of a division that leaves a remainder which is not negative. -/
structure IsQuotient (a b q : ℤ) : Prop where
  nonneg : 0 ≤ a - b * q
  small : a - b * q < |b|

/-- The remainders of a division lie between zero and the divisor. -/
theorem isRemainder_iff :
    IsRemainder a b r ↔ r ≡ a [ZMOD b] ∧ (0 ≤ r ∧ r < b ∨ b < r ∧ r ≤ 0) := by
  have hrange : ((r = 0 ∨ r.sign = b.sign) ∧ |r| < |b|) ↔ (0 ≤ r ∧ r < b ∨ b < r ∧ r ≤ 0) := by
    rcases lt_trichotomy b 0 with hb | rfl | hb
    · rw [Int.sign_eq_neg_one_of_neg hb, Int.sign_eq_neg_one_iff_neg, abs_of_neg hb, abs_lt]
      omega
    · rw [Int.sign_zero, Int.sign_eq_zero_iff_zero, abs_zero, abs_lt]
      omega
    · rw [Int.sign_eq_one_of_pos hb, Int.sign_eq_one_iff_pos, abs_of_pos hb, abs_lt]
      omega
  exact ⟨fun h => ⟨h.congruent, hrange.mp ⟨h.sign, h.small⟩⟩,
    fun ⟨hcongruent, hr⟩ => ⟨hcongruent, (hrange.mpr hr).1, (hrange.mpr hr).2⟩⟩

theorem fmod_modEq (a b : ℤ) : a.fmod b ≡ a [ZMOD b] := by
  rw [Int.modEq_iff_dvd, Int.fmod_def, sub_sub_cancel]
  exact dvd_mul_right b _

theorem isRemainder_fmod (a : ℤ) (hb : b ≠ 0) : IsRemainder a b (a.fmod b) := by
  refine isRemainder_iff.mpr ⟨fmod_modEq a b, ?_⟩
  rcases lt_or_gt_of_ne hb with hneg | hpos
  · right
    have hopposite := Int.neg_fmod_neg a b
    have hnonneg := Int.fmod_nonneg_of_pos (-a) (neg_pos.mpr hneg)
    have hless := Int.fmod_lt_of_pos (-a) (neg_pos.mpr hneg)
    omega
  · exact .inl ⟨Int.fmod_nonneg_of_pos a hpos, Int.fmod_lt_of_pos a hpos⟩

theorem IsRemainder.eq {r' : ℤ} (h : IsRemainder a b r) (h' : IsRemainder a b r') : r = r' := by
  rcases isRemainder_iff.mp h with ⟨hcongruent, hr⟩
  rcases isRemainder_iff.mp h' with ⟨hcongruent', hr'⟩
  have hdvd : |b| ∣ r' - r := (abs_dvd b _).mpr (hcongruent.trans hcongruent'.symm).dvd
  have hsmall : |r' - r| < |b| := by
    rw [abs_lt, abs_eq_max_neg]
    omega
  have hzero := Int.eq_zero_of_abs_lt_dvd hdvd hsmall
  omega

theorem isQuotient_ediv (a : ℤ) (hb : b ≠ 0) : IsQuotient a b (a / b) := by
  constructor
  · rw [← Int.emod_def]
    exact Int.emod_nonneg a hb
  · rw [← Int.emod_def]
    exact Int.emod_lt_abs a hb

theorem IsQuotient.eq {q' : ℤ} (hb : b ≠ 0) (h : IsQuotient a b q) (h' : IsQuotient a b q') :
    q = q' := by
  have hdvd : |b| ∣ b * q - b * q' :=
    (abs_dvd b _).mpr ((dvd_mul_right b q).sub (dvd_mul_right b q'))
  have hsmall : |b * q - b * q'| < |b| := by
    have hq := h.nonneg
    have hq' := h'.nonneg
    have hless := h.small
    have hless' := h'.small
    rw [abs_lt]
    omega
  have hzero := Int.eq_zero_of_abs_lt_dvd hdvd hsmall
  exact mul_left_cancel₀ hb (sub_eq_zero.mp hzero)

/-- What is left of the dividend without its remainder by the magnitude of the divisor is divided by
the divisor without a remainder. -/
theorem mul_ediv_eq_sub_fmod (a b : ℤ) : b * (a / b) = a - a.fmod |b| := by
  rw [Int.fmod_eq_emod_of_nonneg a (abs_nonneg b), Int.emod_abs, Int.emod_def, sub_sub_cancel]

theorem onIntegers_intCast (a b : ℤ) (f : Int → Int → Outcome) : onIntegers a b f = f a b := by
  simp [onIntegers, Rat.isInt]

theorem computes_remainder (ctx : Context) (a : ℤ) (hb : b ≠ 0) :
    Computes ctx .remainder a b (a.fmod b : ℤ) := by
  refine computes_of_binaryRational ctx (by decide) ?_
  rw [binaryRational, onIntegers_intCast, remainder, if_neg hb]
  rfl

theorem computes_quotient (ctx : Context) (a : ℤ) (hb : b ≠ 0) :
    Computes ctx .quotient a b (a / b : ℤ) := by
  refine computes_of_binaryRational ctx (by decide) ?_
  rw [binaryRational, onIntegers_intCast, quotient, if_neg hb]
  rfl

end Division

/-! ## Counting -/

section Counting

variable {n : ℚ} {k : ℕ}

/-- The factors of a binomial coefficient, from some index on, lead from one coefficient to
another. -/
theorem binomialProduct_from (n : ℚ) (count index : ℕ) :
    binomialProduct n count index ((∏ i ∈ Finset.range index, (n - i)) / index.factorial) =
      (∏ i ∈ Finset.range (index + count), (n - i)) / (index + count).factorial := by
  induction count generalizing index with
  | zero => rfl
  | succ count ih =>
      have hstep : (∏ i ∈ Finset.range index, (n - i)) / index.factorial * (n - index) /
          (index + 1) = (∏ i ∈ Finset.range (index + 1), (n - i)) / (index + 1).factorial := by
        rw [Finset.prod_range_succ, Nat.factorial_succ, Nat.cast_mul, Nat.cast_succ,
          mul_comm ((index : ℚ) + 1), ← div_div, div_mul_eq_mul_div]
      rw [binomialProduct, hstep, ih, Nat.add_right_comm, Nat.add_assoc]

theorem exists_natCast (hwhole : n.isInt = true) (hnonneg : 0 ≤ n) : ∃ m : ℕ, n = m := by
  have hden : n.den = 1 := by simpa [Rat.isInt] using hwhole
  refine ⟨n.num.toNat, ?_⟩
  rw [← Int.cast_natCast, Int.toNat_of_nonneg (Rat.num_nonneg.mpr hnonneg)]
  exact (Rat.den_eq_one_iff n).mp hden |>.symm

/-- Where a coefficient is zero without any computation, one of its factors is. -/
theorem prod_sub_eq_zero (hwhole : n.isInt = true) (hnonneg : 0 ≤ n) (hless : n < k) :
    ∏ i ∈ Finset.range k, (n - i) = 0 := by
  rcases exists_natCast hwhole hnonneg with ⟨m, rfl⟩
  exact Finset.prod_eq_zero (Finset.mem_range.mpr (Nat.cast_lt.mp hless)) (sub_self _)

theorem binomial_eq (n : ℚ) (hk : k ≤ maxBinomialFactors) :
    binomial n k = .value ((∏ i ∈ Finset.range k, (n - i)) / k.factorial) := by
  have hindex : binomialOfIndex? k = none := by
    have hwhole : (k : ℚ).isInt = true := by simp [Rat.isInt]
    have hnonneg : ¬ (k : ℚ) < 0 := not_lt.mpr (Nat.cast_nonneg k)
    rw [binomialOfIndex?, hwhole, if_neg (by decide), if_neg hnonneg]
  have hfew : ¬ (maxBinomialFactors : ℚ) < k := not_lt.mpr (Nat.cast_le.mpr hk)
  rw [binomial, hindex]
  dsimp only
  rw [if_neg hfew]
  split_ifs with hzero
  · simp only [Bool.and_eq_true, decide_eq_true_eq] at hzero
    rw [prod_sub_eq_zero hzero.1.1 hzero.1.2 hzero.2, zero_div]
    rfl
  · have hproduct := binomialProduct_from n k 0
    rw [Finset.prod_range_zero, Nat.factorial_zero, Nat.cast_one, div_one, Nat.zero_add]
      at hproduct
    rw [Rat.num_natCast, Int.toNat_natCast, hproduct]

theorem binomial_natCast (n : ℕ) (hk : k ≤ maxBinomialFactors) :
    binomial n k = .value (n.choose k) := by
  rw [binomial_eq n hk, Nat.cast_choose_eq_descPochhammer_div, descPochhammer_eval_eq_prod_range]

theorem fallingProduct_natCast (n count : ℕ) : fallingProduct n count = n.descFactorial count := by
  induction count generalizing n with
  | zero => rfl
  | succ count ih =>
      rw [fallingProduct]
      cases n with
      | zero => rw [Nat.cast_zero, zero_mul, Nat.zero_descFactorial_succ, Nat.cast_zero]
      | succ n =>
          rw [Nat.cast_succ, add_sub_cancel_right, ih, Nat.succ_descFactorial_succ, Nat.cast_mul,
            Nat.cast_succ]

theorem permutations_natCast (n : ℕ) (hk : k ≤ maxPermutationFactors) :
    permutations n k = .integer (n.descFactorial k) := by
  have hnonneg : (decide ((n : ℤ) < 0) || decide ((k : ℤ) < 0)) = false := by simp
  have hfew : ¬ (maxPermutationFactors : ℤ) < k := by omega
  rw [permutations, hnonneg, if_neg Bool.false_ne_true, if_neg hfew, Int.toNat_natCast,
    fallingProduct_natCast]
  split_ifs with hless
  · rw [Nat.descFactorial_of_lt (Nat.cast_lt.mp hless), Nat.cast_zero]
  · rfl

theorem computes_binomial (ctx : Context) (n : ℚ) (hk : k ≤ maxBinomialFactors) :
    Computes ctx .binomial n k ((∏ i ∈ Finset.range k, (n - i)) / k.factorial) :=
  computes_of_binaryRational ctx (by decide) (binomial_eq n hk)

theorem computes_choose (ctx : Context) (n : ℕ) (hk : k ≤ maxBinomialFactors) :
    Computes ctx .binomial n k (n.choose k) :=
  computes_of_binaryRational ctx (by decide) (binomial_natCast n hk)

theorem computes_permutations (ctx : Context) (n : ℕ) (hk : k ≤ maxPermutationFactors) :
    Computes ctx .permutations n k (n.descFactorial k) := by
  refine computes_of_binaryRational ctx (by decide) ?_
  rw [binaryRational, ← Int.cast_natCast n, ← Int.cast_natCast k, onIntegers_intCast,
    permutations_natCast n hk]
  rfl

end Counting

/-! ## All rules -/

/--
The rules for whole numbers meet the definitions of their functions. The remainder by a divisor that
is not zero is the only one congruent to the dividend that is zero or has the sign of the divisor
and is of smaller magnitude; the quotient is the only one that leaves a remainder from zero on and
below the magnitude of the divisor, and it comes from a division that leaves nothing. A binomial
coefficient with a lower index of at most 300 is the product of as many factors from the upper index
downwards, divided by the factorial of the lower one, and counts subsets where the upper index is a
natural number. The number of arrangements of at most 1000 things out of others is a quotient of
factorials, or zero where there are too few to choose from.
-/
theorem integerRules_exact (ctx : Context) :
    (∀ a b : ℤ, b ≠ 0 →
      (∃ r : ℤ, Computes ctx .remainder a b r ∧ ∀ r', IsRemainder a b r' ↔ r' = r) ∧
      ∃ q : ℤ, Computes ctx .quotient a b q ∧ (∀ q', IsQuotient a b q' ↔ q' = q) ∧
        b * q = a - a.fmod |b|) ∧
    (∀ (n : ℚ) (k : ℕ), k ≤ 300 →
      Computes ctx .binomial n k ((∏ i ∈ Finset.range k, (n - i)) / k.factorial)) ∧
    (∀ n k : ℕ, k ≤ 300 →
      Computes ctx .binomial n k ((Finset.univ : Finset (Fin n)).powersetCard k).card ∧
        (n < k → Computes ctx .binomial n k 0)) ∧
    ∀ n k : ℕ, k ≤ 1000 →
      (k ≤ n → Computes ctx .permutations n k (n.factorial / (n - k).factorial)) ∧
        (n < k → Computes ctx .permutations n k 0) := by
  refine ⟨fun a b hb => ⟨?_, ?_⟩, fun n k hk => computes_binomial ctx n hk,
    fun n k hk => ⟨?_, fun hless => ?_⟩, fun n k hk => ⟨fun hle => ?_, fun hless => ?_⟩⟩
  · have hremainder := isRemainder_fmod a hb
    exact ⟨a.fmod b, computes_remainder ctx a hb,
      fun r' => ⟨fun h => h.eq hremainder, fun h => h ▸ hremainder⟩⟩
  · have hquotient := isQuotient_ediv a hb
    exact ⟨a / b, computes_quotient ctx a hb,
      fun q' => ⟨fun h => h.eq hb hquotient, fun h => h ▸ hquotient⟩, mul_ediv_eq_sub_fmod a b⟩
  · rw [Finset.card_powersetCard, Finset.card_univ, Fintype.card_fin]
    exact computes_choose ctx n hk
  · have hnone := computes_choose ctx n hk
    rwa [Nat.choose_eq_zero_of_lt hless, Nat.cast_zero] at hnone
  · have hfactorials : (n.factorial / (n - k).factorial : ℚ) = n.descFactorial k := by
      rw [← Nat.factorial_mul_descFactorial hle, Nat.cast_mul,
        mul_div_cancel_left₀ _ (Nat.cast_ne_zero.mpr (Nat.factorial_ne_zero _))]
    rw [hfactorials]
    exact computes_permutations ctx n hk
  · have hnone := computes_permutations ctx n hk
    rwa [Nat.descFactorial_of_lt hless, Nat.cast_zero] at hnone

/-- Seven divided by minus three, where the divisor is written with a sign; a binomial coefficient
of one half; and numbers of choices from five things and from two. -/
theorem integerRules_exact_mixedSigns :
    let ctx : Context := ⟨{}, {}, 0, []⟩
    ReducesTo ctx (.apply .remainder [.rational 7, .apply .opposite [.rational 3]])
        (.rational (-2)) ∧
      ReducesTo ctx (.apply .quotient [.rational 7, .apply .opposite [.rational 3]])
        (.rational (-2)) ∧
      Computes ctx .binomial (1 / 2) 2 (-1 / 8) ∧
      Computes ctx .binomial 5 2 10 ∧ Computes ctx .binomial 2 5 0 ∧
      Computes ctx .permutations 5 2 20 ∧ Computes ctx .permutations 2 5 0 := by
  intro ctx
  rcases integerRules_exact ctx with ⟨hdivision, hbinomial, hsubsets, harrangements⟩
  have hseven : Settles (fun room => treeWithin 5 (ctx.withRoom room) (.rational 7))
      (.integer 7) :=
    settles_literal ctx rfl (by decide)
  have hthree : Settles
      (fun room => treeWithin 5 (ctx.withRoom room) (.apply .opposite [.rational 3]))
      (.integer (-3)) :=
    settles_literal ctx rfl (by decide)
  rcases hdivision 7 (-3) (by decide) with ⟨⟨r, hr, honly⟩, q, hq, honly', -⟩
  obtain rfl := (honly (-2)).mp ⟨by decide, by decide, by decide⟩
  obtain rfl := (honly' (-2)).mp ⟨by decide, by decide⟩
  refine ⟨hr.reduces (by decide) hseven hthree, hq.reduces (by decide) hseven hthree, ?_, ?_, ?_,
    ?_, ?_⟩
  · have hhalf := hbinomial (1 / 2) 2 (by decide)
    have hvalue : (∏ i ∈ Finset.range 2, ((1 / 2 : ℚ) - i)) / (2 : ℕ).factorial = -1 / 8 := by
      rw [Finset.prod_range_succ, Finset.prod_range_one, Nat.factorial_two]
      norm_num
    rwa [hvalue] at hhalf
  · exact (hsubsets 5 2 (by decide)).1
  · exact (hsubsets 2 5 (by decide)).2 (by decide)
  · have hfive := (harrangements 5 2 (by decide)).1 (by decide)
    have hvalue : ((5 : ℕ).factorial / (5 - 2 : ℕ).factorial : ℚ) = 20 := by
      have hnumerator : (5 : ℕ).factorial = 120 := rfl
      have hdenominator : (5 - 2 : ℕ).factorial = 6 := rfl
      rw [hnumerator, hdenominator]
      norm_num
    rwa [hvalue] at hfive
  · exact (harrangements 2 5 (by decide)).2 (by decide)

end Reduction

end PocketAlgebra
