import Mathlib.Data.Rat.Floor
import Mathlib.RingTheory.Binomial
import Mathlib.Tactic.FieldSimp
import Mathlib.Tactic.Ring
import PocketAlgebra.Proofs.Evaluation.Exact
import PocketAlgebra.Reduction.Engine

/-!
# Rounding, divisibility and counting in both arithmetics

The functions of whole numbers have rules for reduction and rules for approximation. On exact scalars
the rules for approximation give what reduction gives, up to the sizes that they compute with, but
for one: a binomial coefficient is rounded in the end, which changes it where its upper index is not
whole.
-/

namespace PocketAlgebra

namespace Approximation

open Reduction (Outcome)

/-! ## Numbers -/

section Numbers

variable {p q : Rat}

theorem sub_finite (p q : Rat) : ExactNumber.finite p - .finite q = .finite (p - q) := by
  rw [sub_eq_add_neg]
  rfl

theorem div_finite (p : Rat) (h : q ≠ 0) :
    ExactNumber.finite p / .finite q = .finite (p / q) :=
  if_pos h

theorem isWhole_finite (q : Rat) : Scalar.isWhole (ExactNumber.finite q) = q.isInt := by
  show (if q.den = 1 then some q.num else none).isSome = (q.den == 1)
  split_ifs with hden <;> simp [hden]

theorem less_finite (p q : Rat) :
    Scalar.less (ExactNumber.finite p) (.finite q) = decide (p < q) :=
  rfl

theorem atMost_finite (p q : Rat) :
    Scalar.atMost (ExactNumber.finite p) (.finite q) = decide (p ≤ q) := by
  show (decide (p < q) || decide (ExactNumber.finite p = .finite q)) = _
  simp [le_iff_lt_or_eq]

theorem isZero_finite (q : Rat) : Scalar.isZero (ExactNumber.finite q) = decide (q = 0) := by
  show decide (ExactNumber.finite q = .finite ((0 : Int) : Rat)) = _
  simp

theorem whole?_exactly (q : Rat) :
    (exactly (some q)).whole? = if q.isInt then some q.num else none := by
  show (if q.den = 1 then some q.num else none) = _
  simp [Rat.isInt]

theorem exactInteger?_exactly (q : Rat) : exactInteger? (exactly (some q)) =
    if q.isInt = true ∧ q.num.natAbs ≤ maxExactInteger then some q.num else none := by
  rw [exactInteger?, whole?_exactly]
  by_cases hwhole : q.isInt = true
  · by_cases hsize : q.num.natAbs ≤ maxExactInteger
    · simp [hwhole, hsize]
    · simp [hwhole, hsize, Nat.not_le.mp hsize]
  · simp [hwhole]

theorem exactInteger?_of_isInt (h : q.isInt = true) (hsize : q.num.natAbs ≤ maxExactInteger) :
    exactInteger? (exactly (some q)) = some q.num := by
  rw [exactInteger?_exactly, if_pos ⟨h, hsize⟩]

theorem exactInteger?_of_not_isInt (h : ¬ q.isInt = true) :
    exactInteger? (exactly (some q)) = none := by
  rw [exactInteger?_exactly, if_neg (fun hq => h hq.1)]

theorem eq_num_of_isInt (h : q.isInt = true) : q = q.num := by
  have hden : q.den = 1 := by simpa [Rat.isInt] using h
  exact (Rat.coe_int_num_of_den_eq_one hden).symm

end Numbers

/-! ## Repeated squaring -/

section Squaring

/-- The number that binary digits write, the last one first. -/
def ofBits (bits : List Bool) : Nat :=
  bits.foldr (fun bit n => bit.toNat + 2 * n) 0

theorem ofBits_map_testBit (n count : Nat) :
    ofBits ((List.range count).map n.testBit) = n % 2 ^ count := by
  induction count generalizing n with
  | zero => simp [ofBits, Nat.mod_one]
  | succ count ih =>
      have hshift : n.testBit ∘ Nat.succ = (n / 2).testBit := by
        funext i
        exact Nat.testBit_succ n i
      rw [List.range_succ_eq_map, List.map_cons, List.map_map, hshift]
      show (n.testBit 0).toNat + 2 * ofBits ((List.range count).map (n / 2).testBit) = _
      rw [ih, Nat.pow_succ, Nat.mul_comm (2 ^ count) 2, Nat.mod_mul, Nat.testBit_zero]
      rcases Nat.mod_two_eq_zero_or_one n with h | h <;> simp [h]

theorem ofBits_binaryDigits (n : Nat) : ofBits (binaryDigits n) = n := by
  rw [binaryDigits, ofBits_map_testBit, Charge.bitLength]
  split_ifs with hzero
  · simp [hzero]
  · exact Nat.mod_eq_of_lt Nat.lt_log2_self

/-- Repeated squaring multiplies a product by a power. -/
theorem timesPower_finite (product : Option Rat) (q : Rat) (bits : List Bool) :
    (timesPower (· * ·) (product.map ExactNumber.finite) (.finite q) bits).getD Scalar.one =
      .finite (product.getD 1 * q ^ ofBits bits) := by
  induction bits generalizing product q with
  | nil =>
      rw [timesPower, ofBits, List.foldr_nil, pow_zero, mul_one]
      cases product <;> rfl
  | cons bit bits ih =>
      let next : Option Rat := if bit then some (product.getD 1 * q) else product
      have hnext : (if bit then some (multiplyOnto (· * ·) (product.map ExactNumber.finite)
          (.finite q)) else product.map ExactNumber.finite) = next.map ExactNumber.finite := by
        cases bit with
        | false => rfl
        | true =>
            cases product with
            | none => simp [next, multiplyOnto]
            | some p => rfl
      have hfirst : next.getD 1 = product.getD 1 * q ^ bit.toNat := by
        cases bit <;> simp [next]
      have hpower : product.getD 1 * q ^ ofBits (bit :: bits) =
          next.getD 1 * (q * q) ^ ofBits bits := by
        show product.getD 1 * q ^ (bit.toNat + 2 * ofBits bits) = _
        rw [hfirst, pow_add, pow_mul, pow_two, mul_assoc]
      rw [timesPower, hnext, hpower]
      split_ifs with hend
      · rw [List.isEmpty_iff.mp hend, ofBits, List.foldr_nil, pow_zero, mul_one]
        cases next <;> rfl
      · exact ih next (q * q)

theorem powInt_finite {q : Rat} (h : q ≠ 0) (n : Int) :
    Scalar.powInt (ExactNumber.finite q) n = .finite (q ^ n) := by
  have hpower := timesPower_finite none q (binaryDigits n.natAbs)
  rw [ofBits_binaryDigits, Option.getD_none, one_mul, Option.map_none] at hpower
  rw [Scalar.powInt, hpower]
  split_ifs with hnegative
  · have hcast : n = -(n.natAbs : Int) := by omega
    have hne : q ^ n.natAbs ≠ 0 := pow_ne_zero _ h
    show (if q ^ n.natAbs ≠ 0 then ExactNumber.finite (1 / q ^ n.natAbs) else _) = _
    rw [if_pos hne, one_div, ← zpow_natCast, ← zpow_neg, ← hcast]
  · have hcast : n = (n.natAbs : Int) := by omega
    rw [← zpow_natCast, ← hcast]

end Squaring

/-! ## Rounding -/

section Rounding

variable {q : Rat}

theorem mkRat_half : mkRat 1 2 = (1 / 2 : Rat) := by
  norm_num [Rat.mkRat_eq_div]

theorem round_finite (q : Rat) :
    Scalar.round (ExactNumber.finite q) = .finite (Reduction.roundHalfAway q) := by
  show ExactNumber.finite (if q < 0 then (q - 1 / 2).ceil else (q + 1 / 2).floor) = _
  have hopposite : -(q - 1 / 2) = -q + 1 / 2 := by ring
  rw [Reduction.roundHalfAway, mkRat_half, Rat.ceil_eq_neg_floor_neg, hopposite]
  by_cases hnegative : q < 0
  · rw [if_pos hnegative, if_neg (not_le.mpr hnegative)]
  · rw [if_neg hnegative, if_pos (not_lt.mp hnegative)]

theorem floor_add_half (n : Int) : ((n : Rat) + 1 / 2).floor = n := by
  have hleast : n ≤ ((n : Rat) + 1 / 2).floor := by
    rw [Rat.le_floor_iff]
    linarith
  have hmost : ((n : Rat) + 1 / 2).floor < n + 1 := by
    rw [Rat.floor_lt_iff]
    push_cast
    linarith
  omega

/-- Whole numbers are not changed by rounding. -/
theorem roundHalfAway_intCast (n : Int) : Reduction.roundHalfAway n = n := by
  rw [Reduction.roundHalfAway, mkRat_half]
  split_ifs
  · exact floor_add_half n
  · rw [← Int.cast_neg, floor_add_half, neg_neg]

theorem round_intCast (n : Int) : Scalar.round (ExactNumber.finite n) = .finite n := by
  rw [round_finite, roundHalfAway_intCast]

end Rounding

/-! ## Division -/

section Division

variable {a b : Int}

theorem floor_div (a b : Int) : ((a : Rat) / b).floor = a.fdiv b := by
  rcases Int.eq_nat_or_neg b with ⟨k, rfl | rfl⟩
  · rw [Int.fdiv_eq_ediv_of_nonneg a (Int.natCast_nonneg k)]
    exact Rat.floor_intCast_div_natCast a k
  · have hsigns : (a : Rat) / ((-k : Int) : Rat) = ((-a : Int) : Rat) / (k : Nat) := by
      push_cast
      rw [div_neg, neg_div]
    have hfloor : a.fdiv (-k) = (-a).fdiv k := by
      rw [← Int.neg_fdiv_neg, Int.neg_neg]
    rw [hsigns, hfloor, Int.fdiv_eq_ediv_of_nonneg _ (Int.natCast_nonneg k)]
    exact Rat.floor_intCast_div_natCast (-a) k

theorem remainder_finite (h : b ≠ 0) :
    divisionOf .remainder (ExactNumber.finite a) (.finite b) = .finite (a.fmod b) := by
  have hb : (b : Rat) ≠ 0 := Int.cast_ne_zero.mpr h
  rw [divisionOf, if_pos rfl, div_finite _ hb]
  show Scalar.round (ExactNumber.finite a - .finite (b * ((a : Rat) / b).floor)) = _
  rw [floor_div, sub_finite, ← Int.cast_mul, ← Int.cast_sub, ← Int.fmod_def, round_intCast]

theorem abs_finite (b : Int) : Scalar.abs (ExactNumber.finite b) = .finite b.natAbs := by
  have hsign : (b : Rat) < 0 ↔ b < 0 := Int.cast_lt_zero
  show (if decide ((b : Rat) < 0) = true then ExactNumber.finite (-b) else .finite b) = _
  simp only [decide_eq_true_eq, hsign]
  split_ifs with hnegative
  · have hcast : -b = (b.natAbs : Int) := by omega
    rw [← Int.cast_neg, hcast, Int.cast_natCast]
  · have hcast : b = (b.natAbs : Int) := by omega
    rw [← Int.cast_natCast, ← hcast]

theorem quotient_finite (h : b ≠ 0) :
    divisionOf .quotient (ExactNumber.finite a) (.finite b) = .finite (a / b : Int) := by
  have hb : (b : Rat) ≠ 0 := Int.cast_ne_zero.mpr h
  have habs : (b.natAbs : Rat) ≠ 0 := Nat.cast_ne_zero.mpr (Int.natAbs_ne_zero.mpr h)
  have hfloor : ((a : Rat) / b.natAbs).floor = a / b.natAbs := Rat.floor_intCast_div_natCast a _
  have hremainder : (a : Rat) - b.natAbs * (a / (b.natAbs : Int) : Int) = (a % b : Int) := by
    have hsame : a % (b.natAbs : Int) = a % b := by
      rcases Int.natAbs_eq b with hb | hb
      · rw [← hb]
      · rw [hb, Int.natAbs_neg, Int.natAbs_natCast, Int.emod_neg]
    rw [← hsame, Int.emod_def, Int.cast_sub, Int.cast_mul, Int.cast_natCast]
  have hdivision : ((a : Rat) - (a % b : Int)) / b = (a / b : Int) := by
    rw [div_eq_iff hb, ← Int.cast_sub, ← Int.cast_mul, mul_comm]
    congr 1
    have hsum := Int.mul_ediv_add_emod a b
    omega
  rw [divisionOf, if_neg (by decide), abs_finite]
  dsimp only
  rw [div_finite _ habs]
  show Scalar.round ((ExactNumber.finite a - (.finite a - .finite (b.natAbs *
    ((a : Rat) / b.natAbs).floor))) / .finite b) = _
  rw [hfloor, sub_finite, hremainder, sub_finite, div_finite _ hb, hdivision, round_intCast]

end Division

/-! ## Counting -/

section Counting

open Nat (ascFactorial factorial)

theorem risingProduct_finite (p : Rat) (next count : Nat) :
    risingProduct (ExactNumber.finite p) next count = .finite (p * next.ascFactorial count) := by
  induction count generalizing p next with
  | zero => simp [risingProduct]
  | succ count ih =>
      have hproduct : ExactNumber.finite p * Scalar.ofInt next = .finite (p * next) := by
        show ExactNumber.finite (p * ((next : Int) : Rat)) = _
        rw [Int.cast_natCast]
      rw [risingProduct, hproduct]
      show risingProduct (ExactNumber.finite (p * next)) (next + 1) count = _
      rw [ih, mul_assoc, ← Nat.cast_mul, Nat.succ_ascFactorial, ← Nat.ascFactorial_succ]

theorem factorialOf_eq (n : Nat) : Reduction.factorialOf n = n.factorial := by
  induction n with
  | zero => rfl
  | succ n ih => rw [Reduction.factorialOf, ih, Nat.factorial_succ]

theorem risingProduct_factorial (n : Nat) :
    risingProduct (Scalar.one : ExactNumber) 2 (n - 1) = .finite (Reduction.factorialOf n) := by
  have hone : (Scalar.one : ExactNumber) = .finite 1 := rfl
  rw [hone, risingProduct_finite, one_mul, factorialOf_eq]
  cases n with
  | zero => rfl
  | succ n =>
      have hsplit := Nat.factorial_mul_ascFactorial 1 n
      rw [Nat.factorial_one, one_mul, Nat.add_comm 1 n] at hsplit
      rw [Nat.add_sub_cancel, ← hsplit]

theorem fallingProduct_finite (p : Rat) (n : Int) (count : Nat) :
    fallingProduct (ExactNumber.finite p) n count =
      .finite (p * Reduction.fallingProduct n count) := by
  induction count generalizing p n with
  | zero => simp [fallingProduct, Reduction.fallingProduct]
  | succ count ih =>
      rw [fallingProduct, Reduction.fallingProduct]
      show fallingProduct (ExactNumber.finite (p * n)) (n - 1) count = _
      rw [ih, mul_assoc, Int.cast_mul]

theorem binomialProduct_finite (n p : Rat) (index count : Nat) :
    binomialProduct (ExactNumber.finite n) (.finite p) index count =
      .finite (Reduction.binomialProduct n count index p) := by
  induction count generalizing p index with
  | zero => rfl
  | succ count ih =>
      have hnext : (index : Rat) + 1 ≠ 0 := by positivity
      have hproduct : ExactNumber.finite p * (.finite n - Scalar.ofInt index) /
          (Scalar.ofInt index + Scalar.one) = .finite (p * (n - index) / (index + 1)) := by
        have hindex : (Scalar.ofInt index : ExactNumber) = .finite index := by
          show ExactNumber.finite ((index : Int) : Rat) = _
          rw [Int.cast_natCast]
        rw [hindex, sub_finite]
        exact div_finite _ hnext
      rw [binomialProduct, hproduct, ih]
      rfl

/-- The factors of a binomial coefficient of whole numbers, from some index on, lead from one
coefficient to another. -/
theorem binomialProduct_choose (n : Int) (index count : Nat) :
    Reduction.binomialProduct n count index (Ring.choose n index : Int) =
      (Ring.choose n (index + count) : Int) := by
  induction count generalizing index with
  | zero => rfl
  | succ count ih =>
      have hnext : (index : Rat) + 1 ≠ 0 := by positivity
      have hstep : ((Ring.choose n index : Int) : Rat) * (n - index) / (index + 1) =
          (Ring.choose n (index + 1) : Int) := by
        have hchoose := Ring.choose_smul_choose n (Nat.le_succ index)
        rw [Nat.succ_eq_add_one, Nat.choose_succ_self_right, Nat.add_sub_cancel_left,
          Ring.choose_one_right, nsmul_eq_mul] at hchoose
        rw [div_eq_iff hnext, mul_comm _ ((index : Rat) + 1)]
        exact_mod_cast hchoose.symm
      rw [Reduction.binomialProduct, hstep, Nat.add_comm count 1, ← Nat.add_assoc]
      exact_mod_cast ih (index + 1)

/-- A binomial coefficient of whole numbers is not changed by rounding. -/
theorem roundHalfAway_binomialProduct {n : Rat} (h : n.isInt = true) (count : Nat) :
    (Reduction.roundHalfAway (Reduction.binomialProduct n count 0 1) : Rat) =
      Reduction.binomialProduct n count 0 1 := by
  have hchoose := binomialProduct_choose n.num 0 count
  rw [Ring.choose_zero_right, Int.cast_one, ← eq_num_of_isInt h] at hchoose
  rw [hchoose, roundHalfAway_intCast]

end Counting

/-! ## Rules -/

/-- A result of approximation is that of reduction, but for an adjustment of numbers: the number, no
number, or the infinity of the same sign. Where reduction keeps a function, it may be anything. -/
def Agrees (adjust : Rat → Rat) : Outcome → ComplexNumber ExactNumber → Prop
  | .value q, z => z = exactly (some (adjust q))
  | .undefined, z => z = .undefined
  | .infinity negative, z => z = .ofReal (.infinite negative)
  | .kept, _ => True

section Rules

variable {q n k d : Rat} {f : Operator}

theorem unary_agrees (format : Format) (q : Rat) :
    Agrees id (Reduction.unaryInteger f (.rational q)) (unary format f (exactly (some q))) := by
  dsimp only [Reduction.unaryInteger]
  split
  · rfl
  · rfl
  · show ComplexNumber.ofReal (ExactNumber.finite q - .finite q.floor) = _
    rw [sub_finite]
    rfl
  · trivial

theorem factorial_agrees (q : Rat) :
    Agrees id (Reduction.factorial (.rational q)) (factorial (exactly (some q))) := by
  rw [Reduction.factorial, factorial]
  by_cases hwhole : q.isInt = true
  · have hq := eq_num_of_isInt hwhole
    have hsign : q < 0 ↔ q.num < 0 := Rat.num_neg.symm
    by_cases hnegative : q < 0
    · rw [if_pos (by simp [hnegative]), exactInteger?_exactly]
      split_ifs
      · simp [Agrees, hsign.mp hnegative]
      · rfl
    · rw [if_neg (by simp [hwhole, hnegative])]
      split_ifs with hsmall
      · have hcount : q.num ≤ Reduction.maxFactorial := by
          rw [hq] at hsmall
          exact_mod_cast hsmall
        have hnum : ¬ q.num < 0 := fun h => hnegative (hsign.mpr h)
        have hsize : q.num.natAbs ≤ maxExactInteger := by
          unfold Reduction.maxFactorial at hcount
          unfold maxExactInteger
          omega
        rw [exactInteger?_of_isInt hwhole hsize]
        simp only [Agrees, Outcome.integer, if_neg hnum, risingProduct_factorial]
        rfl
      · trivial
  · rw [exactInteger?_of_not_isInt hwhole, if_pos (by simp [hwhole])]
    rfl

theorem roundTo_agrees (q d : Rat) : Agrees id (Reduction.round (.rational q) (.rational d))
    (roundTo (exactly (some q)) (exactly (some d))) := by
  rw [Reduction.round, roundTo]
  by_cases hwhole : d.isInt = true
  · rw [if_neg (by simp [hwhole])]
    dsimp only
    split_ifs with hsmall
    · have hsize : d.num.natAbs ≤ maxExactInteger := by
        unfold Reduction.maxRoundDigits at hsmall
        unfold maxExactInteger
        omega
      have hfits : fitsInt32 d.num = true := by
        unfold Reduction.maxRoundDigits at hsmall
        rw [fitsInt32, Bool.and_eq_true, decide_eq_true_eq, decide_eq_true_eq]
        omega
      have hscale : Scalar.powInt (Scalar.ofInt 10 : ExactNumber) d.num = .finite (10 ^ d.num) :=
        powInt_finite (by norm_num) d.num
      have hpower : (10 : Rat) ^ d.num ≠ 0 := zpow_ne_zero _ (by norm_num)
      rw [exactInteger?_of_isInt hwhole hsize]
      dsimp only
      rw [hscale, hfits]
      show ComplexNumber.ofReal (Scalar.round (ExactNumber.finite (q * 10 ^ d.num)) /
        .finite (10 ^ d.num)) = _
      rw [round_finite, div_finite _ hpower]
      rfl
    · trivial
  · rw [exactInteger?_of_not_isInt hwhole, if_pos (by simp [hwhole])]
    rfl

/-- A function of whole numbers, on others too. -/
theorem onIntegers_agrees {g : Int → Int → Outcome} {z : ComplexNumber ExactNumber}
    (hwhole : n.isInt = true → k.isInt = true → Agrees id (g n.num k.num) z)
    (hother : ¬ (n.isInt = true ∧ k.isInt = true) → z = .undefined) :
    Agrees id (Reduction.onIntegers n k g) z := by
  rw [Reduction.onIntegers]
  by_cases h : n.isInt = true ∧ k.isInt = true
  · rw [if_pos (by simp [h])]
    exact hwhole h.1 h.2
  · rw [if_neg (by simpa using h)]
    exact hother h

/-- A function of two whole numbers has no value where one of the operands is none. -/
theorem match_exactIntegers {g : Int → Int → ComplexNumber ExactNumber}
    (h : ¬ (n.isInt = true ∧ k.isInt = true)) :
    (match exactInteger? (exactly (some n)), exactInteger? (exactly (some k)) with
      | some a, some b => g a b
      | _, _ => .undefined) = .undefined := by
  by_cases hn : n.isInt = true
  · rw [exactInteger?_of_not_isInt (q := k) fun hk => h ⟨hn, hk⟩]
    cases exactInteger? (exactly (some n)) <;> rfl
  · rw [exactInteger?_of_not_isInt hn]

theorem natAbs_multipleOf (m n : Int) : (multipleOf m n).natAbs = Int.lcm m n := by
  have hdvd : (Int.gcd m n : Int) ∣ n := Int.gcd_dvd_right m n
  rw [multipleOf, Int.natAbs_mul, Int.natAbs_ediv_of_dvd hdvd, Int.natAbs_natCast,
    ← Nat.mul_div_assoc _ (Int.natCast_dvd.mp hdvd)]
  rfl

theorem commonInteger_agrees (hf : f = .greatestCommonDivisor ∨ f = .leastCommonMultiple)
    (hn : n.isInt = true → n.num.natAbs ≤ maxExactInteger)
    (hk : k.isInt = true → k.num.natAbs ≤ maxExactInteger) :
    Agrees id (Reduction.binaryRational f n k)
      (commonInteger f (exactly (some n)) (exactly (some k))) := by
  have hcommon : Agrees id (Reduction.onIntegers n k fun x y =>
      .integer (if f = .greatestCommonDivisor then Int.gcd x y else Int.lcm x y))
      (commonInteger f (exactly (some n)) (exactly (some k))) := by
    apply onIntegers_agrees
    · intro hn' hk'
      rw [commonInteger, exactInteger?_of_isInt hn' (hn hn'), exactInteger?_of_isInt hk' (hk hk')]
      simp only [natAbs_multipleOf]
      rfl
    · exact match_exactIntegers
  rcases hf with rfl | rfl
  · exact hcommon
  · exact hcommon

/-- Division by zero and other divisions are the same in both arithmetics, if a single division
is. -/
theorem integerDivision_of_divisionOf {g : Int → Int → Outcome}
    (hzero : ∀ a, g a 0 = Reduction.divisionByZero a)
    (hdivision : ∀ a b : Int, b ≠ 0 → ∃ c : Int, g a b = .integer c ∧
      divisionOf f (ExactNumber.finite a) (.finite b) = .finite c) (n k : Rat) :
    Agrees id (Reduction.onIntegers n k g)
      (integerDivision f (exactly (some n)) (exactly (some k))) := by
  apply onIntegers_agrees
  · intro hn hk
    have hparts : (exactly (some n)).re = .finite n.num ∧ (exactly (some k)).re = .finite k.num :=
      ⟨congrArg _ (eq_num_of_isInt hn), congrArg _ (eq_num_of_isInt hk)⟩
    rw [integerDivision, whole?_exactly, whole?_exactly, if_pos hn, if_pos hk, hparts.1, hparts.2,
      isZero_finite]
    by_cases hb : k.num = 0
    · rw [hb, hzero, Reduction.divisionByZero]
      have hpositive : Scalar.isPositive (ExactNumber.finite n.num) = decide (0 < n.num) := by
        show decide (((0 : Int) : Rat) < n.num) = _
        simp
      have hnegative : Scalar.less (ExactNumber.finite n.num) Scalar.zero = decide (n.num < 0) := by
        show decide ((n.num : Rat) < ((0 : Int) : Rat)) = _
        simp
      rw [hpositive, hnegative]
      rcases lt_trichotomy n.num 0 with hless | hnone | hgreater
      · simp [hless, hless.ne, not_lt.mpr hless.le, Agrees]
        rfl
      · simp [hnone, Agrees]
      · simp [hgreater, hgreater.ne', not_lt.mpr hgreater.le, Agrees]
        rfl
    · rcases hdivision n.num k.num hb with ⟨c, hg, hc⟩
      rw [hg, hc]
      simp [hb]
      rfl
  · intro h
    rw [integerDivision, whole?_exactly, whole?_exactly, if_neg]
    intro hsome
    apply h
    rw [Bool.and_eq_true] at hsome
    constructor
    · by_contra hn
      simp [hn] at hsome
    · by_contra hk
      simp [hk] at hsome

theorem quotient_agrees (n k : Rat) : Agrees id (Reduction.binaryRational .quotient n k)
    (integerDivision .quotient (exactly (some n)) (exactly (some k))) := by
  apply integerDivision_of_divisionOf
  · intro a
    rfl
  · intro a b hb
    exact ⟨a / b, if_neg hb, quotient_finite hb⟩

theorem remainder_agrees (n k : Rat) : Agrees id (Reduction.binaryRational .remainder n k)
    (integerDivision .remainder (exactly (some n)) (exactly (some k))) := by
  apply integerDivision_of_divisionOf
  · intro a
    rfl
  · intro a b hb
    exact ⟨a.fmod b, if_neg hb, remainder_finite hb⟩

theorem permutations_agrees (hn : n.isInt = true → n.num.natAbs ≤ maxExactInteger)
    (hk : k.isInt = true → k.num.natAbs ≤ maxExactInteger) :
    Agrees id (Reduction.binaryRational .permutations n k)
      (permutations (exactly (some n)) (exactly (some k))) := by
  apply onIntegers_agrees
  · intro hn' hk'
    rw [permutations, exactInteger?_of_isInt hn' (hn hn'), exactInteger?_of_isInt hk' (hk hk'),
      Reduction.permutations]
    dsimp only
    by_cases hnegative : (decide (n.num < 0) || decide (k.num < 0)) = true
    · rw [if_pos hnegative, if_pos hnegative]
      rfl
    · rw [if_neg hnegative, if_neg hnegative]
      by_cases hless : n.num < k.num
      · rw [if_pos hless, if_pos hless]
        rfl
      · rw [if_neg hless, if_neg hless]
        by_cases hmany : (Reduction.maxPermutationFactors : Int) < k.num
        · rw [if_pos hmany]
          trivial
        · have hfew : ¬ maxProductFactors < k.num := by
            unfold Reduction.maxPermutationFactors at hmany
            unfold maxProductFactors
            omega
          have hone : (Scalar.one : ExactNumber) = .finite 1 := rfl
          rw [if_neg hmany, if_neg hfew, hone, fallingProduct_finite, one_mul]
          rfl
  · exact match_exactIntegers

/-- The rule for approximation rounds a binomial coefficient. -/
theorem binomial_agrees (hk : k.isInt = true → k.num.natAbs ≤ maxExactInteger) (n : Rat) :
    Agrees (fun q => if n.isInt = true then q else Reduction.roundHalfAway q)
      (Reduction.binaryRational .binomial n k)
      (binomial (exactly (some n)) (exactly (some k))) := by
  show Agrees _ (Reduction.binomial n k) _
  have hzero : exactly (some (if n.isInt = true then ((0 : Int) : Rat)
      else Reduction.roundHalfAway ((0 : Int) : Rat))) = .ofReal Scalar.zero := by
    rw [roundHalfAway_intCast, ite_self]
    rfl
  rw [Reduction.binomial, Reduction.binomialOfIndex?, binomial]
  by_cases hwhole : k.isInt = true
  · have hq := eq_num_of_isInt hwhole
    have hsign : k < 0 ↔ k.num < 0 := Rat.num_neg.symm
    rw [exactInteger?_of_isInt hwhole (hk hwhole), if_neg (by simp [hwhole])]
    by_cases hnegative : k < 0
    · rw [if_pos hnegative]
      dsimp only
      rw [if_pos (hsign.mp hnegative)]
      exact hzero.symm
    · have hindex : ¬ k.num < 0 := fun h => hnegative (hsign.mpr h)
      rw [if_neg hnegative]
      dsimp only
      rw [if_neg hindex]
      by_cases hmany : (Reduction.maxBinomialFactors : Rat) < k
      · rw [if_pos hmany]
        trivial
      · have hfew : (decide (maxProductFactors < k.num) || !(exactly (some n)).isReal) = false := by
          have hcount : ¬ (Reduction.maxBinomialFactors : Int) < k.num := by
            rw [hq] at hmany
            exact_mod_cast hmany
          have hreal : (exactly (some n)).isReal = true := rfl
          unfold Reduction.maxBinomialFactors at hcount
          rw [hreal, Bool.not_true, Bool.or_false, decide_eq_false_iff_not, maxProductFactors]
          omega
        have hlower : Scalar.ofInt k.num = ExactNumber.finite k := congrArg _ hq.symm
        have hupper : (exactly (some n)).re = .finite n := rfl
        have hleast : (Scalar.zero : ExactNumber) = .finite 0 := rfl
        rw [if_neg hmany, hfew, hlower, hupper, hleast, isWhole_finite, atMost_finite, less_finite,
          if_neg Bool.false_ne_true]
        by_cases hless : (n.isInt && decide (0 ≤ n) && decide (n < k)) = true
        · rw [if_pos hless, if_pos hless]
          exact hzero.symm
        · have hvalue : binomialProduct (ExactNumber.finite n) Scalar.one 0 k.num.toNat =
              .finite (Reduction.binomialProduct n k.num.toNat 0 1) :=
            binomialProduct_finite n 1 0 k.num.toNat
          rw [if_neg hless, if_neg hless, hvalue, round_finite, Agrees]
          split_ifs with hn
          · rw [roundHalfAway_binomialProduct hn]
            rfl
          · rfl
  · rw [exactInteger?_of_not_isInt hwhole, if_pos (by simp [hwhole])]
    rfl

end Rules

/-! ## All functions -/

/-- The functions of whole numbers. -/
def integerFunctions : List Operator :=
  [.floor, .ceiling, .fractionalPart, .round, .greatestCommonDivisor, .leastCommonMultiple,
    .quotient, .remainder, .binomial, .permutations, .factorial]

/-- The operands that the rule for approximation takes from a limited range, if they are whole. -/
def limitedOperands (f : Operator) (qs : List Rat) : List Rat :=
  match f with
  | .greatestCommonDivisor | .leastCommonMultiple | .permutations => qs
  | .binomial => qs.drop 1
  | _ => []

/-- Operands up to which the rule for approximation computes: whole numbers are represented exactly,
and least common multiples have a signed form of 64 bits. -/
def WithinLimits (f : Operator) (qs : List Rat) : Prop :=
  (∀ q ∈ limitedOperands f qs, q.isInt = true → q.num.natAbs ≤ maxExactInteger) ∧
    (f = .leastCommonMultiple → ∀ n k, qs = [n, k] → Int.lcm n.num k.num < 2 ^ 63)

/-- Whether this is a binomial coefficient with an upper index that is not whole. -/
def isFractionalBinomial (f : Operator) : List Rat → Bool
  | [n, _] => f = .binomial && !n.isInt
  | _ => false

/-- What the rule for approximation makes of the number that reduction gives. -/
def adjusted (f : Operator) (qs : List Rat) (q : Rat) : Rat :=
  if isFractionalBinomial f qs then Reduction.roundHalfAway q else q

section Functions

variable {f : Operator} {qs : List Rat}

theorem adjusted_eq_id (h : isFractionalBinomial f qs = false) : adjusted f qs = id := by
  funext q
  rw [adjusted, h]
  rfl

theorem adjusted_binomial (n k : Rat) : adjusted .binomial [n, k] =
    fun q : Rat => if n.isInt = true then q else (Reduction.roundHalfAway q : Rat) := by
  funext q
  by_cases hn : n.isInt = true <;> simp [adjusted, isFractionalBinomial, hn]

theorem binary_agrees (format : Format) {n k : Rat} (hf : f ∈ integerFunctions)
    (hlimits : WithinLimits f [n, k]) :
    Agrees (adjusted f [n, k]) (Reduction.binaryInteger f (.rational n) (.rational k))
      (binary format f (exactly (some n)) (exactly (some k))) := by
  have hplain : f ≠ .binomial → adjusted f [n, k] = id := fun hne =>
    adjusted_eq_id (by simp [isFractionalBinomial, hne])
  have hsizes := hlimits.1
  simp only [integerFunctions, List.mem_cons, List.not_mem_nil, or_false] at hf
  rcases hf with rfl | rfl | rfl | rfl | rfl | rfl | rfl | rfl | rfl | rfl | rfl
  · trivial
  · trivial
  · trivial
  · rw [hplain (by decide)]
    exact roundTo_agrees n k
  · rw [hplain (by decide)]
    exact commonInteger_agrees (.inl rfl) (hsizes n (by simp [limitedOperands]))
      (hsizes k (by simp [limitedOperands]))
  · rw [hplain (by decide)]
    exact commonInteger_agrees (.inr rfl) (hsizes n (by simp [limitedOperands]))
      (hsizes k (by simp [limitedOperands]))
  · rw [hplain (by decide)]
    exact quotient_agrees n k
  · rw [hplain (by decide)]
    exact remainder_agrees n k
  · rw [adjusted_binomial]
    exact binomial_agrees (hsizes k (by simp [limitedOperands])) n
  · rw [hplain (by decide)]
    exact permutations_agrees (hsizes n (by simp [limitedOperands]))
      (hsizes k (by simp [limitedOperands]))
  · trivial

/-- The rule for reduction has an outcome, and with that the rule for approximation agrees. -/
theorem exists_outcome (format : Format) (hf : f ∈ integerFunctions) (hlimits : WithinLimits f qs)
    (ctx : Reduction.Context) (node tree : Reduction.NodeReducer) :
    ∃ outcome, Reduction.reduceApply ctx node tree f (qs.map .rational) =
        pure (outcome.toExpr (.apply f (qs.map .rational))) ∧
      Agrees (adjusted f qs) outcome (applyFunction format f (qs.map fun q => exactly (some q))) := by
  by_cases hfactorial : f = .factorial
  · subst hfactorial
    rcases qs with _ | ⟨q, _ | ⟨k, qs⟩⟩
    · exact ⟨.undefined, rfl, rfl⟩
    · refine ⟨Reduction.factorial (.rational q), rfl, ?_⟩
      rw [adjusted_eq_id rfl]
      exact factorial_agrees q
    · refine ⟨.undefined, rfl, ?_⟩
      cases qs <;> rfl
  · refine ⟨Reduction.integerFunction f (qs.map .rational), ?_, ?_⟩
    · simp only [integerFunctions, List.mem_cons, List.not_mem_nil, or_false, hfactorial] at hf
      rcases hf with rfl | rfl | rfl | rfl | rfl | rfl | rfl | rfl | rfl | rfl <;> rfl
    · rcases qs with _ | ⟨n, _ | ⟨k, _ | ⟨m, qs⟩⟩⟩
      · rfl
      · rw [adjusted_eq_id rfl]
        exact unary_agrees format n
      · exact binary_agrees format hf hlimits
      · rfl

/-- Exact and numeric rules for whole numbers agree. Where reduction gives a rational number, the
rule for approximation gives the same number on exact scalars, or that number rounded if it is a
binomial coefficient with an upper index that is not whole; where it gives an infinity, that of the
same sign; and where it gives no number, none. -/
theorem applyFunction_of_reduceApply (format : Format) (hf : f ∈ integerFunctions)
    (hlimits : WithinLimits f qs) (ctx : Reduction.Context) (node tree : Reduction.NodeReducer)
    (breaker : Breaker) :
    ∃ x, Reduction.reduceApply ctx node tree f (qs.map .rational) breaker = .ok (x, breaker) ∧
      (∀ q, x = .rational q → applyFunction format f (qs.map fun q => exactly (some q)) =
        exactly (some (if isFractionalBinomial f qs then Reduction.roundHalfAway q else q))) ∧
      (∀ negative, x = .infinity negative →
        applyFunction format f (qs.map fun q => exactly (some q)) =
          .ofReal (.infinite negative)) ∧
      (x = .undefined → applyFunction format f (qs.map fun q => exactly (some q)) =
        .undefined) := by
  have hkept : Expr.apply f (qs.map .rational) ≠ .undefined := by
    intro h
    rw [Expr.undefined, Expr.apply.injEq] at h
    rw [h.1] at hf
    exact absurd hf (by decide)
  rcases exists_outcome format hf hlimits ctx node tree with ⟨outcome, hreduced, hagrees⟩
  refine ⟨outcome.toExpr (.apply f (qs.map .rational)), by rw [hreduced]; rfl, ?_⟩
  cases outcome with
  | value q =>
      refine ⟨?_, nofun, nofun⟩
      rintro q' ⟨⟩
      exact hagrees
  | undefined => exact ⟨nofun, nofun, fun _ => hagrees⟩
  | infinity negative =>
      refine ⟨nofun, ?_, nofun⟩
      rintro negative' ⟨⟩
      exact hagrees
  | kept => exact ⟨nofun, nofun, fun h => absurd h hkept⟩

theorem applyFunction_of_reduceApply_lcm :
    WithinLimits .leastCommonMultiple [-4, 6] ∧
      Reduction.reduceApply ⟨{}, {}, 4096, []⟩ pure pure .leastCommonMultiple
        ([-4, 6].map .rational) {} = .ok (.rational 12, {}) ∧
      applyFunction {} .leastCommonMultiple ([-4, 6].map fun q => exactly (some q)) =
        exactly (some 12) := by
  have hlimits : WithinLimits .leastCommonMultiple [-4, 6] := by
    constructor
    · decide +kernel
    · rintro - n k ⟨⟩
      decide +kernel
  rcases applyFunction_of_reduceApply {} (by decide) hlimits ⟨{}, {}, 4096, []⟩ pure pure {} with
    ⟨x, hreduced, hvalue, -, -⟩
  have hx : x = .rational 12 := by
    have hcomputed : Except.ok (Expr.rational 12, ({} : Breaker)) = .ok (x, {}) := hreduced
    cases hcomputed
    rfl
  rw [hx] at hreduced
  exact ⟨hlimits, hreduced, hvalue 12 hx⟩

/-- A binomial coefficient of one half is an eighth below zero, which is rounded to zero. -/
theorem binomial_rounded :
    ((Expr.apply .binomial [.rational (1 / 2), .integer 2]).reduce ⟨{}, {}, 4096, []⟩
      {}).toOption.map Expr.rational? = some (some (-1 / 8)) ∧
    evaluate {} 0 (.apply .binomial [.rational (1 / 2), .integer 2]) {} {} =
      some (.real (ExactNumber.finite 0), {}) :=
  ⟨by decide +kernel, by with_unfolding_all rfl⟩

end Functions

end Approximation

end PocketAlgebra
