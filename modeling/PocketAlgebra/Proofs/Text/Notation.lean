import Mathlib.Data.Rat.Cast.Order
import Mathlib.Tactic.Ring
import PocketAlgebra.Proofs.Text.Literals
import PocketAlgebra.Text.Printer

/-!
# Decimal notation is read back

A number is written with the digits of a whole number that does not end with a zero, moved by a
power of ten. What is read has these digits, perhaps with zeros behind them, and stands at the same
place; so it is the same number and is written in the same way.
-/

namespace PocketAlgebra

open PocketAlgebra.Token

/-! ## Digits -/

section Digits

variable {n k count : Nat} {e : Int} {mode : FloatMode} {significant : Nat}

theorem toDigits_mul_pow (hpositive : 0 < n) (k : Nat) :
    Nat.toDigits 10 (n * 10 ^ k) = Nat.toDigits 10 n ++ List.replicate k '0' := by
  induction k with
  | zero => simp
  | succ k ih =>
      have hnonzero : 0 < n * 10 ^ k := Nat.mul_pos hpositive (Nat.pow_pos (by decide))
      have hshift : n * 10 ^ (k + 1) = 10 * (n * 10 ^ k) + 0 := by
        rw [Nat.pow_succ]
        ring
      rw [hshift, ← Nat.toDigits_append_toDigits (by decide) hnonzero (by decide), ih,
        List.replicate_succ', List.append_assoc]
      rfl

theorem length_toDigits_mul_pow (hpositive : 0 < n) (k : Nat) :
    (Nat.toDigits 10 (n * 10 ^ k)).length = (Nat.toDigits 10 n).length + k := by
  rw [toDigits_mul_pow hpositive, List.length_append, List.length_replicate]

/-- A positive number without the zeros at its end. -/
theorem exists_mul_pow (h : 0 < n) : ∃ core k, n = core * 10 ^ k ∧ core % 10 ≠ 0 := by
  induction n using Nat.strong_induction_on with
  | _ n ih =>
      by_cases hlast : n % 10 = 0
      · rcases ih (n / 10) (by omega) (by omega) with ⟨core, k, hcore, hne⟩
        refine ⟨core, k + 1, ?_, hne⟩
        rw [Nat.pow_succ, ← Nat.mul_assoc, ← hcore]
        omega
      · exact ⟨n, 0, by simp, hlast⟩

/-- The last digit of a number that is no multiple of ten is not a zero. -/
theorem exists_last_digit (h : n % 10 ≠ 0) :
    ∃ front last, Nat.toDigits 10 n = front ++ [last] ∧ last ≠ '0' := by
  have hdigit : ∀ d < 10, d ≠ 0 → Nat.digitChar d ≠ '0' := by decide
  have hne := hdigit (n % 10) (Nat.mod_lt n (by decide)) h
  by_cases hsmall : n < 10
  · refine ⟨[], _, ?_, hne⟩
    rw [Nat.toDigits_of_lt_base hsmall, Nat.mod_eq_of_lt hsmall]
    rfl
  · exact ⟨_, _, Nat.toDigits_of_base_le (by decide) (by omega), hne⟩

theorem dropZeros_toDigits (h : n % 10 ≠ 0) (k : Nat) :
    Scientific.dropZeros (Nat.toDigits 10 n ++ List.replicate k '0') = Nat.toDigits 10 n := by
  rcases exists_last_digit h with ⟨front, last, hfront, hne⟩
  rw [Scientific.dropZeros, List.reverse_append, List.reverse_replicate,
    List.dropWhile_append_of_pos (by simp), hfront, List.reverse_append, List.reverse_singleton,
    List.singleton_append, List.dropWhile_cons_of_neg (by simpa using hne), List.reverse_cons,
    List.reverse_reverse]

/-- A number is rounded to itself where it does not have more digits than are kept. -/
theorem round_toDigits (h : n % 10 ≠ 0) (k : Nat) (e : Int)
    (hshort : (Nat.toDigits 10 n).length ≤ max significant 1) :
    Scientific.round ⟨Nat.toDigits 10 (n * 10 ^ k), e⟩ significant = ⟨Nat.toDigits 10 n, e⟩ := by
  have hpositive : 0 < n := by omega
  rw [toDigits_mul_pow hpositive, Scientific.round]
  dsimp only
  let count := max significant 1
  by_cases hfits : (Nat.toDigits 10 n ++ List.replicate k '0').length ≤ count
  · rw [if_pos hfits, dropZeros_toDigits h]
  · rw [List.length_append, List.length_replicate] at hfits
    let kept := count - (Nat.toDigits 10 n).length
    have htake : (Nat.toDigits 10 n ++ List.replicate k '0').take count =
        Nat.toDigits 10 (n * 10 ^ kept) := by
      rw [toDigits_mul_pow hpositive, List.take_append, List.take_of_length_le hshort,
        List.take_replicate, Nat.min_eq_left (by omega)]
    have hnext : (Nat.toDigits 10 n ++ List.replicate k '0')[count]? = some '0' := by
      rw [List.getElem?_append_right hshort, List.getElem?_replicate, if_pos (by omega)]
    have hleading : Scientific.leading (Nat.toDigits 10 n ++ List.replicate k '0') count =
        n * 10 ^ kept := by
      rw [Scientific.leading, hnext, htake]
      exact Nat.ofDigitChars_ten_toDigits
    have hless : n * 10 ^ kept < 10 ^ count := by
      rw [← Nat.length_toDigits_le_iff (by decide) (by omega), length_toDigits_mul_pow hpositive]
      omega
    have hcarry : n * 10 ^ kept ≠ Decimal.powerOfTen count := Nat.ne_of_lt hless
    rw [if_neg (by rw [List.length_append, List.length_replicate]; exact hfits)]
    rw [hleading, if_neg hcarry, toDigits_mul_pow hpositive, dropZeros_toDigits h]

/-! ## Written numbers -/

/-- A decimal is written by the digits that it is rounded to. -/
theorem format_of_round {d : Decimal} (hmantissa : d.mantissa ≠ 0)
    (hround : Scientific.round ⟨d.digits, d.exponent⟩ significant = ⟨Nat.toDigits 10 n, e⟩) :
    (d.format mode significant).toList = (if d.mantissa < 0 then ['-'] else []) ++
      Scientific.write ⟨Nat.toDigits 10 n, e⟩ mode significant := by
  have hnonempty : (Nat.toDigits 10 n).isEmpty = false := by
    simp [List.isEmpty_eq_false_iff]
  rw [Decimal.format, if_neg hmantissa, Scientific.format, hround]
  simp only [hnonempty, Bool.false_eq_true, if_false, String.toList_ofList, decide_eq_true_eq]
  split_ifs <;> rfl

theorem format_eq {d : Decimal} (h : n % 10 ≠ 0) (hd : d.mantissa.natAbs = n * 10 ^ k)
    (hshort : (Nat.toDigits 10 n).length ≤ max significant 1) :
    (d.format mode significant).toList = (if d.mantissa < 0 then ['-'] else []) ++
      Scientific.write ⟨Nat.toDigits 10 n, d.exponent⟩ mode significant := by
  have hpositive : 0 < n * 10 ^ k := Nat.mul_pos (by omega) (Nat.pow_pos (by decide))
  have hmantissa : d.mantissa ≠ 0 := by
    intro hzero
    rw [hzero] at hd
    simp only [Int.natAbs_zero] at hd
    omega
  apply format_of_round hmantissa
  rw [Decimal.digits, hd, round_toDigits h k _ hshort]

theorem exponent_eq {d : Decimal} (h : n % 10 ≠ 0) (hd : d.mantissa.natAbs = n * 10 ^ k) :
    d.exponent = (Nat.toDigits 10 n).length + k - 1 - d.scale := by
  have hpositive : 0 < n * 10 ^ k := Nat.mul_pos (by omega) (Nat.pow_pos (by decide))
  have hmantissa : d.mantissa ≠ 0 := by
    intro hzero
    rw [hzero] at hd
    simp only [Int.natAbs_zero] at hd
    omega
  rw [Decimal.exponent, if_neg hmantissa, Decimal.digits, hd, length_toDigits_mul_pow (by omega),
    Nat.cast_add]

/-- The number of digits that are written before the point, and the exponent, if one is written. -/
def Scientific.placing (e : Int) (mode : FloatMode) (significant : Nat) : Int × Option Int :=
  match mode with
  | .decimal => if -5 < e ∧ e < max significant 1 then (e + 1, none) else (1, some e)
  | .scientific => (1, some e)
  | .engineering => (e - 3 * (e / 3) + 1, some (3 * (e / 3)))

theorem placing_decimal (e : Int) (significant : Nat) :
    (Scientific.placing e .decimal significant).2 = none ↔ -5 < e ∧ e < max significant 1 := by
  unfold Scientific.placing
  split_ifs with hnear
  · exact ⟨fun _ => hnear, fun _ => rfl⟩
  · exact ⟨nofun, fun h => absurd h hnear⟩

theorem placing_engineering (e : Int) (significant : Nat) :
    Scientific.placing e .engineering significant = (e - 3 * (e / 3) + 1, some (3 * (e / 3))) :=
  rfl

theorem write_eq (digits : List Char) (e : Int) (mode : FloatMode) (significant : Nat) :
    Scientific.write ⟨digits, e⟩ mode significant =
      Scientific.placePoint digits (Scientific.placing e mode significant).1 ++
        exponentText (Scientific.placing e mode significant).2 := by
  have hshown : ∀ whole exponent : Int, Scientific.withExponent digits whole exponent =
      Scientific.placePoint digits whole ++ exponentText (some exponent) := by
    intro whole exponent
    simp [Scientific.withExponent, exponentText]
  cases mode with
  | decimal =>
      have hnear : Scientific.leastPositional ≤ e ↔ -5 < e := by
        unfold Scientific.leastPositional
        omega
      simp only [Scientific.write, Scientific.placing, Bool.and_eq_true, decide_eq_true_eq, hnear]
      split_ifs
      · simp [exponentText]
      · exact hshown 1 e
  | scientific => exact hshown 1 e
  | engineering => exact hshown _ _

/-- An exponent makes up for the place of the point. -/
theorem placing_sum (e : Int) (mode : FloatMode) (significant : Nat) :
    (Scientific.placing e mode significant).1 +
      (Scientific.placing e mode significant).2.getD 0 = e + 1 := by
  unfold Scientific.placing
  cases mode with
  | decimal =>
      dsimp only
      split_ifs
      · exact Int.add_zero _
      · exact Int.add_comm 1 e
  | scientific => exact Int.add_comm 1 e
  | engineering =>
      simp only [Option.getD_some]
      omega

theorem placing_bound (mode : FloatMode) (significant : Nat) (hleast : -Numeral.maxExponent < e)
    (hmost : e ≤ Numeral.maxExponent) :
    ((Scientific.placing e mode significant).2.getD 0).natAbs ≤ Numeral.maxExponent := by
  unfold Numeral.maxExponent at *
  unfold Scientific.placing
  cases mode with
  | decimal =>
      dsimp only
      split_ifs
      · exact Nat.zero_le _
      · rw [Option.getD_some]
        omega
  | scientific =>
      rw [Option.getD_some]
      omega
  | engineering =>
      -- the least exponent is one more than a multiple of three
      rw [Option.getD_some]
      omega

/-- The digits on both sides of the point, where it has been placed: those of the number, perhaps
with zeros before or behind them. -/
structure Pointed (n : Nat) (place : Int) (whole fraction : List Char) (zeros : Nat) : Prop where
  whole_digits : ∀ c ∈ whole, c.isDigit = true
  whole_nonempty : whole ≠ []
  fraction_digits : ∀ c ∈ fraction, c.isDigit = true
  digits : Numeral.ofDigits (whole ++ fraction) = n * 10 ^ zeros
  moved : (fraction.length : Int) = (Nat.toDigits 10 n).length + zeros - place
  integer : fraction = [] → whole = Nat.toDigits 10 (n * 10 ^ zeros)
  width : (whole.length : Int) = max place 1
  last : fraction ≠ [] → fraction.getLast? = (Nat.toDigits 10 n).getLast?

/-- Zeros are put before digits that stand behind the point. -/
theorem pointed_below {place : Int} (hbelow : place ≤ 0) :
    Pointed n place ['0'] (List.replicate (-place).toNat '0' ++ Nat.toDigits 10 n) 0 where
  whole_digits := List.forall_mem_singleton.mpr rfl
  whole_nonempty := by decide
  fraction_digits := by
    intro c hc
    rcases List.mem_append.mp hc with hc | hc
    · rw [List.eq_of_mem_replicate hc]
      decide
    · exact isDigit_toDigits n c hc
  digits := by
    show Nat.ofDigitChars 10 (List.replicate (-place).toNat '0' ++ Nat.toDigits 10 n) 0 = _
    rw [Nat.ofDigitChars_append, Nat.ofDigitChars_replicate_zero, Nat.mul_zero,
      Nat.ofDigitChars_ten_toDigits]
    simp
  moved := by
    rw [List.length_append, List.length_replicate]
    omega
  integer := fun hnil => absurd hnil (by simp)
  width := by
    rw [List.length_singleton]
    omega
  last := fun _ => List.getLast?_append_of_ne_nil _ Nat.toDigits_ne_nil

/-- Zeros are put behind digits that stand before the point. -/
theorem pointed_above (hpositive : 0 < n) {zeros : Nat} {place : Int}
    (hplace : place = (Nat.toDigits 10 n).length + zeros) :
    Pointed n place (Nat.toDigits 10 (n * 10 ^ zeros)) [] zeros where
  whole_digits := isDigit_toDigits _
  whole_nonempty := Nat.toDigits_ne_nil
  fraction_digits := by simp
  digits := by
    rw [List.append_nil]
    exact Nat.ofDigitChars_ten_toDigits
  moved := by
    rw [List.length_nil]
    omega
  integer := fun _ => rfl
  width := by
    have hlength : 0 < (Nat.toDigits 10 n).length := Nat.length_toDigits_pos
    rw [length_toDigits_mul_pow hpositive]
    omega
  last := fun hne => absurd rfl hne

/-- The point is put between digits. -/
theorem pointed_between {place : Nat} (hplace : 0 < place)
    (hwithin : place < (Nat.toDigits 10 n).length) :
    Pointed n place ((Nat.toDigits 10 n).take place) ((Nat.toDigits 10 n).drop place) 0 where
  whole_digits := fun c hc => isDigit_toDigits n c (List.mem_of_mem_take hc)
  whole_nonempty := by
    rw [Ne, List.take_eq_nil_iff, not_or]
    exact ⟨by omega, Nat.toDigits_ne_nil⟩
  fraction_digits := fun c hc => isDigit_toDigits n c (List.mem_of_mem_drop hc)
  digits := by
    rw [List.take_append_drop, Nat.pow_zero, Nat.mul_one]
    exact Nat.ofDigitChars_ten_toDigits
  moved := by
    rw [List.length_drop]
    omega
  integer := by
    intro hnil
    rw [List.drop_eq_nil_iff] at hnil
    omega
  width := by
    rw [List.length_take]
    omega
  last := by
    intro hne
    rw [← List.getLast?_append_of_ne_nil ((Nat.toDigits 10 n).take place) hne,
      List.take_append_drop]

theorem placePoint_digits (hpositive : 0 < n) (place : Int) :
    ∃ (whole fraction : List Char) (zeros : Nat),
      Scientific.placePoint (Nat.toDigits 10 n) place = mantissaText whole fraction ∧
        Pointed n place whole fraction zeros := by
  rw [Scientific.placePoint]
  dsimp only
  split_ifs with hbelow hwithin
  · exact ⟨_, _, 0, by simp [mantissaText], pointed_below hbelow⟩
  · let zeros := place.toNat - (Nat.toDigits 10 n).length
    refine ⟨_, [], zeros, ?_, pointed_above hpositive (by omega)⟩
    rw [toDigits_mul_pow hpositive]
    simp [mantissaText, zeros]
  · obtain ⟨count, rfl⟩ : ∃ count : Nat, place = count := ⟨place.toNat, by omega⟩
    have hfraction : (Nat.toDigits 10 n).drop count ≠ [] := by
      rw [Ne, List.drop_eq_nil_iff]
      exact hwithin
    refine ⟨_, _, 0, ?_, pointed_between (by omega) (by omega)⟩
    simp only [mantissaText, hfraction, if_false, Int.toNat_natCast]

/-! ## Values -/

theorem literal_digits (digits : List Char) : literal digits [] none = digits := by
  simp [literal, mantissaText, exponentText]

/-- The text of a rational number: its sign, its numerator, and its denominator if it has one. -/
theorem write_rational (style : NumberStyle) (q : Rat) :
    (Expr.rational q).write style = (if q < 0 then ['-'] else []) ++
      (Nat.toDigits 10 q.num.natAbs ++ if q.isInt then [] else '/' :: Nat.toDigits 10 q.den) := by
  have hnumerator : (toString q.num).toList =
      (if q < 0 then ['-'] else []) ++ Nat.toDigits 10 q.num.natAbs := by
    rw [toList_toString_int]
    simp only [Rat.num_neg]
  have hdenominator : (toString q.den).toList = Nat.toDigits 10 q.den := Nat.toList_repr
  have hslash : (toString "/").toList = ['/'] := rfl
  rw [Expr.write, Expr.writeRational]
  by_cases hwhole : q.isInt = true
  · rw [if_pos hwhole, if_pos hwhole, List.append_nil]
    exact hnumerator
  · rw [if_neg hwhole, if_neg hwhole, String.toList_append, String.toList_append, hnumerator,
      hdenominator, hslash]
    simp

theorem write_natural (style : NumberStyle) (n : Nat) :
    (Expr.integer n).write style = Nat.toDigits 10 n := by
  have hwhole : ((n : Int) : Rat).isInt = true := rfl
  rw [Expr.integer, Expr.write, Expr.writeRational, if_pos hwhole, ← Nat.toList_repr]
  rfl

theorem toRat_eq {d : Decimal} (h : n % 10 ≠ 0) (hd : d.mantissa = (n * 10 ^ k : Nat)) :
    d.toRat = n * (10 : Rat) ^ (d.exponent + 1 - (Nat.toDigits 10 n).length) := by
  have hplace : d.exponent + 1 - (Nat.toDigits 10 n).length = (k : Int) + -d.scale := by
    have hexponent := exponent_eq h (k := k) (d := d) (by rw [hd, Int.natAbs_natCast])
    omega
  rw [Decimal.toRat_eq_number, Decimal.number, hd, hplace, zpow_add₀ (by norm_num), zpow_natCast]
  push_cast
  ring

/-- The digits of a decimal, with a point and perhaps an exponent, are read as a whole number that is
equal to the decimal, or as a decimal of the same digits and the same exponent. -/
theorem read_pointed {d : Decimal} {place : Int} {whole fraction : List Char} {zeros : Nat}
    {exponent : Option Int} (h : n % 10 ≠ 0) (hd : d.mantissa = (n * 10 ^ k : Nat))
    (hpointed : Pointed n place whole fraction zeros)
    (hsum : place + exponent.getD 0 = d.exponent + 1)
    (hbound : (exponent.getD 0).natAbs ≤ Numeral.maxExponent) :
    (literal whole fraction exponent = Nat.toDigits 10 (n * 10 ^ zeros) ∧
      Numeral.read (literal whole fraction exponent) = Expr.integer (n * 10 ^ zeros : Nat) ∧
      d.toRat = (n * 10 ^ zeros : Nat)) ∨
    ∃ d' : Decimal, Numeral.read (literal whole fraction exponent) = .decimal d' ∧
      d'.mantissa = (n * 10 ^ zeros : Nat) ∧ d'.exponent = d.exponent := by
  have hlength := hpointed.moved
  rw [read_literal hpointed.whole_digits hpointed.whole_nonempty hpointed.fraction_digits hbound,
    hpointed.digits]
  split_ifs with hwhole
  · rcases hwhole with ⟨rfl, rfl⟩
    rw [Option.getD_none] at hsum
    rw [List.length_nil] at hlength
    have hplace : d.exponent + 1 - (Nat.toDigits 10 n).length = zeros := by omega
    refine .inl ⟨by rw [literal_digits, hpointed.integer rfl], rfl, ?_⟩
    rw [toRat_eq h hd, hplace, zpow_natCast]
    push_cast
    rfl
  · let d' : Decimal := ⟨(n * 10 ^ zeros : Nat), fraction.length - exponent.getD 0⟩
    have hd' : d'.mantissa.natAbs = n * 10 ^ zeros := Int.natAbs_natCast _
    refine .inr ⟨d', rfl, rfl, ?_⟩
    rw [exponent_eq h hd']
    show _ - ((fraction.length : Int) - exponent.getD 0) = _
    omega

/-- A decimal literal without a sign, which is not rounded when it is written, is read back as a
number of the same value that is written in the same way. -/
theorem decimal_read {d : Decimal} {style : NumberStyle} (hsign : 0 ≤ d.mantissa)
    (hshort : (Scientific.dropZeros d.digits).length ≤ style.significant)
    (hnear : d.exponent.natAbs < Numeral.maxExponent) :
    ∃ (whole fraction : List Char) (exponent : Option Int),
      ((∀ c ∈ whole, c.isDigit = true) ∧ whole ≠ [] ∧ ∀ c ∈ fraction, c.isDigit = true) ∧
      (Expr.decimal d).write style = literal whole fraction exponent ∧
      (Numeral.read (literal whole fraction exponent)).write style = (Expr.decimal d).write style ∧
      (Numeral.read (literal whole fraction exponent) = .rational d.toRat ∨
        ∃ d', Numeral.read (literal whole fraction exponent) = .decimal d' ∧
          d'.toRat = d.toRat) := by
  by_cases hzero : d.mantissa = 0
  · have hwrite : (Expr.decimal d).write style = ['0'] := by
      rw [Expr.write, Decimal.format, if_pos hzero]
      rfl
    have hvalue : d.toRat = 0 := by
      rw [Decimal.toRat, hzero]
      split_ifs <;> simp
    have hnought : ∀ c ∈ ['0'], c.isDigit = true := List.forall_mem_singleton.mpr rfl
    refine ⟨['0'], [], none, ⟨hnought, by decide, by simp⟩, hwrite, ?_, Or.inl ?_⟩
    · rw [hwrite]
      rfl
    · rw [hvalue]
      rfl
  · have hpositive : 0 < d.mantissa.natAbs := Int.natAbs_pos.mpr hzero
    rcases exists_mul_pow hpositive with ⟨n, k, hn, hlast⟩
    have hmantissa : d.mantissa = (n * 10 ^ k : Nat) := by omega
    rw [Decimal.digits, hn, toDigits_mul_pow (by omega), dropZeros_toDigits hlast] at hshort
    have hwrite : ∀ (d' : Decimal) (k' : Nat), d'.mantissa = (n * 10 ^ k' : Nat) →
        (Expr.decimal d').write style =
          Scientific.write ⟨Nat.toDigits 10 n, d'.exponent⟩ style.mode style.significant := by
      intro d' k' hd'
      have hunsigned : ¬ d'.mantissa < 0 := not_lt.mpr (by rw [hd']; exact Int.natCast_nonneg _)
      rw [Expr.write, format_eq hlast (by rw [hd', Int.natAbs_natCast]) (by omega),
        if_neg hunsigned, List.nil_append]
    have hsum := placing_sum d.exponent style.mode style.significant
    have hbound := placing_bound (e := d.exponent) style.mode style.significant (by omega) (by omega)
    rcases placePoint_digits (n := n) (by omega)
      (Scientific.placing d.exponent style.mode style.significant).1 with
      ⟨whole, fraction, zeros, htext, hpointed⟩
    have hliteral : (Expr.decimal d).write style = literal whole fraction
        (Scientific.placing d.exponent style.mode style.significant).2 := by
      rw [hwrite d k hmantissa, write_eq, htext, literal]
    refine ⟨whole, fraction, _,
      ⟨hpointed.whole_digits, hpointed.whole_nonempty, hpointed.fraction_digits⟩, hliteral, ?_⟩
    rcases read_pointed hlast hmantissa hpointed hsum hbound with
      ⟨hdigits, hread, hvalue⟩ | ⟨d', hread, hd', hexponent⟩
    · refine ⟨?_, .inl ?_⟩
      · rw [hread, hliteral, hdigits, write_natural]
      · rw [hread, hvalue]
        rfl
    · refine ⟨?_, .inr ⟨d', hread, ?_⟩⟩
      · rw [hread, hwrite d' zeros hd', hwrite d k hmantissa, hexponent]
      · rw [toRat_eq hlast hd', toRat_eq hlast hmantissa, hexponent]

/-- A literal below zero is written like its opposite, with a sign before it. -/
theorem format_negative {d : Decimal} (hsign : d.mantissa < 0)
    (hshort : (Scientific.dropZeros d.digits).length ≤ significant) :
    (d.format mode significant).toList =
      '-' :: (Decimal.format ⟨-d.mantissa, d.scale⟩ mode significant).toList := by
  have hpositive : 0 < d.mantissa.natAbs := by omega
  rcases exists_mul_pow hpositive with ⟨n, k, hn, hlast⟩
  rw [Decimal.digits, hn, toDigits_mul_pow (by omega), dropZeros_toDigits hlast] at hshort
  have hshort' : (Nat.toDigits 10 n).length ≤ max significant 1 := by omega
  let opposite : Decimal := ⟨-d.mantissa, d.scale⟩
  have hn' : opposite.mantissa.natAbs = n * 10 ^ k := by
    show (-d.mantissa).natAbs = _
    omega
  have hunsigned : ¬ opposite.mantissa < 0 := by
    show ¬ -d.mantissa < 0
    omega
  have hexponent : opposite.exponent = d.exponent := by
    rw [exponent_eq hlast hn', exponent_eq hlast hn]
  rw [format_eq hlast hn hshort', format_eq hlast hn' hshort', if_pos hsign, if_neg hunsigned,
    hexponent]
  rfl

end Digits

end PocketAlgebra
