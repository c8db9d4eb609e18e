import PocketAlgebra.Proofs.Text.Notation

/-!
# Rounded decimals

A decimal is written with the digits of the number that is nearest to it among those with so many
significant digits. The digits that are left out are those of a remainder; the first of them says
whether it is a half or more. What is written is a literal of the grammar, and it is read back as the
rounded number.
-/

namespace PocketAlgebra

open PocketAlgebra.Token

/-! ## Leading digits -/

section Leading

variable {n m count : Nat}

/-- A division by a power of ten takes digits away at the end. -/
theorem toDigits_eq_append (h : 0 < n / 10 ^ m) :
    ∃ tail, Nat.toDigits 10 n = Nat.toDigits 10 (n / 10 ^ m) ++ tail ∧ tail.length = m := by
  induction m with
  | zero => exact ⟨[], by simp, rfl⟩
  | succ m ih =>
      have hdiv : n / 10 ^ (m + 1) = n / 10 ^ m / 10 := by
        rw [Nat.pow_succ, Nat.div_div_eq_div_mul]
      rw [hdiv] at h ⊢
      have hlarge : 10 ≤ n / 10 ^ m := (Nat.div_pos_iff.mp h).2
      rcases ih (by omega) with ⟨tail, hsplit, hlength⟩
      have hlast := Nat.toDigits_of_base_le (by decide) hlarge
      refine ⟨Nat.digitChar (n / 10 ^ m % 10) :: tail, ?_, by rw [List.length_cons, hlength]⟩
      rw [hsplit, hlast, List.append_assoc, List.singleton_append]

theorem pow_le_of_length (hm : 0 < m) (h : m < (Nat.toDigits 10 n).length) : 10 ^ m ≤ n := by
  rw [← Nat.not_lt, ← Nat.length_toDigits_le_iff (by decide) hm, Nat.not_le]
  exact h

theorem length_toDigits_eq {x : Nat} (hleast : 10 ^ x ≤ n) (hmost : n < 10 ^ (x + 1)) :
    (Nat.toDigits 10 n).length = x + 1 := by
  have hle : (Nat.toDigits 10 n).length ≤ x + 1 :=
    (Nat.length_toDigits_le_iff (by decide) (by omega)).mpr hmost
  have hge : ¬ (Nat.toDigits 10 n).length ≤ x := by
    intro hshort
    have hlength : 0 < (Nat.toDigits 10 n).length := Nat.length_toDigits_pos
    rw [Nat.length_toDigits_le_iff (by decide) (by omega)] at hshort
    omega
  omega

/-- The digits that are kept, and one unit of the last of them more if the next is a five or
greater. -/
theorem leading_toDigits (h : (Nat.toDigits 10 n).length = count + (m + 1)) (hcount : 0 < count) :
    Scientific.leading (Nat.toDigits 10 n) count = (n / 10 ^ m + 5) / 10 := by
  have hlarge : 10 ≤ n / 10 ^ m := by
    rw [Nat.le_div_iff_mul_le (Nat.pow_pos (by decide)), Nat.mul_comm, ← Nat.pow_succ]
    exact pow_le_of_length (by omega) (by omega)
  rcases toDigits_eq_append (n := n) (m := m) (by omega) with ⟨tail, hsplit, hlength⟩
  generalize n / 10 ^ m = q at hlarge hsplit ⊢
  rw [Nat.toDigits_of_base_le (n := q) (by decide) hlarge] at hsplit
  have hsame : (Nat.toDigits 10 (q / 10)).length = count := by
    rw [hsplit, List.length_append, List.length_append, List.length_singleton, hlength] at h
    omega
  have htake : (Nat.toDigits 10 n).take count = Nat.toDigits 10 (q / 10) := by
    rw [hsplit, List.append_assoc, ← hsame, List.take_left]
  have hnext : (Nat.toDigits 10 n)[count]? = some (Nat.digitChar (q % 10)) := by
    rw [hsplit, List.append_assoc, ← hsame, ← Nat.add_zero (Nat.toDigits 10 (q / 10)).length,
      getElem?_length_add]
    rfl
  have hfive : ∀ d < 10, ('5' ≤ Nat.digitChar d ↔ 5 ≤ d) := by decide
  have hread : Nat.ofDigitChars 10 (Nat.toDigits 10 (q / 10)) 0 = q / 10 :=
    Nat.ofDigitChars_ten_toDigits
  rw [Scientific.leading, htake, hnext]
  show (if decide ('5' ≤ Nat.digitChar (q % 10)) then
    Nat.ofDigitChars 10 (Nat.toDigits 10 (q / 10)) 0 + 1
      else Nat.ofDigitChars 10 (Nat.toDigits 10 (q / 10)) 0) = _
  rw [hread]
  simp only [decide_eq_true_eq, hfive (q % 10) (Nat.mod_lt q (by decide))]
  split_ifs <;> omega

theorem rounded_bounds (h : (Nat.toDigits 10 n).length = count + (m + 1)) (hcount : 0 < count) :
    10 ^ (count - 1) ≤ (n / 10 ^ m + 5) / 10 ∧ (n / 10 ^ m + 5) / 10 ≤ 10 ^ count := by
  have hpower : 0 < 10 ^ m := Nat.pow_pos (by decide)
  have hleast : 10 ^ count ≤ n / 10 ^ m := by
    rw [Nat.le_div_iff_mul_le hpower, ← Nat.pow_add]
    exact pow_le_of_length (by omega) (by omega)
  have hmost : n / 10 ^ m < 10 ^ (count + 1) := by
    rw [Nat.div_lt_iff_lt_mul hpower, ← Nat.pow_add, ← Nat.length_toDigits_le_iff (by decide)
      (by omega), h]
    omega
  have hten : 10 ^ count = 10 ^ (count - 1) * 10 := by
    rw [← Nat.pow_succ, Nat.succ_eq_add_one, Nat.sub_add_cancel hcount]
  rw [Nat.pow_succ] at hmost
  omega

/-- These are the digits of the nearest whole number. -/
theorem floor_div_pow (n m : Nat) :
    ⌊(n : Rat) / 10 ^ (m + 1) + 1 / 2⌋ = ((n / 10 ^ m + 5) / 10 : Nat) := by
  have hsum : (n : Rat) / 10 ^ (m + 1) + 1 / 2 = (n + 5 * 10 ^ m : Nat) / (10 ^ m * 10 : Nat) := by
    push_cast
    field_simp
    ring
  rw [hsum, Rat.floor_natCast_div_natCast, ← Int.natCast_div, ← Nat.div_div_eq_div_mul,
    Nat.add_mul_div_right _ _ (Nat.pow_pos (by decide))]

end Leading

/-! ## Rounding -/

/-- A number that is not negative, rounded to so many significant digits, and to the greater of two
numbers that are equally near. -/
def roundedTo (count : Nat) (r : Rat) : Rat :=
  ⌊r / 10 ^ (place r + 1 - count) + 1 / 2⌋ * 10 ^ (place r + 1 - count)

section Rounding

variable {n m count : Nat}

/-- A number is rounded by rounding its digits, with a point behind those that are kept, to a whole
number. -/
theorem roundedTo_eq (hpositive : 0 < n) (e : Int) (count : Nat) :
    roundedTo count (n * 10 ^ (e + 1 - (Nat.toDigits 10 n).length)) =
      ⌊(n : Rat) * 10 ^ ((count : Int) - (Nat.toDigits 10 n).length) + 1 / 2⌋ *
        10 ^ (e + 1 - count) := by
  have hplace : place (n * 10 ^ (e + 1 - (Nat.toDigits 10 n).length)) = e := by
    rw [place_mul_zpow hpositive]
    omega
  have hshift : e + 1 - ((Nat.toDigits 10 n).length : Int) - (e + 1 - count) =
      count - (Nat.toDigits 10 n).length := by omega
  rw [roundedTo, hplace, mul_div_assoc, ← zpow_sub₀ (by norm_num), hshift]

/-- The digits and the first place of a number, after they have been rounded to so many significant
digits, are those of the rounded number without the zeros at its end. -/
structure RoundsTo (n : Nat) (e : Int) (significant core : Nat) (e' : Int) : Prop where
  last : core % 10 ≠ 0
  least : e ≤ e'
  most : e' ≤ e + 1
  round : Scientific.round ⟨Nat.toDigits 10 n, e⟩ significant = ⟨Nat.toDigits 10 core, e'⟩
  value : roundedTo (max significant 1) (n * 10 ^ (e + 1 - (Nat.toDigits 10 n).length)) =
    core * (10 : Rat) ^ (e' + 1 - (Nat.toDigits 10 core).length)

/-- A number without more digits than are kept is rounded to itself. -/
theorem roundsTo_whole {core : Nat} (hlast : core % 10 ≠ 0) (k : Nat) (e : Int) {significant : Nat}
    (hfits : (Nat.toDigits 10 (core * 10 ^ k)).length ≤ max significant 1) :
    RoundsTo (core * 10 ^ k) e significant core e where
  last := hlast
  least := le_refl e
  most := by omega
  round := by
    refine round_toDigits hlast k e ?_
    rw [length_toDigits_mul_pow (by omega)] at hfits
    omega
  value := by
    have hpositive : 0 < core * 10 ^ k := Nat.mul_pos (by omega) (Nat.pow_pos (by decide))
    generalize max significant 1 = count at hfits ⊢
    have hwhole : ((core * 10 ^ k : Nat) : Rat) *
        10 ^ ((count : Int) - (Nat.toDigits 10 (core * 10 ^ k)).length) =
          (core * 10 ^ (k + (count - (Nat.toDigits 10 (core * 10 ^ k)).length)) : Nat) := by
      rw [← Nat.cast_sub hfits, zpow_natCast, Nat.pow_add]
      push_cast
      ring
    have hhalf : ⌊(1 : Rat) / 2⌋ = 0 := by norm_num
    have hplaces : e + 1 - (Nat.toDigits 10 core).length =
        ((k + (count - (Nat.toDigits 10 (core * 10 ^ k)).length) : Nat) : Int) + (e + 1 - count) := by
      have hlength := length_toDigits_mul_pow (n := core) (by omega) k
      omega
    rw [roundedTo_eq hpositive, hwhole, Int.floor_natCast_add, hhalf, Int.add_zero, hplaces,
      zpow_add₀ (by norm_num), zpow_natCast]
    push_cast
    ring

/-- A carry through all digits moves the first place, as the rounded number has one digit more. -/
theorem carried_place (h : (Nat.toDigits 10 n).length = count + (m + 1)) (hcount : 0 < count)
    (e : Int) :
    (if (n / 10 ^ m + 5) / 10 = 10 ^ count then e + 1 else e) =
      e + (Nat.toDigits 10 ((n / 10 ^ m + 5) / 10)).length - count := by
  rcases rounded_bounds h hcount with ⟨hleast, hmost⟩
  generalize (n / 10 ^ m + 5) / 10 = rounded at hleast hmost ⊢
  split_ifs with hcarry
  · have hless : rounded < 10 ^ (count + 1) := by
      rw [hcarry]
      exact Nat.pow_lt_pow_succ (by decide)
    rw [length_toDigits_eq hcarry.ge hless]
    omega
  · have hless : rounded < 10 ^ (count - 1 + 1) := by
      rw [Nat.sub_add_cancel hcount]
      omega
    rw [length_toDigits_eq hleast hless]
    omega

/-- A number with more digits than are kept is rounded to the nearest whole number of units of the
last digit that is kept. -/
theorem roundsTo_cut (h : (Nat.toDigits 10 n).length = count + (m + 1)) (hpositive : 0 < n)
    {significant core k : Nat} (hcount : max significant 1 = count) (hlast : core % 10 ≠ 0)
    (hcore : (n / 10 ^ m + 5) / 10 = core * 10 ^ k) (e : Int) :
    RoundsTo n e significant core
      (if (n / 10 ^ m + 5) / 10 = 10 ^ count then e + 1 else e) where
  last := hlast
  least := by split_ifs <;> omega
  most := by split_ifs <;> omega
  round := by
    rw [Scientific.round]
    dsimp only
    rw [hcount, if_neg (by omega), leading_toDigits h (by omega), hcore,
      toDigits_mul_pow (by omega), dropZeros_toDigits hlast]
    rfl
  value := by
    have hfloor : ⌊(n : Rat) * 10 ^ ((count : Int) - (Nat.toDigits 10 n).length) + 1 / 2⌋ =
        (core * 10 ^ k : Nat) := by
      have hplaces : (count : Int) - (Nat.toDigits 10 n).length = -(m + 1 : Nat) := by omega
      rw [hplaces, zpow_neg, zpow_natCast, ← div_eq_mul_inv, floor_div_pow, hcore]
    have hplaces : (if (n / 10 ^ m + 5) / 10 = 10 ^ count then e + 1 else e) + 1 -
        ((Nat.toDigits 10 core).length : Int) = (k : Int) + (e + 1 - count) := by
      rw [carried_place h (by omega), hcore, length_toDigits_mul_pow (by omega)]
      omega
    rw [hcount, roundedTo_eq hpositive, hfloor, hplaces, zpow_add₀ (by norm_num), zpow_natCast]
    push_cast
    ring

theorem exists_roundsTo (hpositive : 0 < n) (e : Int) (significant : Nat) :
    ∃ core e', RoundsTo n e significant core e' := by
  by_cases hfits : (Nat.toDigits 10 n).length ≤ max significant 1
  · rcases exists_mul_pow hpositive with ⟨core, k, rfl, hlast⟩
    exact ⟨core, e, roundsTo_whole hlast k e hfits⟩
  · generalize hcount : max significant 1 = count at hfits
    obtain ⟨m, hm⟩ : ∃ m, (Nat.toDigits 10 n).length = count + (m + 1) :=
      ⟨(Nat.toDigits 10 n).length - count - 1, by omega⟩
    have hpower : 0 < 10 ^ (count - 1) := Nat.pow_pos (by decide)
    have hleast := (rounded_bounds hm (by omega)).1
    rcases exists_mul_pow (n := (n / 10 ^ m + 5) / 10) (by omega) with ⟨core, k, hcore, hlast⟩
    exact ⟨core, _, roundsTo_cut hm hpositive hcount hlast hcore e⟩

end Rounding

/-! ## What is written -/

/-- A literal is written for a positive number in some mode: it is one token, which is read as the
number; no digit of it is superfluous; in decimal mode it has an exponent only where the first digit
stands far from the point, and in engineering mode the exponent is a multiple of three, with one to
three digits before the point. -/
structure Writes (mode : FloatMode) (significant : Nat) (r : Rat) (l : Numeral.Literal) : Prop where
  token : Token.scan (String.ofList l.text) =
    [⟨.number, String.ofList l.text, ⟨0, Token.byteLength l.text⟩⟩]
  read : Numeral.read l.text = .rational r ∨
    ∃ d, Numeral.read l.text = .decimal d ∧ d.number = r
  trimmed : ∀ digits, l.fraction = some digits → ∃ front last, digits = front ++ [last] ∧ last ≠ '0'
  decimal : mode = .decimal →
    (l.exponent = none ↔ -5 < place r ∧ place r < max significant 1)
  engineering : mode = .engineering →
    (∃ negative digits, l.exponent = some (negative, digits) ∧ 3 ∣ Numeral.Literal.natural digits) ∧
      1 ≤ l.whole.length ∧ l.whole.length ≤ 3

section Writing

variable {n : Nat} {e : Int} {d : Decimal}

/-- A fraction ends with the last digit of the number, which is not a zero. -/
theorem Pointed.trimmed {place : Int} {whole fraction : List Char} {zeros : Nat}
    (h : Pointed n place whole fraction zeros) (hlast : n % 10 ≠ 0) (hne : fraction ≠ []) :
    ∃ front last, fraction = front ++ [last] ∧ last ≠ '0' := by
  rcases exists_last_digit hlast with ⟨front, last, hfront, hzero⟩
  have hend := h.last hne
  rw [hfront, List.getLast?_concat, List.getLast?_eq_some_iff] at hend
  rcases hend with ⟨before, hbefore⟩
  exact ⟨before, last, hbefore, hzero⟩

/-- The exponent puts the digits in the place that they have in the number. -/
theorem Pointed.value_written {place : Int} {whole fraction : List Char} {zeros : Nat}
    {exponent : Option Int} (h : Pointed n place whole fraction zeros)
    (hsum : place + exponent.getD 0 = e + 1)
    (hbound : (exponent.getD 0).natAbs ≤ Numeral.maxExponent) :
    (written exponent h.whole_digits h.whole_nonempty h.fraction_digits).value =
      n * 10 ^ (e + 1 - (Nat.toDigits 10 n).length) := by
  have hplaces : -((fraction.length : Int) - exponent.getD 0) =
      -(zeros : Int) + (e + 1 - (Nat.toDigits 10 n).length) := by
    have hmoved := h.moved
    omega
  have hwhole : (written exponent h.whole_digits h.whole_nonempty h.fraction_digits).whole = whole :=
    rfl
  rw [Numeral.value_eq, hwhole, fraction_written, power_written _ _ _ hbound, h.digits, hplaces,
    zpow_add₀ (by norm_num), zpow_neg, zpow_natCast]
  push_cast
  field_simp

/-- Digits that do not end with a zero are written so in every mode. -/
theorem exists_writes (hlast : n % 10 ≠ 0) (mode : FloatMode) (significant : Nat)
    (hleast : -Numeral.maxExponent < e) (hmost : e ≤ Numeral.maxExponent) :
    ∃ l, Scientific.write ⟨Nat.toDigits 10 n, e⟩ mode significant = l.text ∧
      Writes mode significant (n * 10 ^ (e + 1 - (Nat.toDigits 10 n).length)) l := by
  have hpositive : 0 < n := by omega
  rcases hplacing : Scientific.placing e mode significant with ⟨before, exponent⟩
  have hsum := placing_sum e mode significant
  have hbound := placing_bound mode significant hleast hmost
  rw [hplacing] at hsum hbound
  rcases placePoint_digits hpositive before with ⟨whole, fraction, zeros, htext, hpointed⟩
  let l := written exponent hpointed.whole_digits hpointed.whole_nonempty hpointed.fraction_digits
  have hl : l.text = literal whole fraction exponent := text_written _ _ _
  have hplace : place (n * 10 ^ (e + 1 - (Nat.toDigits 10 n).length)) = e := by
    rw [place_mul_zpow hpositive]
    omega
  have hwrites : Writes mode significant (n * 10 ^ (e + 1 - (Nat.toDigits 10 n).length)) l := {
    token := scan_literal l
    read := by
      rw [← hpointed.value_written hsum hbound]
      rcases Numeral.read_value l with ⟨hinteger, hdecimal⟩
      by_cases h : l.fraction.getD [] = [] ∧ l.exponent = none
      · exact .inl (hinteger h)
      · exact .inr (hdecimal h)
    trimmed := by
      intro digits hdigits
      change (if fraction = [] then none else some fraction) = some digits at hdigits
      split_ifs at hdigits with hempty
      cases hdigits
      exact hpointed.trimmed hlast hempty
    decimal := by
      rintro rfl
      have hnone : l.exponent = none ↔ exponent = none := Option.map_eq_none_iff
      rw [hnone, hplace, ← placing_decimal, hplacing]
    engineering := by
      rintro rfl
      rw [placing_engineering, Prod.mk.injEq] at hplacing
      rcases hplacing with ⟨rfl, rfl⟩
      have hwidth := hpointed.width
      refine ⟨⟨_, _, rfl, ?_⟩, ?_⟩
      · rw [natural_toDigits]
        omega
      · show 1 ≤ whole.length ∧ whole.length ≤ 3
        omega }
  exact ⟨l, by rw [write_eq, hplacing, htext, hl, literal], hwrites⟩

/-- Decimals are rounded correctly and read back. What is written for a decimal is a sign, if it is
negative, and a literal for its amount, rounded half away from zero to the significant digits, of
which there is one at least. -/
theorem format_rounds (mode : FloatMode) (significant : Nat) (hnonzero : d.mantissa ≠ 0)
    (hnear : d.exponent.natAbs < 10 ^ 9) :
    ∃ l : Numeral.Literal,
      (d.format mode significant).toList = (if d.mantissa < 0 then ['-'] else []) ++ l.text ∧
        Writes mode significant (roundedTo (max significant 1) |d.number|) l := by
  have hpositive : 0 < d.mantissa.natAbs := Int.natAbs_pos.mpr hnonzero
  rcases exists_roundsTo hpositive d.exponent significant with ⟨core, e, hrounds⟩
  have hleast := hrounds.least
  have hmost := hrounds.most
  have hmax : (Numeral.maxExponent : Int) = 10 ^ 9 := rfl
  rcases exists_writes hrounds.last mode significant (e := e) (by omega) (by omega) with
    ⟨l, htext, hwrites⟩
  have hnumber : |d.number| =
      d.mantissa.natAbs * 10 ^ (d.exponent + 1 - (Nat.toDigits 10 d.mantissa.natAbs).length) := by
    have hscale : d.exponent + 1 - ((Nat.toDigits 10 d.mantissa.natAbs).length : Int) = -d.scale := by
      rw [Decimal.exponent, if_neg hnonzero, Decimal.digits]
      omega
    rw [Decimal.abs_number, hscale]
  refine ⟨l, ?_, ?_⟩
  · rw [format_of_round hnonzero hrounds.round, htext]
  · rw [hnumber, hrounds.value]
    exact hwrites

/-- A carry through all digits moves the number to the next power of ten. -/
theorem format_rounds_carry :
    ∃ l : Numeral.Literal,
      ((Decimal.mk (-99996) 4).format .engineering 3).toList = '-' :: l.text ∧
        Writes .engineering 3 (roundedTo 3 |(Decimal.mk (-99996) 4).number|) l :=
  format_rounds .engineering 3 (by decide) (by decide)

end Writing

end PocketAlgebra
