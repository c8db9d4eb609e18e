import Mathlib.Algebra.Order.Field.Basic
import Mathlib.Data.Int.Log
import Mathlib.Data.List.Induction
import Mathlib.Data.List.TakeWhile
import Mathlib.Data.Nat.Digits.Defs
import Mathlib.Data.Rat.Cast.Order
import Mathlib.Data.Rat.Floor
import Mathlib.Tactic.FieldSimp
import Mathlib.Tactic.Ring
import PocketAlgebra.Decimal
import PocketAlgebra.Proofs.Grammar.Steps
import PocketAlgebra.Proofs.Text.Lexing
import PocketAlgebra.Proofs.Text.Tiling
import PocketAlgebra.Text.Parser

/-!
# Number literals and decimals

The literals of the grammar and the numbers that they write, given by their parts. The scanner takes
as much of a text as it can; so it finds a literal exactly where there is one that the text does not
go on with, and a reader of the literal finds its parts again. What a writer makes of digits and of a
power of ten is such a literal.

The place of the first digit of a number is its logarithm, rounded down. So whether a decimal has an
exact value can be told from the number itself.
-/

namespace PocketAlgebra

open PocketAlgebra.Token

namespace Numeral

/-! ## The parts of a literal -/

/-- A point and the digits behind it, if there is a point. -/
def pointText : Option (List Char) → List Char
  | none => []
  | some digits => '.' :: digits

/-- A marker, a sign if the exponent is negative, and the digits of the exponent, if there is
one. -/
def markerText : Option (Bool × List Char) → List Char
  | none => []
  | some (negative, digits) => exponentMarker :: ((if negative then ['-'] else []) ++ digits)

/-- A number literal: digits, perhaps a point and digits behind it, and perhaps the sign and the
digits of an exponent. The digits before the point or those behind it may be missing, but not all
of them, and an exponent has digits. -/
structure Literal where
  whole : List Char
  fraction : Option (List Char)
  exponent : Option (Bool × List Char)
  whole_digits : ∀ c ∈ whole, c.isDigit = true
  fraction_digits : ∀ c ∈ fraction.getD [], c.isDigit = true
  exponent_digits : ∀ e ∈ exponent, ∀ c ∈ e.2, c.isDigit = true
  whole_or_fraction : whole ++ fraction.getD [] ≠ []
  exponent_nonempty : ∀ e ∈ exponent, e.2 ≠ []

namespace Literal

/-- The characters of a literal. -/
def text (l : Literal) : List Char :=
  l.whole ++ pointText l.fraction ++ markerText l.exponent

/-- A literal begins with a digit or with a point. -/
theorem exists_text_eq_cons (l : Literal) :
    ∃ c cs, l.text = c :: cs ∧ (c.isDigit = true ∨ c = '.') := by
  rcases l with ⟨whole, fraction, exponent, hwhole, -, -, hsome, -⟩
  cases whole with
  | nil =>
      cases fraction with
      | none => exact absurd rfl hsome
      | some digits => exact ⟨'.', _, rfl, .inr rfl⟩
  | cons c whole => exact ⟨c, _, rfl, .inl (hwhole c (by simp))⟩

/-- The whole number that digits write, the last of them being the units. -/
def natural (digits : List Char) : Nat :=
  Nat.ofDigits 10 (digits.reverse.map digitValue)

/-- The number below one that digits behind a point write. -/
def behindPoint : List Char → Rat
  | [] => 0
  | c :: cs => (digitValue c + behindPoint cs) / 10

/-- An exponent, cut off at the greatest one on both sides. -/
def cutOff (n : Int) : Int :=
  max (-maxExponent) (min maxExponent n)

/-- The power of ten of a literal. -/
def power (l : Literal) : Int :=
  match l.exponent with
  | none => 0
  | some (negative, digits) => cutOff (if negative then -natural digits else natural digits)

/-- The number that a literal writes. -/
def value (l : Literal) : Rat :=
  (natural l.whole + behindPoint (l.fraction.getD [])) * 10 ^ l.power

end Literal

/-- A text that a literal before it would go on with: one that begins with a digit, a point or an
exponent marker. -/
def GoesOn (cs : List Char) : Prop :=
  ∃ c, cs.head? = some c ∧ (c.isDigit = true ∨ c = '.' ∨ c = exponentMarker)

end Numeral

/-! ## Scanning -/

namespace Token

open Numeral

section Scanning

variable {whole digits rest cs : List Char} {fraction : Option (List Char)}

/-- A text that does not begin with a digit. -/
def NoDigit (cs : List Char) : Prop :=
  ∀ c, cs.head? = some c → c.isDigit = false

theorem noDigit_cons {c : Char} (h : c.isDigit = false) : NoDigit (c :: cs) := by
  intro d hd
  rw [List.head?_cons, Option.some.injEq] at hd
  rwa [← hd]

/-- Every text begins with digits, perhaps with none, that it does not go on with. -/
theorem exists_digits (cs : List Char) :
    ∃ digits rest, cs = digits ++ rest ∧ (∀ c ∈ digits, c.isDigit = true) ∧ NoDigit rest := by
  refine ⟨cs.takeWhile Char.isDigit, cs.dropWhile Char.isDigit,
    List.takeWhile_append_dropWhile.symm, fun c hc => List.mem_takeWhile_imp hc, ?_⟩
  intro c hc
  have hend := List.head?_dropWhile_not Char.isDigit cs
  rw [hc] at hend
  simpa using hend

theorem digitCount_of_noDigit (hdigits : ∀ c ∈ digits, c.isDigit = true) (hrest : NoDigit rest) :
    digitCount (digits ++ rest) = digits.length := by
  have hstop : rest.takeWhile Char.isDigit = [] := by
    cases rest with
    | nil => rfl
    | cons c rest => simp [hrest c rfl]
  rw [digitCount, List.takeWhile_append_of_pos hdigits, hstop, List.append_nil]

theorem getElem?_length_add (first second : List Char) (k : Nat) :
    (first ++ second)[first.length + k]? = second[k]? := by
  rw [List.getElem?_append_right (by omega), Nat.add_sub_cancel_left]

theorem drop_length_add (first second : List Char) (k : Nat) :
    (first ++ second).drop (first.length + k) = second.drop k := by
  rw [← List.drop_drop, List.drop_left]

theorem closeNumber_append (front rest : List Char) :
    closeNumber (front ++ rest) front.length =
      if rest.head? = some '.' ∨ rest.head? = some exponentMarker then
        (.undefined, front.length + 1)
      else (.number, front.length) := by
  rw [closeNumber, List.drop_left]
  cases rest <;> simp

/-- How the scanner goes on behind the mantissa of a number. -/
theorem scanNumber_mantissa (hwhole : ∀ c ∈ whole, c.isDigit = true)
    (hfraction : ∀ c ∈ fraction.getD [], c.isDigit = true) (hdigit : NoDigit rest)
    (hpoint : fraction = none → rest.head? ≠ some '.') :
    let mantissa := whole ++ pointText fraction
    scanNumber (mantissa ++ rest) =
      if whole ++ fraction.getD [] = [] then (.undefined, mantissa.length)
      else if rest.head? = some exponentMarker then
        let sign := if rest[1]? = some '-' then 1 else 0
        let exponent := digitCount (rest.drop (1 + sign))
        let length := mantissa.length + 1 + sign + exponent
        if exponent = 0 then (.undefined, length) else closeNumber (mantissa ++ rest) length
      else closeNumber (mantissa ++ rest) mantissa.length := by
  intro mantissa
  have hstart : digitCount (mantissa ++ rest) = whole.length := by
    rw [List.append_assoc]
    apply digitCount_of_noDigit hwhole
    cases fraction with
    | none => exact hdigit
    | some digits => exact noDigit_cons (by decide)
  have hbehind : (mantissa ++ rest)[whole.length]? = some '.' ↔ fraction ≠ none := by
    rw [List.append_assoc, ← Nat.add_zero whole.length, getElem?_length_add]
    cases fraction with
    | none => simpa [pointText, List.head?_eq_getElem?] using hpoint rfl
    | some digits => simp [pointText]
  have hlength : mantissa.length = whole.length + (if fraction ≠ none then 1 else 0) +
      (fraction.getD []).length := by
    rw [List.length_append, Nat.add_assoc]
    cases fraction with
    | none => rfl
    | some digits => simp [pointText, Nat.add_comm]
  have hfractionCount : (if (if fraction ≠ none then 1 else 0) = 1 then
      digitCount ((mantissa ++ rest).drop (whole.length + 1)) else 0) =
        (fraction.getD []).length := by
    cases fraction with
    | none => rfl
    | some digits =>
        have hdrop : (mantissa ++ rest).drop (whole.length + 1) = digits ++ rest := by
          rw [List.append_assoc, drop_length_add]
          rfl
        simp only [ne_eq, reduceCtorEq, not_false_eq_true, if_true, Option.getD_some, hdrop]
        exact digitCount_of_noDigit hfraction hdigit
  have hnone : whole.length + (fraction.getD []).length = 0 ↔ whole ++ fraction.getD [] = [] := by
    rw [← List.length_append, List.length_eq_zero_iff]
  have hmarker : (mantissa ++ rest)[mantissa.length]? = rest.head? := by
    rw [← Nat.add_zero mantissa.length, getElem?_length_add, List.head?_eq_getElem?]
  unfold scanNumber
  dsimp only
  simp only [hstart, hbehind, hfractionCount, ← hlength, hnone, hmarker, getElem?_length_add,
    Nat.add_assoc, drop_length_add]

/-- How the scanner goes on behind the exponent of a number. -/
theorem scanNumber_exponent {negative : Bool} {power : List Char}
    (hwhole : ∀ c ∈ whole, c.isDigit = true)
    (hfraction : ∀ c ∈ fraction.getD [], c.isDigit = true) (hsome : whole ++ fraction.getD [] ≠ [])
    (hpower : ∀ c ∈ power, c.isDigit = true) (hdigit : NoDigit rest)
    (hsign : negative = false → (power ++ rest).head? ≠ some '-') :
    let number := whole ++ pointText fraction ++ markerText (some (negative, power))
    scanNumber (number ++ rest) =
      if power = [] then (.undefined, number.length)
      else closeNumber (number ++ rest) number.length := by
  intro number
  let sign : List Char := if negative then ['-'] else []
  let behind := exponentMarker :: (sign ++ (power ++ rest))
  have htext : number ++ rest = whole ++ pointText fraction ++ behind := by
    simp [number, behind, sign, markerText]
  have hmarker : NoDigit behind := noDigit_cons (by decide)
  have hpoint : fraction = none → behind.head? ≠ some '.' := by
    intro _ hhead
    exact absurd (Option.some.inj hhead) (by decide)
  have hfirst : behind.head? = some exponentMarker := rfl
  have hsecond : (if behind[1]? = some '-' then 1 else 0) = sign.length := by
    have hnext : behind[1]? = (sign ++ (power ++ rest)).head? := by
      rw [List.head?_eq_getElem?]
      rfl
    rw [hnext]
    cases negative with
    | false => simpa [sign] using hsign rfl
    | true => rfl
  have hcount : digitCount (behind.drop (1 + sign.length)) = power.length := by
    have hdrop : behind.drop (1 + sign.length) = power ++ rest := by
      rw [Nat.add_comm, List.drop_succ_cons, List.drop_left]
    rw [hdrop]
    exact digitCount_of_noDigit hpower hdigit
  have hlength : (whole ++ pointText fraction).length + 1 + sign.length + power.length =
      number.length := by
    simp [number, sign, markerText]
    omega
  rw [htext, scanNumber_mantissa hwhole hfraction hmarker hpoint, if_neg hsome, if_pos hfirst]
  dsimp only
  rw [hsecond, hcount, hlength]
  simp only [List.length_eq_zero_iff]

theorem noDigit_of_not_goesOn (h : ¬ GoesOn rest) : NoDigit rest := by
  intro c hc
  by_contra hdigit
  exact h ⟨c, hc, .inl (Bool.eq_true_of_not_eq_false hdigit)⟩

/-- A literal is found where the text does not go on with it. -/
theorem scanNumber_complete (l : Literal) (h : ¬ GoesOn rest) :
    scanNumber (l.text ++ rest) = (.number, l.text.length) := by
  have hclose : closeNumber (l.text ++ rest) l.text.length = (.number, l.text.length) := by
    rw [closeNumber_append, if_neg]
    rintro (hpoint | hmarker)
    · exact h ⟨_, hpoint, .inr (.inl rfl)⟩
    · exact h ⟨_, hmarker, .inr (.inr rfl)⟩
  have hdigit := noDigit_of_not_goesOn h
  rcases l with ⟨whole, fraction, _ | ⟨negative, digits⟩, hwhole, hfraction, hpower, hsome, hne⟩
  · have hpoint : fraction = none → rest.head? ≠ some '.' :=
      fun _ hhead => h ⟨_, hhead, .inr (.inl rfl)⟩
    have hmarker : ¬ rest.head? = some exponentMarker := fun hhead => h ⟨_, hhead, .inr (.inr rfl)⟩
    simp only [Literal.text, markerText, List.append_nil] at hclose ⊢
    rw [scanNumber_mantissa hwhole hfraction hdigit hpoint, if_neg hsome, if_neg hmarker]
    exact hclose
  · have hdigits : ∀ c ∈ digits, c.isDigit = true := hpower _ rfl
    have hnonempty : digits ≠ [] := hne _ rfl
    have hsign : negative = false → (digits ++ rest).head? ≠ some '-' := by
      intro _ hhead
      rw [List.head?_append_of_ne_nil _ hnonempty] at hhead
      exact absurd (hdigits _ (List.mem_of_head? hhead)) (by decide)
    rw [Literal.text, scanNumber_exponent hwhole hfraction hsome hdigits hdigit hsign,
      if_neg hnonempty]
    exact hclose

/-- What the scanner takes for a number is a literal that the text does not go on with. -/
theorem scanNumber_sound (h : (scanNumber cs).1 = .number) :
    ∃ (l : Literal) (rest : List Char), cs = l.text ++ rest ∧ ¬ GoesOn rest := by
  have hends : ∀ {front rest : List Char}, NoDigit rest →
      (closeNumber (front ++ rest) front.length).1 = .number → ¬ GoesOn rest := by
    rintro front rest hdigit hclose ⟨c, hc, hc' | rfl | rfl⟩
    · exact absurd (hdigit c hc) (by simp [hc'])
    · rw [closeNumber_append, if_pos (.inl hc)] at hclose
      cases hclose
    · rw [closeNumber_append, if_pos (.inr hc)] at hclose
      cases hclose
  -- the digits before the point, the point, and the digits behind it
  have hmantissa : ∃ whole fraction rest, cs = whole ++ pointText fraction ++ rest ∧
      (∀ c ∈ whole, c.isDigit = true) ∧ (∀ c ∈ fraction.getD [], c.isDigit = true) ∧
      NoDigit rest ∧ (fraction = none → rest.head? ≠ some '.') := by
    rcases exists_digits cs with ⟨whole, rest, hcs, hwhole, hrest⟩
    by_cases hpoint : rest.head? = some '.'
    · rcases List.head?_eq_some_iff.mp hpoint with ⟨behind, hbehind⟩
      rcases exists_digits behind with ⟨fraction, rest', hsplit, hfraction, hrest'⟩
      refine ⟨whole, some fraction, rest', ?_, hwhole, hfraction, hrest', nofun⟩
      rw [hcs, hbehind, hsplit, pointText, List.append_assoc, List.cons_append]
    · refine ⟨whole, none, rest, ?_, hwhole, by simp, hrest, fun _ => hpoint⟩
      rw [hcs, pointText, List.append_nil]
  rcases hmantissa with ⟨whole, fraction, rest, rfl, hwhole, hfraction, hdigit, hpoint⟩
  by_cases hsome : whole ++ fraction.getD [] = []
  · rw [scanNumber_mantissa hwhole hfraction hdigit hpoint, if_pos hsome] at h
    cases h
  · by_cases hmarker : rest.head? = some exponentMarker
    · rcases List.head?_eq_some_iff.mp hmarker with ⟨behind, rfl⟩
      -- the sign of the exponent and its digits
      have hexponent : ∃ negative digits rest, exponentMarker :: behind =
            markerText (some (negative, digits)) ++ rest ∧
          (∀ c ∈ digits, c.isDigit = true) ∧ NoDigit rest ∧
          (negative = false → (digits ++ rest).head? ≠ some '-') := by
        by_cases hminus : behind.head? = some '-'
        · rcases List.head?_eq_some_iff.mp hminus with ⟨unsigned, hunsigned⟩
          rcases exists_digits unsigned with ⟨digits, rest', hsplit, hdigits, hrest'⟩
          refine ⟨true, digits, rest', ?_, hdigits, hrest', nofun⟩
          rw [hunsigned, hsplit]
          rfl
        · rcases exists_digits behind with ⟨digits, rest', hsplit, hdigits, hrest'⟩
          refine ⟨false, digits, rest', ?_, hdigits, hrest', fun _ => hsplit ▸ hminus⟩
          rw [hsplit]
          rfl
      rcases hexponent with ⟨negative, digits, rest', hbehind, hdigits, hrest', hsign⟩
      rw [hbehind, ← List.append_assoc, scanNumber_exponent hwhole hfraction hsome hdigits hrest'
        hsign] at h
      split_ifs at h with hnone
      let l : Literal := ⟨whole, fraction, some (negative, digits), hwhole, hfraction,
        by simpa using hdigits, hsome, by simpa using hnone⟩
      exact ⟨l, rest', by rw [hbehind, ← List.append_assoc]; rfl, hends hrest' h⟩
    · rw [scanNumber_mantissa hwhole hfraction hdigit hpoint, if_neg hsome, if_neg hmarker] at h
      let l : Literal := ⟨whole, fraction, none, hwhole, hfraction, nofun, hsome, nofun⟩
      exact ⟨l, rest, by simp [l, Literal.text, markerText], hends hdigit h⟩

/-- Where a text goes on with a digit or a point, the token is a number exactly if a literal stands
there that the text does not go on with. Then the token is this literal, and it is malformed
otherwise. -/
theorem popAt_number {position : Nat} {c : Char} (h : c.isDigit = true ∨ c = '.') :
    ((Cursor.popAt position (c :: cs)).1.kind = .number ∨
        (Cursor.popAt position (c :: cs)).1.kind = .undefined) ∧
      ((Cursor.popAt position (c :: cs)).1.kind = .number ↔
        ∃ (l : Literal) (rest : List Char), c :: cs = l.text ++ rest ∧ ¬ GoesOn rest) ∧
      ∀ (l : Literal) (rest : List Char), c :: cs = l.text ++ rest → ¬ GoesOn rest →
        Cursor.popAt position (c :: cs) =
          (⟨.number, String.ofList l.text, ⟨position, position + byteLength l.text⟩⟩,
            ⟨position + byteLength l.text, rest⟩) := by
  have hblank : ¬ isBlank c = true := by
    rcases h with hdigit | rfl
    · rw [isBlank_of_isDigit hdigit]
      decide
    · decide
  have hfirst : (c.isDigit || c = '.') = true := by
    simpa using h
  have hpop : Cursor.popAt position (c :: cs) =
      (⟨(scanNumber (c :: cs)).1, String.ofList (c :: cs.take ((scanNumber (c :: cs)).2 - 1)),
        ⟨position, position + byteLength (c :: cs.take ((scanNumber (c :: cs)).2 - 1))⟩⟩,
        ⟨position + byteLength (c :: cs.take ((scanNumber (c :: cs)).2 - 1)),
          cs.drop ((scanNumber (c :: cs)).2 - 1)⟩) := by
    rw [Cursor.popAt, if_neg hblank, scanFrom, if_pos hfirst]
  have hliteral : ∀ (l : Literal) (rest : List Char), c :: cs = l.text ++ rest → ¬ GoesOn rest →
      Cursor.popAt position (c :: cs) =
        (⟨.number, String.ofList l.text, ⟨position, position + byteLength l.text⟩⟩,
          ⟨position + byteLength l.text, rest⟩) := by
    intro l rest hcs hrest
    have hscan : scanNumber (c :: cs) = (.number, l.text.length) := by
      rw [hcs]
      exact scanNumber_complete l hrest
    rcases l.exists_text_eq_cons with ⟨d, tail, htext, -⟩
    rw [htext, List.cons_append, List.cons.injEq] at hcs
    rcases hcs with ⟨rfl, rfl⟩
    rw [hpop, hscan, htext, List.length_cons, Nat.add_sub_cancel, List.take_left, List.drop_left]
  have hkind : (Cursor.popAt position (c :: cs)).1.kind = (scanNumber (c :: cs)).1 := by
    rw [hpop]
  refine ⟨?_, ⟨?_, ?_⟩, hliteral⟩
  · rw [hkind]
    exact Grammar.scanNumber_numeric (c :: cs)
  · intro hnumber
    exact scanNumber_sound (hkind.symm.trans hnumber)
  · rintro ⟨l, rest, hcs, hrest⟩
    rw [hliteral l rest hcs hrest]

/-- A literal that stands alone is one token. -/
theorem scan_literal (l : Literal) :
    scan (String.ofList l.text) =
      [⟨.number, String.ofList l.text, ⟨0, byteLength l.text⟩⟩] := by
  have hends : ¬ GoesOn [] := by
    rintro ⟨c, hc, -⟩
    cases hc
  rcases l.exists_text_eq_cons with ⟨c, cs, htext, hfirst⟩
  have hpop : (Cursor.pop ⟨0, l.text⟩) =
      (⟨.number, String.ofList l.text, ⟨0, 0 + byteLength l.text⟩⟩,
        ⟨0 + byteLength l.text, []⟩) := by
    rw [Cursor.pop, htext, (popAt_number hfirst).2.2 l [] (by rw [htext, List.append_nil]) hends,
      htext]
  have htokens : scan (String.ofList l.text) = Cursor.tokens ⟨0, l.text⟩ := by
    rw [scan, String.toList_ofList, Cursor.tokens]
  rcases Cursor.pop_cases ⟨0, l.text⟩ with ⟨hcons, -⟩ | ⟨-, hending, -⟩
  · rw [htokens, hcons, hpop, Nat.zero_add, Cursor.tokens, scanAt]
  · rw [hpop] at hending
    cases congrArg Token.kind hending

end Scanning

end Token

/-! ## Reading -/

namespace Numeral

section Reading

variable {whole fraction : List Char}

theorem natural_eq (digits : List Char) : Literal.natural digits = ofDigits digits := by
  induction digits using List.reverseRecOn with
  | nil => rfl
  | append_singleton digits c ih =>
      rw [Literal.natural, List.reverse_append, List.reverse_singleton, List.singleton_append,
        List.map_cons, Nat.ofDigits_cons, ofDigits, List.foldl_append]
      show digitValue c + 10 * Literal.natural digits = 10 * ofDigits digits + digitValue c
      rw [ih, Nat.add_comm]

theorem ofDigits_append (first second : List Char) :
    ofDigits (first ++ second) = 10 ^ second.length * ofDigits first + ofDigits second := by
  show Nat.ofDigitChars 10 (first ++ second) 0 = _
  rw [Nat.ofDigitChars_append, Nat.ofDigitChars_eq_ofDigitChars_zero]
  rfl

theorem digitValue_lt_ten {c : Char} (h : c.isDigit = true) : digitValue c < 10 := by
  rw [Char.isDigit, Bool.and_eq_true, decide_eq_true_eq, decide_eq_true_eq] at h
  have hmost : c.toNat ≤ '9'.toNat := h.2
  have hnine : '9'.toNat = '0'.toNat + 9 := rfl
  rw [digitValue]
  omega

theorem ofDigits_lt {digits : List Char} (h : ∀ c ∈ digits, c.isDigit = true) :
    ofDigits digits < 10 ^ digits.length := by
  have hless : ∀ n ∈ digits.reverse.map digitValue, n < 10 := by
    intro n hn
    rcases List.mem_map.mp hn with ⟨c, hc, rfl⟩
    exact digitValue_lt_ten (h c (List.mem_reverse.mp hc))
  have hbound := Nat.ofDigits_lt_base_pow_length (by decide) hless
  rw [List.length_map, List.length_reverse] at hbound
  rw [← natural_eq]
  exact hbound

/-- The digits behind a point write a number that is moved behind it. -/
theorem behindPoint_eq (digits : List Char) :
    Literal.behindPoint digits = ofDigits digits / 10 ^ digits.length := by
  induction digits with
  | nil => simp [Literal.behindPoint, ofDigits]
  | cons c cs ih =>
      have hsplit : ofDigits (c :: cs) = 10 ^ cs.length * digitValue c + ofDigits cs := by
        have hone : ofDigits [c] = digitValue c := by simp [ofDigits]
        rw [← List.singleton_append, ofDigits_append, hone]
      rw [Literal.behindPoint, ih, hsplit, List.length_cons, pow_succ]
      push_cast
      field_simp

theorem exponent_markerText (negative : Bool) {digits : List Char}
    (hdigits : ∀ c ∈ digits, c.isDigit = true) :
    exponent ((if negative then ['-'] else []) ++ digits) =
      Literal.cutOff (if negative then -Literal.natural digits else Literal.natural digits) := by
  rw [natural_eq, Literal.cutOff]
  cases negative with
  | true =>
      show -((min (ofDigits digits) maxExponent : Nat) : Int) = _
      simp only [if_true]
      omega
  | false =>
      have hplain : exponent digits = (min (ofDigits digits) maxExponent : Nat) := by
        unfold exponent
        split
        · exact absurd (hdigits '-' (by simp)) (by decide)
        · rfl
      simp only [Bool.false_eq_true, if_false, List.nil_append, hplain]
      omega

theorem mantissa_parts (hwhole : ∀ c ∈ whole, c.isDigit = true) (fraction : Option (List Char)) :
    (whole ++ pointText fraction).takeWhile (· ≠ '.') = whole ∧
      ((whole ++ pointText fraction).dropWhile (· ≠ '.')).drop 1 = fraction.getD [] := by
  have hpoint : ∀ c ∈ whole, decide (c ≠ '.') = true := by
    intro c hc
    rw [decide_eq_true_eq]
    rintro rfl
    exact absurd (hwhole _ hc) (by decide)
  rw [List.takeWhile_append_of_pos hpoint, List.dropWhile_append_of_pos hpoint]
  cases fraction <;> simp [pointText]

theorem Literal.power_bounds (l : Literal) : -maxExponent ≤ l.power ∧ l.power ≤ maxExponent := by
  rw [power]
  split
  · exact ⟨by decide, by decide⟩
  · rw [cutOff]
    omega

/-- A literal is read from its digits without the point, which is made up for by a power of
ten. -/
theorem read_text (l : Literal) :
    read l.text =
      if l.fraction.getD [] = [] ∧ l.exponent = none then
        .integer (ofDigits (l.whole ++ l.fraction.getD []))
      else .decimal ⟨ofDigits (l.whole ++ l.fraction.getD []),
        (l.fraction.getD []).length - l.power⟩ := by
  rcases l with ⟨whole, fraction, power, hwhole, hfraction, hpower, hsome, hne⟩
  have hmarker : ∀ c ∈ whole ++ pointText fraction, decide (c ≠ exponentMarker) = true := by
    intro c hc
    rw [decide_eq_true_eq]
    rintro rfl
    rw [List.mem_append] at hc
    rcases hc with hc | hc
    · exact absurd (hwhole _ hc) (by decide)
    · cases fraction with
      | none => cases hc
      | some digits =>
          rcases List.mem_cons.mp hc with hc | hc
          · exact absurd hc (by decide)
          · exact absurd (hfraction _ hc) (by decide)
  have htake : (whole ++ pointText fraction ++ markerText power).takeWhile (· ≠ exponentMarker) =
      whole ++ pointText fraction := by
    rw [List.takeWhile_append_of_pos hmarker]
    cases power <;> simp [markerText]
  have hdrop : (whole ++ pointText fraction ++ markerText power).dropWhile (· ≠ exponentMarker) =
      markerText power := by
    rw [List.dropWhile_append_of_pos hmarker]
    cases power <;> simp [markerText]
  rcases mantissa_parts hwhole fraction with ⟨hbefore, hbehind⟩
  unfold read
  dsimp only [Literal.text]
  rw [htake, hdrop, hbefore, hbehind]
  cases power with
  | none => simp [markerText, List.isEmpty_iff, Literal.power]
  | some e =>
      have hexponent := exponent_markerText e.1 (hpower e rfl)
      simp only [markerText, hexponent, Literal.power, reduceCtorEq, and_false, if_false]

/-- The number that a literal writes, from its digits without the point. -/
theorem value_eq (l : Literal) :
    l.value = ofDigits (l.whole ++ l.fraction.getD []) *
      (10 : Rat) ^ (-((l.fraction.getD []).length - l.power)) := by
  have hshift : (10 : Rat) ^ (-(((l.fraction.getD []).length : Int) - l.power)) =
      10 ^ l.power / 10 ^ (l.fraction.getD []).length := by
    rw [neg_sub, zpow_sub₀ (by norm_num), zpow_natCast]
  rw [Literal.value, natural_eq, behindPoint_eq, hshift, ofDigits_append]
  push_cast
  field_simp

/-- A literal with digits behind the point or with an exponent is read as a decimal of its value,
and any other as a whole number. -/
theorem read_value (l : Literal) :
    (l.fraction.getD [] = [] ∧ l.exponent = none → read l.text = .rational l.value) ∧
      (¬ (l.fraction.getD [] = [] ∧ l.exponent = none) →
        ∃ d, read l.text = .decimal d ∧ d.mantissa * (10 : Rat) ^ (-d.scale) = l.value) := by
  rw [read_text, value_eq]
  constructor
  · rintro ⟨hfraction, hexponent⟩
    have hpower : l.power = 0 := by
      rw [Literal.power, hexponent]
    rw [if_pos ⟨hfraction, hexponent⟩, hfraction, hpower]
    simp [Expr.integer]
  · intro hdecimal
    rw [if_neg hdecimal]
    exact ⟨_, rfl, by simp⟩

end Reading

end Numeral

/-! ## Written numbers -/

namespace Token

open Numeral

/-- The digits of a mantissa, with a point between those of its whole part and the others. -/
def mantissaText (whole fraction : List Char) : List Char :=
  whole ++ (if fraction = [] then [] else '.' :: fraction)

/-- The power of ten of a number, if it has one, behind the marker. -/
def exponentText : Option Int → List Char
  | none => []
  | some n => exponentMarker :: (toString n).toList

/-- The characters of a number. -/
def literal (whole fraction : List Char) (exponent : Option Int) : List Char :=
  mantissaText whole fraction ++ exponentText exponent

/-- The digits of an exponent, and the sign before them if there is one. -/
theorem toList_toString_int (n : Int) :
    (toString n).toList =
      (if n < 0 then ['-'] else []) ++ Nat.toDigits 10 n.natAbs := by
  cases n with
  | ofNat k =>
      have hsign : ¬ (Int.ofNat k < 0) := by simp
      rw [if_neg hsign]
      exact Nat.toList_repr
  | negSucc k =>
      have hsign : Int.negSucc k < 0 := Int.negSucc_lt_zero k
      rw [if_pos hsign]
      show ("-" ++ Nat.repr (k + 1)).toList = _
      rw [String.toList_append, Nat.toList_repr]
      rfl

theorem isDigit_toDigits (n : Nat) : ∀ c ∈ Nat.toDigits 10 n, c.isDigit = true := by
  intro c hc
  exact Nat.isDigit_of_mem_toDigits (by decide) (by decide) hc

section Written

variable {whole fraction : List Char} {exponent : Option Int}

/-- The parts of a written number. -/
def written (exponent : Option Int) (hwhole : ∀ c ∈ whole, c.isDigit = true) (hsome : whole ≠ [])
    (hfraction : ∀ c ∈ fraction, c.isDigit = true) : Literal where
  whole := whole
  fraction := if fraction = [] then none else some fraction
  exponent := exponent.map fun n => (decide (n < 0), Nat.toDigits 10 n.natAbs)
  whole_digits := hwhole
  fraction_digits := by
    split_ifs
    · simp
    · exact hfraction
  exponent_digits := by
    intro e he
    rcases Option.map_eq_some_iff.mp he with ⟨n, -, rfl⟩
    exact isDigit_toDigits n.natAbs
  whole_or_fraction := by simp [hsome]
  exponent_nonempty := by
    intro e he
    rcases Option.map_eq_some_iff.mp he with ⟨n, -, rfl⟩
    exact Nat.toDigits_ne_nil

variable (hwhole : ∀ c ∈ whole, c.isDigit = true) (hsome : whole ≠ [])
  (hfraction : ∀ c ∈ fraction, c.isDigit = true)

theorem text_written :
    (written exponent hwhole hsome hfraction).text = literal whole fraction exponent := by
  have hpoint : pointText (written exponent hwhole hsome hfraction).fraction =
      if fraction = [] then [] else '.' :: fraction := by
    show pointText (if fraction = [] then none else some fraction) = _
    split_ifs <;> rfl
  have hmarker : markerText (written exponent hwhole hsome hfraction).exponent =
      exponentText exponent := by
    cases exponent with
    | none => rfl
    | some n =>
        rw [exponentText, toList_toString_int]
        simp only [written, markerText, Option.map_some, decide_eq_true_eq]
  rw [Literal.text, hpoint, hmarker]
  rfl

theorem fraction_written : (written exponent hwhole hsome hfraction).fraction.getD [] = fraction := by
  show (if fraction = [] then none else some fraction).getD [] = fraction
  split_ifs with hempty
  · exact hempty.symm
  · rfl

theorem natural_toDigits (n : Nat) : Literal.natural (Nat.toDigits 10 n) = n := by
  rw [natural_eq]
  exact Nat.ofDigitChars_ten_toDigits

theorem power_written (h : (exponent.getD 0).natAbs ≤ maxExponent) :
    (written exponent hwhole hsome hfraction).power = exponent.getD 0 := by
  cases exponent with
  | none => rfl
  | some n =>
      show Literal.cutOff (if decide (n < 0) then -(Literal.natural (Nat.toDigits 10 n.natAbs) : Int)
        else Literal.natural (Nat.toDigits 10 n.natAbs)) = n
      rw [Option.getD_some] at h
      rw [natural_toDigits, Literal.cutOff]
      simp only [decide_eq_true_eq]
      split_ifs <;> omega

include hwhole hsome hfraction

/-- What a written number is read as. -/
theorem read_literal (hexponent : (exponent.getD 0).natAbs ≤ maxExponent) :
    read (literal whole fraction exponent) =
      if fraction = [] ∧ exponent = none then .integer (ofDigits (whole ++ fraction))
      else .decimal ⟨ofDigits (whole ++ fraction), fraction.length - exponent.getD 0⟩ := by
  have hnone : (written exponent hwhole hsome hfraction).exponent = none ↔ exponent = none :=
    Option.map_eq_none_iff
  rw [← text_written hwhole hsome hfraction, read_text, fraction_written,
    power_written hwhole hsome hfraction hexponent]
  simp only [hnone]
  rfl

theorem lexemes_literal {cs : List Char} (h : Breaks cs) :
    lexemes (literal whole fraction exponent ++ cs) =
      (.number, String.ofList (literal whole fraction exponent)) :: lexemes cs := by
  have hends : ¬ GoesOn cs := by
    rintro ⟨c, hc, hdigit | rfl | rfl⟩
    · have halnum := (h c hc).1
      rw [Char.isAlphanum, hdigit, Bool.or_true] at halnum
      cases halnum
    · exact (h '.' hc).2.2.2.1 rfl
    · exact (h exponentMarker hc).2.2.2.2 rfl
  have hscanned := scanNumber_complete (written exponent hwhole hsome hfraction) hends
  rw [text_written] at hscanned
  rcases whole with _ | ⟨c, whole⟩
  · exact absurd rfl hsome
  · rcases htext : literal (c :: whole) fraction exponent with _ | ⟨d, rest⟩
    · simp [literal, mantissaText] at htext
    · have hfirst : d = c := by
        simp only [literal, mantissaText, List.cons_append, List.cons.injEq] at htext
        exact htext.1.symm
      subst hfirst
      have hdigit := hwhole d (by simp)
      rw [htext, List.cons_append, List.length_cons] at hscanned
      have hscan : scanFrom d (rest ++ cs) = (.number, rest.length) := by
        rw [scanFrom]
        simp only [hdigit, hscanned, Bool.true_or, if_true, Nat.add_sub_cancel]
      rw [List.cons_append, lexemes_cons (isBlank_of_isDigit hdigit) hscan, List.take_left,
        List.drop_left]

end Written

end Token

/-! ## Places of first digits -/

/-- The power of ten at which the first digit of a number stands. -/
def place (r : Rat) : Int :=
  Int.log 10 |r|

theorem place_eq {r : Rat} {x : Int} (hleast : (10 : Rat) ^ x ≤ |r|)
    (hmost : |r| < (10 : Rat) ^ (x + 1)) : place r = x := by
  have hpositive : 0 < |r| := lt_of_lt_of_le (zpow_pos (by norm_num) x) hleast
  rw [place]
  apply le_antisymm
  · rw [← Int.lt_add_one_iff, ← Int.lt_zpow_iff_log_lt (by decide) hpositive]
    exact_mod_cast hmost
  · rw [← Int.zpow_le_iff_le_log (by decide) hpositive]
    exact_mod_cast hleast

/-- The first of the digits of a whole number stands one place before their count, and multiplying by
a power of ten moves it. -/
theorem place_mul_zpow {n : Nat} (h : 0 < n) (k : Int) :
    place (n * 10 ^ k) = (Nat.toDigits 10 n).length - 1 + k := by
  have hlength : 0 < (Nat.toDigits 10 n).length := Nat.length_toDigits_pos
  have hleast : 10 ^ ((Nat.toDigits 10 n).length - 1) ≤ n := by
    by_cases hone : (Nat.toDigits 10 n).length = 1
    · rw [hone]
      exact h
    · rw [← Nat.not_lt, ← Nat.length_toDigits_le_iff (by decide) (by omega)]
      omega
  have hmost : n < 10 ^ (Nat.toDigits 10 n).length :=
    (Nat.length_toDigits_le_iff (by decide) hlength).mp le_rfl
  have hpower : (0 : Rat) < 10 ^ k := zpow_pos (by norm_num) k
  have habs : |(n : Rat) * 10 ^ k| = n * 10 ^ k :=
    abs_of_nonneg (mul_nonneg (Nat.cast_nonneg n) hpower.le)
  apply place_eq
  · have hfirst : ((Nat.toDigits 10 n).length - 1 + k : Int) =
        ((Nat.toDigits 10 n).length - 1 : Nat) + k := by omega
    rw [habs, hfirst, zpow_add₀ (by norm_num), zpow_natCast]
    apply mul_le_mul_of_nonneg_right _ hpower.le
    exact_mod_cast hleast
  · have hnext : ((Nat.toDigits 10 n).length - 1 + k + 1 : Int) =
        ((Nat.toDigits 10 n).length : Nat) + k := by omega
    rw [habs, hnext, zpow_add₀ (by norm_num), zpow_natCast]
    apply mul_lt_mul_of_pos_right _ hpower
    exact_mod_cast hmost

/-! ## Values of decimals -/

namespace Decimal

variable {d : Decimal}

/-- The number that a decimal denotes. -/
def number (d : Decimal) : Rat :=
  d.mantissa * 10 ^ (-d.scale)

theorem toRat_eq_number (d : Decimal) : d.toRat = d.number := by
  have hpower : ∀ m, ((powerOfTen m : Nat) : Rat) = 10 ^ m := by
    intro m
    rw [powerOfTen, Nat.pow_eq, Nat.cast_pow]
    rfl
  rw [toRat, number]
  split_ifs with hscale
  · have hcast : -d.scale = -(d.scale.toNat : Int) := by omega
    rw [Rat.mkRat_eq_div, hpower, hcast, zpow_neg, zpow_natCast, div_eq_mul_inv]
  · have hcast : (10 : Rat) ^ (-d.scale) = 10 ^ (-d.scale).toNat := by
      rw [← zpow_natCast, Int.toNat_of_nonneg (by omega)]
    rw [Int.cast_mul, Int.cast_natCast, hpower, hcast]

theorem abs_number (d : Decimal) : |d.number| = d.mantissa.natAbs * (10 : Rat) ^ (-d.scale) := by
  have hpower : (0 : Rat) < 10 ^ (-d.scale) := zpow_pos (by norm_num) _
  rw [number, abs_mul, abs_of_pos hpower, Nat.cast_natAbs, Int.cast_abs]

theorem number_neg : d.number < 0 ↔ d.mantissa < 0 := by
  have hpower : (0 : Rat) < 10 ^ (-d.scale) := zpow_pos (by norm_num) _
  rw [number, ← not_le, mul_nonneg_iff_of_pos_right hpower, not_le, Int.cast_lt_zero]

theorem place_number (h : d.mantissa ≠ 0) : place d.number = d.exponent := by
  have habs : place d.number = place (d.mantissa.natAbs * (10 : Rat) ^ (-d.scale)) := by
    rw [← abs_number, place, place, abs_abs]
  rw [habs, place_mul_zpow (Int.natAbs_pos.mpr h), exponent, if_neg h, digits]
  omega

/-- A decimal has its exact value if the first digit of the number is near enough to the point. It
overflows or underflows otherwise. -/
theorem value_cases (d : Decimal) (h : d.mantissa ≠ 0) :
    (-1000 ≤ place d.number ∧ place d.number ≤ 1000 → d.value = .finite d.number) ∧
      (1000 < place d.number → d.value = .overflow (d.number < 0)) ∧
      (place d.number < -1000 → d.value = .underflow) := by
  rw [place_number h, value, if_neg h, maxExponent, toRat_eq_number]
  refine ⟨?_, ?_, ?_⟩
  · intro hnear
    rw [if_neg (by omega), if_neg (by omega)]
  · intro hlarge
    rw [if_pos hlarge]
    simp only [number_neg]
  · intro hsmall
    rw [if_neg (by omega), if_pos hsmall]

end Decimal

namespace Numeral

open Token

/-- Literals are recognised and read exactly. Wherever a text goes on with a digit or a point, a
number is taken from it exactly if a literal stands there that the text does not go on with, and then
it is this literal. A literal is read as a whole number or as a decimal of the value that it writes;
and a decimal has its exact value in arithmetic, unless it is so large or so small that it overflows
or underflows. -/
theorem literals_exact :
    (∀ (position : Nat) (c : Char) (cs : List Char), c.isDigit = true ∨ c = '.' →
      ((Cursor.popAt position (c :: cs)).1.kind = .number ∨
          (Cursor.popAt position (c :: cs)).1.kind = .undefined) ∧
        ((Cursor.popAt position (c :: cs)).1.kind = .number ↔
          ∃ (l : Literal) (rest : List Char), c :: cs = l.text ++ rest ∧ ¬ GoesOn rest) ∧
        ∀ (l : Literal) (rest : List Char), c :: cs = l.text ++ rest → ¬ GoesOn rest →
          Cursor.popAt position (c :: cs) =
            (⟨.number, String.ofList l.text, ⟨position, position + byteLength l.text⟩⟩,
              ⟨position + byteLength l.text, rest⟩)) ∧
      (∀ l : Literal,
        (l.fraction.getD [] = [] ∧ l.exponent = none → read l.text = .rational l.value) ∧
          (¬ (l.fraction.getD [] = [] ∧ l.exponent = none) →
            ∃ d, read l.text = .decimal d ∧ d.number = l.value)) ∧
      ∀ d : Decimal, d.mantissa ≠ 0 →
        (-1000 ≤ place d.number ∧ place d.number ≤ 1000 → d.value = .finite d.number) ∧
          (1000 < place d.number → d.value = .overflow (d.number < 0)) ∧
          (place d.number < -1000 → d.value = .underflow) := by
  refine ⟨?_, ?_, ?_⟩
  · intro position c cs hfirst
    exact popAt_number hfirst
  · exact read_value
  · intro d hnonzero
    exact d.value_cases hnonzero

end Numeral

end PocketAlgebra
