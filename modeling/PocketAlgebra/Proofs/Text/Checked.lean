import PocketAlgebra.Proofs.Codec.Safety
import PocketAlgebra.Proofs.Reduction.Yields
import PocketAlgebra.Proofs.Text.Literals
import PocketAlgebra.Proofs.Text.Rounding
import PocketAlgebra.Text.Checked

/-!
# Where decimals break off

A decimal literal that has been read from bytes has a scale of 64 bits, at either end of which the
places of its digits are out of reach. There are three of them: the place of the leading digit of a
very large number, that place after a carry, and the multiple of three below the place of the only
digit of the smallest number. Everywhere else the computations with 64 bits give what those with
integers of any size give.
-/

namespace PocketAlgebra

namespace Decimal

variable {d : Decimal} {mode : FloatMode} {significant : Nat}

/-- The place of the leading digit of a literal has a form of 64 bits. -/
structure PlaceFits (d : Decimal) : Prop where
  length : d.digits.length < 2 ^ 63
  place : (d.digits.length : Int) ≤ d.scale + 2 ^ 63

/-- All places that are computed when a literal is written have a form of 64 bits: if the leading
digit stands at the last one that has, there is no carry out of it, and a single digit does not
stand at the first one in engineering mode. -/
structure TextFits (d : Decimal) (mode : FloatMode) (significant : Nat) : Prop extends
    d.PlaceFits where
  carry : (d.digits.length : Int) = d.scale + 2 ^ 63 →
    (Scientific.round ⟨d.digits, d.exponent⟩ significant).exponent = d.exponent
  multiple : mode = .engineering → d.digits.length = 1 → d.scale ≠ 2 ^ 63 - 1

/-! ## The place of the leading digit -/

theorem exponent_of_ne_zero (h : d.mantissa ≠ 0) : d.exponent = d.digits.length - 1 - d.scale :=
  if_neg h

theorem length_digits_pos (d : Decimal) : 0 < d.digits.length :=
  Nat.length_toDigits_pos

theorem checkedExponent?_eq_some_iff (h : d.mantissa ≠ 0) (hmost : d.scale < 2 ^ 63) {e : Int} :
    d.checkedExponent? = some e ↔ d.PlaceFits ∧ d.exponent = e := by
  have hlength := d.length_digits_pos
  rw [checkedExponent?, if_neg h, exponent_of_ne_zero h]
  constructor
  · intro hsome
    rcases Option.bind_eq_some_iff.mp hsome with ⟨length, hfirst, hsome⟩
    rcases Option.bind_eq_some_iff.mp hsome with ⟨above, hsecond, hthird⟩
    obtain ⟨⟨-, hlong⟩, rfl⟩ := int64?_eq_some_iff.mp hfirst
    obtain ⟨-, rfl⟩ := int64?_eq_some_iff.mp hsecond
    obtain ⟨⟨-, hplace⟩, rfl⟩ := int64?_eq_some_iff.mp hthird
    exact ⟨⟨by omega, by omega⟩, rfl⟩
  · rintro ⟨⟨hlong, hplace⟩, rfl⟩
    rw [int64?_of_fits (by omega) (by omega), Option.bind_eq_bind, Option.bind_some,
      int64?_of_fits (by omega) (by omega), Option.bind_some,
      int64?_of_fits (by omega) (by omega)]

theorem checkedValue?_eq_some_iff (h : d.mantissa ≠ 0) (hmost : d.scale < 2 ^ 63) {v : Value} :
    d.checkedValue? = some v ↔ d.PlaceFits ∧ d.value = v := by
  rw [checkedValue?, if_neg h, value, if_neg h, Option.map_eq_some_iff]
  constructor
  · rintro ⟨e, hexponent, rfl⟩
    obtain ⟨hfits, rfl⟩ := (checkedExponent?_eq_some_iff h hmost).mp hexponent
    exact ⟨hfits, rfl⟩
  · rintro ⟨hfits, rfl⟩
    exact ⟨d.exponent, (checkedExponent?_eq_some_iff h hmost).mpr ⟨hfits, rfl⟩, rfl⟩

theorem isSome_checkedValue?_iff (hmost : d.scale < 2 ^ 63) :
    d.checkedValue?.isSome = true ↔ (d.mantissa ≠ 0 → d.PlaceFits) := by
  rw [Option.isSome_iff_exists]
  by_cases hzero : d.mantissa = 0
  · exact ⟨fun _ hnonzero => absurd hzero hnonzero, fun _ => ⟨.finite 0, if_pos hzero⟩⟩
  · simp only [checkedValue?_eq_some_iff hzero hmost, exists_and_left, exists_eq', and_true,
      ne_eq, hzero, not_false_eq_true, forall_const]

end Decimal

/-! ## Rounding and writing -/

namespace Scientific

variable {x y : Scientific} {mode : FloatMode} {significant : Nat}

theorem round_exponent_of_short (h : x.digits.length ≤ max significant 1) :
    (x.round significant).exponent = x.exponent := by
  rw [round, if_pos h]

theorem round_exponent_cases (x : Scientific) (significant : Nat) :
    (x.round significant).exponent = x.exponent ∨
      (x.round significant).exponent = x.exponent + 1 := by
  rw [round]
  dsimp only
  split_ifs
  · exact .inl rfl
  · exact .inr rfl
  · exact .inl rfl

theorem checkedRound?_eq_some_iff (hleast : -2 ^ 63 ≤ x.exponent) (hmost : x.exponent < 2 ^ 63) :
    x.checkedRound? significant = some y ↔
      (x.round significant).exponent < 2 ^ 63 ∧ x.round significant = y := by
  rw [checkedRound?]
  rcases x.round_exponent_cases significant with hsame | hcarry
  · rw [if_pos hsame, Option.some.injEq, hsame]
    exact ⟨fun h => ⟨hmost, h⟩, fun h => h.2⟩
  · rw [if_neg (by omega), Option.map_eq_some_iff, ← hcarry]
    constructor
    · rintro ⟨e, he, rfl⟩
      obtain ⟨hfits, rfl⟩ := int64?_eq_some_iff.mp he
      exact ⟨by omega, rfl⟩
    · rintro ⟨hfits, rfl⟩
      exact ⟨_, int64?_of_fits (by omega) (by omega), rfl⟩

theorem checkedWrite?_eq_some_iff (hmost : x.exponent < 2 ^ 63) {body : List Char} :
    x.checkedWrite? mode significant = some body ↔
      (mode = .engineering → -2 ^ 63 + 2 ≤ x.exponent) ∧ x.write mode significant = body := by
  cases mode with
  | decimal | scientific =>
      rw [checkedWrite?, Option.some.injEq]
      exact ⟨fun h => ⟨nofun, h⟩, fun h => h.2⟩
  | engineering =>
      rw [checkedWrite?, Option.map_eq_some_iff]
      constructor
      · rintro ⟨multiple, hmultiple, rfl⟩
        obtain ⟨⟨hleast, -⟩, rfl⟩ := int64?_eq_some_iff.mp hmultiple
        exact ⟨fun _ => by omega, rfl⟩
      · rintro ⟨hleast, rfl⟩
        have hexponent := hleast rfl
        exact ⟨_, int64?_of_fits (by omega) (by omega), rfl⟩

theorem checkedFormat?_eq_some_iff (hleast : -2 ^ 63 ≤ x.exponent) (hmost : x.exponent < 2 ^ 63)
    (hdigits : (x.round significant).digits ≠ []) {negative : Bool} {text : String} :
    x.checkedFormat? negative mode significant = some text ↔
      ((x.round significant).exponent < 2 ^ 63 ∧
        (mode = .engineering → -2 ^ 63 + 2 ≤ (x.round significant).exponent)) ∧
      x.format negative mode significant = text := by
  have hnonempty : ¬ (x.round significant).digits.isEmpty = true := by simpa using hdigits
  rw [checkedFormat?, format]
  dsimp only
  rw [if_neg hnonempty]
  constructor
  · intro hsome
    rcases Option.bind_eq_some_iff.mp hsome with ⟨rounded, hround, hwritten⟩
    obtain ⟨hplace, rfl⟩ := (checkedRound?_eq_some_iff hleast hmost).mp hround
    rw [if_neg hnonempty] at hwritten
    rcases Option.map_eq_some_iff.mp hwritten with ⟨body, hbody, rfl⟩
    obtain ⟨hmultiple, rfl⟩ := (checkedWrite?_eq_some_iff hplace).mp hbody
    exact ⟨⟨hplace, hmultiple⟩, rfl⟩
  · rintro ⟨⟨hplace, hmultiple⟩, rfl⟩
    rw [(checkedRound?_eq_some_iff hleast hmost).mpr ⟨hplace, rfl⟩, Option.bind_some,
      if_neg hnonempty, (checkedWrite?_eq_some_iff hplace).mpr ⟨hmultiple, rfl⟩, Option.map_some]

end Scientific

namespace Decimal

variable {d : Decimal} {mode : FloatMode} {significant : Nat}

theorem digits_round_ne_nil (h : d.mantissa ≠ 0) (e : Int) (significant : Nat) :
    (Scientific.round ⟨d.digits, e⟩ significant).digits ≠ [] := by
  rcases exists_roundsTo (Int.natAbs_pos.mpr h) e significant with ⟨core, e', hrounds⟩
  rw [digits, hrounds.round]
  exact Nat.toDigits_ne_nil

theorem textFits_iff (h : d.mantissa ≠ 0) (hmost : d.scale < 2 ^ 63) :
    d.TextFits mode significant ↔ d.PlaceFits ∧
      (Scientific.round ⟨d.digits, d.exponent⟩ significant).exponent < 2 ^ 63 ∧
      (mode = .engineering →
        -2 ^ 63 + 2 ≤ (Scientific.round ⟨d.digits, d.exponent⟩ significant).exponent) := by
  have hlength := d.length_digits_pos
  have hexponent := exponent_of_ne_zero h
  have hround : (Scientific.round ⟨d.digits, d.exponent⟩ significant).exponent = d.exponent ∨
      (Scientific.round ⟨d.digits, d.exponent⟩ significant).exponent = d.exponent + 1 :=
    Scientific.round_exponent_cases _ significant
  have hshort : d.digits.length ≤ max significant 1 →
      (Scientific.round ⟨d.digits, d.exponent⟩ significant).exponent = d.exponent :=
    fun hlength => Scientific.round_exponent_of_short hlength
  constructor
  · rintro ⟨hplace, hcarry, hmultiple⟩
    have htop := hplace.place
    refine ⟨hplace, ?_, fun hmode => ?_⟩
    · rcases Decidable.em ((d.digits.length : Int) = d.scale + 2 ^ 63) with hlast | hbelow
      · rw [hcarry hlast]
        omega
      · omega
    · have hbottom := hmultiple hmode
      omega
  · rintro ⟨hplace, htop, hbottom⟩
    refine ⟨hplace, fun hlast => by omega, fun hmode hsingle hscale => ?_⟩
    have hleast := hbottom hmode
    rw [hshort (by omega)] at hleast
    omega

theorem checkedFormat?_eq_some_iff (h : d.mantissa ≠ 0) (hmost : d.scale < 2 ^ 63) {text : String} :
    d.checkedFormat? mode significant = some text ↔
      d.TextFits mode significant ∧ d.format mode significant = text := by
  have hlength := d.length_digits_pos
  have hexponent := exponent_of_ne_zero h
  have hdigits := digits_round_ne_nil h d.exponent significant
  rw [checkedFormat?, if_neg h, format, if_neg h, textFits_iff h hmost]
  constructor
  · intro hsome
    rcases Option.bind_eq_some_iff.mp hsome with ⟨e, he, hwritten⟩
    obtain ⟨hplace, rfl⟩ := (checkedExponent?_eq_some_iff h hmost).mp he
    have htop := hplace.place
    have hformat := (Scientific.checkedFormat?_eq_some_iff (by dsimp only; omega)
      (by dsimp only; omega) hdigits).mp hwritten
    exact ⟨⟨hplace, hformat.1⟩, hformat.2⟩
  · rintro ⟨⟨hplace, hrest⟩, hformat⟩
    have htop := hplace.place
    rw [(checkedExponent?_eq_some_iff h hmost).mpr ⟨hplace, rfl⟩, Option.bind_some]
    exact (Scientific.checkedFormat?_eq_some_iff (by dsimp only; omega) (by dsimp only; omega)
      hdigits).mpr ⟨hrest, hformat⟩

theorem isSome_checkedFormat?_iff (hmost : d.scale < 2 ^ 63) :
    (d.checkedFormat? mode significant).isSome = true ↔
      (d.mantissa ≠ 0 → d.TextFits mode significant) := by
  rw [Option.isSome_iff_exists]
  by_cases hzero : d.mantissa = 0
  · exact ⟨fun _ hnonzero => absurd hzero hnonzero, fun _ => ⟨"0", if_pos hzero⟩⟩
  · simp only [checkedFormat?_eq_some_iff hzero hmost, exists_and_left, exists_eq', and_true,
      ne_eq, hzero, not_false_eq_true, forall_const]

end Decimal

/-! ## Decimals that have been read from text -/

namespace Numeral.Literal

variable {l : Literal} {d : Decimal}

/-- The exponent of a literal has been cut off, so that its digits do not stand far away from the
point. -/
theorem bounds_of_read (h : read l.text = .decimal d) :
    d.digits.length ≤ (l.whole ++ l.fraction.getD []).length ∧ -maxExponent ≤ d.scale ∧
      d.scale ≤ (l.whole ++ l.fraction.getD []).length + maxExponent := by
  have hdigits : ∀ c ∈ l.whole ++ l.fraction.getD [], c.isDigit = true :=
    List.forall_mem_append.mpr ⟨l.whole_digits, l.fraction_digits⟩
  have hsome : 0 < (l.whole ++ l.fraction.getD []).length :=
    List.length_pos_of_ne_nil l.whole_or_fraction
  have hfraction : (l.fraction.getD []).length ≤ (l.whole ++ l.fraction.getD []).length := by
    rw [List.length_append]
    exact Nat.le_add_left ..
  have hpower := l.power_bounds
  rw [read_text] at h
  split at h
  · cases h
  · obtain rfl := Expr.decimal.inj h
    refine ⟨(Nat.length_toDigits_le_iff (by decide) hsome).mpr (ofDigits_lt hdigits), ?_, ?_⟩
    · dsimp only
      omega
    · dsimp only
      omega

/-- A decimal that has been read from text can be written in all modes. -/
theorem checkedFormat?_of_read (h : read l.text = .decimal d)
    (hlength : (l.whole ++ l.fraction.getD []).length < 2 ^ 62) (mode : FloatMode)
    (significant : Nat) :
    d.checkedFormat? mode significant = some (d.format mode significant) := by
  have hbounds := bounds_of_read h
  rw [maxExponent] at hbounds
  by_cases hzero : d.mantissa = 0
  · rw [Decimal.checkedFormat?, Decimal.format, if_pos hzero, if_pos hzero]
  · have hfits : d.TextFits mode significant :=
      ⟨⟨by omega, by omega⟩, fun hlast => by omega, fun _ _ => by omega⟩
    exact (Decimal.checkedFormat?_eq_some_iff hzero (by omega)).mpr ⟨hfits, rfl⟩

end Numeral.Literal

/-! ## Decimals that have been read from bytes -/

namespace Expr

theorem mem_decimalsAll {d : Decimal} {xs : List Expr} :
    d ∈ decimalsAll xs ↔ ∃ x ∈ xs, d ∈ x.decimals := by
  induction xs with
  | nil => simp [decimalsAll]
  | cons x xs ih => simp [decimalsAll, ih]

theorem CodecValid.scale_fits {x : Expr} (h : x.CodecValid) {d : Decimal} (hd : d ∈ x.decimals) :
    -2 ^ 63 ≤ d.scale ∧ d.scale < 2 ^ 63 := by
  induction h with
  | @node x hpayload _ _ ih =>
      cases x with
      | decimal d' =>
          rw [decimals, List.mem_singleton] at hd
          rw [hd]
          exact hpayload
      | apply f xs =>
          rw [decimals] at hd
          rcases mem_decimalsAll.mp hd with ⟨y, hy, hmem⟩
          exact ih y hy hmem
      | _ => cases hd

/-- A tree that has been read from bytes is written just where all its decimals are. -/
theorem checkedText?_of_decode {free : Nat} {bytes : List UInt8} {x : Expr}
    (h : Expr.decode free bytes = .ok x) (style : NumberStyle) {text : String} :
    x.checkedText? style = some text ↔
      (∀ d ∈ x.decimals, d.mantissa ≠ 0 → d.TextFits style.mode style.significant) ∧
        x.toText style = text := by
  have hwritten : (x.decimals.all fun d =>
      (d.checkedFormat? style.mode style.significant).isSome) = true ↔
        ∀ d ∈ x.decimals, d.mantissa ≠ 0 → d.TextFits style.mode style.significant := by
    rw [List.all_eq_true]
    exact forall₂_congr fun d hd =>
      Decimal.isSome_checkedFormat?_iff ((codecValid_of_decode h).1.scale_fits hd).2
  rw [checkedText?, Option.ite_none_right_eq_some, hwritten, Option.some.injEq]

/-- A tree that has been read from bytes can be compared and reduced just where the leading digits
of its decimals are within reach. -/
theorem decimalsHaveValues_of_decode {free : Nat} {bytes : List UInt8} {x : Expr}
    (h : Expr.decode free bytes = .ok x) :
    x.decimalsHaveValues = true ↔ ∀ d ∈ x.decimals, d.mantissa ≠ 0 → d.PlaceFits := by
  rw [decimalsHaveValues, List.all_eq_true]
  exact forall₂_congr fun d hd =>
    Decimal.isSome_checkedValue?_iff ((codecValid_of_decode h).1.scale_fits hd).2

/-- The places of the digits of a decimal that has been read from bytes: that of the leading digit
is found, and with it the value, just where it has a form of 64 bits; and the decimal is written
just where all places have one that are computed for it. What is found is what the rules with
integers of any size say. -/
theorem decimals_of_decode {free : Nat} {bytes : List UInt8} {x : Expr}
    (h : Expr.decode free bytes = .ok x) {d : Decimal} (hd : d ∈ x.decimals)
    (hnonzero : d.mantissa ≠ 0) :
    (∀ e, d.checkedExponent? = some e ↔ d.PlaceFits ∧ d.exponent = e) ∧
    (∀ v, d.checkedValue? = some v ↔ d.PlaceFits ∧ d.value = v) ∧
    ∀ mode significant text, d.checkedFormat? mode significant = some text ↔
      d.TextFits mode significant ∧ d.format mode significant = text := by
  have hmost := ((codecValid_of_decode h).1.scale_fits hd).2
  exact ⟨fun _ => Decimal.checkedExponent?_eq_some_iff hnonzero hmost,
    fun _ => Decimal.checkedValue?_eq_some_iff hnonzero hmost,
    fun _ _ _ => Decimal.checkedFormat?_eq_some_iff hnonzero hmost⟩

/-- The leading digit of a number with two digits stands at the last place there is. -/
theorem decimals_of_decode_lastPlace :
    ∃ x, Expr.decode 1024 [95, 1, 123, 255, 255, 255, 255, 255, 255, 255, 255, 129, 0, 3] = .ok x ∧
      x.decimals = [⟨95, 2 - 2 ^ 63⟩] ∧
      (Decimal.mk 95 (2 - 2 ^ 63)).checkedExponent? = some (2 ^ 63 - 1) ∧
      (Decimal.mk 95 (2 - 2 ^ 63)).checkedFormat? .scientific 2 =
        some "9.5ᴇ9223372036854775807" := by
  have hread : (Expr.decode 1024
      [95, 1, 123, 255, 255, 255, 255, 255, 255, 255, 255, 129, 0, 3]).toOption.map decimals =
        some [⟨95, 2 - 2 ^ 63⟩] := by
    decide +kernel
  rcases Reduction.exists_ok hread with ⟨x, hx, hdecimals⟩
  rcases decimals_of_decode hx (by rw [hdecimals]; exact List.mem_singleton_self _) (by decide) with
    ⟨hexponent, -, htext⟩
  have hplace : (Decimal.mk 95 (2 - 2 ^ 63)).PlaceFits := ⟨by decide +kernel, by decide +kernel⟩
  refine ⟨x, hx, hdecimals, (hexponent _).mpr ⟨hplace, by decide +kernel⟩, ?_⟩
  exact (htext _ _ _).mpr ⟨⟨hplace, fun _ => by decide +kernel, nofun⟩, by decide +kernel⟩

/-- Bytes that are read as decimals for which each of the places is out of reach: the leading digit
of a number, the one before it that a carry moves to, and the multiple of three below the first
place. -/
theorem decimals_beyond_places :
    ((Expr.decode 1024 [1, 1, 127, 255, 255, 255, 255, 255, 255, 255, 255, 129, 0, 3]).toOption.map
        decimals = some [⟨1, -2 ^ 63⟩] ∧
      (Decimal.mk 1 (-2 ^ 63)).checkedExponent? = none) ∧
    ((Expr.decode 1024 [95, 1, 123, 255, 255, 255, 255, 255, 255, 255, 255, 129, 0, 3]).toOption.map
        decimals = some [⟨95, 2 - 2 ^ 63⟩] ∧
      (Decimal.mk 95 (2 - 2 ^ 63)).checkedFormat? .scientific 1 = none) ∧
    (Expr.decode 1024 [1, 1, 126, 255, 255, 255, 255, 255, 255, 255, 255, 129, 0, 3]).toOption.map
        decimals = some [⟨1, 2 ^ 63 - 1⟩] ∧
      (Decimal.mk 1 (2 ^ 63 - 1)).checkedFormat? .engineering 10 = none := by
  decide +kernel

end Expr

end PocketAlgebra
