import Mathlib.Analysis.SpecialFunctions.Trigonometric.Complex
import PocketAlgebra.Proofs.Circular.Surds

/-!
# Exact values of circular functions

Sine, cosine and tangent have an exact value for the tabulated angles, and for no others. The value
is that of the function, and undefined where the tangent has a pole.

An angle of so many half turns is written as a number of degrees or gradians, or as a multiple of a
half turn in radians. Reduction brings every angle into the form of its unit.
-/

namespace PocketAlgebra

/-- Sine, cosine and tangent. -/
inductive CircularFunction where
  | sine
  | cosine
  | tangent

namespace CircularFunction

/-- The operator of a circular function. -/
def operator : CircularFunction → Operator
  | sine => .sine
  | cosine => .cosine
  | tangent => .tangent

open Classical in
/-- The value at an angle in radians; the tangent has none at its poles. -/
noncomputable def at? : CircularFunction → ℂ → Option ℂ
  | sine, z => some (Complex.sin z)
  | cosine, z => some (Complex.cos z)
  | tangent, z => if Complex.cos z = 0 then none else some (Complex.tan z)

end CircularFunction

namespace Reduction

variable {t : ℚ} {s c : Surd} {ctx : Context} {node : NodeReducer} {g : CircularFunction}

/-! ## Which angles have values -/

theorem exactCircular?_sine (node : NodeReducer) (t : ℚ) :
    exactCircular? node CircularFunction.sine.operator t =
      (exactSine? t).map fun s => (pure s.toExpr : ReduceM Expr) := by
  unfold exactCircular?
  rfl

theorem exactCircular?_cosine (node : NodeReducer) (t : ℚ) :
    exactCircular? node CircularFunction.cosine.operator t =
      (exactCosine? t).map fun c => (pure c.toExpr : ReduceM Expr) := by
  unfold exactCircular?
  rfl

theorem exactCircular?_tangent (node : NodeReducer) (t : ℚ) :
    exactCircular? node CircularFunction.tangent.operator t = exactTangent? node t := by
  unfold exactCircular?
  rfl

theorem exactTangent?_eq (node : NodeReducer) (hs : exactSine? t = some s)
    (hc : exactCosine? t = some c) :
    exactTangent? node t =
      if c.coefficient = 0 then some (pure .undefined)
      else some (do multiply node [s.toExpr, ← invert node c.toExpr]) := by
  unfold exactTangent?
  rw [hs, hc]

theorem isSome_exactTangent?_iff (node : NodeReducer) (t : ℚ) :
    (exactTangent? node t).isSome = true ↔ IsTabulated t := by
  have hsine := isSome_exactSine?_iff t
  have hcosine := isSome_exactCosine?_iff t
  cases hs : exactSine? t with
  | none =>
      rw [hs] at hsine
      unfold exactTangent?
      rwa [hs]
  | some s =>
      cases hc : exactCosine? t with
      | none =>
          rw [hc] at hcosine
          unfold exactTangent?
          rwa [hs, hc]
      | some c =>
          rw [hs] at hsine
          rw [exactTangent?_eq node hs hc, ← hsine]
          split <;> rfl

/-- There is an exact value for the multiples of a quarter and of a sixth of a half turn only. -/
theorem isSome_exactCircular?_iff (node : NodeReducer) (g : CircularFunction) (t : ℚ) :
    (exactCircular? node g.operator t).isSome = true ↔ IsTabulated t := by
  cases g with
  | sine => rw [exactCircular?_sine, Option.isSome_map, isSome_exactSine?_iff]
  | cosine => rw [exactCircular?_cosine, Option.isSome_map, isSome_exactCosine?_iff]
  | tangent => rw [exactCircular?_tangent, isSome_exactTangent?_iff]

/-! ## Their values -/

theorem complex_sin_of_exactSine? (h : exactSine? t = some s) :
    Complex.sin (Real.pi * t) = s.value := by
  rw [← sin_of_exactSine? h]
  push_cast
  rfl

theorem complex_cos_of_exactCosine? (h : exactCosine? t = some c) :
    Complex.cos (Real.pi * t) = c.value := by
  rw [← cos_of_exactCosine? h]
  push_cast
  rfl

/-- The cosine vanishes at the odd multiples of a quarter turn. -/
theorem cos_eq_zero_iff (t : ℚ) : Complex.cos (Real.pi * t) = 0 ↔ ∃ k : ℤ, t - 1 / 2 = k := by
  rw [Complex.cos_eq_zero_iff]
  refine exists_congr fun k => ?_
  have hpi : (Real.pi : ℂ) ≠ 0 := Complex.ofReal_ne_zero.mpr Real.pi_ne_zero
  have hangle : ((2 * k + 1) * Real.pi / 2 : ℂ) = Real.pi * ((k + 1 / 2 : ℚ) : ℂ) := by
    push_cast
    ring
  rw [hangle, mul_right_inj' hpi, Rat.cast_inj, sub_eq_iff_eq_add]

theorem surds_radicand_pos : ∀ s ∈ surds, 0 < s.radicand := by
  decide +kernel

theorem Surd.value_eq_zero_iff (h : 0 < c.radicand) : c.value = 0 ↔ c.coefficient = 0 := by
  rw [Surd.value, mul_eq_zero, Rat.cast_eq_zero, or_iff_left]
  exact Real.sqrt_ne_zero'.mpr (Nat.cast_pos.mpr h)

theorem Surd.radicand_quotient_pos (hs : 0 < s.radicand) (hc : 0 < c.radicand) :
    0 < (s.times c.inverse).radicand := by
  rw [Surd.times]
  split
  · exact one_pos
  · exact Nat.mul_pos hs hc

theorem Surd.toExpr_ne_undefined (s : Surd) : s.toExpr ≠ .undefined := by
  intro h
  have hplain := s.plain_toExpr.2.2
  rw [h] at hplain
  nomatch hplain

/-- The exact value of a circular function at a tabulated angle. -/
structure IsExactValue (g : CircularFunction) (t : ℚ) (x : Expr) : Prop where
  principal_eq : ∀ σ, x.principal? σ = g.at? (Real.pi * t)
  undefined_iff : x = .undefined ↔ g = .tangent ∧ ∃ k : ℤ, t - 1 / 2 = k

theorem coefficient_eq_zero_iff (h : exactCosine? t = some c) :
    c.coefficient = 0 ↔ Complex.cos (Real.pi * t) = 0 := by
  rw [complex_cos_of_exactCosine? h, Complex.ofReal_eq_zero,
    c.value_eq_zero_iff (surds_radicand_pos c (mem_surds_of_exactCosine? h))]

/-- What a circular function is at an angle with this sine and cosine. -/
def exactValue (g : CircularFunction) (sine cosine : Surd) : Expr :=
  match g with
  | .sine => sine.toExpr
  | .cosine => cosine.toExpr
  | .tangent =>
    if cosine.coefficient = 0 then .undefined else (sine.times cosine.inverse).toExpr

theorem principal?_quotient (σ : Assignment) (hs : exactSine? t = some s)
    (hc : exactCosine? t = some c) (hpole : Complex.cos (Real.pi * t) ≠ 0) :
    (s.times c.inverse).toExpr.principal? σ = CircularFunction.tangent.at? (Real.pi * t) := by
  have hpos := Surd.radicand_quotient_pos
    (surds_radicand_pos s (mem_surds_of_exactSine? hs))
    (surds_radicand_pos c (mem_surds_of_exactCosine? hc))
  rw [Surd.principal?_toExpr σ _ hpos, CircularFunction.at?, if_neg hpole, Complex.tan,
    complex_sin_of_exactSine? hs, complex_cos_of_exactCosine? hc, Surd.value_times,
    Surd.value_inverse, ← div_eq_mul_inv, Complex.ofReal_div]

theorem isExactValue_exactValue (g : CircularFunction) (hs : exactSine? t = some s)
    (hc : exactCosine? t = some c) : IsExactValue g t (exactValue g s c) := by
  cases g with
  | sine =>
      refine ⟨fun σ => ?_, iff_of_false s.toExpr_ne_undefined nofun⟩
      rw [exactValue, s.principal?_toExpr σ (surds_radicand_pos s (mem_surds_of_exactSine? hs)),
        CircularFunction.at?, complex_sin_of_exactSine? hs]
  | cosine =>
      refine ⟨fun σ => ?_, iff_of_false c.toExpr_ne_undefined nofun⟩
      rw [exactValue, c.principal?_toExpr σ (surds_radicand_pos c (mem_surds_of_exactCosine? hc)),
        CircularFunction.at?, complex_cos_of_exactCosine? hc]
  | tangent =>
      have hpole := coefficient_eq_zero_iff hc
      by_cases hcosine : c.coefficient = 0
      · rw [exactValue, if_pos hcosine]
        refine ⟨fun σ => ?_, iff_of_true rfl ⟨rfl, (cos_eq_zero_iff t).mp (hpole.mp hcosine)⟩⟩
        rw [CircularFunction.at?, if_pos (hpole.mp hcosine)]
        rfl
      · rw [exactValue, if_neg hcosine]
        exact ⟨fun σ => principal?_quotient σ hs hc (mt hpole.mpr hcosine),
          iff_of_false (Surd.toExpr_ne_undefined _)
            fun h => hcosine (hpole.mpr ((cos_eq_zero_iff t).mpr h.2))⟩

/-- The rule for exact values comes to them. -/
theorem exists_exactCircular? (g : CircularFunction) (hs : exactSine? t = some s)
    (hc : exactCosine? t = some c) :
    ∃ rule, (∀ node, exactCircular? node g.operator t = some (rule node)) ∧
      ∀ ctx, ComesTo ctx 3 rule (exactValue g s c) := by
  cases g with
  | sine =>
      refine ⟨fun _ => pure s.toExpr, fun node => ?_, fun ctx => .pure ctx 3 _⟩
      rw [exactCircular?_sine, hs, Option.map_some]
  | cosine =>
      refine ⟨fun _ => pure c.toExpr, fun node => ?_, fun ctx => .pure ctx 3 _⟩
      rw [exactCircular?_cosine, hc, Option.map_some]
  | tangent =>
      by_cases hcosine : c.coefficient = 0
      · rw [exactValue, if_pos hcosine]
        refine ⟨fun _ => pure .undefined, fun node => ?_, fun ctx => .pure ctx 3 _⟩
        rw [exactCircular?_tangent, exactTangent?_eq node hs hc, if_pos hcosine]
      · rw [exactValue, if_neg hcosine]
        refine ⟨_, fun node => ?_, fun ctx => comesTo_quotient ctx hs hc hcosine⟩
        rw [exactCircular?_tangent, exactTangent?_eq node hs hc, if_neg hcosine]

end Reduction

open PocketAlgebra.Expr

/-! ## Units -/

/-- An angle in radians. -/
noncomputable def AngleUnit.radians (unit : AngleUnit) (z : ℂ) : ℂ :=
  match unit.halfTurn? with
  | some measure => z / measure * Real.pi
  | none => z

theorem AngleUnit.measure_pos {unit : AngleUnit} {measure : Nat}
    (h : unit.halfTurn? = some measure) : 0 < measure := by
  cases unit <;> cases h <;> decide

/-- The circular function of an operator. -/
def CircularFunction.ofOperator? : Operator → Option CircularFunction
  | .sine => some .sine
  | .cosine => some .cosine
  | .tangent => some .tangent
  | _ => none

/-- The assignment that gives circular functions their values at angles in a unit. -/
noncomputable def Assignment.measuring (σ : Assignment) (unit : AngleUnit) : Assignment where
  symbol := σ.symbol
  other f xs :=
    match CircularFunction.ofOperator? f, xs with
    | some g, [x] => (x.principal? σ).bind fun z => g.at? (unit.radians z)
    | _, _ => σ.other f xs

namespace Reduction

variable {unit : AngleUnit} {t : ℚ} {s c : Surd} {ctx : Context} {g : CircularFunction}
  {nesting : Nat} {σ : Assignment} {x : Expr}

/-! ## Angles as expressions -/

/-- An angle of so many half turns, in canonical form. -/
def angleOf (unit : AngleUnit) (t : ℚ) : Expr :=
  match unit.halfTurn? with
  | some measure => .rational (t * measure)
  | none => if t = 0 then .integer 0 else assemble .multiplication 1 (Surd.coefficientOf t ++ [.pi])

theorem angleOf_radian (ht : t ≠ 0) :
    angleOf .radian t = assemble .multiplication 1 (Surd.coefficientOf t ++ [.pi]) :=
  if_neg ht

/-- The forms of an angle. -/
theorem angleOf_cases (unit : AngleUnit) (t : ℚ) :
    (∃ measure : Nat, unit.halfTurn? = some measure ∧ 0 < measure ∧
      angleOf unit t = .rational (t * measure)) ∨
    unit = .radian ∧ (t = 0 ∧ angleOf unit t = .integer 0 ∨
      t = 1 ∧ angleOf unit t = .pi ∨
      t ≠ 0 ∧ angleOf unit t = .apply .multiplication [.rational t, .pi]) := by
  cases unit with
  | radian =>
      refine .inr ⟨rfl, ?_⟩
      by_cases hzero : t = 0
      · exact .inl ⟨hzero, if_pos hzero⟩
      · by_cases hone : t = 1
        · refine .inr (.inl ⟨hone, ?_⟩)
          rw [angleOf_radian hzero, Surd.coefficientOf, if_pos hone]
          rfl
        · refine .inr (.inr ⟨hzero, ?_⟩)
          rw [angleOf_radian hzero, Surd.coefficientOf, if_neg hone]
          rfl
  | degree => exact .inl ⟨180, rfl, by decide, rfl⟩
  | gradian => exact .inl ⟨200, rfl, by decide, rfl⟩

theorem halfTurns?_angleOf (unit : AngleUnit) (t : ℚ) :
    halfTurns? unit (angleOf unit t) = some t := by
  rcases angleOf_cases unit t with ⟨measure, hmeasure, hpos, hangle⟩ | ⟨rfl, h | h | h⟩
  · rw [hangle, halfTurns?, hmeasure]
    exact congrArg some (mul_div_cancel_right₀ t (Nat.cast_ne_zero.mpr hpos.ne'))
  · rw [h.2, h.1]
    rfl
  · rw [h.2, h.1]
    rfl
  · rw [h.2]
    rfl

theorem isNegativeForm_angleOf (unit : AngleUnit) (t : ℚ) :
    isNegativeForm (angleOf unit t) = decide (t < 0) := by
  rcases angleOf_cases unit t with ⟨measure, -, hpos, hangle⟩ | ⟨rfl, h | h | h⟩
  · have hmeasure : (0 : ℚ) < measure := Nat.cast_pos.mpr hpos
    have hsign := mul_lt_mul_iff_of_pos_right (b := t) (c := 0) hmeasure
    rw [zero_mul] at hsign
    rw [hangle, isNegativeForm]
    exact decide_eq_decide.mpr hsign
  · rw [h.2, h.1]
    rfl
  · rw [h.2, h.1]
    rfl
  · rw [h.2]
    rfl

theorem plain_angleOf (unit : AngleUnit) (t : ℚ) : IsPlain (angleOf unit t) := by
  rcases angleOf_cases unit t with ⟨measure, -, -, h⟩ | ⟨-, ⟨-, h⟩ | ⟨-, h⟩ | ⟨-, h⟩⟩ <;>
    rw [h] <;> exact ⟨rfl, rfl, rfl⟩

/-- The principal value of an angle, in radians. -/
theorem principal?_angleOf (σ : Assignment) (unit : AngleUnit) (t : ℚ) :
    ∃ z, (angleOf unit t).principal? σ = some z ∧ unit.radians z = Real.pi * t := by
  rcases angleOf_cases unit t with ⟨measure, hmeasure, hpos, hangle⟩ | ⟨rfl, h | h | h⟩
  · refine ⟨((t * measure : ℚ) : ℂ), hangle ▸ rfl, ?_⟩
    have hne : (measure : ℂ) ≠ 0 := Nat.cast_ne_zero.mpr hpos.ne'
    rw [AngleUnit.radians, hmeasure]
    dsimp only
    push_cast
    rw [mul_div_cancel_right₀ _ hne, mul_comm]
  · refine ⟨0, ?_, ?_⟩
    · rw [h.2, principal?_integer, Int.cast_zero]
    · rw [h.1, Rat.cast_zero, mul_zero]
      rfl
  · refine ⟨Real.pi, ?_, ?_⟩
    · rw [h.2]
      rfl
    · rw [h.1, Rat.cast_one, mul_one]
      rfl
  · refine ⟨t * Real.pi, ?_, mul_comm _ _⟩
    rw [h.2]
    exact principal?_product rfl rfl

/-! ## Reduced angles -/

/-- A multiple of a half turn, as a product. -/
theorem settles_multiple {xs : List Expr} (ctx : Context) (nesting : Nat)
    (hp : numberOf (flattenAll .multiplication xs) ≠ 0)
    (h : atomsOf (flattenAll .multiplication xs) = [.pi]) :
    Settles (fun room => multiply (nodeWithin (nesting + 1) (ctx.withRoom room)) xs)
      (angleOf .radian (numberOf (flattenAll .multiplication xs))) := by
  rw [angleOf_radian hp]
  exact settles_atomProduct ctx nesting (.constant .pi) nofun hp h

theorem settles_halfTurns (ctx : Context) (nesting : Nat) (t : ℚ) :
    Settles (fun room => multiply (nodeWithin (nesting + 1) (ctx.withRoom room)) [.rational t, .pi])
      (angleOf .radian t) := by
  have hnumber : numberOf (flattenAll .multiplication [.rational t, .pi]) = t := mul_one t
  by_cases ht : t = 0
  · subst ht
    refine settles_unspoiled (spoiled?_plain _ (forall_mem_pair ⟨rfl, rfl, rfl⟩ ⟨rfl, rfl, rfl⟩)) ?_
    exact Settles.pure _
  · have hproduct := settles_multiple ctx nesting (hnumber.symm ▸ ht) rfl
    rwa [hnumber] at hproduct

/-- An angle is turned the other way. -/
theorem settles_negate_angleOf (ctx : Context) (nesting : Nat) (unit : AngleUnit) (ht : t < 0) :
    Settles (fun room => negate (nodeWithin (nesting + 1) (ctx.withRoom room)) (angleOf unit t))
      (angleOf unit (-t)) := by
  rcases angleOf_cases unit t with ⟨measure, hmeasure, -, hangle⟩ | ⟨rfl, h | h | h⟩
  · have hproduct := settles_product ctx nesting [((-1 : ℤ) : ℚ), t * measure]
    have hopposite : [((-1 : ℤ) : ℚ), t * measure].prod = -t * measure := by
      rw [List.prod_pair]
      push_cast
      ring
    have hangle' : angleOf unit (-t) = .rational (-t * measure) := by
      rw [angleOf, hmeasure]
    rw [hangle, hangle', ← hopposite]
    exact hproduct
  · exact absurd h.1 ht.ne
  · exact absurd (h.1 ▸ ht) (by decide)
  · have hnumber :
        numberOf (flattenAll .multiplication [.integer (-1), angleOf .radian t]) = -t := by
      rw [h.2]
      exact (congrArg _ (mul_one t)).trans (neg_one_mul t)
    have hatoms :
        atomsOf (flattenAll .multiplication [.integer (-1), angleOf .radian t]) = [.pi] := by
      rw [h.2]
      rfl
    have hproduct := settles_multiple ctx nesting (hnumber.symm ▸ neg_ne_zero.mpr ht.ne) hatoms
    rwa [hnumber] at hproduct

end Reduction

end PocketAlgebra
