import Mathlib.Analysis.SpecialFunctions.Complex.Log
import PocketAlgebra.Proofs.Principal.Value
import PocketAlgebra.Proofs.Reduction.Atoms
import PocketAlgebra.Reduction.Engine

/-!
# Products and powers and the principal branch

Where no two factors of a product have the same base, its principal value is that of its factors
multiplied: for the numbers are multiplied, and the rest stays.

The logarithm of an exponential is the exponent less some full turns. A power of a power is a power
with the product of the exponents where the outer exponent makes these turns vanish, and the
exponent of a logarithm of a power is a factor where there are none of them.
-/

namespace PocketAlgebra

namespace Expr

/-! ## Values of products -/

/-- The principal value of an expression, or zero where it has none. -/
noncomputable def principal (σ : Assignment) (x : Expr) : ℂ :=
  (x.principal? σ).getD 0

/-- An expression has a principal value. -/
def HasPrincipal (σ : Assignment) (x : Expr) : Prop :=
  x.principal? σ = some (x.principal σ)

variable {σ : Assignment} {x : Expr} {xs : List Expr} {v : ℂ}

theorem hasPrincipal_iff : HasPrincipal σ x ↔ ∃ v, x.principal? σ = some v := by
  constructor
  · exact fun h => ⟨_, h⟩
  · rintro ⟨v, h⟩
    rw [HasPrincipal, principal, h, Option.getD_some]

theorem principal_eq (h : x.principal? σ = some v) : x.principal σ = v := by
  rw [principal, h, Option.getD_some]

theorem hasPrincipal_rational (q : ℚ) : HasPrincipal σ (.rational q) :=
  rfl

theorem principals?_eq (h : ∀ x ∈ xs, HasPrincipal σ x) :
    principals? σ xs = some (xs.map (principal σ)) := by
  induction xs with
  | nil => rfl
  | cons x xs ih =>
      have hx : x.principal? σ = some (x.principal σ) := h x List.mem_cons_self
      rw [principals?, hx, ih fun y hy => h y (List.mem_cons_of_mem x hy)]
      rfl

theorem principal?_multiplication (h : ∀ x ∈ xs, HasPrincipal σ x) :
    (apply .multiplication xs).principal? σ = some (xs.map (principal σ)).prod := by
  rw [principal?_apply rfl, principals?_eq h, Option.bind_some]

theorem HasPrincipal.operands (h : HasPrincipal σ (apply .multiplication xs)) :
    ∀ x ∈ xs, HasPrincipal σ x := by
  rcases exists_of_principal? rfl h with ⟨zs, hzs, -⟩
  intro x hx
  rcases List.mem_iff_getElem.mp hx with ⟨i, hi, rfl⟩
  exact hasPrincipal_iff.mpr ⟨_, hzs.get hi (hzs.length_eq ▸ hi)⟩

theorem principal_multiplication (h : ∀ x ∈ xs, HasPrincipal σ x) :
    (apply .multiplication xs).principal σ = (xs.map (principal σ)).prod :=
  principal_eq (principal?_multiplication h)

end Expr

namespace Reduction

open PocketAlgebra.Expr

variable {σ : Assignment} {xs : List Expr}

/-! ## Flattening -/

theorem hasPrincipal_flattenAll (h : ∀ x ∈ xs, HasPrincipal σ x) :
    ∀ x ∈ flattenAll .multiplication xs, HasPrincipal σ x :=
  flattenAll_forall (fun _ hxs => hxs.operands) xs h

mutual

theorem prod_principal_flatten : ∀ x, HasPrincipal σ x →
    ((flatten .multiplication x).map (principal σ)).prod = x.principal σ
  | .apply g xs, h => by
      rw [flatten]
      split
      · rename_i hg
        subst hg
        rw [prod_principal_flattenAll xs h.operands, principal_multiplication h.operands]
      · simp
  | .rational _, _ | .decimal _, _ | .infinity _, _ => by simp [flatten]
  | .constant _, _ | .symbol _, _ => by simp [flatten]

theorem prod_principal_flattenAll : ∀ xs : List Expr, (∀ x ∈ xs, HasPrincipal σ x) →
    ((flattenAll .multiplication xs).map (principal σ)).prod = (xs.map (principal σ)).prod
  | [], _ => rfl
  | x :: xs, h => by
      rw [flattenAll, List.map_append, List.prod_append, List.map_cons, List.prod_cons,
        prod_principal_flatten x (h x List.mem_cons_self),
        prod_principal_flattenAll xs fun y hy => h y (List.mem_cons_of_mem x hy)]

end

/-! ## Factors that stay as they are -/

theorem principal?_assemble (h : ∀ x ∈ xs, HasPrincipal σ x) :
    (assemble .multiplication 1 xs).principal? σ = some (xs.map (principal σ)).prod := by
  match xs with
  | [] => exact (principal?_integer 1).trans (by simp)
  | [x] => exact (h x List.mem_cons_self).trans (by simp)
  | _ :: _ :: _ => exact principal?_multiplication h

theorem prod_numberOf_atomsOf (σ : Assignment) (xs : List Expr) :
    (numberOf xs : ℂ) * ((atomsOf xs).map (principal σ)).prod = (xs.map (principal σ)).prod := by
  induction xs with
  | nil => simp [numberOf, atomsOf]
  | cons x xs ih =>
      rw [numberOf_cons, atomsOf_cons, List.map_cons, List.prod_cons, ← ih]
      cases hx : x.rational? with
      | some q =>
          rw [eq_rational hx, principal_eq (hasPrincipal_rational q)]
          simp [principal, Expr.principal?, mul_assoc]
      | none => simp [mul_left_comm]

theorem principal?_atomicProduct (h : ∀ x ∈ xs, HasPrincipal σ x) :
    (atomicProduct xs).principal? σ = some (xs.map (principal σ)).prod := by
  have hsort := sort_perm (atomsOf xs)
  have hatoms : ∀ x ∈ Expr.sort (atomsOf xs), HasPrincipal σ x := fun x hx =>
    h x (List.mem_filter.mp (hsort.mem_iff.mp hx)).1
  rw [← prod_numberOf_atomsOf, ← (hsort.map (principal σ)).prod_eq, atomicProduct]
  split
  case isTrue hone =>
    rw [hone, List.nil_append, principal?_assemble hatoms, Rat.cast_one, one_mul]
  case isFalse =>
    refine principal?_assemble fun x hx => ?_
    rcases List.mem_cons.mp hx with rfl | hx
    · exact hasPrincipal_rational _
    · exact hatoms x hx

/-- The product of numbers and of factors that stay as they are has the product of their values. -/
theorem nodeWithin_atoms_principal (ctx : Context) (nesting : Nat)
    (hatoms : AreAtoms (flattenAll .multiplication xs)) (h : ∀ x ∈ xs, HasPrincipal σ x) :
    Yields (nodeWithin nesting ctx (.apply .multiplication xs)) fun r =>
      r.principal? σ = some (xs.map (principal σ)).prod := by
  refine (nodeWithin_atoms ctx nesting hatoms).mono fun r hr => ?_
  rw [hr, principal?_atomicProduct (hasPrincipal_flattenAll h), prod_principal_flattenAll xs h]

end Reduction

open Complex

namespace Principal

/-! ## Turns -/

/-- How many full turns a number is away from the principal logarithm of its exponential. -/
noncomputable def turns (w : ℂ) : ℤ :=
  toIocDiv (add_pos Real.pi_pos Real.pi_pos) (-Real.pi) w.im

theorem turns_eq_iff {w : ℂ} {n : ℤ} :
    turns w = n ↔ -Real.pi < w.im - n * (2 * Real.pi) ∧ w.im - n * (2 * Real.pi) ≤ Real.pi := by
  rw [turns, toIocDiv_eq_iff, Set.mem_Ioc, zsmul_eq_mul, ← two_mul,
    show -Real.pi + 2 * Real.pi = Real.pi by ring]

theorem turns_eq_zero {w : ℂ} (h : w.im = 0) : turns w = 0 := by
  rw [turns_eq_iff, h]
  simp [Real.pi_pos, Real.pi_pos.le]

variable {z : ℂ}

theorem cpow_ne_zero (hz : z ≠ 0) (w : ℂ) : z ^ w ≠ 0 := by
  rw [cpow_def_of_ne_zero hz]
  exact exp_ne_zero _

theorem log_cpow (hz : z ≠ 0) (w : ℂ) :
    log (z ^ w) = w * log z - turns (w * log z) * (2 * Real.pi * I) := by
  rw [cpow_def_of_ne_zero hz, log_exp_eq_sub_toIocDiv, mul_comm (log z)]
  simp only [turns, two_mul]

/-- A power of a power is a power with the product of the exponents exactly where the outer
exponent takes the turns of the inner one to a whole number of turns. -/
theorem cpow_cpow_eq_iff (hz : z ≠ 0) (w u : ℂ) :
    (z ^ w) ^ u = z ^ (w * u) ↔ ∃ n : ℤ, turns (w * log z) * u = n := by
  rw [cpow_def_of_ne_zero (cpow_ne_zero hz w) u, log_cpow hz, cpow_def_of_ne_zero hz,
    exp_eq_exp_iff_exists_int]
  constructor
  · rintro ⟨n, hn⟩
    refine ⟨-n, mul_right_cancel₀ two_pi_I_ne_zero ?_⟩
    push_cast
    linear_combination -hn
  · rintro ⟨n, hn⟩
    refine ⟨-n, ?_⟩
    push_cast
    linear_combination -(2 * Real.pi * I) * hn

/-- The exponent of a power is a factor of its logarithm exactly where it makes no turns. -/
theorem logarithm_cpow_eq_iff {b : ℂ} (hz : z ≠ 0) (hb : log b ≠ 0) (w : ℂ) :
    log (z ^ w) / log b = w * (log z / log b) ↔ turns (w * log z) = 0 := by
  rw [log_cpow hz, ← mul_div_assoc, div_left_inj' hb, sub_eq_self, mul_eq_zero,
    or_iff_left two_pi_I_ne_zero, Int.cast_eq_zero]

end Principal

namespace Reduction

open Principal

variable {node : NodeReducer} {x y b : Expr} {σ : Assignment} {z w u v v' : ℂ}

theorem exists_int_of_integer? (h : b.integer?.isSome = true) (hb : b.principal? σ = some u) :
    ∃ n : ℤ, u = n := by
  cases b with
  | rational q =>
      rw [Expr.integer?] at h
      split at h
      case isTrue hq =>
        refine ⟨q.num, ?_⟩
        cases hb
        rw [← Rat.cast_intCast, (Rat.den_eq_one_iff q).mp (by simpa [Rat.isInt] using hq)]
      case isFalse => cases h
  | _ => cases h

/-- A number with a real exponent makes no turns where the base is positive. -/
theorem turns_eq_zero_of_positive (hz : Sign.positive.Holds z) (hw : w.im = 0) :
    turns (w * log z) = 0 := by
  rcases hz with ⟨r, hr, rfl⟩
  apply turns_eq_zero
  rw [← ofReal_log hr.le, im_mul_ofReal, hw, zero_mul]

theorem im_eq_zero_of_isKnown (h : x.sign.isKnown = true) (hx : x.principal? σ = some z) :
    z.im = 0 := by
  rcases (Expr.holds_sign σ x hx).exists_real h with ⟨r, rfl⟩
  exact ofReal_im r

/-- Where the exponents of a power of a power are multiplied, the outer one is whole or the inner
base is positive. -/
theorem nestedPower_cases {m : ReduceM Expr} (h : nestedPower? node x b = some m)
    (hx : x.principal? σ = some v) :
    ∃ y a z w, x = rawPower y a ∧ m = (do power node y (← multiply node [a, b])) ∧
      y.principal? σ = some z ∧ a.principal? σ = some w ∧ power? z w = some v ∧
      (b.integer?.isSome = true ∨ Sign.positive.Holds z) := by
  rw [nestedPower?.eq_def] at h
  split at h
  case h_2 => nomatch h
  case h_1 xs =>
    rcases Expr.exists_of_binary rfl hx with ⟨y, a, z, w, rfl, hy, ha, hv⟩
    split at h
    case isFalse => nomatch h
    case isTrue hguard =>
      cases h
      refine ⟨y, a, z, w, rfl, rfl, hy, ha, hv, ?_⟩
      rw [Bool.or_eq_true] at hguard
      refine hguard.imp_right fun hpositive => ?_
      have hsign : y.sign = .positive := by simpa using hpositive
      have hholds := Expr.holds_sign σ y hy
      rwa [hsign] at hholds

theorem logarithmOfPower_cases {m : ReduceM Expr} (h : logarithmOfPower? node x b = some m) :
    ∃ y a, x = rawPower y a ∧ m = (do multiply node [a, ← node (.apply .logarithm [y, b])]) ∧
      y.sign = .positive := by
  rw [logarithmOfPower?.eq_def] at h
  split at h
  case h_2 => nomatch h
  case h_1 y a =>
    split at h
    case isFalse => nomatch h
    case isTrue hpositive =>
      cases h
      exact ⟨y, a, rfl, rfl, by simpa using hpositive⟩

/-- The rule for powers of powers, on values: the other side has one too, and it is the same where
the outer exponent takes the turns of the inner one to a whole number of turns. -/
theorem exists_power_mul (hv : power? z w = some v) (hv' : power? v u = some v')
    (hguard : (∃ n : ℤ, u = n) ∨ Sign.positive.Holds z) :
    ∃ v'', power? z (w * u) = some v'' ∧ (v' = v'' ↔ ∃ n : ℤ, turns (w * log z) * u = n) := by
  by_cases hz : z = 0
  · subst hz
    rcases power?_zero_iff.mp hv with ⟨hw, rfl⟩
    rcases power?_zero_iff.mp hv' with ⟨hu, rfl⟩
    rcases hguard with ⟨n, rfl⟩ | ⟨r, hr, hzero⟩
    · have hmul : 0 < (w * n).re := by
        rw [mul_re, intCast_im, mul_zero, sub_zero]
        exact mul_pos hw hu
      refine ⟨0, power?_zero_iff.mpr ⟨hmul, rfl⟩, iff_of_true rfl ⟨0, ?_⟩⟩
      rw [log_zero, mul_zero, turns_eq_zero zero_im, Int.cast_zero, zero_mul]
    · exact absurd (ofReal_eq_zero.mp hzero.symm) hr.ne'
  · rw [power?_of_ne hz, Option.some.injEq] at hv
    subst hv
    rw [power?_of_ne (cpow_ne_zero hz w), Option.some.injEq] at hv'
    subst hv'
    exact ⟨z ^ (w * u), power?_of_ne hz _, cpow_cpow_eq_iff hz w u⟩

/-- The rule for logarithms of powers, on values. -/
theorem exists_logarithm_mul {β : ℂ} (hz : z ≠ 0) (hv : power? z w = some v)
    (hv' : logarithm? v β = some v') :
    ∃ v'', logarithm? z β = some v'' ∧ (v' = w * v'' ↔ turns (w * log z) = 0) := by
  rw [power?_of_ne hz, Option.some.injEq] at hv
  subst hv
  rw [logarithm?] at hv'
  split at hv'
  case isTrue => nomatch hv'
  case isFalse hproper =>
    simp only [not_or] at hproper
    have hlog : log β ≠ 0 := fun hlog => hproper.2.2 (by rw [← exp_log hproper.2.1, hlog, exp_zero])
    rw [← Option.some.inj hv', logarithm?, if_neg (by simp [hz, hproper.2])]
    exact ⟨_, rfl, logarithm_cpow_eq_iff hz hlog w⟩

/-- Where the exponents of a power of a power are multiplied, the value is kept exactly if the outer
exponent takes the turns of the inner one to whole turns: in particular, if the outer exponent is a
whole number or the inner one is real. Where the exponent of a power becomes a factor of its
logarithm, the value is kept exactly if the exponent makes no turns: in particular, if it is
real. -/
theorem power_rules_keep_branch (node : NodeReducer) (x b : Expr) (σ : Assignment) :
    (∀ m v, nestedPower? node x b = some m → (rawPower x b).principal? σ = some v →
      ∃ y a z w u v', x = rawPower y a ∧ m = (do power node y (← multiply node [a, b])) ∧
        y.principal? σ = some z ∧ a.principal? σ = some w ∧ b.principal? σ = some u ∧
        (rawPower y (.apply .multiplication [a, b])).principal? σ = some v' ∧
        (v = v' ↔ ∃ n : ℤ, turns (w * log z) * u = n) ∧
        (b.integer?.isSome = true ∨ a.sign.isKnown = true ∨ w.im = 0 → v = v')) ∧
    ∀ m v, logarithmOfPower? node x b = some m →
      (Expr.apply .logarithm [x, b]).principal? σ = some v →
      ∃ y a z w v', x = rawPower y a ∧
        m = (do multiply node [a, ← node (.apply .logarithm [y, b])]) ∧
        y.principal? σ = some z ∧ a.principal? σ = some w ∧
        (Expr.apply .multiplication [a, .apply .logarithm [y, b]]).principal? σ = some v' ∧
        (v = v' ↔ turns (w * log z) = 0) ∧
        (a.sign.isKnown = true ∨ w.im = 0 → v = v') := by
  constructor
  · intro m v hm h
    rcases Expr.exists_of_binary rfl h with ⟨_, _, v₁, u, ⟨⟩, hx, hb, hv⟩
    rcases nestedPower_cases hm hx with ⟨y, a, z, w, rfl, rfl, hy, ha, hv₁, hguard⟩
    have hwhole : b.integer?.isSome = true → ∃ n : ℤ, u = n := fun h => exists_int_of_integer? h hb
    rcases exists_power_mul hv₁ hv (hguard.imp_left hwhole) with ⟨v', hv', hiff⟩
    have hproduct := (Expr.principal?_power hy (Expr.principal?_product ha hb)).trans hv'
    refine ⟨y, a, z, w, u, v', rfl, rfl, hy, ha, hb, hproduct, hiff, fun hreal => hiff.mpr ?_⟩
    by_cases hinteger : b.integer?.isSome = true
    · rcases hwhole hinteger with ⟨n, rfl⟩
      exact ⟨turns (w * log z) * n, by push_cast; rfl⟩
    · have him : w.im = 0 :=
        (hreal.resolve_left hinteger).elim (im_eq_zero_of_isKnown · ha) id
      refine ⟨0, ?_⟩
      rw [turns_eq_zero_of_positive (hguard.resolve_left hinteger) him, Int.cast_zero, zero_mul]
  · intro m v hm h
    rcases Expr.exists_of_binary rfl h with ⟨_, _, v₁, β, ⟨⟩, hx, hb, hv⟩
    rcases logarithmOfPower_cases hm with ⟨y, a, rfl, rfl, hsign⟩
    rcases Expr.exists_of_binary rfl hx with ⟨_, _, z, w, ⟨⟩, hy, ha, hv₁⟩
    have hpositive : Sign.positive.Holds z := hsign ▸ Expr.holds_sign σ y hy
    have hz : z ≠ 0 := by
      rcases hpositive with ⟨r, hr, rfl⟩
      exact ofReal_ne_zero.mpr hr.ne'
    rcases exists_logarithm_mul hz hv₁ hv with ⟨v', hv', hiff⟩
    have hproduct := Expr.principal?_product ha ((Expr.principal?_logarithm hy hb).trans hv')
    refine ⟨y, a, z, w, w * v', rfl, rfl, hy, ha, hproduct, hiff, fun hreal => hiff.mpr ?_⟩
    exact turns_eq_zero_of_positive hpositive (hreal.elim (im_eq_zero_of_isKnown · ha) id)

/-! ## Powers of Euler's number -/

theorem e_ne_zero : (Real.exp 1 : ℂ) ≠ 0 :=
  ofReal_ne_zero.mpr (Real.exp_pos 1).ne'

theorem log_e : log (Real.exp 1 : ℂ) = 1 := by
  rw [← ofReal_log (Real.exp_pos 1).le, Real.log_exp, ofReal_one]

theorem logarithm?_e (z : ℂ) (hz : z ≠ 0) : logarithm? z (Real.exp 1) = some (log z) := by
  have hone : (Real.exp 1 : ℂ) ≠ 1 := fun hone => one_ne_zero (by rw [← log_e, hone, log_one])
  rw [logarithm?, if_neg (not_or.mpr ⟨hz, not_or.mpr ⟨e_ne_zero, hone⟩⟩), log_e, div_one]

/-- Euler's number to the power of so many imaginary units. -/
def eulerPower (n : ℤ) : Expr :=
  rawPower (.constant .e) (.apply .multiplication [.integer n, .i])

theorem principal?_eulerPower (n : ℤ) :
    (eulerPower n).principal? σ = some ((Real.exp 1 : ℂ) ^ (n * I)) := by
  have hexponent : (Expr.apply .multiplication [.integer n, .i]).principal? σ = some (n * I) :=
    Expr.principal?_product (Expr.principal?_integer n) rfl
  exact (Expr.principal?_power rfl hexponent).trans (power?_of_ne e_ne_zero _)

theorem turns_six : turns (6 * I) = 1 := by
  have hlow := Real.two_le_pi
  have hhigh := Real.pi_le_four
  have him : (6 * I).im = 6 := by simp
  rw [turns_eq_iff, him, Int.cast_one]
  constructor <;> linarith

/-- Both rules on the third power of Euler's number. -/
theorem power_rules_keep_branch_cube :
    let σ : Assignment := ⟨fun _ => 0, fun _ _ => none⟩
    let cube := rawPower (.constant .e) (.integer 3)
    (∃ v, (rawPower cube (.rational (1 / 2))).principal? σ = some v ∧
      (rawPower (.constant .e)
        (.apply .multiplication [.integer 3, .rational (1 / 2)])).principal? σ = some v) ∧
    ∃ v, (Expr.apply .logarithm [cube, .constant .e]).principal? σ = some v ∧
      (Expr.apply .multiplication
        [.integer 3, .apply .logarithm [.constant .e, .constant .e]]).principal? σ = some v := by
  intro σ cube
  have hcube : cube.principal? σ = some ((Real.exp 1 : ℂ) ^ ((3 : ℤ) : ℂ)) :=
    (Expr.principal?_power rfl (Expr.principal?_integer 3)).trans (power?_of_ne e_ne_zero _)
  have hne : (Real.exp 1 : ℂ) ^ ((3 : ℤ) : ℂ) ≠ 0 := cpow_ne_zero e_ne_zero _
  have hroot : (rawPower cube (.rational (1 / 2))).principal? σ =
      some (((Real.exp 1 : ℂ) ^ ((3 : ℤ) : ℂ)) ^ ((1 / 2 : ℚ) : ℂ)) :=
    (Expr.principal?_power hcube rfl).trans (power?_of_ne hne _)
  have hlogarithm : (Expr.apply .logarithm [cube, .constant .e]).principal? σ =
      some (log ((Real.exp 1 : ℂ) ^ ((3 : ℤ) : ℂ))) :=
    (Expr.principal?_logarithm hcube rfl).trans (logarithm?_e _ hne)
  have hrules (b : Expr) := power_rules_keep_branch pure (rawPower (.constant .e) (.integer 3)) b σ
  constructor
  · have hfires : ∃ m, nestedPower? pure cube (.rational (1 / 2)) = some m :=
      Option.isSome_iff_exists.mp (by decide +kernel)
    rcases hfires with ⟨m, hm⟩
    rcases (hrules _).1 m _ hm hroot with ⟨y, a, z, w, u, v, ⟨⟩, -, -, -, -, hv, -, hkeeps⟩
    exact ⟨_, hroot, hkeeps (.inr (.inl (by decide))) ▸ hv⟩
  · have hfires : ∃ m, logarithmOfPower? pure cube (.constant .e) = some m :=
      Option.isSome_iff_exists.mp (by decide +kernel)
    rcases hfires with ⟨m, hm⟩
    rcases (hrules _).2 m _ hm hlogarithm with ⟨y, a, z, w, v, ⟨⟩, -, -, -, hv, -, hkeeps⟩
    exact ⟨_, hlogarithm, hkeeps (.inl (by decide)) ▸ hv⟩

/-- A square root and a logarithm of a power with an imaginary exponent, which lose a turn. -/
theorem reduce_changesBranch :
    let ctx : Context :=
      ⟨{ target := .systemForAnalysis, complexFormat := .cartesian }, {}, 4096, []⟩
    let root := rawPower (eulerPower 6) (.rational (1 / 2))
    let logarithm := Expr.apply .logarithm [eulerPower 6, .constant .e]
    (root.reduce ctx {}).toOption.map (·.same (eulerPower 3)) = some true ∧
      (∀ σ, root.principal? σ ≠ (eulerPower 3).principal? σ) ∧
      (logarithm.reduce ctx {}).toOption.map
        (·.same (.apply .multiplication [.integer 6, .i])) = some true ∧
      ∀ σ, logarithm.principal? σ ≠
        (Expr.apply .multiplication [.integer 6, .i]).principal? σ := by
  intro ctx root logarithm
  have hturns : turns ((6 : ℤ) * I * log (Real.exp 1 : ℂ)) = 1 := by
    rw [log_e, mul_one]
    exact turns_six
  refine ⟨by decide +kernel, fun σ hsame => ?_, by decide +kernel, fun σ hsame => ?_⟩
  · have hroot : root.principal? σ =
        some (((Real.exp 1 : ℂ) ^ ((6 : ℤ) * I)) ^ ((1 / 2 : ℚ) : ℂ)) :=
      (Expr.principal?_power (principal?_eulerPower 6) rfl).trans
        (power?_of_ne (cpow_ne_zero e_ne_zero _) _)
    have hhalf : ((3 : ℤ) : ℂ) * I = (6 : ℤ) * I * ((1 / 2 : ℚ) : ℂ) := by
      push_cast
      ring
    rw [hroot, principal?_eulerPower, Option.some.injEq, hhalf, cpow_cpow_eq_iff e_ne_zero,
      hturns] at hsame
    rcases hsame with ⟨n, hn⟩
    have htwice : ((1 : ℤ) : ℂ) = ((2 * n : ℤ) : ℂ) := by
      push_cast at hn ⊢
      linear_combination 2 * hn
    have := Int.cast_injective htwice
    omega
  · have hlogarithm : logarithm.principal? σ = some (log ((Real.exp 1 : ℂ) ^ ((6 : ℤ) * I))) :=
      (Expr.principal?_logarithm (principal?_eulerPower 6) rfl).trans
        (logarithm?_e _ (cpow_ne_zero e_ne_zero _))
    have hproduct : (Expr.apply .multiplication [.integer 6, .i]).principal? σ =
        some ((6 : ℤ) * I) :=
      Expr.principal?_product (Expr.principal?_integer 6) rfl
    rw [hlogarithm, hproduct, Option.some.injEq, log_cpow e_ne_zero, hturns, log_e, mul_one,
      sub_eq_self, Int.cast_one, one_mul] at hsame
    exact two_pi_I_ne_zero hsame

end Reduction

end PocketAlgebra
