import Mathlib.Analysis.SpecialFunctions.Pow.Real
import PocketAlgebra.Expr.Basic
import PocketAlgebra.Expr.Order
import PocketAlgebra.Expr.Sign

/-!
# Principal complex values

The complex value of an expression, where all of its parts have one. Powers, roots and logarithms
have their principal values: a power of a base other than zero is the exponential of the exponent
times the principal logarithm of the base.

What the sign of an expression says is true of its value: a known sign is that of a real number.
-/

namespace PocketAlgebra

open Complex

/-- Complex values for what an expression leaves open: its symbols, and the operators that are not
given a meaning below, calls of functions among them. What such an operator stands for may depend on
its operands as they are written, since they may bind variables. -/
structure Assignment where
  symbol : String → ℂ
  other : Operator → List Expr → Option ℂ

/-- The value of a constant. -/
noncomputable def Constant.toComplex : Constant → ℂ
  | pi => Real.pi
  | e => Real.exp 1
  | imaginaryUnit => I

/-! ## Operations on values -/

namespace Principal

open Classical in
/-- A quotient; there is none by zero. -/
noncomputable def quotient? (z w : ℂ) : Option ℂ :=
  if w = 0 then none else some (z / w)

open Classical in
/-- A principal power. Zero has the powers with exponents on the right of the imaginary axis. -/
noncomputable def power? (z w : ℂ) : Option ℂ :=
  if z = 0 then if 0 < w.re then some 0 else none else some (z ^ w)

theorem power?_zero_iff {w v : ℂ} : power? 0 w = some v ↔ 0 < w.re ∧ v = 0 := by
  rw [power?, if_pos rfl]
  split
  case isTrue h => exact Option.some_inj.trans ⟨fun hv => ⟨h, hv.symm⟩, fun hv => hv.2.symm⟩
  case isFalse h => exact ⟨nofun, fun hv => absurd hv.1 h⟩

theorem power?_of_ne {z : ℂ} (hz : z ≠ 0) (w : ℂ) : power? z w = some (z ^ w) :=
  if_neg hz

open Classical in
/-- A principal logarithm with a base. -/
noncomputable def logarithm? (z b : ℂ) : Option ℂ :=
  if z = 0 ∨ b = 0 ∨ b = 1 then none else some (log z / log b)

open Classical in
/-- The factorial of a whole number that is not negative. -/
noncomputable def factorial? (z : ℂ) : Option ℂ :=
  if ∃ n : ℕ, z = n then some (Nat.factorial ⌊z.re⌋₊) else none

/-- An operation with one operand. -/
def unary (operation : ℂ → Option ℂ) : List ℂ → Option ℂ
  | [z] => operation z
  | _ => none

/-- An operation with two operands. -/
def binary (operation : ℂ → ℂ → Option ℂ) : List ℂ → Option ℂ
  | [z, w] => operation z w
  | _ => none

/-- What an operator makes of the values of its operands, for those operators that have a meaning
here. -/
noncomputable def operation? : Operator → Option (List ℂ → Option ℂ)
  | .undefined | .nonreal => some fun _ => none
  | .addition => some fun zs => some zs.sum
  | .multiplication => some fun zs => some zs.prod
  | .subtraction => some (binary fun z w => some (z - w))
  | .division => some (binary quotient?)
  | .power => some (binary power?)
  | .opposite => some (unary fun z => some (-z))
  | .parenthesis => some (unary some)
  | .factorial => some (unary factorial?)
  | .absoluteValue => some (unary fun z => some ‖z‖)
  | .realPart => some (unary fun z => some z.re)
  | .imaginaryPart => some (unary fun z => some z.im)
  | .conjugate => some (unary fun z => some (starRingEnd ℂ z))
  | .squareRoot => some (unary fun z => power? z ((1 / 2 : ℚ) : ℂ))
  | .nthRoot => some (binary fun z n => (quotient? 1 n).bind (power? z))
  | .naturalLogarithm => some (unary fun z => logarithm? z (Real.exp 1))
  | .commonLogarithm => some (unary fun z => logarithm? z 10)
  | .logarithm => some (binary logarithm?)
  | _ => none

end Principal

/-! ## Values of expressions -/

namespace Expr

mutual

/-- The principal value of an expression, where all of its parts have one. -/
noncomputable def principal? (σ : Assignment) : Expr → Option ℂ
  | rational q => some q
  | decimal d => some d.toRat
  | infinity _ => none
  | constant c => some c.toComplex
  | symbol name => some (σ.symbol name)
  | apply f xs =>
    match Principal.operation? f with
    | some operation => (principals? σ xs).bind operation
    | none => σ.other f xs

/-- The principal values of several expressions. -/
noncomputable def principals? (σ : Assignment) : List Expr → Option (List ℂ)
  | [] => some []
  | x :: xs => (principal? σ x).bind fun z => (principals? σ xs).map (z :: ·)

end

variable {σ : Assignment} {f : Operator} {x y : Expr} {xs : List Expr} {v z w : ℂ} {zs : List ℂ}
  {operation : List ℂ → Option ℂ}

theorem principal?_integer (n : ℤ) : (integer n).principal? σ = some (n : ℂ) := by
  rw [integer, principal?, Rat.cast_intCast]

theorem forall₂_principal (h : principals? σ xs = some zs) :
    List.Forall₂ (fun x z => x.principal? σ = some z) xs zs := by
  induction xs generalizing zs with
  | nil =>
      cases h
      exact .nil
  | cons x xs ih =>
      rcases Option.bind_eq_some_iff.mp h with ⟨z, hz, h⟩
      rcases Option.map_eq_some_iff.mp h with ⟨zs, hzs, rfl⟩
      exact .cons hz (ih hzs)

theorem principal?_apply (hf : Principal.operation? f = some operation) :
    (apply f xs).principal? σ = (principals? σ xs).bind operation := by
  rw [principal?, hf]

/-- An operator over operands with values has the value that it makes of these. -/
theorem exists_of_principal? (hf : Principal.operation? f = some operation)
    (h : (apply f xs).principal? σ = some v) :
    ∃ zs, List.Forall₂ (fun x z => x.principal? σ = some z) xs zs ∧ operation zs = some v := by
  rw [principal?_apply hf] at h
  rcases Option.bind_eq_some_iff.mp h with ⟨zs, hzs, hv⟩
  exact ⟨zs, forall₂_principal hzs, hv⟩

theorem exists_of_unary {g : ℂ → Option ℂ} (hf : Principal.operation? f = some (Principal.unary g))
    (h : (apply f xs).principal? σ = some v) :
    ∃ x z, xs = [x] ∧ x.principal? σ = some z ∧ g z = some v := by
  rcases exists_of_principal? hf h with ⟨zs, hzs, hv⟩
  match hzs with
  | .nil => nomatch hv
  | .cons (a := x) (b := z) hz .nil => exact ⟨x, z, rfl, hz, hv⟩
  | .cons _ (.cons _ _) => nomatch hv

theorem exists_of_binary {g : ℂ → ℂ → Option ℂ}
    (hf : Principal.operation? f = some (Principal.binary g))
    (h : (apply f xs).principal? σ = some v) :
    ∃ x y z w, xs = [x, y] ∧ x.principal? σ = some z ∧ y.principal? σ = some w ∧
      g z w = some v := by
  rcases exists_of_principal? hf h with ⟨zs, hzs, hv⟩
  match hzs with
  | .nil => nomatch hv
  | .cons _ .nil => nomatch hv
  | .cons (a := x) (b := z) hz (.cons (a := y) (b := w) hw .nil) =>
      exact ⟨x, y, z, w, rfl, hz, hw, hv⟩
  | .cons _ (.cons _ (.cons _ _)) => nomatch hv

theorem principal?_binary {g : ℂ → ℂ → Option ℂ}
    (hf : Principal.operation? f = some (Principal.binary g)) (hx : x.principal? σ = some z)
    (hy : y.principal? σ = some w) : (apply f [x, y]).principal? σ = g z w := by
  rw [principal?_apply hf, principals?, hx, Option.bind_some, principals?, hy]
  rfl

theorem principal?_power (hx : x.principal? σ = some z) (hy : y.principal? σ = some w) :
    (apply .power [x, y]).principal? σ = Principal.power? z w :=
  principal?_binary rfl hx hy

theorem principal?_logarithm (hx : x.principal? σ = some z) (hy : y.principal? σ = some w) :
    (apply .logarithm [x, y]).principal? σ = Principal.logarithm? z w :=
  principal?_binary rfl hx hy

theorem principal?_product (hx : x.principal? σ = some z) (hy : y.principal? σ = some w) :
    (apply .multiplication [x, y]).principal? σ = some (z * w) := by
  rw [principal?_apply rfl, principals?, hx, Option.bind_some, principals?, hy]
  simp [principals?]

end Expr

/-! ## Signs -/

open Principal

namespace Sign

/-- What a sign says about a value. -/
def Holds : Sign → ℂ → Prop
  | negative, z => ∃ r : ℝ, r < 0 ∧ z = r
  | null, z => z = 0
  | positive, z => ∃ r : ℝ, 0 < r ∧ z = r
  | unknown, _ => True

variable {s t : Sign} {z w v : ℂ} {signs : List Sign} {zs : List ℂ}

theorem Holds.exists_real (h : s.Holds z) (hs : s.isKnown = true) : ∃ r : ℝ, z = r := by
  cases s with
  | negative | positive =>
      rcases h with ⟨r, -, rfl⟩
      exact ⟨r, rfl⟩
  | null => exact ⟨0, h.trans Complex.ofReal_zero.symm⟩
  | unknown => nomatch hs

theorem holds_ofInt (n : ℤ) (r : ℝ) (hr : 0 < r) : (ofInt n).Holds (((n * r : ℝ)) : ℂ) := by
  rw [ofInt]
  split
  case isTrue hzero => simp [Holds, hzero]
  case isFalse hzero =>
    split
    case isTrue hneg => exact ⟨n * r, mul_neg_of_neg_of_pos (Int.cast_lt_zero.mpr hneg) hr, rfl⟩
    case isFalse hneg =>
      have hpos : 0 < n := lt_of_le_of_ne (not_lt.mp hneg) (Ne.symm hzero)
      exact ⟨n * r, mul_pos (Int.cast_pos.mpr hpos) hr, rfl⟩

theorem holds_ofRat (q : ℚ) : (ofRat q).Holds q := by
  have hq : (q : ℂ) = ((q.num * (q.den : ℝ)⁻¹ : ℝ) : ℂ) := by
    conv_lhs => rw [← Rat.num_div_den q]
    push_cast
    rw [div_eq_mul_inv]
  rw [hq]
  exact holds_ofInt q.num _ (inv_pos.mpr (Nat.cast_pos.mpr q.den_pos))

theorem Holds.negate (h : s.Holds z) : s.negate.Holds (-z) := by
  cases s with
  | negative =>
      rcases h with ⟨r, hr, rfl⟩
      exact ⟨-r, neg_pos.mpr hr, (Complex.ofReal_neg r).symm⟩
  | positive =>
      rcases h with ⟨r, hr, rfl⟩
      exact ⟨-r, neg_neg_of_pos hr, (Complex.ofReal_neg r).symm⟩
  | null => exact neg_eq_zero.mpr h
  | unknown => trivial

theorem Holds.multiply (hz : s.Holds z) (hw : t.Holds w) : (s.multiply t).Holds (z * w) := by
  have hreal (a b : ℝ) : (a : ℂ) * b = ((a * b : ℝ) : ℂ) := (Complex.ofReal_mul a b).symm
  cases s with
  | null => exact mul_eq_zero_of_left hz w
  | unknown =>
      cases t with
      | null => exact mul_eq_zero_of_right z hw
      | negative | positive | unknown => trivial
  | negative =>
      rcases hz with ⟨a, ha, rfl⟩
      cases t with
      | null => exact mul_eq_zero_of_right _ hw
      | unknown => trivial
      | negative =>
          rcases hw with ⟨b, hb, rfl⟩
          exact ⟨a * b, mul_pos_of_neg_of_neg ha hb, hreal a b⟩
      | positive =>
          rcases hw with ⟨b, hb, rfl⟩
          exact ⟨a * b, mul_neg_of_neg_of_pos ha hb, hreal a b⟩
  | positive =>
      rcases hz with ⟨a, ha, rfl⟩
      cases t with
      | null => exact mul_eq_zero_of_right _ hw
      | unknown => trivial
      | negative =>
          rcases hw with ⟨b, hb, rfl⟩
          exact ⟨a * b, mul_neg_of_pos_of_neg ha hb, hreal a b⟩
      | positive =>
          rcases hw with ⟨b, hb, rfl⟩
          exact ⟨a * b, mul_pos ha hb, hreal a b⟩

/-- The sign of a reciprocal is that of the number. -/
theorem Holds.inv (h : s.Holds z) : s.Holds z⁻¹ := by
  cases s with
  | negative =>
      rcases h with ⟨r, hr, rfl⟩
      exact ⟨r⁻¹, inv_lt_zero.mpr hr, (Complex.ofReal_inv r).symm⟩
  | positive =>
      rcases h with ⟨r, hr, rfl⟩
      exact ⟨r⁻¹, inv_pos.mpr hr, (Complex.ofReal_inv r).symm⟩
  | null => exact inv_eq_zero.mpr h
  | unknown => trivial

theorem Holds.product (h : List.Forall₂ Holds signs zs) : (product signs).Holds zs.prod := by
  have hfold {s : Sign} {z : ℂ} (hz : s.Holds z) :
      (signs.foldl Sign.multiply s).Holds (z * zs.prod) := by
    induction h generalizing s z with
    | nil => simpa using hz
    | cons hw _ ih =>
        rw [List.foldl_cons, List.prod_cons, ← mul_assoc]
        exact ih (hz.multiply hw)
  rw [← one_mul zs.prod]
  exact hfold ⟨1, one_pos, Complex.ofReal_one.symm⟩

theorem Holds.add (hz : s.Holds z) (hw : s.Holds w) : s.Holds (z + w) := by
  cases s with
  | negative =>
      rcases hz with ⟨a, ha, rfl⟩
      rcases hw with ⟨b, hb, rfl⟩
      exact ⟨a + b, add_neg ha hb, (Complex.ofReal_add a b).symm⟩
  | positive =>
      rcases hz with ⟨a, ha, rfl⟩
      rcases hw with ⟨b, hb, rfl⟩
      exact ⟨a + b, add_pos ha hb, (Complex.ofReal_add a b).symm⟩
  | null => rw [Holds, (hz : z = 0), (hw : w = 0), add_zero]
  | unknown => trivial

/-- Terms that are zero or of one sign have a sum that is zero or of that sign. -/
theorem Holds.sum_of_all (h : List.Forall₂ Holds signs zs)
    (hall : signs.all (fun s => s == t || s == null) = true) :
    (if signs.contains t then t else null).Holds zs.sum := by
  induction h with
  | nil => exact List.sum_nil
  | @cons s z signs zs hz _ ih =>
      rw [List.all_cons, Bool.and_eq_true, Bool.or_eq_true, beq_iff_eq, beq_iff_eq] at hall
      have hrest := ih hall.2
      rw [List.sum_cons, List.contains_cons]
      by_cases hst : t = s
      · subst hst
        rw [beq_self_eq_true, Bool.true_or, if_pos rfl]
        split at hrest
        · exact hz.add hrest
        · rw [(hrest : zs.sum = 0), add_zero]
          exact hz
      · rw [beq_eq_false_iff_ne.mpr hst, Bool.false_or]
        rw [hall.1.resolve_left (Ne.symm hst)] at hz
        rw [(hz : z = 0), zero_add]
        exact hrest

theorem Holds.sum (h : List.Forall₂ Holds signs zs) : (sum signs).Holds zs.sum := by
  rw [Sign.sum]
  split
  case isTrue hall => exact sum_of_all h hall
  case isFalse =>
    split
    case isTrue hall => exact sum_of_all h hall
    case isFalse => trivial

theorem Holds.absolute (h : s.Holds z) : s.absolute.Holds (‖z‖ : ℝ) := by
  have hstrict {r : ℝ} (hr : r ≠ 0) : positive.Holds ((‖(r : ℂ)‖ : ℝ) : ℂ) :=
    ⟨‖(r : ℂ)‖, norm_pos_iff.mpr (Complex.ofReal_ne_zero.mpr hr), rfl⟩
  cases s with
  | negative =>
      rcases h with ⟨r, hr, rfl⟩
      exact hstrict hr.ne
  | positive =>
      rcases h with ⟨r, hr, rfl⟩
      exact hstrict hr.ne'
  | null => simpa [Holds, Sign.absolute] using h
  | unknown => trivial

/-- A positive number has positive powers with real exponents. -/
theorem Holds.power_of_real (h : positive.Holds z) (r : ℝ) (hv : power? z r = some v) :
    positive.Holds v := by
  rcases h with ⟨a, ha, rfl⟩
  rw [power?_of_ne (Complex.ofReal_ne_zero.mpr ha.ne'), Option.some.injEq] at hv
  exact ⟨a ^ r, Real.rpow_pos_of_pos ha r, by rw [← hv, Complex.ofReal_cpow ha.le]⟩

theorem Holds.squareRoot (h : s.Holds z) (hv : power? z ((1 / 2 : ℚ) : ℂ) = some v) :
    s.squareRoot.Holds v := by
  cases s with
  | positive =>
      refine h.power_of_real (1 / 2) ?_
      rw [← hv]
      push_cast
      rfl
  | null =>
      rw [(h : z = 0)] at hv
      exact (power?_zero_iff.mp hv).2
  | negative | unknown => trivial

theorem Holds.power {literal : Option ℚ} (hz : s.Holds z) (hw : t.Holds w)
    (hliteral : ∀ q, literal = some q → w = q) (hv : power? z w = some v) :
    (power s t literal).Holds v := by
  cases s with
  | unknown => trivial
  | positive =>
      rw [Sign.power]
      split
      case isFalse => trivial
      case isTrue hknown =>
        rcases hw.exists_real hknown with ⟨r, rfl⟩
        exact hz.power_of_real r hv
  | null =>
      rw [(hz : z = 0)] at hv
      cases literal with
      | none => trivial
      | some q =>
          rw [Sign.power]
          split
          · exact (power?_zero_iff.mp hv).2
          · trivial
  | negative =>
      cases literal with
      | none => trivial
      | some q =>
          rw [Sign.power]
          split
          case isFalse => trivial
          case isTrue hint =>
            rcases hz with ⟨r, hr, rfl⟩
            have hnum : (q.num : ℚ) = q :=
              (Rat.den_eq_one_iff q).mp (by simpa [Rat.isInt] using hint)
            have hq : w = q.num := by rw [hliteral q rfl, ← Rat.cast_intCast, hnum]
            have hpower : v = ((r ^ q.num : ℝ) : ℂ) := by
              rw [power?_of_ne (Complex.ofReal_ne_zero.mpr hr.ne), Option.some.injEq] at hv
              rw [← hv, hq, Complex.cpow_intCast, Complex.ofReal_zpow]
            split
            case isTrue heven =>
              exact ⟨_, (Int.even_iff.mpr heven).zpow_pos hr.ne, hpower⟩
            case isFalse hodd =>
              exact ⟨_, (Int.not_even_iff_odd.mp (mt Int.even_iff.mp hodd)).zpow_neg hr, hpower⟩

end Sign

namespace Expr

theorem holds_signs {σ : Assignment} {xs : List Expr} {zs : List ℂ}
    (hxs : ∀ x ∈ xs, ∀ {v : ℂ}, x.principal? σ = some v → x.sign.Holds v)
    (h : List.Forall₂ (fun x z => x.principal? σ = some z) xs zs) :
    List.Forall₂ Sign.Holds (signs xs) zs := by
  induction h with
  | nil => exact .nil
  | cons hz _ ih =>
      exact .cons (hxs _ List.mem_cons_self hz)
        (ih fun x hx => hxs x (List.mem_cons_of_mem _ hx))

theorem exists_pos_of_decimal (d : Decimal) :
    ∃ r : ℝ, 0 < r ∧ (d.toRat : ℂ) = ((d.mantissa * r : ℝ) : ℂ) := by
  have hpositive (n : ℕ) : (0 : ℝ) < Decimal.powerOfTen n :=
    Nat.cast_pos.mpr (Nat.pow_pos (by decide))
  rw [Decimal.toRat]
  split
  · refine ⟨_, inv_pos.mpr (hpositive d.scale.toNat), ?_⟩
    rw [Rat.mkRat_eq_div]
    push_cast
    rw [div_eq_mul_inv]
  · refine ⟨_, hpositive (-d.scale).toNat, ?_⟩
    push_cast
    rfl

/-- The sign of an expression is the sign of its principal value, where it has one. -/
theorem holds_sign (σ : Assignment) : ∀ (x : Expr) {v : ℂ}, x.principal? σ = some v →
    x.sign.Holds v
  | .rational q, v, h => by
      cases h
      exact Sign.holds_ofRat q
  | .decimal d, v, h => by
      rcases exists_pos_of_decimal d with ⟨r, hr, hd⟩
      cases h
      rw [hd]
      exact Sign.holds_ofInt d.mantissa r hr
  | .infinity _, v, h => nomatch h
  | .constant c, v, h => by
      cases h
      cases c with
      | pi => exact ⟨Real.pi, Real.pi_pos, rfl⟩
      | e => exact ⟨Real.exp 1, Real.exp_pos 1, rfl⟩
      | imaginaryUnit => trivial
  | .symbol _, v, h => trivial
  | .apply f xs, v, h => by
      have hoperand : ∀ x ∈ xs, ∀ {v : ℂ}, x.principal? σ = some v → x.sign.Holds v :=
        fun x _ => holds_sign σ x
      cases f with
      | addition =>
          rcases exists_of_principal? rfl h with ⟨zs, hzs, hv⟩
          cases hv
          exact Sign.Holds.sum (holds_signs hoperand hzs)
      | multiplication =>
          rcases exists_of_principal? rfl h with ⟨zs, hzs, hv⟩
          cases hv
          exact Sign.Holds.product (holds_signs hoperand hzs)
      | division =>
          rcases exists_of_binary rfl h with ⟨x, y, z, w, rfl, hz, hw, hv⟩
          have hx := hoperand x (by simp) hz
          have hy := hoperand y (by simp) hw
          rw [quotient?] at hv
          split at hv
          case isTrue => nomatch hv
          case isFalse =>
            have hproduct := Sign.Holds.product (.cons hx (.cons hy.inv .nil))
            rw [List.prod_pair, ← div_eq_mul_inv, Option.some.inj hv] at hproduct
            exact hproduct
      | power =>
          rcases exists_of_binary rfl h with ⟨x, y, z, w, rfl, hz, hw, hv⟩
          have hx := hoperand x (by simp) hz
          have hy := hoperand y (by simp) hw
          refine hx.power hy (fun q hq => ?_) hv
          rw [eq_rational hq] at hw
          exact (Option.some.inj hw).symm
      | opposite =>
          rcases exists_of_unary rfl h with ⟨x, z, rfl, hz, hv⟩
          cases hv
          exact (hoperand x List.mem_cons_self hz).negate
      | parenthesis =>
          rcases exists_of_unary rfl h with ⟨x, z, rfl, hz, hv⟩
          cases hv
          exact hoperand x List.mem_cons_self hz
      | absoluteValue =>
          rcases exists_of_unary rfl h with ⟨x, z, rfl, hz, hv⟩
          cases hv
          exact (hoperand x List.mem_cons_self hz).absolute
      | squareRoot =>
          rcases exists_of_unary rfl h with ⟨x, z, rfl, hz, hv⟩
          exact (hoperand x List.mem_cons_self hz).squareRoot hv
      | factorial =>
          rcases exists_of_unary rfl h with ⟨x, z, rfl, hz, hv⟩
          rw [factorial?] at hv
          split at hv
          case isTrue =>
            rw [← Option.some.inj hv]
            exact ⟨_, Nat.cast_pos.mpr (Nat.factorial_pos _), (Complex.ofReal_natCast _).symm⟩
          case isFalse => nomatch hv
      | _ => exact trivial
termination_by x => x.size
decreasing_by exact size_lt_of_mem ‹_›

/-- A sign that is known is that of the value, wherever an expression has one: the value is a real
number above zero, below zero, or zero. -/
theorem sign_sound (σ : Assignment) {x : Expr} {v : ℂ} (h : x.principal? σ = some v) :
    (x.sign = .positive → ∃ r : ℝ, 0 < r ∧ v = r) ∧
    (x.sign = .negative → ∃ r : ℝ, r < 0 ∧ v = r) ∧ (x.sign = .null → v = 0) := by
  have hholds := holds_sign σ x h
  refine ⟨fun hsign => ?_, fun hsign => ?_, fun hsign => ?_⟩
  · exact (hsign ▸ hholds : Sign.positive.Holds v)
  · exact (hsign ▸ hholds : Sign.negative.Holds v)
  · exact (hsign ▸ hholds : Sign.null.Holds v)

/-- The quotient `-2×√(ℯ)/n!`. -/
def rootOverFactorial : Expr :=
  .apply .division [.apply .multiplication [.integer (-2), .apply .squareRoot [.constant .e]],
    .apply .factorial [.symbol "n"]]

/-- The quotient has a value below zero where `n` is 3, its square one above zero, and zero times a
call of a function is zero. -/
theorem sign_sound_rootOverFactorial :
    let σ : Assignment := ⟨fun _ => 3, fun _ _ => some Complex.I⟩
    (∃ r : ℝ, r < 0 ∧ rootOverFactorial.principal? σ = some (r : ℂ)) ∧
    (∃ r : ℝ, 0 < r ∧
      (apply .power [rootOverFactorial, .integer 2]).principal? σ = some (r : ℂ)) ∧
    (apply .multiplication [.integer 0, .apply (.function "f") [.symbol "n"]]).principal? σ =
      some 0 := by
  intro σ
  have he : (Real.exp 1 : ℂ) ≠ 0 := Complex.ofReal_ne_zero.mpr (Real.exp_pos 1).ne'
  have hroot : ∃ z, (apply .squareRoot [.constant .e]).principal? σ = some z :=
    ⟨_, power?_of_ne he _⟩
  have hfactorial : ∃ w, w ≠ 0 ∧ (apply .factorial [.symbol "n"]).principal? σ = some w := by
    refine ⟨_, ?_, if_pos ⟨3, rfl⟩⟩
    exact Nat.cast_ne_zero.mpr (Nat.factorial_ne_zero _)
  rcases hroot with ⟨z, hz⟩
  rcases hfactorial with ⟨w, hw, hfactorial⟩
  have hproduct := principal?_product (principal?_integer (σ := σ) (-2)) hz
  have hquotient : rootOverFactorial.principal? σ = some (((-2 : ℤ) : ℂ) * z / w) :=
    (principal?_binary rfl hproduct hfactorial).trans (if_neg hw)
  rcases (sign_sound σ hquotient).2.1 (by decide) with ⟨r, hr, hvalue⟩
  have hsquare : (apply .power [rootOverFactorial, .integer 2]).principal? σ =
      some ((((-2 : ℤ) : ℂ) * z / w) ^ ((2 : ℤ) : ℂ)) := by
    refine (principal?_power hquotient (principal?_integer 2)).trans (power?_of_ne ?_ _)
    rw [hvalue]
    exact Complex.ofReal_ne_zero.mpr hr.ne
  rcases (sign_sound σ hsquare).1 (by decide) with ⟨s, hs, hpower⟩
  have hcall : (apply .multiplication [.integer 0,
      .apply (.function "f") [.symbol "n"]]).principal? σ = some (((0 : ℤ) : ℂ) * Complex.I) :=
    principal?_product (principal?_integer 0) rfl
  have hzero := (sign_sound σ hcall).2.2 (by decide)
  exact ⟨⟨r, hr, hquotient.trans (congrArg some hvalue)⟩,
    ⟨s, hs, hsquare.trans (congrArg some hpower)⟩, hcall.trans (congrArg some hzero)⟩

end Expr

end PocketAlgebra
