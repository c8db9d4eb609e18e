import Mathlib.Algebra.CharP.Algebra
import Mathlib.Algebra.Group.UniqueProds.Basic
import Mathlib.Algebra.MonoidAlgebra.Basic
import Mathlib.Algebra.MonoidAlgebra.NoZeroDivisors
import Mathlib.Data.Complex.Basic
import Mathlib.RingTheory.Localization.FractionRing
import PocketAlgebra.Proofs.Field.Value
import PocketAlgebra.Proofs.Laurent.Monomial
import PocketAlgebra.Reduction.Power

/-!
# Laurent polynomials and normal forms

In the field of fractions of Laurent polynomials every indeterminate stands for itself, so that only
equal Laurent polynomials have equal values.  The coefficients are complex, since a valuation needs
an imaginary unit.

A normal form is a sum of summands with different monomials in ascending order,
none of them zero.  It is told by its generic value: so two expressions that are
written as normal forms are identical exactly if they have the same value.
-/

namespace PocketAlgebra

namespace Laurent

/-!
## Fractions of Laurent polynomials
-/

abbrev Exponents : Type :=
  Indeterminate →₀ ℤ

/-- Laurent polynomials. -/
abbrev Polynomial : Type :=
  AddMonoidAlgebra ℂ Exponents

abbrev Fraction : Type :=
  FractionRing Polynomial

instance : NoZeroDivisors Polynomial :=
  inferInstance

instance : IsDomain Polynomial :=
  NoZeroDivisors.to_isDomain Polynomial

noncomputable instance : Field Fraction :=
  FractionRing.field Polynomial

instance : CharZero Fraction :=
  charZero_of_injective_algebraMap (algebraMap ℂ Fraction).injective

theorem algebraMap_injective : Function.Injective (algebraMap Polynomial Fraction) :=
  IsFractionRing.injective Polynomial Fraction

/-!
## Terms
-/

/-- A rational multiple of the product of the indeterminates with given exponents. -/
noncomputable def term (c : Rat) (e : Exponents) : Fraction :=
  algebraMap Polynomial Fraction (AddMonoidAlgebra.single e (c : ℂ))

/-- A value with at most one term. -/
def IsTerm (v : Fraction) : Prop :=
  ∃ c e, v = term c e

theorem term_mul (c d : Rat) (e f : Exponents) :
    term c e * term d f = term (c * d) (e + f) := by
  rw [term, term, ← map_mul, AddMonoidAlgebra.single_mul_single, ← Rat.cast_mul]
  rfl

theorem ratCast_eq_term (q : Rat) : (q : Fraction) = term q 0 :=
  (map_ratCast ((algebraMap Polynomial Fraction).comp AddMonoidAlgebra.singleZeroRingHom) q).symm

@[simp] theorem term_zero (e : Exponents) : term 0 e = 0 := by
  rw [term, Rat.cast_zero, AddMonoidAlgebra.single_zero, map_zero]

theorem term_one : term 1 0 = 1 := by
  rw [← ratCast_eq_term, Rat.cast_one]

theorem term_ne_zero {c : Rat} (hc : c ≠ 0) (e : Exponents) : term c e ≠ 0 := by
  intro h
  rw [term, map_eq_zero_iff _ algebraMap_injective, AddMonoidAlgebra.single_eq_zero] at h
  exact hc (Rat.cast_eq_zero.mp h)

theorem term_pow (c : Rat) (e : Exponents) (n : ℕ) : term c e ^ n = term (c ^ n) (n • e) := by
  induction n with
  | zero => rw [pow_zero, pow_zero, zero_smul, term_one]
  | succ n ih => rw [pow_succ, ih, term_mul, pow_succ, succ_nsmul]

theorem inv_term (c : Rat) (e : Exponents) : (term c e)⁻¹ = term c⁻¹ (-e) := by
  by_cases hc : c = 0
  · rw [hc, inv_zero, term_zero, term_zero, inv_zero]
  · refine inv_eq_of_mul_eq_one_right ?_
    rw [term_mul, mul_inv_cancel₀ hc, add_neg_cancel, term_one]

theorem term_zpow (c : Rat) (e : Exponents) (n : ℤ) :
    term c e ^ n = term (c ^ n) (n • e) := by
  cases n with
  | ofNat n => rw [Int.ofNat_eq_natCast, zpow_natCast, zpow_natCast, natCast_zsmul, term_pow]
  | negSucc n =>
      rw [zpow_negSucc, zpow_negSucc, term_pow, inv_term, negSucc_zsmul]

namespace IsTerm

theorem ratCast (q : Rat) : IsTerm q :=
  ⟨q, 0, ratCast_eq_term q⟩

theorem mul {v w : Fraction} (hv : IsTerm v) (hw : IsTerm w) : IsTerm (v * w) := by
  rcases hv with ⟨c, e, rfl⟩
  rcases hw with ⟨d, f, rfl⟩
  exact ⟨_, _, term_mul c d e f⟩

theorem zpow {v : Fraction} (hv : IsTerm v) (n : ℤ) : IsTerm (v ^ n) := by
  rcases hv with ⟨c, e, rfl⟩
  exact ⟨_, _, term_zpow c e n⟩

theorem prod {vs : List Fraction} (h : ∀ v ∈ vs, IsTerm v) : IsTerm vs.prod := by
  induction vs with
  | nil => exact ⟨1, 0, term_one.symm⟩
  | cons v vs ih =>
      rw [List.prod_cons]
      exact (h v List.mem_cons_self).mul (ih fun w hw => h w (List.mem_cons_of_mem v hw))

end IsTerm

/-!
## Powers with more than one term
-/

theorem card_support_le_one {x : Polynomial} (h : IsTerm (algebraMap Polynomial Fraction x)) :
    x.coeff.support.card ≤ 1 := by
  rcases h with ⟨c, e, h⟩
  rw [algebraMap_injective h, AddMonoidAlgebra.coeff_single]
  exact (Finset.card_le_card Finsupp.support_single_subset).trans (Finset.card_singleton e).le

/-- There is no cancellation at the two ends of a product. -/
theorem one_lt_card_support_mul {x y : Polynomial} (hx : 1 < x.coeff.support.card) (hy : y ≠ 0) :
    1 < (x * y).coeff.support.card := by
  have hy' : 0 < y.coeff.support.card := by
    rw [Finset.card_pos, Finsupp.support_nonempty_iff]
    exact fun h => hy (AddMonoidAlgebra.coeff_eq_zero.mp h)
  have hcard : 1 < x.coeff.support.card * y.coeff.support.card :=
    hx.trans_le (Nat.le_mul_of_pos_right _ hy')
  -- two of the sums of exponents come from one pair only, so their coefficients remain
  rcases TwoUniqueSums.uniqueAdd_of_one_lt_card hcard with ⟨a, ha, b, hb, hne, hua, hub⟩
  have hmem : ∀ p ∈ x.coeff.support ×ˢ y.coeff.support,
      UniqueAdd x.coeff.support y.coeff.support p.1 p.2 →
        p.1 + p.2 ∈ (x * y).coeff.support := by
    intro p hp hunique
    rw [Finset.mem_product, Finsupp.mem_support_iff, Finsupp.mem_support_iff] at hp
    rw [Finsupp.mem_support_iff, AddMonoidAlgebra.coeff_mul_add_of_uniqueAdd hunique]
    exact mul_ne_zero hp.1 hp.2
  refine Finset.one_lt_card.mpr ⟨_, hmem a ha hua, _, hmem b hb hub, fun heq => hne ?_⟩
  rw [Finset.mem_product] at hb
  have hfactors := hua hb.1 hb.2 heq.symm
  exact (Prod.ext hfactors.1 hfactors.2).symm

/-- A power of a value with several terms has several terms. -/
theorem not_isTerm_pow {x : Polynomial} (hx : 1 < x.coeff.support.card) {n : ℕ} (hn : 0 < n) :
    ¬ IsTerm (algebraMap Polynomial Fraction x ^ n) := by
  have hne : x ≠ 0 := by
    rintro rfl
    simp at hx
  have hcard : 1 < (x ^ n).coeff.support.card := by
    rcases Nat.exists_eq_add_of_lt hn with ⟨m, rfl⟩
    rw [Nat.zero_add, pow_succ']
    exact one_lt_card_support_mul hx (pow_ne_zero m hne)
  rw [← map_pow]
  exact fun h => (card_support_le_one h).not_gt hcard

/-!
## The generic valuation
-/

/-- An indeterminate that stands for itself. -/
noncomputable def Indeterminate.value (i : Indeterminate) : Fraction :=
  term 1 (Finsupp.single i 1)

/-- The valuation under which indeterminates stand for themselves. -/
noncomputable def generic : Valuation Fraction where
  symbol name := (Indeterminate.symbol name).value
  pi := Indeterminate.pi.value
  e := Indeterminate.e.value
  unit := algebraMap Polynomial Fraction (AddMonoidAlgebra.single 0 Complex.I)
  unit_sq := by
    have hterm : term (-1) 0 = -1 := by rw [← ratCast_eq_term, Rat.cast_neg, Rat.cast_one]
    rw [← map_pow, AddMonoidAlgebra.single_pow, Complex.I_sq, smul_zero, ← hterm, term,
      Rat.cast_neg, Rat.cast_one]

theorem value_indeterminate (i : Indeterminate) : i.toExpr.value generic = i.value := by
  cases i <;> rfl

theorem value_symbol (name : String) :
    (Expr.symbol name).value generic = (Indeterminate.symbol name).value :=
  rfl

theorem indeterminate_zpow (i : Indeterminate) (n : ℤ) :
    i.value ^ n = term 1 (Finsupp.single i n) := by
  rw [Indeterminate.value, term_zpow, one_zpow, Finsupp.smul_single, smul_eq_mul, mul_one]

open PocketAlgebra.Expr Reduction

/-!
## Lists of entries of a finitely supported function
-/

section

variable {α ι R : Type} [AddCommMonoid R]

/-- The function that has the given entries. -/
noncomputable def ofEntries (key : α → ι) (entry : α → R) (xs : List α) : ι →₀ R :=
  (xs.map fun x => Finsupp.single (key x) (entry x)).sum

variable (key : α → ι) (entry : α → R)

theorem ofEntries_of_ne {xs : List α} {i : ι} (h : ∀ x ∈ xs, key x ≠ i) :
    ofEntries key entry xs i = 0 := by
  induction xs with
  | nil => rfl
  | cons x xs ih =>
      have htail := ih fun y hy => h y (List.mem_cons_of_mem x hy)
      rw [ofEntries] at htail ⊢
      rw [List.map_cons, List.sum_cons, Finsupp.add_apply, htail,
        Finsupp.single_eq_of_ne (h x List.mem_cons_self).symm, add_zero]

theorem ofEntries_of_mem {xs : List α} (hkeys : xs.Pairwise (key · ≠ key ·)) {x : α}
    (hx : x ∈ xs) : ofEntries key entry xs (key x) = entry x := by
  induction xs with
  | nil => cases hx
  | cons y ys ih =>
      rcases List.pairwise_cons.mp hkeys with ⟨hy, htail⟩
      rw [ofEntries, List.map_cons, List.sum_cons, Finsupp.add_apply]
      rcases List.mem_cons.mp hx with rfl | hx
      · have hrest := ofEntries_of_ne key entry fun z hz => (hy z hz).symm
        rw [ofEntries] at hrest
        rw [hrest, Finsupp.single_eq_same, add_zero]
      · have hrest := ih htail hx
        rw [ofEntries] at hrest
        rw [hrest, Finsupp.single_eq_of_ne (hy x hx).symm, zero_add]

/-- Lists with different keys in ascending order and entries other than zero are told by the
functions that they give. -/
theorem eq_of_ofEntries_eq {κ : Type} [LinearOrder κ] {key : α → ι} {entry : α → R}
    (place : α → κ)
    (hplace : ∀ x y, place x ≠ place y → key x ≠ key y)
    (hinjective : ∀ x y, key x = key y → entry x = entry y → x = y) {xs ys : List α}
    (hxs : xs.Pairwise (place · < place ·)) (hys : ys.Pairwise (place · < place ·))
    (hxs0 : ∀ x ∈ xs, entry x ≠ 0) (hys0 : ∀ y ∈ ys, entry y ≠ 0)
    (h : ofEntries key entry xs = ofEntries key entry ys) : xs = ys := by
  have hkeys : ∀ zs : List α, zs.Pairwise (place · < place ·) →
      zs.Pairwise (key · ≠ key ·) := fun zs hzs => hzs.imp fun hlt => hplace _ _ hlt.ne
  have hsubset : ∀ us vs : List α, us.Pairwise (place · < place ·) →
      vs.Pairwise (place · < place ·) → (∀ u ∈ us, entry u ≠ 0) →
      ofEntries key entry us = ofEntries key entry vs → us ⊆ vs := by
    intro us vs hus hvs hne heq u hu
    have hentry := ofEntries_of_mem key entry (hkeys us hus) hu
    rw [heq] at hentry
    by_contra hmem
    refine hne u hu (hentry.symm.trans (ofEntries_of_ne key entry fun v hv hkey => hmem ?_))
    have hv' := ofEntries_of_mem key entry (hkeys vs hvs) hv
    rw [hkey, hentry] at hv'
    rwa [hinjective u v hkey.symm hv']
  -- sorted lists with the same members are equal
  have hperm : xs.Perm ys := by
    refine (List.perm_ext_iff_of_nodup ?_ ?_).mpr fun z => ⟨fun hz => ?_, fun hz => ?_⟩
    · exact hxs.imp fun hlt heq => hlt.ne (by rw [heq])
    · exact hys.imp fun hlt heq => hlt.ne (by rw [heq])
    · exact hsubset xs ys hxs hys hxs0 h hz
    · exact hsubset ys xs hys hxs hys0 h.symm hz
  exact hperm.eq_of_pairwise (fun a b _ _ hab hba => absurd hab hba.asymm) hxs hys

end

/-!
## Monomials and summands
-/

noncomputable def Monomial.exponents (m : Monomial) : Exponents :=
  ofEntries Factor.base Factor.exponent m.factors

theorem Monomial.exponents_injective : Function.Injective Monomial.exponents := by
  intro m n h
  refine Monomial.ext (eq_of_ofEntries_eq Factor.base (fun _ _ => id) ?_
    m.ascending n.ascending m.exponent_ne_zero n.exponent_ne_zero h)
  rintro ⟨i, k⟩ ⟨j, l⟩ hbase hexponent
  exact congrArg₂ Factor.mk hbase hexponent

theorem Factor.represents (f : Factor) :
    Represents generic (term 1 (Finsupp.single f.base f.exponent)) f.toExpr := by
  have hbase : Normal generic f.base.toExpr := by
    cases f.base with
    | pi => exact .constant .pi
    | e => exact .constant .e
    | symbol name => exact .symbol name
  have hvalue := indeterminate_zpow f.base f.exponent
  rw [← value_indeterminate] at hvalue
  rw [toExpr, ← hvalue]
  split
  · rename_i hone
    exact ⟨hbase, by rw [hone, zpow_one]⟩
  · refine ⟨.power hbase (.inr ?_), value_power_integer _ _ _⟩
    rw [value_indeterminate]
    exact term_ne_zero one_ne_zero _

noncomputable def Summand.value (s : Summand) : Fraction :=
  term s.coefficient s.monomial.exponents

theorem prod_factors (m : Monomial) :
    ((m.factors.map Factor.toExpr).map (Expr.value generic)).prod = term 1 m.exponents := by
  rw [Monomial.exponents]
  induction m.factors with
  | nil => exact term_one.symm
  | cons f fs ih =>
      rw [List.map_cons, List.map_cons, List.prod_cons, f.represents.value_eq, ih, term_mul,
        mul_one]
      rfl

theorem Summand.represents (s : Summand) : Represents generic s.value s.toExpr := by
  have hall : ∀ x ∈ s.operands, Normal generic x := by
    intro x hx
    rcases List.mem_append.mp hx with hx | hx
    · rw [List.mem_singleton.mp (s.coefficientOperands_subset hx)]
      exact .rational _
    · rcases List.mem_map.mp hx with ⟨f, _, rfl⟩
      exact f.represents.normal
  have hassemble := represents_assemble_multiplication hall
  refine ⟨hassemble.normal, hassemble.value_eq.trans ?_⟩
  have hcoefficient : (s.coefficientOperands.map (Expr.value generic)).prod =
      (s.coefficient : Fraction) := by
    rw [coefficientOperands]
    split
    · rename_i hone
      simp [hone]
    · simp
  rw [operands, List.map_append, List.prod_append, hcoefficient, prod_factors,
    ratCast_eq_term, term_mul, mul_one, zero_add]
  rfl

/-- A summand is a number, a factor, or a product. -/
theorem Summand.toExpr_cases (s : Summand) :
    s.toExpr = .rational s.coefficient ∧ s.monomial.factors = [] ∨
      (∃ f, s.toExpr = Factor.toExpr f ∧ s.coefficient = 1 ∧ s.monomial.factors = [f]) ∨
        s.toExpr = .apply .multiplication s.operands ∧ s.monomial.factors ≠ [] := by
  rcases hfactors : s.monomial.factors with _ | ⟨f, _ | ⟨g, fs⟩⟩
  · exact .inl ⟨toExpr_of_factors_nil hfactors, rfl⟩
  · by_cases hone : s.coefficient = 1
    · refine .inr (.inl ⟨f, ?_, hone, rfl⟩)
      rw [toExpr, operands, coefficientOperands, if_pos hone, hfactors]
      rfl
    · refine .inr (.inr ⟨assemble_of_length _ _ ?_, List.cons_ne_nil f []⟩)
      rw [operands, coefficientOperands, if_neg hone, hfactors]
      simp
  · refine .inr (.inr ⟨assemble_of_length _ _ ?_, List.cons_ne_nil f _⟩)
    rw [operands, hfactors]
    simp
    omega

theorem Summand.kind_ne (s : Summand) : s.toExpr.kind ≠ .addition := by
  rcases s.toExpr_cases with ⟨h, -⟩ | ⟨f, h, -⟩ | ⟨h, -⟩ <;> rw [h]
  · simp [kind]
  · exact f.kind_ne.1
  · simp [kind, Operator.kind]

/-!
## Normal forms
-/

/-- Summands with different monomials in ascending order, none of them zero. -/
@[ext] structure NormalForm where
  summands : List Summand
  ascending : summands.Pairwise (·.monomial < ·.monomial)
  coefficient_ne_zero : ∀ s ∈ summands, s.coefficient ≠ 0

namespace NormalForm

def toExpr (p : NormalForm) : Expr :=
  assemble .addition 0 (p.summands.map Summand.toExpr)

theorem toExpr_of_length {p : NormalForm} (h : 2 ≤ p.summands.length) :
    p.toExpr = .apply .addition (p.summands.map Summand.toExpr) :=
  assemble_of_length _ _ (by simpa using h)

/-- A normal form is zero, a summand, or a sum. -/
theorem toExpr_cases (p : NormalForm) : p.toExpr = .rational 0 ∧ p.summands = [] ∨
    (∃ s, p.toExpr = Summand.toExpr s ∧ p.summands = [s]) ∨
      p.toExpr = .apply .addition (p.summands.map Summand.toExpr) ∧ 2 ≤ p.summands.length := by
  rcases hp : p.summands with _ | ⟨s, _ | ⟨t, ss⟩⟩
  · refine .inl ⟨?_, rfl⟩
    rw [toExpr, hp]
    rfl
  · refine .inr (.inl ⟨s, ?_, rfl⟩)
    rw [toExpr, hp]
    rfl
  · have hlength : 2 ≤ (s :: t :: ss).length := by simp
    refine .inr (.inr ⟨?_, hlength⟩)
    rw [toExpr_of_length (by rwa [hp]), hp]

noncomputable def polynomial (p : NormalForm) : Polynomial :=
  .ofCoeff (ofEntries (fun s => s.monomial.exponents) (fun s => (s.coefficient : ℂ)) p.summands)

noncomputable def value (p : NormalForm) : Fraction :=
  algebraMap Polynomial Fraction p.polynomial

theorem sum_summands (ss : List Summand) : (ss.map Summand.value).sum =
    algebraMap Polynomial Fraction (.ofCoeff (ofEntries (fun s => s.monomial.exponents)
      (fun s => (s.coefficient : ℂ)) ss)) := by
  induction ss with
  | nil => exact (map_zero _).symm
  | cons s ss ih =>
      rw [List.map_cons, List.sum_cons, ih, Summand.value, term, ← map_add]
      rfl

theorem represents (p : NormalForm) : Represents generic p.value p.toExpr := by
  have hnormal : ∀ x ∈ p.summands.map Summand.toExpr, Normal generic x := by
    intro x hx
    rcases List.mem_map.mp hx with ⟨s, _, rfl⟩
    exact s.represents.normal
  have hassemble := represents_assemble_addition hnormal
  refine ⟨hassemble.normal, hassemble.value_eq.trans ?_⟩
  rw [value, polynomial, ← sum_summands, List.map_map]
  exact congrArg List.sum (List.map_congr_left fun s _ => s.represents.value_eq)

/-- A normal form is told by its value. -/
theorem value_injective : Function.Injective value := by
  intro p q h
  refine NormalForm.ext (eq_of_ofEntries_eq Summand.monomial (fun s t hne heq => ?_) ?_
    p.ascending q.ascending (fun s hs => ?_) (fun s hs => ?_)
      (AddMonoidAlgebra.ofCoeff_injective (algebraMap_injective h)))
  · exact hne (Monomial.exponents_injective heq)
  · intro s t hmonomial hcoefficient
    exact Summand.ext (Rat.cast_injective hcoefficient) (Monomial.exponents_injective hmonomial)
  · exact Rat.cast_ne_zero.mpr (p.coefficient_ne_zero s hs)
  · exact Rat.cast_ne_zero.mpr (q.coefficient_ne_zero s hs)

/-!
## How many summands there are
-/

def zero : NormalForm :=
  ⟨[], .nil, nofun⟩

def single (s : Summand) (h : s.coefficient ≠ 0) : NormalForm :=
  ⟨[s], List.pairwise_singleton _ s, List.forall_mem_singleton.mpr h⟩

theorem mem_support {p : NormalForm} {s : Summand} (hs : s ∈ p.summands) :
    s.monomial.exponents ∈ p.polynomial.coeff.support := by
  have hkeys : p.summands.Pairwise (·.monomial.exponents ≠ ·.monomial.exponents) :=
    p.ascending.imp fun hlt heq => hlt.ne (Monomial.exponents_injective heq)
  have hentry := ofEntries_of_mem (fun s : Summand => s.monomial.exponents)
    (fun s => (s.coefficient : ℂ)) hkeys hs
  rw [Finsupp.mem_support_iff, polynomial, AddMonoidAlgebra.coeff_ofCoeff, hentry]
  exact Rat.cast_ne_zero.mpr (p.coefficient_ne_zero s hs)

theorem one_lt_card_support {p : NormalForm} (h : 2 ≤ p.summands.length) :
    1 < p.polynomial.coeff.support.card := by
  rcases hp : p.summands with _ | ⟨s, _ | ⟨t, ss⟩⟩
  · simp [hp] at h
  · simp [hp] at h
  · have hascending := p.ascending
    rw [hp] at hascending
    have hlt := (List.pairwise_cons.mp hascending).1 t (by simp)
    refine Finset.one_lt_card.mpr ⟨_, mem_support (s := s) (by simp [hp]), _,
      mem_support (s := t) (by simp [hp]), fun heq => hlt.ne ?_⟩
    exact Monomial.exponents_injective heq

/-- The value of a form has one term exactly if the form has no more than one summand. -/
theorem isTerm_value_iff (p : NormalForm) : IsTerm p.value ↔ p.summands.length ≤ 1 := by
  constructor
  · intro h
    by_contra hlength
    have hcard := one_lt_card_support (p := p) (by omega)
    exact (card_support_le_one h).not_gt hcard
  · intro h
    rw [value, polynomial, ← sum_summands]
    rcases hp : p.summands with _ | ⟨s, _ | ⟨t, ss⟩⟩
    · exact ⟨0, 0, (term_zero 0).symm⟩
    · exact ⟨s.coefficient, s.monomial.exponents, by simp [Summand.value]⟩
    · simp [hp] at h

theorem not_isTerm_value_pow {p : NormalForm} (h : 2 ≤ p.summands.length) {n : ℕ} (hn : 0 < n) :
    ¬ IsTerm (p.value ^ n) :=
  not_isTerm_pow (one_lt_card_support h) hn

/-- A form with the value of a term is that summand. -/
theorem eq_single_of_value {p : NormalForm} {c : Rat} {e : Exponents} (hc : c ≠ 0)
    (h : p.value = term c e) :
    ∃ s : Summand, p.summands = [s] ∧ s.coefficient = c ∧ s.monomial.exponents = e := by
  have hlength := (isTerm_value_iff p).mp ⟨c, e, h⟩
  have hsum := h
  rw [value, polynomial, ← sum_summands] at hsum
  rcases hp : p.summands with _ | ⟨s, _ | ⟨t, ss⟩⟩
  · rw [hp] at hsum
    exact absurd hsum.symm (term_ne_zero hc e)
  · rw [hp, List.map_singleton, List.sum_singleton, Summand.value] at hsum
    have hs : s.coefficient ≠ 0 := p.coefficient_ne_zero s (by simp [hp])
    rcases AddMonoidAlgebra.single_inj.mp (algebraMap_injective hsum) with
      ⟨hexponents, hcoefficient⟩ | ⟨hzero, _⟩
    · exact ⟨s, rfl, Rat.cast_injective hcoefficient, hexponents⟩
    · exact absurd (Rat.cast_eq_zero.mp hzero) hs
  · simp [hp] at hlength

end NormalForm

/-!
## Canonical expressions
-/

/-- An expression that is written as a normal form. -/
def Canonical (x : Expr) : Prop :=
  ∃ p : NormalForm, x = p.toExpr

namespace Canonical

variable {x y : Expr}

theorem normal (h : Canonical x) : Normal generic x := by
  rcases h with ⟨p, rfl⟩
  exact p.represents.normal

/-- Canonical expressions with the same value are identical. -/
theorem eq_of_value_eq (hx : Canonical x) (hy : Canonical y)
    (h : x.value generic = y.value generic) : x = y := by
  rcases hx with ⟨p, rfl⟩
  rcases hy with ⟨q, rfl⟩
  rw [p.represents.value_eq, q.represents.value_eq] at h
  rw [NormalForm.value_injective h]

theorem summand {s : Summand} (h : s.coefficient ≠ 0) : Canonical s.toExpr :=
  ⟨.single s h, rfl⟩

theorem rational (q : Rat) : Canonical (.rational q) := by
  by_cases hq : q = 0
  · rw [hq]
    exact ⟨.zero, rfl⟩
  · have hsummand := summand (s := ⟨q, .one⟩) hq
    rwa [Summand.toExpr_of_factors_nil rfl] at hsummand

theorem factor {f : Factor} (h : f.exponent ≠ 0) : Canonical f.toExpr :=
  summand (s := ⟨1, ⟨[f], List.pairwise_singleton _ f, List.forall_mem_singleton.mpr h⟩⟩)
    one_ne_zero

/-- A canonical expression has more than one term exactly if it is a sum. -/
theorem isTerm_value_iff (h : Canonical x) :
    IsTerm (x.value generic) ↔ x.kind ≠ .addition := by
  rcases h with ⟨p, rfl⟩
  rw [p.represents.value_eq, p.isTerm_value_iff]
  rcases p.toExpr_cases with ⟨hp, hsummands⟩ | ⟨s, hp, hsummands⟩ | ⟨hp, hlength⟩ <;> rw [hp]
  · simp [hsummands, kind]
  · simp [hsummands, s.kind_ne]
  · simp [kind, Operator.kind]
    omega

/-- A canonical sum has two summands at least. -/
theorem exists_of_kind_eq (h : Canonical x) (hx : x.kind = .addition) :
    ∃ p : NormalForm, 2 ≤ p.summands.length ∧ x = p.toExpr := by
  have hterm := h.isTerm_value_iff.not.mpr (not_not.mpr hx)
  rcases h with ⟨p, rfl⟩
  rw [p.represents.value_eq, p.isTerm_value_iff] at hterm
  exact ⟨p, by omega, rfl⟩

end Canonical

/-!
## Reduction of nodes
-/

/-- Powers that reduction computes, by the value of their base: those of zero, those of a multiple
of a monomial, and powers of sums with small exponents. -/
inductive Raisable (v : Fraction) (n : Int) : Prop
  | zero (hv : v = 0) (hn : 0 < n)
  | term {c : Rat} {e : Exponents} (hv : v = term c e) (hc : c ≠ 0)
      (hpower : c = 1 ∨ (wholePower? c n).isSome = true)
  | sum (hv : ¬ IsTerm v) (hn : 0 ≤ n) (hmax : n ≤ maxExpandedExponent)

theorem Raisable.pos_or_ne_zero {v : Fraction} {n : Int} (h : Raisable v n) : 0 < n ∨ v ≠ 0 := by
  cases h with
  | zero _ hn => exact .inl hn
  | term hv hc _ =>
      rw [hv]
      exact .inr (term_ne_zero hc _)
  | sum hv _ _ => exact .inr fun hzero => hv ⟨0, 0, by rw [hzero, term_zero]⟩

def isSum (x : Expr) : Bool :=
  x.kind == .addition

/-- A reduction of nodes that writes normal forms.  Products may have so many sums as a power of a
sum that is multiplied out. -/
structure KeepsForms (node : NodeReducer) : Prop where
  keepsValues : KeepsValues generic node
  sum {xs : List Expr} (h : ∀ x ∈ xs, Canonical x) : Yields (add node xs) Canonical
  product {xs : List Expr} (h : ∀ x ∈ xs, Canonical x)
      (hsums : xs.countP isSum ≤ maxExpandedExponent) : Yields (multiply node xs) Canonical
  power {x : Expr} {n : Int} (h : Canonical x) (hn : Raisable (x.value generic) n) :
      Yields (power node x (.integer n)) Canonical

theorem KeepsForms.power_value {node : NodeReducer} (hnode : KeepsForms node) {x : Expr} {n : Int}
    (h : Canonical x) (hn : Raisable (x.value generic) n) :
    Yields (Reduction.power node x (.integer n))
      fun r => Canonical r ∧ r.value generic = x.value generic ^ n :=
  (hnode.power h hn).and
    ((hnode.keepsValues.power h.normal hn.pos_or_ne_zero).mono fun _ hr => hr.value_eq)

theorem canonical_indeterminate (i : Indeterminate) : Canonical i.toExpr :=
  Canonical.factor (f := ⟨i, 1⟩) one_ne_zero

theorem raisable_indeterminate (i : Indeterminate) (n : Int) :
    Raisable (i.toExpr.value generic) n :=
  .term (value_indeterminate i) one_ne_zero (.inl rfl)

end Laurent

end PocketAlgebra
