import Mathlib.Algebra.MvPolynomial.Basic
import Mathlib.Tactic.Ring
import PocketAlgebra.Proofs.Laurent.Engine
import PocketAlgebra.Text.Printer

/-!
# Reduction as a canonical form of polynomials

Two expressions that denote polynomials with rational coefficients are reduced
to identical expressions exactly if the polynomials are equal, where `π` and `ℯ`
are indeterminates as symbols are.
-/

namespace PocketAlgebra

namespace Expr

open Laurent (Indeterminate)

/-- Expressions for polynomials. -/
inductive IsPolynomial : Expr → Prop
  | rational (q : Rat) : IsPolynomial (.rational q)
  | pi : IsPolynomial .pi
  | e : IsPolynomial .e
  | symbol (name : String) : IsPolynomial (.symbol name)
  | addition {x y : Expr} (hx : IsPolynomial x) (hy : IsPolynomial y) :
      IsPolynomial (.apply .addition [x, y])
  | multiplication {x y : Expr} (hx : IsPolynomial x) (hy : IsPolynomial y) :
      IsPolynomial (.apply .multiplication [x, y])
  | subtraction {x y : Expr} (hx : IsPolynomial x) (hy : IsPolynomial y) :
      IsPolynomial (.apply .subtraction [x, y])
  | opposite {x : Expr} (hx : IsPolynomial x) : IsPolynomial (.apply .opposite [x])
  | parenthesis {x : Expr} (hx : IsPolynomial x) : IsPolynomial (.apply .parenthesis [x])

/-- The polynomial that an expression denotes. -/
noncomputable def polynomial : Expr → MvPolynomial Indeterminate ℚ
  | .rational q => MvPolynomial.C q
  | .constant .pi => MvPolynomial.X .pi
  | .constant .e => MvPolynomial.X .e
  | .symbol name => MvPolynomial.X (.symbol name)
  | .apply .addition [x, y] => x.polynomial + y.polynomial
  | .apply .multiplication [x, y] => x.polynomial * y.polynomial
  | .apply .subtraction [x, y] => x.polynomial - y.polynomial
  | .apply .opposite [x] => -x.polynomial
  | .apply .parenthesis [x] => x.polynomial
  | _ => 0

end Expr

namespace Laurent

open PocketAlgebra.Expr Reduction

/-!
## Polynomials among the fractions
-/

noncomputable def wholeExponents : (Indeterminate →₀ ℕ) →+ Exponents :=
  Finsupp.mapRange.addMonoidHom (Nat.castAddMonoidHom ℤ)

noncomputable def ofPolynomial : MvPolynomial Indeterminate ℚ →+* Polynomial :=
  (AddMonoidAlgebra.mapDomainRingHom ℂ wholeExponents).comp
    (AddMonoidAlgebra.mapRingHom (Indeterminate →₀ ℕ) (Rat.castHom ℂ))

theorem ofPolynomial_injective : Function.Injective ofPolynomial := by
  have hexponents : Function.Injective wholeExponents :=
    Finsupp.mapRange_injective _ rfl Nat.cast_injective
  exact (AddMonoidAlgebra.mapDomain_injective hexponents).comp
    (AddMonoidAlgebra.map_injective _ Rat.cast_injective)

theorem ofPolynomial_monomial (e : Indeterminate →₀ ℕ) (q : ℚ) :
    algebraMap Polynomial Fraction (ofPolynomial (MvPolynomial.monomial e q)) =
      term q (wholeExponents e) := by
  rw [← MvPolynomial.single_eq_monomial, ofPolynomial, RingHom.comp_apply,
    AddMonoidAlgebra.mapRingHom_single]
  exact congrArg _ AddMonoidAlgebra.mapDomain_single

/-- The generic value of a polynomial. -/
noncomputable def polynomialValue : MvPolynomial Indeterminate ℚ →+* Fraction :=
  (algebraMap Polynomial Fraction).comp ofPolynomial

theorem polynomialValue_injective : Function.Injective polynomialValue :=
  algebraMap_injective.comp ofPolynomial_injective

theorem polynomialValue_C (q : ℚ) : polynomialValue (MvPolynomial.C q) = q := by
  rw [ratCast_eq_term, MvPolynomial.C_apply, polynomialValue, RingHom.comp_apply,
    ofPolynomial_monomial, map_zero]

theorem polynomialValue_X (i : Indeterminate) :
    polynomialValue (MvPolynomial.X i) = i.value := by
  rw [MvPolynomial.X, polynomialValue, RingHom.comp_apply, ofPolynomial_monomial]
  simp [wholeExponents, Indeterminate.value]

theorem value_eq_polynomialValue {x : Expr} (h : IsPolynomial x) :
    x.value generic = polynomialValue x.polynomial := by
  induction h with
  | rational q => rw [polynomial, polynomialValue_C, value_rational]
  | pi => exact (polynomialValue_X .pi).symm
  | e => exact (polynomialValue_X .e).symm
  | symbol name => exact (polynomialValue_X (.symbol name)).symm
  | addition _ _ ihx ihy => simp [polynomial, ihx, ihy]
  | multiplication _ _ ihx ihy => simp [polynomial, ihx, ihy]
  | subtraction _ _ ihx ihy => rw [value, polynomial, map_sub, ihx, ihy]
  | opposite _ ih => rw [value, polynomial, map_neg, ih]
  | parenthesis _ ih => rw [value, polynomial, ih]

theorem expandable_of_isPolynomial {x : Expr} (h : IsPolynomial x) : Expandable x := by
  induction h with
  | rational q => exact .rational q
  | pi => exact .constant (by decide)
  | e => exact .constant (by decide)
  | symbol name => exact .symbol name
  | addition _ _ ihx ihy => exact .addition (forall_mem_pair ihx ihy)
  | multiplication _ _ ihx ihy =>
      refine .multiplication (forall_mem_pair ihx ihy) (List.countP_le_length.trans ?_)
      exact show 2 ≤ maxExpandedExponent by decide
  | subtraction _ _ ihx ihy => exact .subtraction ihx ihy
  | opposite _ ih => exact .opposite ih
  | parenthesis _ ih => exact .parenthesis ih

end Laurent

open Laurent

/-!
## The canonical form
-/

/-- Expressions for polynomials are reduced to identical expressions exactly if the polynomials are
equal, whatever the format of complex results and the unit of angles are. -/
theorem reduce_same_iff_polynomial_eq {settings settings' : Settings} {room room' : ℕ}
    {breaker breaker' : Breaker} {x y r s : Expr} (hx : x.IsPolynomial) (hy : y.IsPolynomial)
    (htarget : settings.target = .systemForAnalysis)
    (htarget' : settings'.target = .systemForAnalysis)
    (hpolicy : settings.symbolic = .replaceAllDefinedSymbols)
    (hpolicy' : settings'.symbolic = .replaceAllDefinedSymbols)
    (hr : x.reduce ⟨settings, {}, room, []⟩ breaker = .ok r)
    (hs : y.reduce ⟨settings', {}, room', []⟩ breaker' = .ok s) :
    r.same s = true ↔ x.polynomial = y.polynomial := by
  have hpresent : ∀ settings : Settings, settings.target = .systemForAnalysis → ∀ c,
      present settings c = c := fun _ h => present_of_ne (by rw [h]; decide)
  have hnames : ∀ {settings : Settings} (x : Expr), settings.symbolic = .replaceAllDefinedSymbols →
      settings.symbolic = .replaceAllSymbolsOrUndefined → x.references none = [] := by
    intro settings x h hstrict
    rw [h] at hstrict
    cases hstrict
  rcases exists_reduces (hnames x hpolicy) (expandable_of_isPolynomial hx) hr with ⟨c, hc, rfl⟩
  rcases exists_reduces (hnames y hpolicy') (expandable_of_isPolynomial hy) hs with ⟨d, hd, rfl⟩
  rw [hpresent _ htarget, hpresent _ htarget', ← polynomialValue_injective.eq_iff,
    ← value_eq_polynomialValue hx, ← value_eq_polynomialValue hy]
  constructor
  · intro hsame
    rw [← hc.2, ← hd.2, hc.1.normal.eq_of_same d hsame]
  · intro hvalue
    rw [hc.eq_of_value_eq hd hvalue]
    exact Expr.same_self d

def productOfConjugates : Expr :=
  .apply .multiplication
    [.apply .parenthesis [.apply .addition [.symbol "x", .pi]],
      .apply .parenthesis [.apply .subtraction [.symbol "x", .pi]]]

def differenceOfSquares : Expr :=
  .apply .subtraction
    [.apply .multiplication [.symbol "x", .symbol "x"], .apply .multiplication [.pi, .pi]]

/-- Settings for analysis that differ from the default ones in formats. -/
def polarDegrees : Settings :=
  { target := .systemForAnalysis, complexFormat := .polar, angleUnit := .degree }

/-- The product and the difference are the same polynomial; both are reduced to
`(-1)×π^2+x^2`. -/
theorem reduce_same_iff_polynomial_eq_conjugates : ∃ r s,
    productOfConjugates.reduce ⟨{ target := .systemForAnalysis }, {}, 4096, []⟩ {} = .ok r ∧
      differenceOfSquares.reduce ⟨polarDegrees, {}, 4096, []⟩ {} = .ok s ∧
        r.text = "(-1)×π^2+x^2" ∧ r.same s = true := by
  have hresults : ((productOfConjugates.reduce ⟨{ target := .systemForAnalysis }, {}, 4096, []⟩
      {}).toOption.bind fun r =>
        (differenceOfSquares.reduce ⟨polarDegrees, {}, 4096, []⟩ {}).toOption.map fun _ =>
          r.text) = some "(-1)×π^2+x^2" := by
    decide +kernel
  rcases Reduction.exists_ok_bind hresults with ⟨r, s, hr, hs, htext⟩
  have hproduct : productOfConjugates.IsPolynomial :=
    .multiplication (.parenthesis (.addition (.symbol "x") .pi))
      (.parenthesis (.subtraction (.symbol "x") .pi))
  have hdifference : differenceOfSquares.IsPolynomial :=
    .subtraction (.multiplication (.symbol "x") (.symbol "x")) (.multiplication .pi .pi)
  refine ⟨r, s, hr, hs, htext, ?_⟩
  refine (reduce_same_iff_polynomial_eq hproduct hdifference rfl rfl rfl rfl hr hs).mpr ?_
  simp only [productOfConjugates, differenceOfSquares, Expr.polynomial, Expr.pi]
  ring

end PocketAlgebra
