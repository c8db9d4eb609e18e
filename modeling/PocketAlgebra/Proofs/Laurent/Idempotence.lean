import PocketAlgebra.Proofs.Field.Reduction
import PocketAlgebra.Proofs.Laurent.Engine
import PocketAlgebra.Text.Printer

/-!
# Arrangement and repetition

The canonical expression of a Laurent expression depends on the value alone.  So
the operands of its sums and products may be written in any order, and reducing
a canonical expression changes nothing.  Neither holds of all expressions: the
simplification order is not total on functions of sums and products, and
multiples of infinities are not collected.

A canonical expression is shown with subtractions in the place of negative terms
and with quotients in the place of negative exponents and of denominators.  What
is shown is a Laurent expression of the same value, if the denominators can be
inverted; so reduction gets the canonical expression back.
-/

namespace PocketAlgebra

namespace Laurent

open PocketAlgebra.Expr Reduction

/-!
## Canonical expressions are Laurent expressions
-/

theorem expandable_indeterminate (i : Indeterminate) : Expandable i.toExpr := by
  cases i with
  | pi => exact .constant (by decide)
  | e => exact .constant (by decide)
  | symbol name => exact .symbol name

theorem containsSum_indeterminate (i : Indeterminate) : containsSum i.toExpr = false := by
  cases i <;> rfl

theorem Factor.expandable (f : Factor) :
    Expandable f.toExpr ∧ containsSum f.toExpr = false := by
  have hbase := containsSum_indeterminate f.base
  rw [toExpr]
  split
  · exact ⟨expandable_indeterminate f.base, hbase⟩
  · refine ⟨.power (expandable_indeterminate f.base) (wholeLiteral?_integer _)
      (raisable_indeterminate f.base _), ?_⟩
    rw [containsSum, containsSumAny, hbase]
    rfl

theorem containsSumAny_eq_false {xs : List Expr} (h : ∀ x ∈ xs, containsSum x = false) :
    containsSumAny xs = false := by
  induction xs with
  | nil => rfl
  | cons x xs ih =>
      rw [containsSumAny, h x List.mem_cons_self, ih fun y hy => h y (List.mem_cons_of_mem x hy)]
      rfl

theorem Summand.expandable (s : Summand) :
    Expandable s.toExpr ∧ containsSum s.toExpr = false := by
  have hoperands : ∀ y ∈ s.operands, Expandable y ∧ containsSum y = false := by
    intro y hy
    rcases List.mem_append.mp hy with hy | hy
    · rw [List.mem_singleton.mp (s.coefficientOperands_subset hy)]
      exact ⟨.rational _, rfl⟩
    · rcases List.mem_map.mp hy with ⟨f, _, rfl⟩
      exact f.expandable
  rcases s.toExpr_cases with ⟨h, -⟩ | ⟨f, h, -⟩ | ⟨h, -⟩ <;> rw [h]
  · exact ⟨.rational _, rfl⟩
  · exact f.expandable
  · refine ⟨.multiplication (fun y hy => (hoperands y hy).1) ?_, ?_⟩
    · rw [List.countP_eq_zero.mpr fun y hy => by simp [(hoperands y hy).2]]
      exact Nat.zero_le _
    · exact containsSumAny_eq_false fun y hy => (hoperands y hy).2

theorem Canonical.expandable {x : Expr} (h : Canonical x) : Expandable x := by
  rcases h with ⟨p, rfl⟩
  rcases p.toExpr_cases with ⟨hp, -⟩ | ⟨s, hp, -⟩ | ⟨hp, -⟩ <;> rw [hp]
  · exact .rational 0
  · exact s.expandable.1
  · refine .addition fun x hx => ?_
    rcases List.mem_map.mp hx with ⟨s, _, rfl⟩
    exact s.expandable.1

end Laurent

open PocketAlgebra.Expr Laurent Reduction

/-!
## Arrangement
-/

/-- The operands of a sum or product among the Laurent expressions may be written in any order. -/
theorem reduce_eq_of_perm {settings : Settings} {room room' : ℕ} {breaker breaker' : Breaker}
    {f : Operator} {xs ys : List Expr} {r s : Expr} (hf : f = .addition ∨ f = .multiplication)
    (hperm : xs.Perm ys) (hxs : Expandable (.apply f xs))
    (hr : (apply f xs).reduce ⟨settings, {}, room, []⟩ breaker = .ok r)
    (hs : (apply f ys).reduce ⟨settings, {}, room', []⟩ breaker' = .ok s) : r = s := by
  have hys : Expandable (.apply f ys) ∧
      (apply f xs).value generic = (apply f ys).value generic := by
    rcases hf with rfl | rfl
    · cases hxs with
      | addition h =>
          refine ⟨.addition fun y hy => h y (hperm.mem_iff.mpr hy), ?_⟩
          rw [value_addition, value_addition, (hperm.map _).sum_eq]
    · cases hxs with
      | multiplication h hsums =>
          refine ⟨.multiplication (fun y hy => h y (hperm.mem_iff.mpr hy)) ?_, ?_⟩
          · rwa [← hperm.countP_eq]
          · rw [value_multiplication, value_multiplication, (hperm.map _).prod_eq]
  have hreferences : (apply f xs).references none = [] ↔ (apply f ys).references none = [] := by
    have hall : referencesAll none xs = [] ↔ referencesAll none ys = [] := by
      simp only [referencesAll_eq_nil_iff, hperm.mem_iff]
    rcases hf with rfl | rfl <;> exact hall
  by_cases hnames : settings.symbolic = .replaceAllSymbolsOrUndefined →
      (apply f xs).references none = []
  · rcases exists_reduces hnames hxs hr with ⟨c, hc, rfl⟩
    rcases exists_reduces (fun h => hreferences.mp (hnames h)) hys.1 hs with ⟨d, hd, rfl⟩
    rw [hc.eq_of_value_eq hd hys.2]
  · rcases Classical.not_imp.mp hnames with ⟨hstrict, hne⟩
    rw [eq_undefined_of_names hstrict hne hxs hr,
      eq_undefined_of_names hstrict (hreferences.not.mp hne) hys.1 hs]

/-- The factors `x+1`, `y^(-2)`, `x-1` and `y/2`. -/
def mixedFactors : List Expr :=
  [.apply .addition [.symbol "x", .integer 1],
    .apply .power [.symbol "y", .integer (-2)],
    .apply .subtraction [.symbol "x", .integer 1],
    .apply .division [.symbol "y", .integer 2]]

theorem expandable_mixedFactors : Expandable (.apply .multiplication mixedFactors) := by
  have hall : ∀ x ∈ mixedFactors, Expandable x := by
    refine List.forall_mem_cons.mpr ⟨.addition (forall_mem_pair (.symbol "x") (.rational _)),
      List.forall_mem_cons.mpr ⟨.power (.symbol "y") (wholeLiteral?_integer _) ?_,
        forall_mem_pair (.subtraction (.symbol "x") (.rational _))
          (.division (.symbol "y") (.rational _) ?_)⟩⟩
    · exact raisable_indeterminate (.symbol "y") _
    · exact .term (ratCast_eq_term _) two_ne_zero (.inr (by decide))
  exact .multiplication hall (by decide)

/-- The factors and their reverse are reduced to the same sum. -/
theorem reduce_eq_of_perm_reverse : ∃ r s,
    (apply .multiplication mixedFactors).reduce
        ⟨{ target := .systemForAnalysis }, {}, 4096, []⟩ {} = .ok r ∧
      (apply .multiplication mixedFactors.reverse).reduce
          ⟨{ target := .systemForAnalysis }, {}, 4096, []⟩ {} = .ok s ∧
        r.text = "(-1/2)×y^(-1)+1/2×x^2×y^(-1)" ∧ r = s := by
  have hresults : (((apply .multiplication mixedFactors).reduce
      ⟨{ target := .systemForAnalysis }, {}, 4096, []⟩ {}).toOption.bind fun r =>
        ((apply .multiplication mixedFactors.reverse).reduce
          ⟨{ target := .systemForAnalysis }, {}, 4096, []⟩ {}).toOption.map fun _ => r.text) =
            some "(-1/2)×y^(-1)+1/2×x^2×y^(-1)" := by
    decide +kernel
  rcases exists_ok_bind hresults with ⟨r, s, hr, hs, htext⟩
  exact ⟨r, s, hr, hs, htext, reduce_eq_of_perm (.inr rfl) (List.reverse_perm _).symm
    expandable_mixedFactors hr hs⟩

def sineOfSum : Expr :=
  .apply .sine [.apply .addition [.integer 1, .symbol "x"]]

def sineOfProduct : Expr :=
  .apply .sine [.apply .multiplication [.integer 2, .symbol "x"]]

/-- A sum and a product are compared through the last operand of the one that is given first: so
each of the two sines precedes the other. -/
example : order sineOfSum sineOfProduct = .lt ∧ order sineOfProduct sineOfSum = .lt := by
  decide +kernel

/-- Beyond the Laurent expressions the order of writing counts: these sines stay as they are. -/
theorem reduce_sines_keeps_order : ∃ r s,
    (apply .addition [sineOfSum, sineOfProduct]).reduce
        ⟨{ target := .systemForAnalysis }, {}, 4096, []⟩ {} = .ok r ∧
      (apply .addition [sineOfProduct, sineOfSum]).reduce
          ⟨{ target := .systemForAnalysis }, {}, 4096, []⟩ {} = .ok s ∧
        (r.text, s.text, r.same s) = ("sin(1+x)+sin(2×x)", "sin(2×x)+sin(1+x)", false) :=
  exists_ok_bind (by decide +kernel)

/-!
## Repetition
-/

/-- Reducing the result of reducing a Laurent expression changes nothing. -/
theorem reduce_reduced {settings : Settings} {room room' : ℕ} {breaker breaker' : Breaker}
    {x r s : Expr} (hx : Expandable x) (htarget : settings.target ≠ .user)
    (hpolicy : settings.symbolic ≠ .replaceAllSymbolsOrUndefined)
    (hr : x.reduce ⟨settings, {}, room, []⟩ breaker = .ok r)
    (hs : r.reduce ⟨settings, {}, room', []⟩ breaker' = .ok s) : s = r := by
  rcases exists_reduces (absurd · hpolicy) hx hr with ⟨c, hc, rfl⟩
  rw [present_of_ne htarget] at hs ⊢
  rcases exists_reduces (absurd · hpolicy) hc.1.expandable hs with ⟨d, hd, rfl⟩
  rw [present_of_ne htarget]
  exact hd.eq_of_value_eq ⟨hc.1, rfl⟩ rfl

namespace Laurent

def oneAdd (i : Indeterminate) : NormalForm where
  summands := [⟨1, .one⟩, ⟨1, ⟨[⟨i, 1⟩], List.pairwise_singleton _ _, by simp⟩⟩]
  ascending := List.pairwise_pair.mpr (nil_lt (List.cons_ne_nil _ _))
  coefficient_ne_zero := by simp

theorem not_isTerm_one_add (i : Indeterminate) : ¬ IsTerm (1 + i.value) := by
  have hvalue : (oneAdd i).value = 1 + i.value := by
    rw [NormalForm.value, NormalForm.polynomial, ← NormalForm.sum_summands]
    simp [oneAdd, Summand.value, Monomial.exponents, Monomial.one, ofEntries, term_one,
      Indeterminate.value]
  rw [← hvalue, NormalForm.isTerm_value_iff]
  exact show ¬ 2 ≤ 1 by decide

end Laurent

def squareOverDouble : Expr :=
  .apply .division
    [.apply .power [.apply .parenthesis [.apply .addition [.integer 1, .symbol "x"]], .integer 2],
      .apply .multiplication [.integer 2, .symbol "y"]]

theorem expandable_squareOverDouble : Expandable squareOverDouble := by
  have hbase : Expr.value generic (.apply .parenthesis
      [.apply .addition [.integer 1, .symbol "x"]]) = 1 + (Indeterminate.symbol "x").value := by
    rw [value, value_addition]
    simp [value_symbol]
  have hdenominator : Expr.value generic (.apply .multiplication [.integer 2, .symbol "y"]) =
      term 2 (Finsupp.single (.symbol "y") 1) := by
    have htwo : (2 : Fraction) = term 2 0 := by
      rw [← ratCast_eq_term, Rat.cast_ofNat]
    rw [value_multiplication]
    simp [value_symbol, Indeterminate.value, htwo, term_mul]
  refine .division (.power (.parenthesis (.addition ?_)) (wholeLiteral?_integer 2) ?_)
    (.multiplication ?_ (by decide)) ?_
  · exact forall_mem_pair (.rational _) (.symbol "x")
  · rw [hbase]
    exact .sum (not_isTerm_one_add _) (by decide) (by decide)
  · exact forall_mem_pair (.rational _) (.symbol "y")
  · exact .term hdenominator two_ne_zero (.inr (by decide))

theorem reduce_reduced_squareOverDouble : ∃ r s,
    squareOverDouble.reduce ⟨{ target := .systemForAnalysis }, {}, 4096, []⟩ {} = .ok r ∧
      r.reduce ⟨{ target := .systemForAnalysis }, {}, 4096, []⟩ {} = .ok s ∧
        r.text = "1/2×y^(-1)+x×y^(-1)+1/2×x^2×y^(-1)" ∧ s = r := by
  have hresults : ((squareOverDouble.reduce ⟨{ target := .systemForAnalysis }, {}, 4096, []⟩
      {}).toOption.bind fun r => (r.reduce ⟨{ target := .systemForAnalysis }, {}, 4096, []⟩
        {}).toOption.map fun _ => r.text) = some "1/2×y^(-1)+x×y^(-1)+1/2×x^2×y^(-1)" := by
    decide +kernel
  rcases exists_ok_bind hresults with ⟨r, s, hr, hs, htext⟩
  exact ⟨r, s, hr, hs, htext, reduce_reduced expandable_squareOverDouble (by decide) (by decide)
    hr hs⟩

def infiniteTerms : Expr :=
  .apply .addition [.apply .addition [.infinity false, .symbol "x"], .infinity false]

/-- Infinities are collected as if they were names, and their multiples are reduced only by a
second reduction. -/
theorem reduce_infiniteTerms_twice : ∃ r s,
    infiniteTerms.reduce ⟨{ target := .systemForAnalysis }, {}, 4096, []⟩ {} = .ok r ∧
      r.reduce ⟨{ target := .systemForAnalysis }, {}, 4096, []⟩ {} = .ok s ∧
        (r.text, s.text, s.same r) = ("2×inf+x", "inf+x", false) :=
  exists_ok_bind (by decide +kernel)

/-! ## The form a user expects, reduced again -/

namespace Expr

mutual

/-- The rational numbers in a tree. -/
def rationals : Expr → List Rat
  | rational q => [q]
  | apply _ xs => rationalsAll xs
  | _ => []

def rationalsAll : List Expr → List Rat
  | [] => []
  | x :: xs => x.rationals ++ rationalsAll xs

end

theorem mem_rationals_apply {f : Operator} {xs : List Expr} {x : Expr} {q : Rat} (hx : x ∈ xs)
    (hq : q ∈ x.rationals) : q ∈ (apply f xs).rationals := by
  rw [rationals]
  induction xs with
  | nil => cases hx
  | cons y ys ih =>
      rw [rationalsAll, List.mem_append]
      rcases List.mem_cons.mp hx with rfl | hx
      · exact .inl hq
      · exact .inr (ih hx)

end Expr

namespace Laurent

/-!
## Factors above and below the bar
-/

namespace Factor

def inverse (f : Factor) : Factor :=
  ⟨f.base, -f.exponent⟩

/-- How a factor is shown. -/
def face (f : Factor) : Face :=
  if f.exponent < 0 then .reciprocal f.inverse.toExpr else .whole f.toExpr

theorem shown_indeterminate (i : Indeterminate) :
    shown i.toExpr = ⟨false, .whole i.toExpr⟩ ∧ i.toExpr.kind.isNumber = false := by
  cases i <;> exact ⟨rfl, rfl⟩

theorem shown_toExpr (f : Factor) : shown f.toExpr = ⟨false, f.face⟩ := by
  rcases f with ⟨i, n⟩
  rcases shown_indeterminate i with ⟨hshown, hkind⟩
  by_cases hone : n = 1
  · rw [toExpr, face, if_pos hone, hshown, if_neg (by simp [hone]), toExpr, if_pos hone]
  · have hbase : standalone i.toExpr (shown i.toExpr) = i.toExpr := by
      rw [standalone, hkind, hshown]
      rfl
    have hpower : shown (.apply .power [i.toExpr, .integer n]) = ⟨false, showPower i.toExpr n⟩ := by
      conv_rhs => rw [← hbase]
      rw [shown, shownAll_eq_map]
      rfl
    rw [toExpr, if_neg hone, hpower, face, showPower]
    by_cases hneg : n < 0
    · rw [if_pos (Int.cast_lt_zero.mpr hneg), if_pos hneg, ← Int.cast_neg, rootOrPower_integer,
        inverse, toExpr]
      by_cases hminus : n = -1
      · simp [hminus]
      · have hcast : (n : Rat) ≠ -1 := by exact_mod_cast hminus
        rw [if_neg hcast, if_neg (show ¬ -n = 1 by omega)]
    · rw [if_neg fun h => hneg (Int.cast_lt_zero.mp h), if_neg hneg, rootOrPower_integer, toExpr,
        if_neg hone]

theorem factorFace_toExpr (f : Factor) : factorFace (f.toExpr, shown f.toExpr) = f.face := by
  have hshown := f.shown_toExpr
  by_cases hone : f.exponent = 1
  · have hface : f.face = .whole f.base.toExpr := by
      rw [face, if_neg (by simp [hone]), toExpr, if_pos hone]
    rw [hface, toExpr, if_pos hone]
    cases f.base <;> rfl
  · rw [hshown, toExpr, if_neg hone]
    rfl

end Factor

namespace Monomial

/-- The factors above the bar. -/
def above (m : Monomial) : Monomial where
  factors := m.factors.filter (¬ ·.exponent < 0)
  ascending := m.ascending.filter _
  exponent_ne_zero f hf := m.exponent_ne_zero f (List.mem_of_mem_filter hf)

/-- The reciprocals of the factors below the bar. -/
def below (m : Monomial) : Monomial where
  factors := (m.factors.filter (·.exponent < 0)).map Factor.inverse
  ascending := List.pairwise_map.mpr (m.ascending.filter _)
  exponent_ne_zero f hf := by
    rcases List.mem_map.mp hf with ⟨g, hg, rfl⟩
    exact neg_ne_zero.mpr (m.exponent_ne_zero g (List.mem_of_mem_filter hg))

theorem numerators (m : Monomial) : (m.factors.map Factor.face).filterMap Face.numerator? =
    m.above.factors.map Factor.toExpr := by
  change _ = (m.factors.filter (¬ ·.exponent < 0)).map Factor.toExpr
  induction m.factors with
  | nil => rfl
  | cons f fs ih =>
      rw [List.map_cons, List.filter_cons, Factor.face]
      by_cases hneg : f.exponent < 0
      · rw [if_pos hneg, if_neg (by simpa using hneg)]
        exact ih
      · rw [if_neg hneg, if_pos (by simpa using hneg), List.map_cons, ← ih]
        rfl

theorem denominators (m : Monomial) : (m.factors.map Factor.face).filterMap Face.denominator? =
    m.below.factors.map Factor.toExpr := by
  change _ = ((m.factors.filter (·.exponent < 0)).map Factor.inverse).map Factor.toExpr
  induction m.factors with
  | nil => rfl
  | cons f fs ih =>
      rw [List.map_cons, List.filter_cons, Factor.face]
      by_cases hneg : f.exponent < 0
      · rw [if_pos hneg, if_pos (decide_eq_true hneg), List.map_cons, List.map_cons, ← ih]
        rfl
      · rw [if_neg hneg, if_neg (by simpa using hneg)]
        exact ih

end Monomial

/-!
## Summands
-/

/-- A number with a denominator that reduction can invert. -/
def InvertibleDenominator (q : Rat) : Prop :=
  (wholePower? q.den (-1)).isSome = true

theorem invertibleDenominator_one : InvertibleDenominator 1 := by
  rw [InvertibleDenominator]
  decide

theorem shownProduct_eq (xs : List Expr) : shownProduct xs = assemble .multiplication 1 xs := by
  rcases xs with _ | ⟨x, _ | ⟨y, ys⟩⟩ <;> rfl

theorem operands_eq (n : Int) (m : Monomial) : (Summand.mk n m).operands =
    (if n = 1 then [] else [.integer n]) ++ m.factors.map Factor.toExpr := by
  rw [Summand.operands, Summand.coefficientOperands]
  simp only [Int.cast_eq_one]
  rfl

theorem expandable_quotient {x d : Expr} {s : Summand} (hx : Expandable x ∧ containsSum x = false)
    (hd : d = s.toExpr) (hs : s.coefficient ≠ 0)
    (hpower : s.coefficient = 1 ∨ (wholePower? s.coefficient (-1)).isSome = true) :
    Expandable (.apply .division [x, d]) ∧ containsSum (.apply .division [x, d]) = false := by
  rw [hd]
  refine ⟨.division hx.1 s.expandable.1 (.term s.represents.value_eq hs hpower), ?_⟩
  exact containsSumAny_eq_false (forall_mem_pair hx.2 s.expandable.2)

/-- A multiple of a monomial is shown as a quotient of a numerator and a denominator. -/
theorem expandable_showProduct {c : Rat} (hc : InvertibleDenominator c) (m : Monomial) :
    Expandable (showProduct c (m.factors.map Factor.face)) ∧
      containsSum (showProduct c (m.factors.map Factor.face)) = false := by
  have hnumerator := (Summand.mk c.num m.above).expandable
  have hdenominator : (if c.den = 1 then [] else [Expr.integer c.den]) ++
      m.below.factors.map Factor.toExpr = (Summand.mk (c.den : Int) m.below).operands := by
    rw [operands_eq]
    simp only [Nat.cast_eq_one]
  rw [Summand.toExpr, operands_eq] at hnumerator
  simp only [showProduct, Monomial.numerators, Monomial.denominators, shownProduct_eq,
    hdenominator]
  split
  · exact hnumerator
  · refine expandable_quotient hnumerator rfl ?_ (.inr ?_)
    · simp
    · rwa [Int.cast_natCast]

theorem showApply_factors (f : Factor) (t : Shown) (ops : List (Expr × Shown)) :
    showApply .multiplication ((f.toExpr, t) :: ops) =
      ⟨false, .whole (showProduct 1 (((f.toExpr, t) :: ops).map factorFace))⟩ := by
  rcases f.toExpr_cases with ⟨c, h⟩ | ⟨name, h⟩ | ⟨x, n, h⟩ <;> rw [h] <;> rfl

theorem InvertibleDenominator.magnitude {c : Rat} (h : InvertibleDenominator c) :
    InvertibleDenominator (if c < 0 then -c else c) := by
  split
  · rwa [InvertibleDenominator, Rat.neg_den]
  · exact h

/-- A summand is shown as a Laurent expression, up to a sign that is drawn out of it. -/
theorem expandable_shown_summand {s : Summand} (hs : InvertibleDenominator s.coefficient) :
    Expandable (shown s.toExpr).face.toExpr := by
  have hfaces : (shownAll (s.monomial.factors.map Factor.toExpr)).map factorFace =
      s.monomial.factors.map Factor.face := by
    rw [shownAll_eq_map, List.map_map, List.map_map]
    exact List.map_congr_left fun f _ => f.factorFace_toExpr
  rcases s.toExpr_cases with ⟨h, -⟩ | ⟨f, h, -⟩ | ⟨h, hfactors⟩ <;> rw [h]
  · exact .rational _
  · rw [f.shown_toExpr, Factor.face]
    split
    · -- a reciprocal has the denominator only
      exact .division (.rational 1) f.inverse.expandable.1
        (.term f.inverse.represents.value_eq one_ne_zero (.inl rfl))
    · exact f.expandable.1
  · rw [shown, Summand.operands, Summand.coefficientOperands]
    by_cases hone : s.coefficient = 1
    · have hproduct : showApply .multiplication (shownAll (s.monomial.factors.map Factor.toExpr)) =
          ⟨false, .whole (showProduct 1 (s.monomial.factors.map Factor.face))⟩ := by
        rw [← hfaces]
        rcases List.exists_cons_of_ne_nil hfactors with ⟨f, fs, hcons⟩
        rw [hcons]
        exact showApply_factors f _ _
      rw [if_pos hone, List.nil_append, hproduct]
      exact (expandable_showProduct invertibleDenominator_one s.monomial).1
    · rw [if_neg hone, List.singleton_append, shownAll]
      simp only [showApply, hfaces]
      exact (expandable_showProduct hs.magnitude s.monomial).1

/-!
## Canonical expressions
-/

theorem expandable_shown {t : Shown} (h : Expandable t.face.toExpr) : Expandable t.toExpr := by
  rw [Shown.toExpr]
  split
  · exact .opposite h
  · exact h

theorem expandable_showSum {ts : List Shown} (h : ∀ t ∈ ts, Expandable t.face.toExpr) :
    Expandable (showSum ts) := by
  have hfold : ∀ (ts : List Shown) (x : Expr), (∀ t ∈ ts, Expandable t.face.toExpr) →
      Expandable x → Expandable (ts.foldl (fun sum t =>
        .apply (if t.negative then .subtraction else .addition) [sum, t.face.toExpr]) x) := by
    intro ts
    induction ts with
    | nil => exact fun x _ hx => hx
    | cons t ts ih =>
        intro x h hx
        have hface := h t List.mem_cons_self
        refine ih _ (fun r hr => h r (List.mem_cons_of_mem t hr)) ?_
        dsimp only
        split
        · exact .subtraction hx hface
        · exact .addition (forall_mem_pair hx hface)
  cases ts with
  | nil => exact .rational _
  | cons t ts =>
      exact hfold ts _ (fun r hr => h r (List.mem_cons_of_mem t hr))
        (expandable_shown (h t List.mem_cons_self))

theorem expandable_standalone {x : Expr} (hx : Expandable x)
    (h : Expandable (shown x).face.toExpr) : Expandable (standalone x (shown x)) := by
  rw [standalone]
  split
  · exact hx
  · exact expandable_shown h

theorem mem_rationals_toExpr {s : Summand} (h : s.coefficient ≠ 1) :
    s.coefficient ∈ s.toExpr.rationals := by
  have hself : s.coefficient ∈ (Expr.rational s.coefficient).rationals := List.mem_singleton_self _
  rcases s.toExpr_cases with ⟨hs, -⟩ | ⟨f, -, hone, -⟩ | ⟨hs, -⟩
  · rwa [hs]
  · exact absurd hone h
  · rw [hs]
    refine mem_rationals_apply (List.mem_append_left _ ?_) hself
    rw [Summand.coefficientOperands, if_neg h]
    exact List.mem_singleton_self _

theorem invertibleDenominator_of_mem {p : NormalForm}
    (h : ∀ q ∈ p.toExpr.rationals, InvertibleDenominator q) :
    ∀ s ∈ p.summands, InvertibleDenominator s.coefficient := by
  intro s hs
  by_cases hone : s.coefficient = 1
  · rw [hone]
    exact invertibleDenominator_one
  · refine h _ ?_
    rcases p.toExpr_cases with ⟨-, hsummands⟩ | ⟨t, hp, hsummands⟩ | ⟨hp, -⟩
    · rw [hsummands] at hs
      cases hs
    · rw [hsummands] at hs
      rw [hp, ← List.mem_singleton.mp hs]
      exact mem_rationals_toExpr hone
    · rw [hp]
      exact mem_rationals_apply (List.mem_map_of_mem hs) (mem_rationals_toExpr hone)

/-- What a user is shown in the place of a canonical expression is a Laurent expression. -/
theorem expandable_beautify {x : Expr} (hx : Canonical x)
    (hdenominators : ∀ q ∈ x.rationals, InvertibleDenominator q) : Expandable (beautify x) := by
  have hexpandable := hx.expandable
  rcases hx with ⟨p, rfl⟩
  have hsummands := invertibleDenominator_of_mem hdenominators
  refine expandable_standalone hexpandable ?_
  rcases p.toExpr_cases with ⟨hp, -⟩ | ⟨s, hp, hsingle⟩ | ⟨hp, -⟩ <;> rw [hp]
  · exact .rational 0
  · exact expandable_shown_summand (hsummands s (hsingle ▸ List.mem_cons_self))
  · rw [shown, shownAll_eq_map]
    refine expandable_showSum fun r hr => ?_
    rcases List.mem_map.mp hr with ⟨⟨x, y⟩, hpair, rfl⟩
    -- numbers are moved to the end
    have hmem : (x, y) ∈ (p.summands.map Summand.toExpr).map fun x => (x, shown x) := by
      rcases List.mem_append.mp hpair with h | h <;> exact List.mem_of_mem_filter h
    rcases List.mem_map.mp hmem with ⟨z, hz, heq⟩
    cases heq
    rcases List.mem_map.mp hz with ⟨u, hu, rfl⟩
    exact expandable_shown_summand (hsummands u hu)

end Laurent

/-- Reducing what a user is shown gets the canonical expression back, and shows the same again. -/
theorem reduce_beautified (settings : Settings) {room room' : ℕ} {breaker breaker' : Breaker}
    {x u r : Expr} (hx : Expandable x)
    (hpolicy : settings.symbolic ≠ .replaceAllSymbolsOrUndefined)
    (hu : x.reduce ⟨{ settings with target := .user }, {}, room, []⟩ breaker = .ok u)
    (hr : x.reduce ⟨{ settings with target := .systemForAnalysis }, {}, room', []⟩ breaker' =
      .ok r)
    (hdenominators : ∀ q ∈ r.rationals, InvertibleDenominator q) :
    (∀ room breaker s, u.reduce ⟨{ settings with target := .systemForAnalysis }, {}, room, []⟩
      breaker = .ok s → s = r) ∧
    ∀ room breaker v, u.reduce ⟨{ settings with target := .user }, {}, room, []⟩
      breaker = .ok v → v = u := by
  have hnames : ∀ (target : Target) (x : Expr),
      ({ settings with target := target } : Settings).symbolic = .replaceAllSymbolsOrUndefined →
        x.references none = [] := fun _ _ h => absurd h hpolicy
  have hanalysis : ∀ c, present { settings with target := .systemForAnalysis } c = c :=
    present_of_ne (show Target.systemForAnalysis ≠ .user by decide)
  rcases exists_reduces (hnames .user _) hx hu with ⟨c, hc, hcu⟩
  rcases exists_reduces (hnames .systemForAnalysis _) hx hr with ⟨d, hd, hdr⟩
  -- both targets have the same canonical expression before it is presented
  obtain rfl : c = d := hc.eq_of_value_eq hd rfl
  rw [hanalysis] at hdr
  rw [present_of_user rfl] at hcu
  subst hdr hcu
  have hbeautiful := expandable_beautify hc.1 hdenominators
  have hvalue := (denotes_beautify hc.1.normal).value_eq
  constructor
  · intro room breaker s hs
    rcases exists_reduces (hnames .systemForAnalysis _) hbeautiful hs with ⟨e, he, hes⟩
    rw [hes, hanalysis]
    exact he.eq_of_value_eq ⟨hc.1, rfl⟩ hvalue
  · intro room breaker v hv
    rcases exists_reduces (hnames .user _) hbeautiful hv with ⟨e, he, hev⟩
    rw [hev, present_of_user rfl, he.eq_of_value_eq ⟨hc.1, rfl⟩ hvalue]

/-- The quotient `(1+x)^2/(2×y)` is shown as a sum of quotients, which is reduced as the quotient
is. -/
theorem reduce_beautified_squareOverDouble : ∃ u r s v,
    squareOverDouble.reduce ⟨{ target := .user }, {}, 4096, []⟩ {} = .ok u ∧
      squareOverDouble.reduce ⟨{ target := .systemForAnalysis }, {}, 4096, []⟩ {} = .ok r ∧
        u.text = "1/(2×y)+x/y+x^2/(2×y)" ∧
          u.reduce ⟨{ target := .systemForAnalysis }, {}, 4096, []⟩ {} = .ok s ∧ s = r ∧
            u.reduce ⟨{ target := .user }, {}, 4096, []⟩ {} = .ok v ∧ v = u := by
  have hresults : ((squareOverDouble.reduce ⟨{ target := .user }, {}, 4096, []⟩
      {}).toOption.bind fun u => (squareOverDouble.reduce
        ⟨{ target := .systemForAnalysis }, {}, 4096, []⟩ {}).toOption.map fun r =>
          (u.text, r.rationals.all fun q => (wholePower? q.den (-1)).isSome,
            (u.reduce ⟨{ target := .systemForAnalysis }, {}, 4096, []⟩ {}).toOption.isSome,
            (u.reduce ⟨{ target := .user }, {}, 4096, []⟩ {}).toOption.isSome)) =
        some ("1/(2×y)+x/y+x^2/(2×y)", true, true, true) := by
    decide +kernel
  rcases exists_ok_bind hresults with ⟨u, r, hu, hr, hvalues⟩
  simp only [Prod.mk.injEq] at hvalues
  rcases hvalues with ⟨htext, hall, hs, hv⟩
  have hdenominators : ∀ q ∈ r.rationals, InvertibleDenominator q := List.all_eq_true.mp hall
  have hboth := reduce_beautified {} expandable_squareOverDouble (by decide) hu hr hdenominators
  have hsome : ∀ {e : Except Failure Expr}, e.toOption.isSome = true → ∃ y, e = .ok y := by
    intro e he
    cases e with
    | error failure => cases he
    | ok y => exact ⟨y, rfl⟩
  rcases hsome hs with ⟨s, hs⟩
  rcases hsome hv with ⟨v, hv⟩
  exact ⟨u, r, s, v, hu, hr, htext, hs, hboth.1 _ _ s hs, hv, hboth.2 _ _ v hv⟩

def inverseSquare : Expr :=
  .apply .power [.apply .parenthesis [.apply .addition [.symbol "x", .symbol "y"]], .integer (-2)]

/-- A negative power of a sum is kept.  It is shown as the reciprocal of a positive one, which is
multiplied out when it is reduced again. -/
theorem reduce_beautified_inverseSquare : ∃ u r s,
    inverseSquare.reduce ⟨{ target := .user }, {}, 4096, []⟩ {} = .ok u ∧
      inverseSquare.reduce ⟨{ target := .systemForAnalysis }, {}, 4096, []⟩ {} = .ok r ∧
        u.reduce ⟨{ target := .systemForAnalysis }, {}, 4096, []⟩ {} = .ok s ∧
          (u.text, r.text, s.text, s.same r) =
            ("1/(x+y)^2", "(x+y)^(-2)", "(x^2+2×x×y+y^2)^(-1)", false) := by
  have hresults : ((inverseSquare.reduce ⟨{ target := .user }, {}, 4096, []⟩
      {}).toOption.bind fun u => (inverseSquare.reduce
        ⟨{ target := .systemForAnalysis }, {}, 4096, []⟩ {}).toOption.map fun r =>
          (u.reduce ⟨{ target := .systemForAnalysis }, {}, 4096, []⟩ {}).toOption.map fun s =>
            (u.text, r.text, s.text, s.same r)) =
        some (some ("1/(x+y)^2", "(x+y)^(-2)", "(x^2+2×x×y+y^2)^(-1)", false)) := by
    decide +kernel
  rcases exists_ok_bind hresults with ⟨u, r, hu, hr, hs⟩
  rcases exists_ok hs with ⟨s, hs, hvalues⟩
  exact ⟨u, r, s, hu, hr, hs, hvalues⟩

end PocketAlgebra
