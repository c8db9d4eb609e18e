import Mathlib.Analysis.Complex.Basic
import PocketAlgebra.Proofs.Field.Reduction
import PocketAlgebra.Proofs.Slope.Fraction
import PocketAlgebra.Proofs.Slope.Value

/-!
# Reduction of derivatives

A derivative of a rational function at a point is reduced to an expression without derivatives, and
wherever the function has a value at the point, the result has the value of its slope there. The
rules for derivatives go over the reduced function, which may be written in another way: since both
have the same values, they have the same slope.
-/

namespace PocketAlgebra

namespace Reduction

open PocketAlgebra.Expr

section Rules

variable {K : Type*} [Field K] [CharZero K] {ρ : Valuation K} {ctx : Context} {nesting : Nat}
  {name : String} {x d : Expr} {xs ds : List Expr}

/-! ## Rules for derivatives -/

/-- A reduced fraction that has the value of the slope of another one, where this has a value. -/
structure IsDerivative (ρ : Valuation K) (name : String) (x d : Expr) : Prop where
  form : IsReducedFraction d
  represents : Normal ρ x → Represents ρ (x.slope ρ name) d

/-- A step that finds a derivative. -/
def Differentiates (ρ : Valuation K) (name : String) (x : Expr) (m : ReduceM (Option Expr)) :
    Prop :=
  Yields m fun d? => ∃ d, d? = some d ∧ IsDerivative ρ name x d

theorem isDerivative_zero (hx : x.mentions name = false) :
    IsDerivative ρ name x (.integer 0) where
  form := .rational 0
  represents h := ⟨normal_integer ρ 0, by rw [h.slope_eq_zero hx, value_integer, Int.cast_zero]⟩

theorem isDerivative_symbol (ρ : Valuation K) (name other : String) :
    IsDerivative ρ name (.symbol other) (.integer (if other = name then 1 else 0)) where
  form := .rational _
  represents _ := ⟨normal_integer ρ _, by rw [value_integer, Expr.slope]; split <;> simp⟩

/-- Reduced terms with a sum that is known where some operands have values. -/
structure Sums (ρ : Valuation K) (operands : List Expr) (v : K) (terms : List Expr) : Prop where
  form : ∀ t ∈ terms, IsReducedFraction t
  represents : (∀ x ∈ operands, Normal ρ x) →
    (∀ t ∈ terms, Normal ρ t) ∧ (terms.map (value ρ)).sum = v

omit [CharZero K] in
theorem Sums.append {v w : K} {ts us : List Expr} (ht : Sums ρ xs v ts) (hu : Sums ρ xs w us) :
    Sums ρ xs (v + w) (ts ++ us) where
  form := List.forall_mem_append.mpr ⟨ht.form, hu.form⟩
  represents hxs := by
    rcases ht.represents hxs with ⟨hts, hv⟩
    rcases hu.represents hxs with ⟨hus, hw⟩
    rw [List.map_append, List.sum_append, hv, hw]
    exact ⟨List.forall_mem_append.mpr ⟨hts, hus⟩, rfl⟩

/-- The reduced sum of terms. -/
theorem add_terms {v : K} {terms : List Expr} (h : Sums ρ xs v terms) :
    Yields (add (nodeWithin nesting ctx) terms) fun r =>
      IsReducedFraction r ∧ ((∀ x ∈ xs, Normal ρ x) → Represents ρ v r) := by
  refine ((keepsFractions_nodeWithin ctx nesting).add h.form).and (Yields.all fun hxs => ?_)
  rcases h.represents hxs with ⟨hterms, hsum⟩
  exact hsum ▸ (keepsValues_nodeWithin ρ ctx nesting).sum hterms

omit [CharZero K] in
theorem sums_derivatives (h : List.Forall₂ (IsDerivative ρ name) xs ds) :
    Sums ρ xs (sumSlope ρ name xs) ds where
  form := forall_of_forall₂ h fun _ _ _ hd => hd.form
  represents hxs := by
    induction h with
    | nil => exact ⟨List.forall_mem_nil _, rfl⟩
    | cons hd _ ih =>
        rcases List.forall_mem_cons.mp hxs with ⟨hx, hxs⟩
        have hd := hd.represents hx
        rcases ih hxs with ⟨hds, hsum⟩
        rw [List.map_cons, List.sum_cons, hsum, hd.value_eq, sumSlope]
        exact ⟨List.forall_mem_cons.mpr ⟨hd.normal, hds⟩, rfl⟩

theorem forall_others {P : Expr → Prop} {before : List Expr} (h : ∀ y ∈ before ++ x :: xs, P y) :
    P x ∧ ∀ y ∈ before ++ xs, P y := by
  rcases List.forall_mem_append.mp h with ⟨hbefore, hrest⟩
  rcases List.forall_mem_cons.mp hrest with ⟨hx, hxs⟩
  exact ⟨hx, List.forall_mem_append.mpr ⟨hbefore, hxs⟩⟩

omit [CharZero K] in
/-- A factor with a derivative of zero adds no term to the product rule. -/
theorem sums_nil {before : List Expr} (h : IsDerivative ρ name x d) (hzero : d.isRational 0) :
    Sums ρ (before ++ x :: xs)
      ((before.map (value ρ)).prod * (x.slope ρ name * (xs.map (value ρ)).prod)) [] where
  form := List.forall_mem_nil _
  represents hnormal := by
    have hslope := (h.represents (forall_others hnormal).1).value_eq
    rw [isRational_iff.mp hzero, value_rational, Rat.cast_zero] at hslope
    rw [← hslope, zero_mul, mul_zero, List.map_nil, List.sum_nil]
    exact ⟨List.forall_mem_nil _, rfl⟩

/-- The term of the product rule for one factor. -/
theorem productRule_term {before : List Expr} (h : IsDerivative ρ name x d)
    (hall : ∀ y ∈ before ++ x :: xs, IsReducedFraction y) :
    Yields (multiply (nodeWithin nesting ctx) (d :: (before ++ xs))) fun t =>
      Sums ρ (before ++ x :: xs)
        ((before.map (value ρ)).prod * (x.slope ρ name * (xs.map (value ρ)).prod)) [t] := by
  have hform := (keepsFractions_nodeWithin ctx nesting).multiply
    (List.forall_mem_cons.mpr ⟨h.form, (forall_others hall).2⟩)
  have hvalue : Yields (multiply (nodeWithin nesting ctx) (d :: (before ++ xs))) fun t =>
      (∀ y ∈ before ++ x :: xs, Normal ρ y) →
        Represents ρ ((d :: (before ++ xs)).map (value ρ)).prod t := by
    refine Yields.all fun hnormal => ?_
    rcases forall_others hnormal with ⟨hx, hothers⟩
    exact (keepsValues_nodeWithin ρ ctx nesting).product
      (List.forall_mem_cons.mpr ⟨(h.represents hx).normal, hothers⟩)
  refine (hform.and hvalue).mono fun t ht => ⟨List.forall_mem_singleton.mpr ht.1, fun hnormal => ?_⟩
  have hterm := ht.2 hnormal
  refine ⟨List.forall_mem_singleton.mpr hterm.normal, ?_⟩
  rw [List.map_singleton, List.sum_singleton, hterm.value_eq, List.map_cons, List.map_append,
    List.prod_cons, List.prod_append, (h.represents (forall_others hnormal).1).value_eq]
  ring

/-- The terms of the product rule, behind factors whose terms are formed elsewhere. -/
theorem productRule_terms (h : List.Forall₂ (IsDerivative ρ name) xs ds) (before : List Expr)
    (hall : ∀ y ∈ before ++ xs, IsReducedFraction y) :
    Yields (productRule (nodeWithin nesting ctx) before xs ds)
      (Sums ρ (before ++ xs) ((before.map (value ρ)).prod * productSlope ρ name xs)) := by
  induction h generalizing before with
  | nil =>
      refine Yields.pure ⟨List.forall_mem_nil _, fun _ => ⟨List.forall_mem_nil _, ?_⟩⟩
      rw [productSlope, mul_zero, List.map_nil, List.sum_nil]
  | @cons x d xs ds hd _ ih =>
      have hrest := ih (before ++ [x]) (by rwa [List.append_cons] at hall)
      rw [← List.append_cons, List.map_append, List.prod_append, List.map_singleton,
        List.prod_singleton] at hrest
      have hvalue : (before.map (value ρ)).prod * productSlope ρ name (x :: xs) =
          (before.map (value ρ)).prod * (x.slope ρ name * (xs.map (value ρ)).prod) +
            (before.map (value ρ)).prod * x.value ρ * productSlope ρ name xs := by
        rw [productSlope]
        ring
      rw [productRule, hvalue]
      split
      case isTrue hzero =>
        exact hrest.bind fun others hothers => Yields.pure ((sums_nil hd hzero).append hothers)
      case isFalse =>
        refine (productRule_term hd hall).bind fun t ht => ?_
        exact hrest.bind fun others hothers => Yields.pure (ht.append hothers)

/-! ## Powers -/

/-- The power with the exponent zero of a base that is no number. -/
theorem power_zero (hx : Normal ρ x) (hrational : x.isRational 0 = false) :
    Yields (power (nodeWithin nesting ctx) x (.integer 0)) (Represents ρ 1) := by
  refine nodeWithin_apply (forall_mem_pair hx (normal_integer ρ 0)) fun inner _ => ?_
  have hgrid : Grid.ofExpr? x = none := by
    cases hx <;> rfl
  have hexponent : (Expr.integer 0).isMatrix = false := rfl
  have hzero : (Expr.integer 0).isRational 0 = true := rfl
  simp only [reduceApply, reducePower, hexponent, hgrid, Bool.false_eq_true, if_false,
    powerOfScalars, hzero, if_true, hrational, hx.kind_beq_infinity, Bool.or_false]
  exact Yields.pure ⟨normal_integer ρ 1, by rw [value_integer, Int.cast_one]⟩

theorem isRational_of_mentions (h : x.mentions name = true) (q : ℚ) : x.isRational q = false := by
  cases x with
  | rational => nomatch h
  | _ => rfl

/-- The power with an exponent lowered by one. -/
theorem power_lowered {n : ℤ} (hx : Normal ρ x) (hmentions : x.mentions name = true)
    (hn : 0 < n ∨ x.value ρ ≠ 0) :
    Yields (power (nodeWithin nesting ctx) x (.integer (n - 1)))
      (Represents ρ (x.value ρ ^ (n - 1))) := by
  by_cases hone : n = 1
  · rw [hone, sub_self, zpow_zero]
    exact power_zero hx (isRational_of_mentions hmentions 0)
  · exact (keepsValues_nodeWithin ρ ctx nesting).power hx (hn.imp_left fun hpos => by omega)

theorem powerRule_spec {n : ℤ} {dp : Expr} (hx : IsReducedFraction x)
    (hmentions : x.mentions name = true) (hd : IsDerivative ρ name x d) :
    Yields (powerRule (nodeWithin nesting ctx) name x (.integer n) d dp)
      (IsDerivative ρ name (.apply .power [x, .integer n])) := by
  have hkeeps := keepsFractions_nodeWithin ctx nesting
  have hvalues := keepsValues_nodeWithin ρ ctx nesting
  rw [powerRule, if_pos (by rfl)]
  refine (hvalues.integerSum [n, -1]).bind fun lowered hlowered => ?_
  have hlowered : lowered = .integer (n - 1) := by
    rw [hlowered]
    simp [sub_eq_add_neg]
  rw [hlowered]
  have hpower : Yields (power (nodeWithin nesting ctx) x (.integer (n - 1))) fun z =>
      Normal ρ (.apply .power [x, .integer n]) → Represents ρ (x.value ρ ^ (n - 1)) z := by
    refine Yields.all fun hnormal => ?_
    cases hnormal with
    | power hnormal hn => exact power_lowered hnormal hmentions hn
  refine ((hkeeps.power hx ⟨n - 1, rfl⟩).and hpower).bind fun z hz => ?_
  have hform := hkeeps.multiply (List.forall_mem_cons.mpr
    ⟨.rational n, forall_mem_pair hz.1 hd.form⟩)
  have hvalue : Yields (multiply (nodeWithin nesting ctx) [.integer n, z, d]) fun r =>
      Normal ρ (.apply .power [x, .integer n]) →
        Represents ρ ((Expr.apply .power [x, .integer n]).slope ρ name) r := by
    refine Yields.all fun hnormal => ?_
    have hz := hz.2 hnormal
    cases hnormal with
    | power hnormal hn =>
        have hd := hd.represents hnormal
        have hproduct := hvalues.product (List.forall_mem_cons.mpr
          ⟨normal_integer ρ n, forall_mem_pair hz.normal hd.normal⟩)
        refine hproduct.mono fun r hr => ⟨hr.normal, hr.value_eq.trans ?_⟩
        rw [slope_power_integer]
        simp [hz.value_eq, hd.value_eq, mul_assoc]
  exact (hform.and hvalue).mono fun r hr => ⟨hr.1, hr.2⟩

/-! ## Derivatives of trees -/

omit [CharZero K] in
theorem derivatives?_spec
    (h : ∀ x ∈ xs, Differentiates ρ name x (derivative? ctx (nodeWithin nesting ctx) name x)) :
    Yields (derivatives? ctx (nodeWithin nesting ctx) name xs) fun ds? =>
      ∃ ds, ds? = some ds ∧ List.Forall₂ (IsDerivative ρ name) xs ds := by
  induction xs with
  | nil => exact Yields.pure ⟨[], rfl, .nil⟩
  | cons x xs ih =>
      rw [derivatives?]
      refine (h x List.mem_cons_self).bind fun d? hd => ?_
      rcases hd with ⟨d, rfl, hd⟩
      refine (ih fun y hy => h y (List.mem_cons_of_mem x hy)).bind fun ds? hds => ?_
      rcases hds with ⟨ds, rfl, hds⟩
      exact Yields.pure ⟨d :: ds, rfl, .cons hd hds⟩

/-- Every reduced fraction has a derivative. -/
theorem derivative?_spec (hx : IsReducedFraction x) :
    Differentiates ρ name x (derivative? ctx (nodeWithin nesting ctx) name x) := by
  have hfound {x d : Expr} (h : IsDerivative ρ name x d) :
      Differentiates ρ name x (pure (some d)) := Yields.pure ⟨d, rfl, h⟩
  have hfree {x : Expr} (h : x.mentions name = false) :
      Differentiates ρ name x (pure (some (.integer 0))) := hfound (isDerivative_zero h)
  induction hx with
  | rational | infinity | undefined => exact hfree rfl
  | symbol other => exact hfound (isDerivative_symbol ρ name other)
  | @addition xs _ ih =>
      rw [derivative?.eq_def]
      dsimp only
      split
      case isTrue hmentions => exact hfree (by simpa [mentions] using hmentions)
      case isFalse =>
        refine (derivatives?_spec ih).bind fun ds? hds => ?_
        rcases hds with ⟨ds, rfl, hds⟩
        refine (add_terms (sums_derivatives hds)).bind fun d hd => hfound ⟨hd.1, fun hnormal => ?_⟩
        cases hnormal with
        | addition hxs => exact hd.2 hxs
  | @multiplication xs hxs ih =>
      rw [derivative?.eq_def]
      dsimp only
      split
      case isTrue hmentions => exact hfree (by simpa [mentions] using hmentions)
      case isFalse =>
        refine (derivatives?_spec ih).bind fun ds? hds => ?_
        rcases hds with ⟨ds, rfl, hds⟩
        refine (productRule_terms hds [] hxs).bind fun terms hterms => ?_
        rw [List.map_nil, List.prod_nil, one_mul] at hterms
        refine (add_terms hterms).bind fun d hd => hfound ⟨hd.1, fun hnormal => ?_⟩
        cases hnormal with
        | multiplication hxs => exact hd.2 hxs
  | @power base n hbase ih =>
      rw [derivative?.eq_def]
      dsimp only
      split
      case isTrue hmentions => exact hfree (by simpa [mentions] using hmentions)
      case isFalse hmentions =>
        have hmentions : base.mentions name = true := by
          simpa [mentionsAny, mentions, Expr.integer] using hmentions
        refine ih.bind fun d? hd => ?_
        rcases hd with ⟨d, rfl, hd⟩
        have hexponent : derivative? ctx (nodeWithin nesting ctx) name (.integer n) =
            pure (some (.integer 0)) := rfl
        dsimp only
        rw [hexponent, pure_bind]
        exact (powerRule_spec hbase hmentions hd).bind fun r hr => hfound hr

end Rules

/-! ## Derivatives at a point -/

variable {ctx : Context} {nesting : Nat} {name : String} {f a body point : Expr}

/-- The body is reduced in the scope of the variable, and the point outside of it. -/
theorem treeWithin_derivative {B A P : Expr → Prop}
    (hbody : ∀ n, Yields (treeWithin n (ctx.binding [f, .symbol name, a]) f) B)
    (hpoint : ∀ n, Yields (treeWithin n ctx a) A)
    (hnode : ∀ body point, B body → A point → ∀ n,
      Yields (nodeWithin n ctx (.apply .derivative [body, .symbol name, point])) P) :
    Yields (treeWithin nesting ctx (.apply .derivative [f, .symbol name, a])) P := by
  cases nesting with
  | zero => exact Yields.throw _
  | succ inner =>
      have hoperands : Yields
          (reduceOperands ctx (treeWithin inner) .derivative [f, .symbol name, a])
          fun ys => ∃ body point, B body ∧ A point ∧ ys = [body, .symbol name, point] := by
        refine (hbody inner).bind fun body hbody => ?_
        have hothers : Yields ([a].mapM (treeWithin inner ctx)) (List.Forall₂ (fun _ => A) [a]) :=
          Yields.mapM (List.forall_mem_singleton.mpr (hpoint inner))
        refine hothers.bind fun rest hrest => ?_
        rcases eq_singleton_of_forall₂ hrest with ⟨point, hpoint, rfl⟩
        exact Yields.pure ⟨body, point, hbody, hpoint, rfl⟩
      refine Yields.bind_unit (hoperands.bind fun ys hys => ?_)
      rcases hys with ⟨body, point, hbody, hpoint, rfl⟩
      exact hnode body point hbody hpoint inner

/-- The derivative is formed, and the point put in. -/
theorem derivativeAt_spec {D P : Expr → Prop} {node tree : NodeReducer}
    (hderivative : Yields (derivative? ctx node name body) fun d? => ∃ d, d? = some d ∧ D d)
    (htree : ∀ d, D d → Yields (tree (substitute name point d)) P) :
    Yields (derivativeAt ctx node tree [body, .symbol name, point]) P := by
  rw [derivativeAt]
  refine hderivative.bind fun d? hd => ?_
  rcases hd with ⟨d, rfl, hd⟩
  exact htree d hd

/-- A derivative of a fraction at another one is reduced to a fraction. -/
theorem treeWithin_derivative_fraction (hdefinitions : ctx.definitions = {}) (nesting : Nat)
    (name : String) (hf : f.IsFraction) (ha : a.IsFraction) :
    Yields (treeWithin nesting ctx (.apply .derivative [f, .symbol name, a]))
      IsReducedFraction := by
  have hscope : (ctx.binding [f, .symbol name, a]).definitions = {} := hdefinitions
  refine treeWithin_derivative (fun n => treeWithin_fraction hscope hf n)
    (fun n => treeWithin_fraction hdefinitions ha n) fun body point hbody hpoint n => ?_
  have hxs : ∀ x ∈ [body, .symbol name, point], IsReducedFraction x :=
    List.forall_mem_cons.mpr ⟨hbody, forall_mem_pair (.symbol name) hpoint⟩
  refine nodeWithin_fraction hxs fun inner _ => ?_
  refine derivativeAt_spec (derivative?_spec (ρ := valuationAtTwo) hbody) fun d hd => ?_
  exact treeWithin_fraction hdefinitions (hpoint.substituted hd.form).isFraction inner

variable {K : Type*} [NontriviallyNormedField K] [CharZero K] {ρ : Valuation K}

/-- Where the function has a value at the point, the derivative is reduced to its slope there. -/
theorem treeWithin_derivative_slope (hdefinitions : ctx.definitions = {})
    (hpolicy : ctx.settings.symbolic ≠ .replaceAllSymbolsOrUndefined) (nesting : Nat)
    (hf : f.IsFraction) (ha : a.IsFraction) (hpoint : a.Defined ρ)
    (hbody : f.Defined (ρ.update name (a.value ρ))) :
    Yields (treeWithin nesting ctx (.apply .derivative [f, .symbol name, a]))
      (Represents ρ (f.slope (ρ.update name (a.value ρ)) name)) := by
  have hadmitted {x : Expr} (hx : x.IsFraction) : Admitted ctx.settings x :=
    ⟨fun _ => hx.hasUnit_eq_false, fun hstrict => absurd hstrict hpolicy⟩
  have hscope : (ctx.binding [f, .symbol name, a]).definitions = {} := hdefinitions
  -- The value of the reduced function is needed in the whole neighbourhood of the point.
  have hvalues (n : Nat) : Yields (treeWithin n (ctx.binding [f, .symbol name, a]) f) fun body =>
      ∀ t, f.Defined (ρ.update name t) →
        Represents (ρ.update name t) (f.value (ρ.update name t)) body :=
    Yields.all fun t => Yields.all fun ht => treeWithin_spec hscope (hadmitted hf) ht n
  refine treeWithin_derivative
    (fun n => (treeWithin_fraction hscope hf n).and (hvalues n))
    (fun n => (treeWithin_fraction hdefinitions ha n).and
      (treeWithin_spec hdefinitions (hadmitted ha) hpoint n))
    fun body' point' hbody' hpoint' n => ?_
  rcases hbody' with ⟨hbodyForm, hbodyValue⟩
  rcases hpoint' with ⟨hpointForm, hpointValue⟩
  have hnormal := (hbodyValue _ hbody).normal
  have hslope : body'.slope (ρ.update name (a.value ρ)) name =
      f.slope (ρ.update name (a.value ρ)) name :=
    slope_eq hbody hnormal.defined fun t ht => (hbodyValue t ht).value_eq
  have hplain : ∀ x ∈ [body', .symbol name, point'], IsPlain x :=
    List.forall_mem_cons.mpr ⟨hnormal.plain,
      forall_mem_pair ⟨rfl, rfl, rfl⟩ hpointValue.normal.plain⟩
  refine nodeWithin_unspoiled (spoiled?_plain _ hplain) fun inner _ => ?_
  refine derivativeAt_spec (derivative?_spec (ρ := ρ.update name (a.value ρ)) hbodyForm)
    fun d hd => ?_
  have hd' := hd.represents hnormal
  rw [hslope, ← hpointValue.value_eq] at hd'
  rcases hd'.normal.substituted hpointValue.normal.defined with ⟨hdefined, hvalue⟩
  have hresult := treeWithin_spec hdefinitions
    (hadmitted (hpointForm.substituted hd.form).isFraction) hdefined inner
  rw [hvalue, hd'.value_eq, hpointValue.value_eq] at hresult
  exact hresult

end Reduction

/-! ## Whole reductions -/

open PocketAlgebra.Expr PocketAlgebra.Reduction

variable {K : Type*} [NontriviallyNormedField K] [CharZero K]

/-- The derivative of a rational function at a point is reduced to an expression without
derivatives. Under every valuation for which the point has a value, and the function has one there,
the result has the value of the formal partial derivative, which is the derivative of the value of
the function. Rational values of the symbols are among those in the field of complex numbers. -/
theorem reduce_derivative_slope {settings : Settings} {room : Nat} {breaker : Breaker}
    {f a r : Expr} {name : String} (hpolicy : settings.symbolic = .replaceAllDefinedSymbols)
    (hf : f.IsFraction) (ha : a.IsFraction)
    (hr : (apply .derivative [f, .symbol name, a]).reduce ⟨settings, {}, room, []⟩ breaker =
      .ok r) :
    NoDerivative r ∧ ∀ ρ : Valuation K, a.Defined ρ → f.Defined (ρ.update name (a.value ρ)) →
      r.Defined ρ ∧ r.value ρ = f.slope (ρ.update name (a.value ρ)) name ∧
        HasDerivAt (fun t => f.value (ρ.update name t)) (r.value ρ) (a.value ρ) := by
  have hstrict : settings.symbolic ≠ .replaceAllSymbolsOrUndefined := by
    rw [hpolicy]
    nofun
  have hdefinitions : (Context.mk settings {} room []).definitions = {} := rfl
  have hform := treeWithin_derivative_fraction hdefinitions maxNesting name hf ha
  have hvalue := Yields.all fun ρ : Valuation K => Yields.all fun hpoint : a.Defined ρ =>
    Yields.all fun hbody : f.Defined (ρ.update name (a.value ρ)) =>
      treeWithin_derivative_slope hdefinitions hstrict maxNesting hf ha hpoint hbody
  rcases exists_of_reduce (hform.and hvalue) hr with ⟨c, ⟨hc, hslope⟩, rfl⟩
  constructor
  · split
    · exact noDerivative_beautify (noDerivative_fraction hc)
    · exact noDerivative_fraction hc
  · intro ρ hpoint hbody
    have hrepresents := hslope ρ hpoint hbody
    have hbeautiful := denotes_beautify hrepresents.normal
    have hresult : Denotes ρ (f.slope (ρ.update name (a.value ρ)) name)
        (if settings.target = .user then beautify c else c) := by
      rw [← hrepresents.value_eq]
      split
      · exact hbeautiful
      · exact ⟨hrepresents.normal.defined, rfl⟩
    refine ⟨hresult.defined, hresult.value_eq, ?_⟩
    rw [hresult.value_eq]
    exact hbody.differentiable.2

/-- The function `x^2×y-y/(x+1)`. -/
def quadraticDifference : Expr :=
  .apply .subtraction
    [.apply .multiplication [.apply .power [.symbol "x", .integer 2], .symbol "y"],
      .apply .division [.symbol "y", .apply .addition [.symbol "x", .integer 1]]]

/-- The point `y+1`. -/
def shiftedPoint : Expr :=
  .apply .addition [.symbol "y", .integer 1]

theorem isFraction_quadraticDifference : quadraticDifference.IsFraction :=
  .subtraction
    (.multiplication
      (forall_mem_pair (.power (.symbol "x") (wholeLiteral?_integer 2)) (.symbol "y")))
    (.division (.symbol "y") (.addition (forall_mem_pair (.symbol "x") (.rational 1))))

theorem isFraction_shiftedPoint : shiftedPoint.IsFraction :=
  .addition (forall_mem_pair (.symbol "y") (.rational 1))

theorem value_shiftedPoint : shiftedPoint.value valuationAtTwo = 3 := by
  norm_num [shiftedPoint, value, values, valuationAtTwo]

theorem defined_quadraticDifference :
    quadraticDifference.Defined (valuationAtTwo.update "x" 3) := by
  refine .subtraction (.multiplication (forall_mem_pair ?_ (.symbol "y")))
    (.division (.symbol "y") (.addition (forall_mem_pair (.symbol "x") (.rational 1))) ?_)
  · exact .power (.symbol "x") (wholeLiteral?_integer 2) (.inl two_pos)
  · norm_num [value, values, Valuation.update]

/-- Where `y` is 2, the derivative has the value of `2×x×y+y/(x+1)^2` where `x` is 3. -/
theorem reduce_derivative_slope_quadraticDifference : ∃ r,
    (apply .derivative [quadraticDifference, .symbol "x", shiftedPoint]).reduce
        ⟨{}, {}, 4096, []⟩ {} = .ok r ∧
      r.text = "2×y+2×y^2+y/(y+2)^2" ∧ NoDerivative r ∧ r.Defined valuationAtTwo ∧
        r.value valuationAtTwo = 97 / 8 := by
  have htext : ((apply .derivative [quadraticDifference, .symbol "x", shiftedPoint]).reduce
      ⟨{}, {}, 4096, []⟩ {}).toOption.map Expr.text = some "2×y+2×y^2+y/(y+2)^2" := by
    decide +kernel
  rcases exists_ok htext with ⟨r, hr, htext⟩
  have hpoint : shiftedPoint.Defined valuationAtTwo :=
    .addition (forall_mem_pair (.symbol "y") (.rational 1))
  have hslope : quadraticDifference.slope (valuationAtTwo.update "x" 3) "x" = 97 / 8 := by
    have hpower : (Expr.apply .power [.symbol "x", .integer 2]).slope
        (valuationAtTwo.update "x" 3) "x" = 6 := by
      rw [slope_power_integer]
      norm_num [value_update_symbol, Expr.slope]
    have hother : "y" ≠ "x" := by decide
    have hone : (Expr.integer 1).slope (valuationAtTwo.update "x" 3) "x" = 0 := rfl
    have hsymbol : valuationAtTwo.symbol "y" = 2 := rfl
    norm_num [quadraticDifference, Expr.slope, productSlope, sumSlope, hpower, value_update_symbol,
      hother, hone, hsymbol]
  rcases reduce_derivative_slope (K := ℂ) rfl isFraction_quadraticDifference isFraction_shiftedPoint
    hr with ⟨hnone, hvalue⟩
  rcases hvalue valuationAtTwo hpoint (value_shiftedPoint ▸ defined_quadraticDifference) with
    ⟨hdefined, hvalue, -⟩
  rw [value_shiftedPoint, hslope] at hvalue
  exact ⟨r, hr, htext, hnone, hdefined, hvalue⟩

end PocketAlgebra
