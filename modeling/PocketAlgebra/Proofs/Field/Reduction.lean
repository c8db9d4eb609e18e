import Mathlib.Algebra.BigOperators.Ring.List
import Mathlib.Data.Complex.Basic
import Mathlib.Tactic.Ring
import PocketAlgebra.Proofs.Field.Engine
import PocketAlgebra.Proofs.Field.Value
import PocketAlgebra.Reduction.Beautify
import PocketAlgebra.Text.Printer

/-!
# Reduction preserves the meaning of field expressions

In every field of characteristic zero and under every valuation, the result of
reducing a field expression that has a value has the same value.  With the real
format for complex results the imaginary unit may not occur.

Drawing out signs and writing negative exponents as divisions keeps the value of
a reduced field expression, and every division that is written is by something
other than zero.
-/

namespace PocketAlgebra

namespace Reduction

open PocketAlgebra.Expr

variable {K : Type*} [Field K] {ρ : Valuation K}

/-!
## Faces

A face stands for its expression or for the reciprocal of its denominator.
-/

/-- An expression that has a given value. -/
structure Denotes (ρ : Valuation K) (v : K) (x : Expr) : Prop where
  defined : Defined ρ x
  value_eq : x.value ρ = v

theorem Denotes.of_normal {x : Expr} (h : Normal ρ x) : Denotes ρ (x.value ρ) x :=
  ⟨h.defined, rfl⟩

namespace Face

/-- A face that shows a given value. -/
inductive Shows (ρ : Valuation K) : K → Face → Prop
  | whole {v : K} {x : Expr} (h : Denotes ρ v x) : Shows ρ v (.whole x)
  | reciprocal {v : K} {d : Expr} (h : Denotes ρ v d) (hne : v ≠ 0) :
      Shows ρ v⁻¹ (.reciprocal d)

theorem denotes_toExpr [CharZero K] {v : K} {f : Face} (h : Shows ρ v f) :
    Denotes ρ v f.toExpr := by
  cases h with
  | whole h => exact h
  | reciprocal h hne =>
      have hone : (Expr.integer 1).value ρ = 1 := by simp
      refine ⟨.division (normal_integer ρ 1).defined h.defined ?_, ?_⟩
      · rw [h.value_eq]
        exact hne
      · rw [toExpr, value, hone, h.value_eq, one_div]

end Face

namespace Shown

/-- A shown form with a given value, which has the opposite value without its
sign. -/
def Shows (ρ : Valuation K) (v : K) (s : Shown) : Prop :=
  s.face.Shows ρ (if s.negative then -v else v)

theorem denotes_toExpr [CharZero K] {v : K} {s : Shown} (h : s.Shows ρ v) :
    Denotes ρ v s.toExpr := by
  have hface := Face.denotes_toExpr h
  rw [toExpr]
  split
  · rename_i hnegative
    rw [hnegative, if_pos rfl] at hface
    exact ⟨.opposite hface.defined, by simp [value, hface.value_eq]⟩
  · rename_i hpositive
    rwa [if_neg hpositive] at hface

end Shown

theorem denotes_standalone [CharZero K] {x : Expr} {s : Shown} (hx : Normal ρ x)
    (h : s.Shows ρ (x.value ρ)) : Denotes ρ (x.value ρ) (standalone x s) := by
  rw [standalone]
  split
  · exact .of_normal hx
  · exact Shown.denotes_toExpr h

/-!
## Powers
-/

theorem rootOrPower_integer (x : Expr) (n : Int) :
    rootOrPower x n = .apply .power [x, .integer n] := by
  simp [rootOrPower, Expr.integer]

theorem denotes_power {x : Expr} {v : K} {n : Int} (hx : Denotes ρ v x)
    (h : 0 < n ∨ v ≠ 0) :
    Denotes ρ (v ^ n) (.apply .power [x, .integer n]) := by
  rw [← hx.value_eq] at h ⊢
  exact ⟨.power hx.defined (wholeLiteral?_integer n) h, value_power_integer ρ x n⟩

theorem shows_showPower {x : Expr} {v : K} {n : Int} (hx : Denotes ρ v x)
    (h : 0 < n ∨ v ≠ 0) : (showPower x n).Shows ρ (v ^ n) := by
  rw [showPower]
  split
  · rename_i hneg
    have hn : n < 0 := by exact_mod_cast hneg
    have hv : v ≠ 0 := h.resolve_left hn.not_gt
    split
    · rename_i hone
      have hn : n = -1 := by exact_mod_cast hone
      rw [hn, zpow_neg_one]
      exact .reciprocal hx hv
    · have hpower := denotes_power (n := -n) hx (.inr hv)
      rw [← rootOrPower_integer, Int.cast_neg] at hpower
      rw [← neg_neg n, zpow_neg, neg_neg]
      exact .reciprocal hpower (zpow_ne_zero _ hv)
  · rw [rootOrPower_integer]
    exact .whole (denotes_power hx h)

/-!
## Products
-/

theorem denotes_shownProduct [CharZero K] {xs : List Expr}
    (h : ∀ x ∈ xs, Defined ρ x) :
    Denotes ρ (xs.map (value ρ)).prod (shownProduct xs) := by
  match xs, h with
  | [], _ => exact ⟨(normal_integer ρ 1).defined, by simp [shownProduct]⟩
  | [x], h => exact ⟨h x List.mem_cons_self, by simp [shownProduct]⟩
  | x :: y :: xs, h => exact ⟨.multiplication h, value_multiplication ρ _⟩

/-- The factors of a quotient: what stands above and below the bar. -/
theorem faces_spec {fs : List Face} {vs : List K}
    (h : List.Forall₂ (fun v f => Face.Shows ρ v f) vs fs) :
    (∀ x ∈ fs.filterMap Face.numerator?, Defined ρ x) ∧
    (∀ x ∈ fs.filterMap Face.denominator?, Defined ρ x ∧ x.value ρ ≠ 0) ∧
      vs.prod = ((fs.filterMap Face.numerator?).map (value ρ)).prod /
        ((fs.filterMap Face.denominator?).map (value ρ)).prod := by
  induction h with
  | nil => simp
  | cons hf _ ih =>
      rcases ih with ⟨hnumerators, hdenominators, hprod⟩
      cases hf with
      | whole hx =>
          refine ⟨List.forall_mem_cons.mpr ⟨hx.defined, hnumerators⟩,
            hdenominators, ?_⟩
          simp only [List.filterMap_cons, Face.numerator?, Face.denominator?,
            List.map_cons, List.prod_cons, hprod, hx.value_eq, mul_div_assoc]
      | reciprocal hd hne =>
          refine ⟨hnumerators, List.forall_mem_cons.mpr ⟨⟨hd.defined, ?_⟩,
            hdenominators⟩, ?_⟩
          · rw [hd.value_eq]
            exact hne
          · simp only [List.filterMap_cons, Face.numerator?, Face.denominator?,
              List.map_cons, List.prod_cons, hprod, hd.value_eq]
            rw [div_eq_mul_inv, div_eq_mul_inv, mul_inv]
            ring

/-- An integer among factors, where it is not one. -/
theorem integerFactor_spec [CharZero K] (ρ : Valuation K) (n : Int) :
    (∀ x ∈ (if n = 1 then [] else [Expr.integer n]),
      Defined ρ x ∧ x.value ρ = n) ∧
    ((if n = 1 then [] else [Expr.integer n]).map (value ρ)).prod = (n : K) := by
  by_cases hn : n = 1
  · simp [hn]
  · simp [hn, (normal_integer ρ n).defined]

theorem denotes_quotient [CharZero K] {x : Expr} {v : K} {divisors : List Expr}
    (hx : Denotes ρ v x) (h : ∀ d ∈ divisors, Defined ρ d ∧ d.value ρ ≠ 0) :
    Denotes ρ (v / (divisors.map (value ρ)).prod)
      (.apply .division [x, shownProduct divisors]) := by
  have hproduct := denotes_shownProduct fun d hd => (h d hd).1
  refine ⟨.division hx.defined hproduct.defined ?_, ?_⟩
  · rw [hproduct.value_eq]
    refine List.prod_ne_zero fun hzero => ?_
    rcases List.mem_map.mp hzero with ⟨d, hd, hd0⟩
    exact (h d hd).2 hd0
  · rw [value, hx.value_eq, hproduct.value_eq]

theorem denotes_showProduct [CharZero K] (c : Rat) {fs : List Face} {vs : List K}
    (h : List.Forall₂ (fun v f => Face.Shows ρ v f) vs fs) :
    Denotes ρ (c * vs.prod) (showProduct c fs) := by
  rcases faces_spec h with ⟨hnumerators, hdenominators, hprod⟩
  rcases integerFactor_spec ρ c.num with ⟨hnum, hnumValue⟩
  rcases integerFactor_spec ρ c.den with ⟨hden, hdenValue⟩
  have hdenOne : c.den = 1 ↔ (c.den : Int) = 1 := Nat.cast_eq_one.symm
  have hdenNe : ((c.den : Int) : K) ≠ 0 := by simp
  simp only [showProduct, hdenOne]
  have habove := denotes_shownProduct (ρ := ρ) fun x hx =>
    (List.mem_append.mp hx).elim (fun hx => (hnum x hx).1) (hnumerators x)
  have hbelow : ∀ x ∈ (if (c.den : Int) = 1 then [] else [Expr.integer c.den]) ++
      fs.filterMap Face.denominator?, Defined ρ x ∧ x.value ρ ≠ 0 := by
    intro x hx
    rcases List.mem_append.mp hx with hx | hx
    · refine ⟨(hden x hx).1, ?_⟩
      rw [(hden x hx).2]
      exact hdenNe
    · exact hdenominators x hx
  rw [List.map_append, List.prod_append, hnumValue] at habove
  have hvalue : (c : K) * vs.prod =
      c.num * ((fs.filterMap Face.numerator?).map (value ρ)).prod /
        (((if (c.den : Int) = 1 then [] else [Expr.integer c.den]) ++
          fs.filterMap Face.denominator?).map (value ρ)).prod := by
    rw [List.map_append, List.prod_append, hdenValue, hprod, Rat.cast_def,
      Int.cast_natCast, div_mul_div_comm]
  rw [hvalue]
  generalize (if (c.den : Int) = 1 then [] else [Expr.integer c.den]) ++
    fs.filterMap Face.denominator? = divisors at hbelow ⊢
  cases divisors with
  | nil => simpa using habove
  | cons d ds => exact denotes_quotient habove hbelow

/-!
## Sums
-/

theorem denotes_showSum [CharZero K] {ss : List Shown} {vs : List K}
    (h : List.Forall₂ (fun v s => Shown.Shows ρ v s) vs ss) :
    Denotes ρ vs.sum (showSum ss) := by
  have hfold : ∀ {ss : List Shown} {vs : List K} (x : Expr) (v : K),
      List.Forall₂ (fun v s => Shown.Shows ρ v s) vs ss → Denotes ρ v x →
      Denotes ρ (v + vs.sum) (ss.foldl (fun sum t =>
        .apply (if t.negative then .subtraction else .addition)
          [sum, t.face.toExpr]) x) := by
    intro ss vs x v h
    induction h generalizing x v with
    | nil =>
        intro hx
        simpa using hx
    | cons hs _ ih =>
        rename_i w s ws ss _
        intro hx
        have hface := Face.denotes_toExpr hs
        rw [List.sum_cons, ← add_assoc, List.foldl_cons]
        refine ih _ _ ?_
        by_cases hnegative : s.negative = true
        · rw [if_pos hnegative] at hface ⊢
          refine ⟨.subtraction hx.defined hface.defined, ?_⟩
          simp [value, hx.value_eq, hface.value_eq]
        · rw [if_neg hnegative] at hface ⊢
          refine ⟨.addition (forall_mem_pair hx.defined hface.defined), ?_⟩
          simp [hx.value_eq, hface.value_eq]
  cases h with
  | nil => exact ⟨(normal_integer ρ 0).defined, by simp [showSum]⟩
  | cons hs h => exact hfold _ _ h (Shown.denotes_toExpr hs)

/-!
## All expressions
-/

theorem shows_factorFace [CharZero K] {x : Expr} (hx : Normal ρ x)
    (h : (shown x).Shows ρ (x.value ρ)) :
    (factorFace (x, shown x)).Shows ρ (x.value ρ) := by
  have hwhole : (Face.whole (standalone x (shown x))).Shows ρ (x.value ρ) :=
    .whole (denotes_standalone hx h)
  cases hx with
  | power hbase hexponent => exact h
  | _ => exact hwhole

theorem shows_numbersLast {xs : List Expr}
    (h : ∀ x ∈ xs, (shown x).Shows ρ (x.value ρ)) :
    ∃ vs : List K, vs.sum = (xs.map (value ρ)).sum ∧
      List.Forall₂ (fun v s => Shown.Shows ρ v s) vs
        (numbersLast (xs.map fun x => (x, shown x))) := by
  let ys := xs.filter (!·.kind.isNumber) ++ xs.filter (·.kind.isNumber)
  have hperm : ys.Perm xs :=
    List.perm_append_comm.trans (List.filter_append_perm (·.kind.isNumber) xs)
  refine ⟨ys.map (value ρ), (hperm.map _).sum_eq, ?_⟩
  have hlast : numbersLast (xs.map fun x => (x, shown x)) = ys.map shown := by
    simp [numbersLast, ys, List.filter_map, Function.comp_def]
  rw [hlast, List.forall₂_map_left_iff, List.forall₂_map_right_iff,
    List.forall₂_same]
  exact fun y hy => h y (hperm.mem_iff.mp hy)

theorem shows_shown [CharZero K] {x : Expr} (h : Normal ρ x) :
    (shown x).Shows ρ (x.value ρ) := by
  induction h with
  | rational q =>
      have hq : Denotes ρ ((if q < 0 then -q else q : Rat) : K)
        (.rational (if q < 0 then -q else q)) := ⟨.rational _, rfl⟩
      refine .whole ⟨hq.defined, hq.value_eq.trans ?_⟩
      by_cases hneg : q < 0 <;> simp [shown, hneg]
  | constant c => exact .whole ⟨.constant c, rfl⟩
  | symbol name => exact .whole ⟨.symbol name, rfl⟩
  | addition h ih =>
      rename_i xs
      rcases shows_numbersLast ih with ⟨vs, hsum, hvs⟩
      rw [value_addition, ← hsum, shown, shownAll_eq_map]
      exact .whole (denotes_showSum hvs)
  | multiplication h ih =>
      rename_i xs
      have hfaces : ∀ ys : List Expr, (∀ y ∈ ys, y ∈ xs) →
          List.Forall₂ (fun v f => Face.Shows ρ v f) (ys.map (value ρ))
            ((ys.map fun x => (x, shown x)).map factorFace) := by
        intro ys hys
        rw [List.map_map, List.forall₂_map_left_iff, List.forall₂_map_right_iff,
          List.forall₂_same]
        exact fun y hy => shows_factorFace (h y (hys y hy)) (ih y (hys y hy))
      have hother : Shown.Shows ρ ((Expr.apply .multiplication xs).value ρ)
          ⟨false, .whole (showProduct 1
            ((xs.map fun x => (x, shown x)).map factorFace))⟩ := by
        have hproduct := denotes_showProduct 1 (hfaces xs fun _ hy => hy)
        rw [Rat.cast_one, one_mul, ← value_multiplication] at hproduct
        exact .whole hproduct
      rw [shown, shownAll_eq_map]
      rcases xs with _ | ⟨x, factors⟩
      · exact hother
      · cases x with
        | rational q =>
            have hproduct := denotes_showProduct (if q < 0 then -q else q)
              (hfaces factors fun y hy => List.mem_cons_of_mem _ hy)
            refine .whole ⟨hproduct.defined, hproduct.value_eq.trans ?_⟩
            by_cases hneg : q < 0 <;> simp [showApply, hneg]
        | decimal | infinity | constant | symbol | apply => exact hother
  | power hx h ih =>
      rename_i x n
      rw [value_power_integer]
      exact shows_showPower (denotes_standalone hx ih) h

theorem denotes_beautify [CharZero K] {x : Expr} (h : Normal ρ x) :
    Denotes ρ (x.value ρ) (beautify x) :=
  denotes_standalone h (shows_shown h)

end Reduction

/-! ## Whole reductions -/

open PocketAlgebra.Expr PocketAlgebra.Reduction

variable {K : Type*} [Field K] [CharZero K]

/--
The result of reducing a field expression without definitions has a value
wherever the expression has one, and the same.
-/
theorem reduce_preserves_value (ρ : Valuation K) {settings : Settings} {room : Nat}
    {breaker : Breaker} {x r : Expr}
    (hpolicy : settings.symbolic = .replaceAllDefinedSymbols)
    (hunit : settings.complexFormat = .real → x.hasUnit = false)
    (hx : x.Defined ρ) (hr : x.reduce ⟨settings, {}, room, []⟩ breaker = .ok r) :
    r.Defined ρ ∧ r.value ρ = x.value ρ := by
  have hadmitted : Admitted settings x := by
    refine ⟨hunit, fun hstrict => ?_⟩
    rw [hpolicy] at hstrict
    cases hstrict
  have hrun : Yields (run ⟨settings, {}, room, []⟩ x) (Denotes ρ (x.value ρ)) := by
    refine Yields.bind_unit ?_
    refine (treeWithin_spec rfl hadmitted hx maxNesting).bind fun y hy => ?_
    refine Yields.bind_unit (Yields.pure ?_)
    have hbeautiful := denotes_beautify hy.normal
    rw [hy.value_eq] at hbeautiful
    split
    · exact hbeautiful
    · exact ⟨hy.normal.defined, hy.value_eq⟩
  rw [Expr.reduce] at hr
  cases hstep : run ⟨settings, {}, room, []⟩ x breaker with
  | error failure =>
      rw [hstep] at hr
      cases hr
  | ok result =>
      rw [hstep] at hr
      cases hr
      have hdenotes := hrun breaker result.1 result.2 hstep
      exact ⟨hdenotes.defined, hdenotes.value_eq⟩

/-- The difference `(1+𝐢)^2/(x×x) - x^(-1)`. -/
def complexDifference : Expr :=
  .apply .subtraction
    [.apply .division
      [.apply .power [.apply .addition [.integer 1, .i], .integer 2],
        .apply .multiplication [.symbol "x", .symbol "x"]],
      .apply .power [.symbol "x", .apply .opposite [.integer 1]]]

/-- A complex valuation under which every symbol is 2. -/
noncomputable def valuationAtTwo : Valuation ℂ where
  symbol := fun _ => 2
  pi := 3
  e := 3
  unit := Complex.I
  unit_sq := Complex.I_sq

theorem defined_complexDifference : complexDifference.Defined valuationAtTwo := by
  have hx : (Expr.symbol "x").value valuationAtTwo = 2 := rfl
  have hne : (Expr.symbol "x").value valuationAtTwo ≠ 0 := by
    rw [hx]
    exact two_ne_zero
  have hsum : ∀ y ∈ [Expr.integer 1, .i], y.Defined valuationAtTwo :=
    forall_mem_pair (.rational _) (.constant _)
  have hsquare : ∀ y ∈ [Expr.symbol "x", .symbol "x"], y.Defined valuationAtTwo :=
    forall_mem_pair (.symbol "x") (.symbol "x")
  refine .subtraction (.division ?_ (.multiplication hsquare) ?_) ?_
  · exact .power (.addition hsum) (wholeLiteral?_integer 2) (.inl two_pos)
  · simp [hx]
  · exact .power (n := -1) (.symbol "x") rfl (.inr hne)

/-- The difference is reduced to `2×𝐢/x^2-1/x`, which has its value. -/
theorem reduce_preserves_value_complexDifference : ∃ r,
    complexDifference.reduce ⟨{ complexFormat := .cartesian }, {}, 4096, []⟩ {} = .ok r ∧
      r.text = "2×𝐢/x^2-1/x" ∧ r.Defined valuationAtTwo ∧
        r.value valuationAtTwo = complexDifference.value valuationAtTwo := by
  have htext : (complexDifference.reduce
      ⟨{ complexFormat := .cartesian }, {}, 4096, []⟩ {}).toOption.map Expr.text =
        some "2×𝐢/x^2-1/x" := by
    decide +kernel
  cases hr : complexDifference.reduce
      ⟨{ complexFormat := .cartesian }, {}, 4096, []⟩ {} with
  | error failure =>
      rw [hr] at htext
      cases htext
  | ok r =>
      rw [hr] at htext
      have hvalue := reduce_preserves_value valuationAtTwo rfl (by decide)
        defined_complexDifference hr
      exact ⟨r, rfl, Option.some.inj htext, hvalue⟩

end PocketAlgebra
