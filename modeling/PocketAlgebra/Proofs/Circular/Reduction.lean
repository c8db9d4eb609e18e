import PocketAlgebra.Proofs.Circular.Values

/-!
# Circular functions are exact

At a tabulated angle a circular function is reduced to its exact value. At any other angle the
function stays, with an argument that is not negative. Either way the result has the value of the
function, in whatever unit the angle is given.
-/

namespace PocketAlgebra

namespace Reduction

open PocketAlgebra.Expr

variable {unit : AngleUnit} {t : ℚ} {s c : Surd} {ctx : Context} {g : CircularFunction}
  {node tree : NodeReducer} {σ : Assignment} {x : Expr}

/-! ## Canonical forms -/

/-- A circular function of an angle that is not tabulated. -/
def keptForm (unit : AngleUnit) (g : CircularFunction) (t : ℚ) : Expr :=
  if t < 0 then
    let value := .apply g.operator [angleOf unit (-t)]
    if isOdd g.operator then .apply .multiplication [.integer (-1), value] else value
  else
    .apply g.operator [angleOf unit t]

/-- A circular function of an angle of so many half turns, in canonical form. -/
def circularForm (unit : AngleUnit) (g : CircularFunction) (t : ℚ) : Expr :=
  match exactSine? t, exactCosine? t with
  | some sine, some cosine => exactValue g sine cosine
  | _, _ => keptForm unit g t

theorem circularForm_exact (unit : AngleUnit) (g : CircularFunction) (hs : exactSine? t = some s)
    (hc : exactCosine? t = some c) : circularForm unit g t = exactValue g s c := by
  unfold circularForm
  rw [hs, hc]

theorem circularForm_kept (unit : AngleUnit) (g : CircularFunction) (hs : exactSine? t = none) :
    circularForm unit g t = keptForm unit g t := by
  unfold circularForm
  rw [hs]

theorem circularForm_cases (unit : AngleUnit) (g : CircularFunction) (t : ℚ) :
    (∃ s c, exactSine? t = some s ∧ exactCosine? t = some c ∧
      circularForm unit g t = exactValue g s c) ∨
    ¬ IsTabulated t ∧ circularForm unit g t = keptForm unit g t := by
  by_cases ht : IsTabulated t
  · obtain ⟨s, hs⟩ := Option.isSome_iff_exists.mp ((isSome_exactSine?_iff t).mpr ht)
    obtain ⟨c, hc⟩ := Option.isSome_iff_exists.mp ((isSome_exactCosine?_iff t).mpr ht)
    exact .inl ⟨s, c, hs, hc, circularForm_exact unit g hs hc⟩
  · have hsine : exactSine? t = none :=
      Option.not_isSome_iff_eq_none.mp (mt (isSome_exactSine?_iff t).mp ht)
    exact .inr ⟨ht, circularForm_kept unit g hsine⟩

/-- Exact values do not depend on the unit. -/
theorem circularForm_eq_of_isTabulated (unit unit' : AngleUnit) (g : CircularFunction)
    (ht : IsTabulated t) : circularForm unit g t = circularForm unit' g t := by
  rcases circularForm_cases unit g t with ⟨s, c, hs, hc, hform⟩ | ⟨hnot, -⟩
  · rw [hform, circularForm_exact unit' g hs hc]
  · exact absurd ht hnot

/-! ## Values of canonical forms -/

theorem principal?_opposite (σ : Assignment) (x : Expr) :
    (Expr.apply .multiplication [.integer (-1), x]).principal? σ = (x.principal? σ).map (-·) := by
  cases hx : x.principal? σ with
  | none =>
      rw [principal?_apply rfl, principals?, principal?_integer, Option.bind_some, principals?, hx]
      rfl
  | some z =>
      rw [principal?_product (principal?_integer (-1)) hx, Int.cast_neg, Int.cast_one, neg_one_mul]
      rfl

theorem principal?_function (σ : Assignment) (unit : AngleUnit) (g : CircularFunction) (t : ℚ) :
    (Expr.apply g.operator [angleOf unit t]).principal? (σ.measuring unit) =
      g.at? (Real.pi * t) := by
  obtain ⟨z, hz, hradians⟩ := principal?_angleOf σ unit t
  have hvalue : (Expr.apply g.operator [angleOf unit t]).principal? (σ.measuring unit) =
      ((angleOf unit t).principal? σ).bind fun z => g.at? (unit.radians z) := by
    cases g <;> rfl
  rw [hvalue, hz, Option.bind_some, hradians]

theorem at?_neg (g : CircularFunction) (z : ℂ) :
    g.at? (-z) = if isOdd g.operator then (g.at? z).map (-·) else g.at? z := by
  cases g with
  | sine => exact congrArg some (Complex.sin_neg z)
  | cosine => exact congrArg some (Complex.cos_neg z)
  | tangent =>
      have hodd : isOdd CircularFunction.tangent.operator = true := rfl
      rw [if_pos hodd, CircularFunction.at?, CircularFunction.at?, Complex.cos_neg, Complex.tan_neg]
      split <;> rfl

theorem principal?_keptForm (σ : Assignment) (unit : AngleUnit) (g : CircularFunction) (t : ℚ) :
    (keptForm unit g t).principal? (σ.measuring unit) = g.at? (Real.pi * t) := by
  rw [keptForm]
  split
  case isTrue =>
    have hangle : (Real.pi * t : ℂ) = -(Real.pi * (-t : ℚ)) := by
      push_cast
      ring
    have hvalue := principal?_function σ unit g (-t)
    rw [hangle, at?_neg]
    dsimp only
    split
    case isTrue => rw [principal?_opposite, hvalue]
    case isFalse => exact hvalue
  case isFalse => exact principal?_function σ unit g t

/-- The canonical form of a circular function of an angle has the value of the function. -/
theorem principal?_circularForm (σ : Assignment) (unit : AngleUnit) (g : CircularFunction) (t : ℚ) :
    (circularForm unit g t).principal? (σ.measuring unit) = g.at? (Real.pi * t) := by
  rcases circularForm_cases unit g t with ⟨s, c, hs, hc, hform⟩ | ⟨-, hform⟩
  · rw [hform]
    exact (isExactValue_exactValue g hs hc).principal_eq _
  · rw [hform]
    exact principal?_keptForm σ unit g t

/-! ## The rule -/

theorem circular_withRoom (ctx : Context) (room : Nat) (node : NodeReducer) (f : Operator)
    (x : Expr) : circular (ctx.withRoom room) node f x = circular ctx node f x :=
  rfl

theorem circular_angleOf (ctx : Context) (node : NodeReducer) (g : CircularFunction) (t : ℚ) :
    circular ctx node g.operator (angleOf ctx.settings.angleUnit t) =
      (exactCircular? node g.operator t).getD
        (foldSign node g.operator (angleOf ctx.settings.angleUnit t)) := by
  have hkind : ¬ ((angleOf ctx.settings.angleUnit t).kind == .infinity) = true := by
    rcases angleOf_cases ctx.settings.angleUnit t with
      ⟨measure, -, -, h⟩ | ⟨-, ⟨-, h⟩ | ⟨-, h⟩ | ⟨-, h⟩⟩ <;> rw [h] <;> exact Bool.false_ne_true
  unfold circular
  rw [if_neg hkind, halfTurns?_angleOf, Option.bind_some]
  cases exactCircular? node g.operator t <;> rfl

theorem exactCircular?_eq_none (node : NodeReducer) (g : CircularFunction) (ht : ¬ IsTabulated t) :
    exactCircular? node g.operator t = none :=
  Option.not_isSome_iff_eq_none.mp (mt (isSome_exactCircular?_iff node g t).mp ht)

theorem foldSign_angleOf (node : NodeReducer) (unit : AngleUnit) (g : CircularFunction)
    (ht : ¬ t < 0) :
    foldSign node g.operator (angleOf unit t) = pure (.apply g.operator [angleOf unit t]) := by
  rw [foldSign, isNegativeForm_angleOf, decide_eq_false ht, Bool.false_and,
    if_neg Bool.false_ne_true]

theorem foldSign_angleOf_neg (node : NodeReducer) (unit : AngleUnit) (g : CircularFunction)
    (ht : t < 0) :
    foldSign node g.operator (angleOf unit t) = (do
      let value ← node (.apply g.operator [← negate node (angleOf unit t)])
      if isOdd g.operator then negate node value else return value) := by
  have hsymmetric : (isOdd g.operator || isEven g.operator) = true := by
    cases g <;> rfl
  rw [foldSign, isNegativeForm_angleOf, decide_eq_true ht, hsymmetric, Bool.true_and, if_pos rfl]

/-! ## Calls -/

theorem productOfScalars_opposite (node : NodeReducer) (g : CircularFunction) (x : Expr) :
    productOfScalars node [.integer (-1), .apply g.operator [x]] =
      pure (.apply .multiplication [.integer (-1), .apply g.operator [x]]) := by
  have hsort : Expr.sort [.apply g.operator [x]] = [.apply g.operator [x]] :=
    List.perm_singleton.mp (sort_perm _)
  have hcollected : [.integer (-1), .apply g.operator [x]].foldlM PowerProduct.multiply? {} =
      some ⟨(-1 : ℤ), [⟨.apply g.operator [x], [.integer 1]⟩]⟩ := by
    rw [← one_mul ((-1 : ℤ) : ℚ)]
    cases g <;> rfl
  have hmerged : mergeGroups node [⟨.apply g.operator [x], [.integer 1]⟩] ⟨(-1 : ℤ), [], false⟩ =
      pure (.ok ⟨(-1 : ℤ), [.apply g.operator [x]], false⟩) := by
    cases g <;> rfl
  have hsplit : splitAtSum? [.apply g.operator [x]] = none := by
    cases g <;> rfl
  have hzero : [Expr.integer (-1), .apply g.operator [x]].any (·.isRational 0) = false := by
    cases g <;> rfl
  have hinfinite :
      [Expr.integer (-1), .apply g.operator [x]].any (·.kind == .infinity) = false := by
    cases g <;> rfl
  have hne : ¬ ((-1 : ℤ) : ℚ) = 0 := by decide
  rw [productOfScalars, hzero, hinfinite, if_neg Bool.false_ne_true, Bool.false_and,
    if_neg Bool.false_ne_true, hcollected]
  dsimp only
  rw [hmerged, pure_bind]
  dsimp only
  rw [finishProduct, if_neg hne, if_neg Bool.false_ne_true, hsplit]
  dsimp only
  rw [hsort]
  rfl

theorem plain_function (g : CircularFunction) (x : Expr) : IsPlain (.apply g.operator [x]) := by
  cases g <;> exact ⟨rfl, rfl, rfl⟩

/-- The opposite of a function that stays. -/
theorem comesTo_negate_function (ctx : Context) (g : CircularFunction) (x : Expr) :
    ComesTo ctx 1 (fun node => negate node (.apply g.operator [x]))
      (.apply .multiplication [.integer (-1), .apply g.operator [x]]) := by
  refine .node fun nesting => ?_
  have hplain := forall_mem_pair (x := Expr.integer (-1)) ⟨rfl, rfl, rfl⟩ (plain_function g x)
  have hfactors : flattenAll .multiplication [.integer (-1), .apply g.operator [x]] =
      [.integer (-1), .apply g.operator [x]] := by
    cases g <;> rfl
  refine settles_unspoiled (spoiled?_plain _ hplain) ?_
  simp only [reduceApply, reduceProduct, hfactors, poison?_plain hplain, any_isMatrix_plain hplain,
    Bool.false_eq_true, if_false, productOfScalars_opposite]
  exact Settles.pure _

theorem reduceApply_angleOf (ctx : Context) (node tree : NodeReducer) (g : CircularFunction)
    (unit : AngleUnit) (t : ℚ) :
    reduceApply ctx node tree g.operator [angleOf unit t] =
      circular ctx node g.operator (angleOf unit t) := by
  have hundone : trigonometric.undone? g.operator (angleOf unit t) = none := by
    rcases angleOf_cases unit t with ⟨measure, -, -, h⟩ | ⟨-, ⟨-, h⟩ | ⟨-, h⟩ | ⟨-, h⟩⟩ <;>
      rw [h] <;> rfl
  have hrule : trigonometric ctx node g.operator [angleOf unit t] =
      circular ctx node g.operator (angleOf unit t) := by
    unfold trigonometric
    dsimp only
    rw [hundone]
    cases g <;> rfl
  rw [← hrule]
  cases g <;> rfl

/-- A function of an angle, as a node. -/
theorem comesTo_function {depth : Nat} {r : Expr}
    (h : ComesTo ctx depth (fun node => circular ctx node g.operator (angleOf unit t)) r) :
    ComesTo ctx (depth + 1) (fun node => node (.apply g.operator [angleOf unit t])) r := by
  refine .node fun nesting => settles_unspoiled
    (spoiled?_plain _ (List.forall_mem_singleton.mpr (plain_angleOf unit t))) ?_
  simp only [reduceApply_angleOf, circular_withRoom]
  exact h.reached (nesting + depth) (Nat.le_add_left depth nesting)

theorem comesTo_kept (ctx : Context) (g : CircularFunction) (ht : ¬ IsTabulated t)
    (hsign : ¬ t < 0) :
    ComesTo ctx 0
      (fun node => circular ctx node g.operator (angleOf ctx.settings.angleUnit t))
      (.apply g.operator [angleOf ctx.settings.angleUnit t]) := by
  simp only [circular_angleOf, exactCircular?_eq_none _ g ht, Option.getD_none,
    foldSign_angleOf _ _ g hsign]
  exact .pure ctx 0 _

/-- A negative angle is replaced by its opposite. -/
theorem comesTo_kept_neg (ctx : Context) (g : CircularFunction) (ht : ¬ IsTabulated t)
    (hsign : t < 0) :
    ComesTo ctx 1
      (fun node => circular ctx node g.operator (angleOf ctx.settings.angleUnit t))
      (keptForm ctx.settings.angleUnit g t) := by
  have hangle : ComesTo ctx 1 (fun node => negate node (angleOf ctx.settings.angleUnit t))
      (angleOf ctx.settings.angleUnit (-t)) :=
    .node fun nesting => settles_negate_angleOf ctx nesting _ hsign
  have hvalue := comesTo_function (comesTo_kept ctx g (mt isTabulated_neg_iff.mp ht)
    (not_lt.mpr (neg_nonneg.mpr hsign.le)))
  simp only [circular_angleOf, exactCircular?_eq_none _ g ht, Option.getD_none,
    foldSign_angleOf_neg _ _ g hsign]
  rw [keptForm, if_pos hsign]
  refine hangle.bind (hvalue.bind ?_)
  dsimp only
  by_cases hodd : isOdd g.operator = true
  · simp only [if_pos hodd]
    exact comesTo_negate_function ctx g _
  · simp only [if_neg hodd]
    exact .pure ctx 1 _

/-- The rule for circular functions comes to their canonical forms. -/
theorem comesTo_circular (ctx : Context) (g : CircularFunction) (t : ℚ) :
    ComesTo ctx 3 (fun node => circular ctx node g.operator (angleOf ctx.settings.angleUnit t))
      (circularForm ctx.settings.angleUnit g t) := by
  rcases circularForm_cases ctx.settings.angleUnit g t with ⟨s, c, hs, hc, hform⟩ | ⟨ht, hform⟩
  · obtain ⟨rule, hrule, hcomes⟩ := exists_exactCircular? g hs hc
    simp only [hform, circular_angleOf, hrule, Option.getD_some]
    exact hcomes ctx
  · rw [hform]
    by_cases hsign : t < 0
    · exact (comesTo_kept_neg ctx g ht hsign).deeper (by decide)
    · rw [keptForm, if_neg hsign]
      exact (comesTo_kept ctx g ht hsign).deeper (by decide)

/-! ## Whole reductions -/

/-- An expression in the form that the settings ask for. -/
def Context.shown (ctx : Context) (x : Expr) : Expr :=
  if ctx.settings.target = .user then beautify x else x

/-- The context with another unit of angles. -/
def Context.measuring (ctx : Context) (unit : AngleUnit) : Context :=
  { ctx with settings := { ctx.settings with angleUnit := unit } }

theorem reducesTo_circular (ctx : Context) (g : CircularFunction)
    (hx : Settles (fun room => treeWithin 4 (ctx.withRoom room) x)
      (angleOf ctx.settings.angleUnit t)) :
    ReducesTo ctx (.apply g.operator [x])
      (ctx.shown (circularForm ctx.settings.angleUnit g t)) := by
  have hnode := (comesTo_function (comesTo_circular ctx g t)).reached 4 le_rfl
  have hstore : g.operator ≠ .store := by cases g <;> nofun
  have hscope : g.operator.kind.isParametered = false := by cases g <;> rfl
  exact (settles_apply hstore hscope (.cons hx .nil) hnode).reducesTo (by decide)

/-- A number of degrees or gradians. -/
theorem settles_measure {measure : Nat} (hmeasure : ctx.settings.angleUnit.halfTurn? = some measure)
    (v : ℚ) :
    Settles (fun room => treeWithin 4 (ctx.withRoom room) (.rational v))
      (angleOf ctx.settings.angleUnit (v / measure)) := by
  have hne : (measure : ℚ) ≠ 0 := Nat.cast_ne_zero.mpr (AngleUnit.measure_pos hmeasure).ne'
  have hangle : angleOf ctx.settings.angleUnit (v / measure) = .rational v := by
    rw [angleOf, hmeasure]
    exact congrArg Expr.rational (div_mul_cancel₀ v hne)
  rw [hangle]
  exact settles_rational ctx 2 v

/-- A multiple of a half turn, in radians. -/
theorem settles_radians (hunit : ctx.settings.angleUnit = .radian) (t : ℚ) :
    Settles
      (fun room => treeWithin 4 (ctx.withRoom room) (.apply .multiplication [.rational t, .pi]))
      (angleOf ctx.settings.angleUnit t) := by
  have hpi : Settles (fun room => treeWithin 3 (ctx.withRoom room) .pi) .pi :=
    settles_leaf nofun (settles_node (Settles.pure _))
  rw [hunit]
  exact settles_apply (by decide) rfl (.cons (settles_rational ctx 1 t) (.cons hpi .nil))
    (settles_halfTurns ctx 2 t)

/--
Circular functions are exact. There is an exact value of sine, cosine or tangent of `t` half turns
exactly where `4 · t` or `6 · t` is whole. It is then the value of the function at `π · t`, and
undefined exactly for the tangent where `t - 1 / 2` is whole. A circular function of an angle of `v`
degrees or gradians is reduced to the canonical form of the function of `t` half turns, and so is
that of `t · π` in radians; both have the value of the function, and are the same where it is exact.
-/
theorem circular_exact (ctx : Context) (g : CircularFunction) :
    (∀ node t, (exactCircular? node g.operator t).isSome = true ↔
      (∃ k : ℤ, 4 * t = k) ∨ ∃ k : ℤ, 6 * t = k) ∧
    (∀ t, IsTabulated t → ∃ rule x,
      (∀ node, exactCircular? node g.operator t = some (rule node)) ∧ ComesTo ctx 3 rule x ∧
        (∀ σ, x.principal? σ = g.at? (Real.pi * t)) ∧
        (x = .undefined ↔ g = .tangent ∧ ∃ k : ℤ, t - 1 / 2 = k)) ∧
    ∀ (unit : AngleUnit) (measure : Nat),
      unit = .degree ∧ measure = 180 ∨ unit = .gradian ∧ measure = 200 → ∀ v : ℚ,
        let t := v / measure
        let c := circularForm unit g t
        let c' := circularForm .radian g t
        ReducesTo (ctx.measuring unit) (.apply g.operator [.rational v]) (ctx.shown c) ∧
          ReducesTo (ctx.measuring .radian)
            (.apply g.operator [.apply .multiplication [.rational t, .pi]]) (ctx.shown c') ∧
          (∀ σ : Assignment, c.principal? (σ.measuring unit) = g.at? (Real.pi * t)) ∧
          (∀ σ : Assignment, c'.principal? (σ.measuring .radian) = g.at? (Real.pi * t)) ∧
          (IsTabulated t → c = c') := by
  refine ⟨fun node t => isSome_exactCircular?_iff node g t, fun t ht => ?_,
    fun unit measure hunit v => ?_⟩
  · obtain ⟨s, hs⟩ := Option.isSome_iff_exists.mp ((isSome_exactSine?_iff t).mpr ht)
    obtain ⟨c, hc⟩ := Option.isSome_iff_exists.mp ((isSome_exactCosine?_iff t).mpr ht)
    obtain ⟨rule, hrule, hcomes⟩ := exists_exactCircular? g hs hc
    have hvalue := isExactValue_exactValue g hs hc
    exact ⟨rule, exactValue g s c, hrule, hcomes ctx, hvalue.principal_eq, hvalue.undefined_iff⟩
  · intro t c c'
    have hmeasure : unit.halfTurn? = some measure := by
      rcases hunit with ⟨rfl, rfl⟩ | ⟨rfl, rfl⟩ <;> rfl
    have hangle : Settles
        (fun room => treeWithin 4 ((ctx.measuring unit).withRoom room) (.rational v))
        (angleOf unit t) :=
      settles_measure hmeasure v
    have hradians : Settles
        (fun room => treeWithin 4 ((ctx.measuring .radian).withRoom room)
          (.apply .multiplication [.rational t, .pi]))
        (angleOf .radian t) :=
      settles_radians rfl t
    exact ⟨reducesTo_circular (ctx.measuring unit) g hangle,
      reducesTo_circular (ctx.measuring .radian) g hradians,
      fun σ => principal?_circularForm σ unit g t, fun σ => principal?_circularForm σ .radian g t,
      circularForm_eq_of_isTabulated unit .radian g⟩

/-- The tangents of 3/2 half turns, of 150° and of -100 gradians, the sine of 210°, and the sine of
-37°, which stays. -/
theorem circular_exact_quadrants :
    let ctx : Context := ⟨{ target := .systemForAnalysis }, {}, 0, []⟩
    (∃ rule, (∀ node, exactCircular? node .tangent (3 / 2) = some (rule node)) ∧
      ComesTo ctx 3 rule .undefined) ∧
    ReducesTo (ctx.measuring .degree) (.apply .sine [.rational 210]) (.rational (-1 / 2)) ∧
    ReducesTo (ctx.measuring .degree) (.apply .tangent [.rational 150])
      (.apply .multiplication [.rational (-1 / 3), Surd.rootOf 3]) ∧
    ReducesTo (ctx.measuring .gradian) (.apply .tangent [.rational (-100)]) .undefined ∧
    ReducesTo (ctx.measuring .degree) (.apply .sine [.rational (-37)])
      (.apply .multiplication [.integer (-1), .apply .sine [.rational 37]]) := by
  intro ctx
  refine ⟨?_, ?_, ?_, ?_, ?_⟩
  · have htabulated : IsTabulated (3 / 2) := .inl ⟨6, by norm_num⟩
    rcases (circular_exact ctx .tangent).2.1 (3 / 2) htabulated with
      ⟨rule, x, hrule, hcomes, -, hundefined⟩
    obtain rfl := hundefined.mpr ⟨rfl, 1, by norm_num⟩
    exact ⟨rule, hrule, hcomes⟩
  · have hreduces := ((circular_exact ctx .sine).2.2 .degree 180 (.inl ⟨rfl, rfl⟩) 210).1
    have hform : circularForm .degree .sine (210 / (180 : Nat)) = .rational (-1 / 2) :=
      circularForm_exact .degree .sine (s := ⟨-1 / 2, 1⟩) (c := ⟨-1 / 2, 3⟩) (by decide +kernel)
        (by decide +kernel)
    rwa [hform] at hreduces
  · have hreduces := ((circular_exact ctx .tangent).2.2 .degree 180 (.inl ⟨rfl, rfl⟩) 150).1
    have hform : circularForm .degree .tangent (150 / (180 : Nat)) =
        .apply .multiplication [.rational (-1 / 3), Surd.rootOf 3] := by
      rw [circularForm_exact .degree .tangent (s := ⟨1 / 2, 1⟩) (c := ⟨-1 / 2, 3⟩)
        (by decide +kernel) (by decide +kernel), exactValue, if_neg (by decide +kernel)]
      have hquotient : (⟨1 / 2, 1⟩ : Surd).times (Surd.inverse ⟨-1 / 2, 3⟩) = ⟨-1 / 3, 3⟩ := by
        decide +kernel
      have hcoefficient : (-1 / 3 : ℚ) ≠ 0 ∧ (-1 / 3 : ℚ) ≠ 1 := by decide +kernel
      rw [hquotient, Surd.toExpr_root (by decide) hcoefficient.1, Surd.coefficientOf,
        if_neg hcoefficient.2]
      rfl
    rwa [hform] at hreduces
  · have hreduces :=
      ((circular_exact ctx .tangent).2.2 .gradian 200 (.inr ⟨rfl, rfl⟩) (-100)).1
    have hform : circularForm .gradian .tangent (-100 / (200 : Nat)) = .undefined := by
      rw [circularForm_exact .gradian .tangent (s := ⟨-1, 1⟩) (c := ⟨0, 1⟩) (by decide +kernel)
        (by decide +kernel)]
      rfl
    rwa [hform] at hreduces
  · have hreduces := ((circular_exact ctx .sine).2.2 .degree 180 (.inl ⟨rfl, rfl⟩) (-37)).1
    have hform : circularForm .degree .sine (-37 / (180 : Nat)) =
        .apply .multiplication [.integer (-1), .apply .sine [.rational 37]] := by
      have hangle : -(-37 / (180 : Nat)) * ((180 : Nat) : ℚ) = 37 := by norm_num
      rw [circularForm_kept .degree .sine (by decide +kernel), keptForm, if_pos (by norm_num),
        angleOf]
      dsimp only [AngleUnit.halfTurn?]
      rw [hangle]
      rfl
    rwa [hform] at hreduces

end Reduction

end PocketAlgebra
