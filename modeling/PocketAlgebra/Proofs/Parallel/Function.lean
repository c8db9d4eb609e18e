import PocketAlgebra.Proofs.Parallel.Power

/-!
# Functions side by side

Exact values depend on numbers alone, and tables are looked up by identity. What is left of a
function is kept over its operand, or over the opposite of it.
-/

namespace PocketAlgebra

namespace Reduction

open PocketAlgebra.Expr Shape Comparison

variable {C : Comparison} {ρ : String → String} {P : Expr → Prop} {node node' : NodeReducer}
  {ctx ctx' : Context} {f : Operator} {x y : Expr} {xs ys : List Expr}

/-! ## Circular and hyperbolic functions -/

theorem isCalled_of_trigonometric (hf : f.kind.isTrigonometric = true) : isCalled f = true := by
  cases f <;> first | rfl | exact hf

theorem Respects.angle (hP : Respects ρ P) (hnode : Parallel C ρ P node node')
    (hsettings : ctx'.settings = ctx.settings) (q : Rat) :
    C.Image (rename ρ) P (Reduction.angle ctx node q) (Reduction.angle ctx' node' q) := by
  rw [Reduction.angle, Reduction.angle, hsettings]
  split
  · exact hP.renamed_rational _
  · exact hnode.multiply (forall_mem_pair (hP.rational q) hP.pi)

theorem Respects.surd (hP : Respects ρ P) (s : Surd) :
    P s.toExpr ∧ s.toExpr.rename ρ = s.toExpr := by
  have hroot : P (.apply .power [.integer s.radicand, .rational (mkRat 1 2)]) :=
    hP.two rfl (hP.integer _) (hP.rational _)
  rw [Surd.toExpr]
  split
  · exact ⟨hP.rational _, rfl⟩
  · dsimp only
    split
    · exact ⟨hroot, by simp only [rename_apply, List.map_cons, List.map_nil, rename_integer,
        rename_rational]⟩
    · exact ⟨hP.two rfl (hP.rational _) hroot, by simp only [rename_apply, List.map_cons,
        List.map_nil, rename_integer, rename_rational]⟩

theorem Respects.renamed_surd (hP : Respects ρ P) (s : Surd) :
    C.Image (rename ρ) P (pure s.toExpr) (pure s.toExpr) :=
  C.pure ⟨(hP.surd s).1, (hP.surd s).2.symm⟩

theorem Respects.exactTangent? (hP : Respects ρ P) (hnode : Parallel C ρ P node node')
    (turns : Rat) : C.Both (rename ρ) P (Reduction.exactTangent? node turns)
      (Reduction.exactTangent? node' turns) := by
  -- The tables are kept from being evaluated.
  obtain ⟨sine?, hsine⟩ : ∃ s, exactSine? turns = s := ⟨_, rfl⟩
  obtain ⟨cosine?, hcosine⟩ : ∃ s, exactCosine? turns = s := ⟨_, rfl⟩
  unfold Reduction.exactTangent?
  simp only [hsine, hcosine]
  clear hsine hcosine
  cases sine? with
  | none => exact both_none
  | some sine =>
      cases cosine? with
      | none => exact both_none
      | some cosine =>
          dsimp only
          split
          · exact both_some hP.renamed_undefined
          · have hinverse := hnode.invert hP (hP.surd cosine).1
            rw [(hP.surd cosine).2] at hinverse
            refine both_some (image_bind hinverse fun z hz => ?_)
            have hproduct := hnode.multiply (forall_mem_pair (hP.surd sine).1 hz)
            rw [List.map_cons, (hP.surd sine).2] at hproduct
            exact hproduct

theorem Respects.exactCircular? (hP : Respects ρ P) (hnode : Parallel C ρ P node node')
    (turns : Rat) : C.Both (rename ρ) P (Reduction.exactCircular? node f turns)
      (Reduction.exactCircular? node' f turns) := by
  have htable : ∀ s : Option Surd, C.Both (rename ρ) P
      (s.map fun s => (pure s.toExpr : ReduceM Expr))
      (s.map fun s => (pure s.toExpr : ReduceM Expr)) := by
    intro s
    cases s with
    | none => exact both_none
    | some s => exact both_some (hP.renamed_surd s)
  cases f with
  | sine => exact htable _
  | cosine => exact htable _
  | _ => exact hP.exactTangent? hnode turns

theorem halfTurns?_rename (ρ : String → String) (unit : AngleUnit) (x : Expr) :
    halfTurns? unit (x.rename ρ) = halfTurns? unit x := by
  unfold halfTurns?
  cases unit.halfTurn? with
  | some measure => simp only [rational?_rename]
  | none =>
      cases x with
      | apply f xs =>
          rw [rename_apply]
          cases f with
          | multiplication =>
              cases xs with
              | nil => rfl
              | cons a xs =>
                  cases a with
                  | rational q =>
                      cases xs with
                      | nil => rfl
                      | cons b xs =>
                          cases b with
                          | constant c => cases c <;> cases xs <;> rfl
                          | apply g ys =>
                              rw [List.map_cons, List.map_cons, rename_apply]
                              rfl
                          | _ => rfl
                  | apply g ys =>
                      rw [List.map_cons, rename_apply]
                  | _ => rfl
          | _ => rfl
      | _ => rfl

theorem isNegativeForm_rename (ρ : String → String) (x : Expr) :
    isNegativeForm (x.rename ρ) = isNegativeForm x := by
  cases x with
  | apply f xs =>
      rw [rename_apply]
      cases xs with
      | nil => cases f <;> rfl
      | cons a xs =>
          rw [List.map_cons]
          cases f with
          | multiplication =>
              cases a with
              | apply g ys => rw [rename_apply]; rfl
              | _ => rfl
          | _ => rfl
  | _ => rfl

theorem Respects.kept (hP : Respects ρ P) (hf : f.isOrdinary = true) (hx : P x) :
    C.Image (rename ρ) P (pure (.apply f [x])) (pure (.apply f [x.rename ρ])) :=
  C.pure ⟨hP.one hf hx, by simp⟩

theorem Respects.foldSign (hP : Respects ρ P) (hnode : Parallel C ρ P node node')
    (hf : f.kind.isTrigonometric = true) (hx : P x) :
    C.Image (rename ρ) P (Reduction.foldSign node f x)
      (Reduction.foldSign node' f (x.rename ρ)) := by
  have hcalled := isCalled_of_trigonometric hf
  rw [Reduction.foldSign, Reduction.foldSign, isNegativeForm_rename]
  split
  · refine image_bind (hnode.negate hP hx) fun y hy => ?_
    refine image_bind (hnode f [y] hcalled (List.forall_mem_singleton.mpr hy)) fun z hz => ?_
    split
    · exact hnode.negate hP hz
    · exact image_pure hz
  · exact hP.kept (isOrdinary_of_called hcalled) hx

/-- What a table tells of an angle is a number. -/
theorem Respects.tabulatedHalfTurns? (hP : Respects ρ P) (hnode : Parallel C ρ P node node')
    (hx : P x) (table : List (Rat × Surd)) :
    C.Image id (fun _ => True) (Reduction.tabulatedHalfTurns? node table x)
      (Reduction.tabulatedHalfTurns? node' table (x.rename ρ)) := by
  have hlookup : ∀ magnitude, P magnitude →
      (table.find? fun entry => entry.2.toExpr.same (magnitude.rename ρ)) =
        table.find? fun entry => entry.2.toExpr.same magnitude := by
    intro magnitude hmagnitude
    refine congrArg (fun p => List.find? p table) (funext fun entry => ?_)
    have hsame := hP.same (hP.surd entry.2).1 hmagnitude
    rwa [(hP.surd entry.2).2] at hsame
  have hrest : ∀ magnitude, P magnitude → C.Image id (fun _ => True)
      (pure ((table.find? fun entry => entry.2.toExpr.same magnitude).map fun entry =>
        if isNegativeForm x then -entry.1 else entry.1))
      (pure ((table.find? fun entry => entry.2.toExpr.same (magnitude.rename ρ)).map fun entry =>
        if isNegativeForm x then -entry.1 else entry.1)) := by
    intro magnitude hmagnitude
    rw [hlookup magnitude hmagnitude]
    exact image_pure trivial
  rw [Reduction.tabulatedHalfTurns?, Reduction.tabulatedHalfTurns?, isNegativeForm_rename]
  by_cases hnegative : isNegativeForm x = true
  · simp only [hnegative, if_true] at hrest ⊢
    exact image_bind (hnode.negate hP hx) hrest
  · simp only [hnegative] at hrest ⊢
    exact image_bind (image_pure hx) hrest

theorem Respects.circular (hP : Respects ρ P) (hnode : Parallel C ρ P node node')
    (hsettings : ctx'.settings = ctx.settings) (hf : f.kind.isTrigonometric = true) (hx : P x) :
    C.Image (rename ρ) P (Reduction.circular ctx node f x)
      (Reduction.circular ctx' node' f (x.rename ρ)) := by
  rw [Reduction.circular, Reduction.circular, hsettings, kind_rename, halfTurns?_rename]
  split
  · exact hP.renamed_undefined
  · have hfold := hP.foldSign hnode hf hx
    cases halfTurns? ctx.settings.angleUnit x with
    | none => exact hfold
    | some turns =>
        have hexact := hP.exactCircular? (f := f) hnode turns
        rcases hexact with ⟨hnone, hnone'⟩ | ⟨m, m', hsome, hsome', hm⟩
        · simp only [Option.bind_some, hnone, hnone']
          exact hfold
        · simp only [Option.bind_some, hsome, hsome']
          exact hm

theorem Respects.inverseCircular (hP : Respects ρ P) (hnode : Parallel C ρ P node node')
    (hsettings : ctx'.settings = ctx.settings) (hf : f.kind.isTrigonometric = true) (hx : P x) :
    C.Image (rename ρ) P (Reduction.inverseCircular ctx node f x)
      (Reduction.inverseCircular ctx' node' f (x.rename ρ)) := by
  rw [Reduction.inverseCircular, Reduction.inverseCircular, hsettings, rational?_rename]
  split
  · split
    · exact hP.renamed_nonreal
    · exact hP.kept (isOrdinary_of_called (isCalled_of_trigonometric hf)) hx
  · refine image_bind (hP.tabulatedHalfTurns? hnode hx sines) fun turns _ => ?_
    cases turns with
    | none => exact hP.foldSign hnode hf hx
    | some turns => exact hP.angle hnode hsettings _

theorem Respects.arcTangent (hP : Respects ρ P) (hnode : Parallel C ρ P node node')
    (hsettings : ctx'.settings = ctx.settings) (hx : P x) :
    C.Image (rename ρ) P (Reduction.arcTangent ctx node x)
      (Reduction.arcTangent ctx' node' (x.rename ρ)) := by
  cases x with
  | infinity negative => exact hP.angle hnode hsettings _
  | _ =>
      refine image_bind (hP.tabulatedHalfTurns? hnode hx tangents) fun turns _ => ?_
      cases turns with
      | none => exact hP.foldSign hnode rfl hx
      | some turns => exact hP.angle hnode hsettings _

theorem Respects.undone? (hP : Respects ρ P) (hx : P x) :
    (∀ y ∈ trigonometric.undone? f x, P y) ∧
      trigonometric.undone? f (x.rename ρ) = (trigonometric.undone? f x).map (rename ρ) := by
  cases x with
  | apply g xs =>
      rw [rename_apply]
      match xs with
      | [] | _ :: _ :: _ => exact ⟨nofun, rfl⟩
      | [y] =>
          rw [List.map_cons, List.map_nil, trigonometric.undone?, trigonometric.undone?]
          split
          · rename_i hinverse
            have hg : g.isOrdinary = true := by
              cases f <;> cases hinverse <;> rfl
            refine ⟨?_, rfl⟩
            rintro _ ⟨⟩
            exact hP.operand hg hx _ List.mem_cons_self
          · exact ⟨nofun, rfl⟩
  | _ => exact ⟨nofun, rfl⟩

theorem wholeHyperbolic?_rename (ρ : String → String) (f : Operator) (x : Expr) :
    wholeHyperbolic? f (x.rename ρ) = wholeHyperbolic? f x := by
  unfold wholeHyperbolic?
  simp only [isRational_rename]

theorem Respects.trigonometric (hP : Respects ρ P) (hnode : Parallel C ρ P node node')
    (hsettings : ctx'.settings = ctx.settings) (hf : f.kind.isTrigonometric = true)
    (hxs : ∀ x ∈ xs, P x) : C.Image (rename ρ) P (Reduction.trigonometric ctx node f xs)
      (Reduction.trigonometric ctx' node' f (xs.map (rename ρ))) := by
  match xs with
  | [] | _ :: _ :: _ => exact hP.renamed_undefined
  | [x] =>
      have hx := hxs x List.mem_cons_self
      have hundone := hP.undone? (f := f) hx
      unfold Reduction.trigonometric
      simp only [List.map_cons, List.map_nil, hundone.2]
      cases hresult : trigonometric.undone? f x with
      | some y => exact image_pure (hundone.1 y hresult)
      | none =>
          cases f with
          | sine | cosine | tangent => exact hP.circular hnode hsettings hf hx
          | arcSine | arcCosine => exact hP.inverseCircular hnode hsettings hf hx
          | arcTangent => exact hP.arcTangent hnode hsettings hx
          | hyperbolicSine | hyperbolicCosine | hyperbolicTangent | hyperbolicArcSine
          | hyperbolicArcCosine | hyperbolicArcTangent =>
              dsimp only
              rw [wholeHyperbolic?_rename]
              split
              · exact hP.renamed_integer _
              · exact hP.foldSign hnode rfl hx
          | _ => cases hf

/-! ## Functions of numbers -/

theorem factorial_rename (ρ : String → String) (x : Expr) :
    factorial (x.rename ρ) = factorial x := by
  cases x with
  | apply f xs => rw [rename_apply]; rfl
  | _ => rfl

theorem round_rename (ρ : String → String) (x y : Expr) :
    round (x.rename ρ) (y.rename ρ) = round x y := by
  cases y with
  | rational d =>
      cases x with
      | apply f xs => rw [rename_apply]; rfl
      | _ => rfl
  | apply g ys => rw [rename_apply]; rfl
  | _ => rfl

theorem unaryInteger_rename (ρ : String → String) (f : Operator) (x : Expr) :
    unaryInteger f (x.rename ρ) = unaryInteger f x := by
  cases x with
  | apply f xs => rw [rename_apply]; rfl
  | _ => rfl

theorem binaryInteger_rename (ρ : String → String) (f : Operator) (x y : Expr) :
    binaryInteger f (x.rename ρ) (y.rename ρ) = binaryInteger f x y := by
  unfold binaryInteger
  rw [round_rename, kind_rename, kind_rename]
  cases y with
  | rational q =>
      cases x with
      | apply g xs => rw [rename_apply]; rfl
      | _ => rfl
  | apply g ys =>
      rw [rename_apply]
      cases x with
      | apply h xs => rw [rename_apply]
      | _ => rfl
  | _ =>
      cases x with
      | apply h xs => rw [rename_apply]; rfl
      | _ => rfl

theorem integerFunction_rename (ρ : String → String) (f : Operator) (xs : List Expr) :
    integerFunction f (xs.map (rename ρ)) = integerFunction f xs := by
  match xs with
  | [] | _ :: _ :: _ :: _ => rfl
  | [x] => exact unaryInteger_rename ρ f x
  | [x, y] => exact binaryInteger_rename ρ f x y

theorem Respects.outcome (hP : Respects ρ P) (o : Outcome) (hx : P x) :
    C.Image (rename ρ) P (pure (o.toExpr x)) (pure (o.toExpr (x.rename ρ))) := by
  cases o with
  | value q => exact hP.renamed_rational q
  | undefined => exact hP.renamed_undefined
  | infinity negative => exact hP.renamed_infinity negative
  | kept => exact image_pure hx

/-! ## Parts of complex numbers -/

@[simp] theorem isImaginaryUnit_rename (ρ : String → String) (x : Expr) :
    isImaginaryUnit (x.rename ρ) = isImaginaryUnit x := by
  rw [isImaginaryUnit, isImaginaryUnit, constant?_rename]

theorem Respects.sumOrZero (hP : Respects ρ P) (hnode : Parallel C ρ P node node')
    (hxs : ∀ x ∈ xs, P x) : C.Image (rename ρ) P (Reduction.sumOrZero node xs)
      (Reduction.sumOrZero node' (xs.map (rename ρ))) := by
  rw [Reduction.sumOrZero, Reduction.sumOrZero, List.isEmpty_map]
  split
  · exact hP.renamed_integer 0
  · exact hnode.add hxs

theorem Respects.imaginaryCoefficient? (hP : Respects ρ P) (hnode : Parallel C ρ P node node')
    (hx : P x) : C.Both (rename ρ) P (Reduction.imaginaryCoefficient? node x)
      (Reduction.imaginaryCoefficient? node' (x.rename ρ)) := by
  cases x with
  | apply f xs =>
      rw [rename_apply]
      by_cases hf : f = .multiplication
      · subst hf
        have hothers : ∀ y ∈ xs.filter (fun x => !isImaginaryUnit x), P y := fun y hy =>
          hP.operand rfl hx y (List.mem_of_mem_filter hy)
        have hfilter : (xs.map (rename ρ)).filter (fun x => !isImaginaryUnit x) =
            (xs.filter fun x => !isImaginaryUnit x).map (rename ρ) :=
          filter_map_rename (fun x => by rw [isImaginaryUnit_rename]) xs
        have hcompound : ∀ ys : List Expr,
            isImaginaryUnit (.apply .multiplication ys) = false := fun _ => rfl
        simp only [Reduction.imaginaryCoefficient?, hcompound, hfilter, List.length_map,
          List.all_map, Function.comp_def, sign_rename, Bool.false_eq_true, if_false]
        split
        · exact both_some (hnode.multiply hothers)
        · exact both_none
      · have hnone : ∀ node ys, Reduction.imaginaryCoefficient? node (.apply f ys) = none := by
          intro node ys
          simp [Reduction.imaginaryCoefficient?, isImaginaryUnit, constant?, hf]
        rw [hnone, hnone]
        exact both_none
  | constant c =>
      cases c with
      | imaginaryUnit => exact both_some (hP.renamed_integer 1)
      | _ => exact both_none
  | _ => exact both_none

/-- Two lists of trees under other names. -/
def renameParts (ρ : String → String) (parts : List Expr × List Expr) : List Expr × List Expr :=
  (parts.1.map (rename ρ), parts.2.map (rename ρ))

/-- The trees of two lists, where there are such, have a property. -/
def Parts (P : Expr → Prop) (parts : Option (List Expr × List Expr)) : Prop :=
  ∀ p ∈ parts, (∀ x ∈ p.1, P x) ∧ ∀ x ∈ p.2, P x

theorem Respects.splitTerms? (hP : Respects ρ P) (hnode : Parallel C ρ P node node')
    (hxs : ∀ x ∈ xs, P x) :
    C.Image (Option.map (renameParts ρ)) (Parts P) (Reduction.splitTerms? node xs)
      (Reduction.splitTerms? node' (xs.map (rename ρ))) := by
  induction xs with
  | nil =>
      refine C.pure ⟨?_, rfl⟩
      rintro _ ⟨⟩
      exact ⟨List.forall_mem_nil _, List.forall_mem_nil _⟩
  | cons x xs ih =>
      have hx := hxs x List.mem_cons_self
      have htail := ih fun y hy => hxs y (List.mem_cons_of_mem x hy)
      rw [List.map_cons, Reduction.splitTerms?, Reduction.splitTerms?, sign_rename]
      split
      · refine image_bind htail fun parts hparts => C.pure ⟨?_, ?_⟩
        · intro p hp
          rcases Option.map_eq_some_iff.mp hp with ⟨q, hq, rfl⟩
          exact ⟨List.forall_mem_cons.mpr ⟨hx, (hparts q hq).1⟩, (hparts q hq).2⟩
        · cases parts <;> rfl
      · rcases hP.imaginaryCoefficient? hnode hx with ⟨hnone, hnone'⟩ | ⟨m, m', hsome, hsome', hm⟩
        · rw [hnone, hnone']
          exact C.pure ⟨nofun, rfl⟩
        · rw [hsome, hsome']
          refine image_bind hm fun b hb => ?_
          refine image_bind htail fun parts hparts => C.pure ⟨?_, ?_⟩
          · intro p hp
            rcases Option.map_eq_some_iff.mp hp with ⟨q, hq, rfl⟩
            exact ⟨(hparts q hq).1, List.forall_mem_cons.mpr ⟨hb, (hparts q hq).2⟩⟩
          · cases parts <;> rfl

theorem Respects.cartesianParts? (hP : Respects ρ P) (hnode : Parallel C ρ P node node')
    (hx : P x) : C.Image (Option.map (renameParts ρ)) (Parts P)
      (Reduction.cartesianParts? node x) (Reduction.cartesianParts? node' (x.rename ρ)) := by
  have hother : C.Image (Option.map (renameParts ρ)) (Parts P) (Reduction.splitTerms? node [x])
      (Reduction.splitTerms? node' [x.rename ρ]) :=
    hP.splitTerms? hnode (List.forall_mem_singleton.mpr hx)
  cases x with
  | apply f xs =>
      rw [rename_apply] at hother ⊢
      by_cases hf : f = .addition
      · subst hf
        exact hP.splitTerms? hnode (hP.operand rfl hx)
      · simpa [Reduction.cartesianParts?, hf] using hother
  | _ => exact hother

theorem Respects.simplePart? (hP : Respects ρ P) (hnode : Parallel C ρ P node node')
    (hsettings : ctx'.settings = ctx.settings) (hx : P x) :
    C.Both (rename ρ) P (Reduction.simplePart? ctx node f x)
      (Reduction.simplePart? ctx' node' f (x.rename ρ)) := by
  have hself : C.Both (rename ρ) P (some (pure x)) (some (pure (x.rename ρ))) :=
    both_some (image_pure hx)
  have hnumber : ∀ n, C.Both (rename ρ) P (some (pure (.integer n))) (some (pure (.integer n))) :=
    fun n => both_some (hP.renamed_integer n)
  have hangle : ∀ q, C.Both (rename ρ) P (some (Reduction.angle ctx node q))
      (some (Reduction.angle ctx' node' q)) :=
    fun q => both_some (hP.angle hnode hsettings q)
  have hopposite : C.Both (rename ρ) P (some (Reduction.negate node x))
      (some (Reduction.negate node' (x.rename ρ))) :=
    both_some (hnode.negate hP hx)
  cases f with
  | absoluteValue =>
      simp only [Reduction.simplePart?, sign_rename, kind_rename, isImaginaryUnit_rename]
      split
      · exact hself
      · split
        · exact hopposite
        · split
          · exact hnumber 1
          · exact both_none
  | complexArgument =>
      simp only [Reduction.simplePart?, sign_rename, isImaginaryUnit_rename]
      cases x.sign with
      | positive => exact hnumber 0
      | negative => exact hangle 1
      | null => exact both_some hP.renamed_undefined
      | unknown =>
          dsimp only
          split
          · exact hangle _
          · exact both_none
  | realPart =>
      simp only [Reduction.simplePart?, sign_rename, isImaginaryUnit_rename]
      split
      · exact hself
      · split
        · exact hnumber 0
        · exact both_none
  | imaginaryPart =>
      simp only [Reduction.simplePart?, sign_rename, isImaginaryUnit_rename]
      split
      · exact hnumber 0
      · split
        · exact hnumber 1
        · exact both_none
  | conjugate =>
      have hother : C.Both (rename ρ) P
          (if x.sign.isKnown then some (return x)
            else if isImaginaryUnit x then some (Reduction.negate node x) else none)
          (if (x.rename ρ).sign.isKnown then some (return x.rename ρ)
            else if isImaginaryUnit (x.rename ρ) then
              some (Reduction.negate node' (x.rename ρ)) else none) := by
        rw [sign_rename, isImaginaryUnit_rename]
        split
        · exact hself
        · split
          · exact hopposite
          · exact both_none
      cases x with
      | apply g xs =>
          rw [rename_apply] at hother ⊢
          by_cases hg : g = .conjugate
          · subst hg
            cases xs with
            | nil => exact both_none
            | cons y xs =>
                exact both_some (image_pure (hP.operand rfl hx y List.mem_cons_self))
          · simpa [Reduction.simplePart?, hg] using hother
      | _ => exact hother
  | _ => exact both_none

theorem Respects.partOfTerms (hP : Respects ρ P) (hnode : Parallel C ρ P node node')
    (hxs : ∀ x ∈ xs, P x) (hys : ∀ y ∈ ys, P y) :
    C.Image (rename ρ) P (Reduction.partOfTerms node f xs ys)
      (Reduction.partOfTerms node' f (xs.map (rename ρ)) (ys.map (rename ρ))) := by
  rw [Reduction.partOfTerms.eq_def, Reduction.partOfTerms.eq_def]
  split
  · exact hP.sumOrZero hnode hxs
  · exact hP.sumOrZero hnode hys
  · refine image_bind (hP.sumOrZero hnode hys) fun b hb => ?_
    have hproduct : C.Image (rename ρ) P (multiply node [.integer (-1), b, .i])
        (multiply node' [.integer (-1), b.rename ρ, .i]) :=
      hnode.multiply (List.forall_mem_cons.mpr ⟨hP.integer (-1), forall_mem_pair hb hP.i⟩)
    refine image_bind hproduct fun z hz => ?_
    have hsum := hnode.add (List.forall_mem_append.mpr ⟨hxs, List.forall_mem_singleton.mpr hz⟩)
    rw [List.map_append] at hsum
    exact hsum

theorem Respects.complexPart (hP : Respects ρ P) (hnode : Parallel C ρ P node node')
    (hsettings : ctx'.settings = ctx.settings) (hf : f.isOrdinary = true) (hxs : ∀ x ∈ xs, P x) :
    C.Image (rename ρ) P (Reduction.complexPart ctx node f xs)
      (Reduction.complexPart ctx' node' f (xs.map (rename ρ))) := by
  match xs with
  | [] | _ :: _ :: _ => exact hP.renamed_undefined
  | [x] =>
      have hx := hxs x List.mem_cons_self
      have hkept := hP.kept (C := C) hf hx
      unfold Reduction.complexPart
      simp only [List.map_cons, List.map_nil]
      rcases hP.simplePart? (f := f) hnode hsettings hx with
        ⟨hnone, hnone'⟩ | ⟨m, m', hsome, hsome', hm⟩
      · rw [hnone, hnone']
        cases f with
        | realPart | imaginaryPart | conjugate =>
            refine image_bind (hP.cartesianParts? hnode hx) fun parts hparts => ?_
            cases parts with
            | none => exact hkept
            | some parts => exact hP.partOfTerms hnode (hparts _ rfl).1 (hparts _ rfl).2
        | _ => exact hkept
      · rw [hsome, hsome']
        exact hm

/-! ## Functions of lists -/

theorem elements?_rename (ρ : String → String) (x : Expr) :
    elements? (x.rename ρ) = (elements? x).map (List.map (rename ρ)) := by
  cases x with
  | apply f xs =>
      rw [rename_apply]
      cases f <;> rfl
  | _ => rfl

theorem mapM_elements?_rename (ρ : String → String) (xs : List Expr) :
    (xs.map (rename ρ)).mapM elements? =
      (xs.mapM elements?).map (List.map (List.map (rename ρ))) := by
  induction xs with
  | nil => rfl
  | cons x xs ih =>
      rw [List.map_cons, List.mapM_cons, List.mapM_cons, ih, elements?_rename]
      cases elements? x with
      | none => rfl
      | some ys => cases xs.mapM elements? <;> rfl

theorem Respects.elements? (hP : Respects ρ P) (hx : P x)
    (h : Reduction.elements? x = some ys) : ∀ y ∈ ys, P y := by
  rw [Reduction.elements?.eq_def] at h
  split at h
  · cases h
    exact hP.operand rfl hx
  · cases h

theorem Respects.mean (hP : Respects ρ P) (hnode : Parallel C ρ P node node')
    (hxs : ∀ x ∈ xs, P x) :
    C.Image (rename ρ) P (Reduction.mean node xs) (Reduction.mean node' (xs.map (rename ρ))) := by
  rw [Reduction.mean, Reduction.mean, List.isEmpty_map, List.length_map]
  split
  · exact hP.renamed_undefined
  · exact image_bind (hnode.add hxs) fun sum hsum =>
      hnode.multiply (forall_mem_pair hsum (hP.rational _))

theorem Respects.weightedMean (hP : Respects ρ P) (hnode : Parallel C ρ P node node')
    (hxs : ∀ x ∈ xs, P x) (hys : ∀ y ∈ ys, P y) :
    C.Image (rename ρ) P (Reduction.weightedMean node xs ys)
      (Reduction.weightedMean node' (xs.map (rename ρ)) (ys.map (rename ρ))) := by
  rw [Reduction.weightedMean, Reduction.weightedMean, List.zip_map, List.mapM_map]
  refine image_bind (image_mapM (g := rename ρ) (P := P) fun p hp => ?_)
    fun products hproducts => ?_
  · have hmem := List.of_mem_zip hp
    exact hnode.multiply (forall_mem_pair (hxs p.1 hmem.1) (hys p.2 hmem.2))
  · refine image_bind (hP.sumOrZero hnode hproducts) fun total htotal => ?_
    refine image_bind (hP.sumOrZero hnode hys) fun weight hweight => ?_
    refine image_bind (hnode.invert hP hweight) fun inverse hinverse => ?_
    exact hnode.multiply (forall_mem_pair htotal hinverse)

theorem Respects.listFunction (hP : Respects ρ P) (hnode : Parallel C ρ P node node')
    (hf : f.isOrdinary = true) (hxs : ∀ x ∈ xs, P x) :
    C.Image (rename ρ) P (Reduction.listFunction node f xs)
      (Reduction.listFunction node' f (xs.map (rename ρ))) := by
  have hkept : C.Image (rename ρ) P (pure (.apply f xs))
      (pure (.apply f (xs.map (rename ρ)))) :=
    C.pure ⟨(hP.apply hf).mpr hxs, by simp⟩
  have hmayBe : (xs.map (rename ρ)).all mayBeList = xs.all mayBeList :=
    all_map_rename (fun x => by simp only [mayBeList, isList_rename, kind_rename]) xs
  rw [Reduction.listFunction, Reduction.listFunction, mapM_elements?_rename, hmayBe]
  cases hlists : xs.mapM Reduction.elements? with
  | none =>
      simp only [Option.map_none]
      split
      · exact hkept
      · exact hP.renamed_undefined
  | some lists =>
      have helements := forall_of_mapM_eq_some (P := fun ys => ∀ y ∈ ys, P y)
        (fun y hy ys hys => hP.elements? (hxs y hy) hys) hlists
      match lists, helements with
      | [elements], helements =>
          have hmembers := helements elements List.mem_cons_self
          cases f with
          | listSum => exact hP.sumOrZero hnode hmembers
          | listMean => exact hP.mean hnode hmembers
          | _ => exact hP.renamed_undefined
      | [values, weights], helements =>
          have hvalues := helements values (by simp)
          have hweights := helements weights (by simp)
          have hisWeight : (weights.map (rename ρ)).all isWeight = weights.all isWeight :=
            all_map_rename (fun x => by simp only [isWeight, sign_rename]) weights
          cases f with
          | listMean =>
              simp only [Option.map_some, List.map_cons, List.map_nil, List.isEmpty_map,
                List.length_map, hisWeight]
              split
              · exact hP.renamed_undefined
              · split
                · exact hP.weightedMean hnode hvalues hweights
                · exact hkept
          | _ => exact hP.renamed_undefined
      | [], _ | _ :: _ :: _ :: _, _ => cases f <;> exact hP.renamed_undefined

end Reduction

end PocketAlgebra
