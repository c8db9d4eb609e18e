import PocketAlgebra.Proofs.Parallel.Function

/-!
# Derivatives side by side

Which rule gives a derivative depends on where the variable occurs. A renaming keeps that as long as
it gives no other symbol the new name of the variable.
-/

namespace PocketAlgebra

namespace Reduction

open PocketAlgebra.Expr Shape Comparison

variable {C : Comparison} {ρ : String → String} {P : Expr → Prop} {node node' : NodeReducer}
  {ctx ctx' : Context} {f : Operator} {x y : Expr} {xs ys : List Expr} {name : String}

/-- In a tree, where there is one, a property holds. -/
def IfAny (P : Expr → Prop) (d : Option Expr) : Prop :=
  ∀ y ∈ d, P y

theorem ifAny_some (hy : P y) : IfAny P (some y) := by
  rintro _ ⟨⟩
  exact hy

/-- The renaming keeps apart the symbol of a name and all others. -/
def KeepsMentions (ρ : String → String) (P : Expr → Prop) (name : String) : Prop :=
  ∀ x, P x → (x.rename ρ).mentions (ρ name) = x.mentions name

/-! ## Rules -/

theorem Parallel.naturalLogarithm (hnode : Parallel C ρ P node node') (hP : Respects ρ P)
    (hx : P x) : C.Image (rename ρ) P (Reduction.naturalLogarithm node x)
      (Reduction.naturalLogarithm node' (x.rename ρ)) :=
  hnode .logarithm [x, .e] rfl (forall_mem_pair hx hP.e)

theorem Parallel.apply1 (hnode : Parallel C ρ P node node') (hf : isCalled f = true) (hx : P x) :
    C.Image (rename ρ) P (Reduction.apply1 node f x) (Reduction.apply1 node' f (x.rename ρ)) :=
  hnode f [x] hf (List.forall_mem_singleton.mpr hx)

theorem Parallel.square (hnode : Parallel C ρ P node node') (hP : Respects ρ P) (hx : P x) :
    C.Image (rename ρ) P (Reduction.square node x) (Reduction.square node' (x.rename ρ)) :=
  hnode.power hx (hP.integer 2)

theorem Respects.radiansPerUnit? (hP : Respects ρ P) (hnode : Parallel C ρ P node node')
    (hsettings : ctx'.settings = ctx.settings) :
    C.Both (rename ρ) P (Reduction.radiansPerUnit? ctx node)
      (Reduction.radiansPerUnit? ctx' node') := by
  rw [Reduction.radiansPerUnit?, Reduction.radiansPerUnit?, hsettings]
  cases ctx.settings.angleUnit.halfTurn? with
  | none => exact both_none
  | some measure => exact both_some (hnode.multiply (forall_mem_pair (hP.rational _) hP.pi))

theorem productRule_image (hnode : Parallel C ρ P node node')
    {before : List Expr} (hbefore : ∀ x ∈ before, P x) (hxs : ∀ x ∈ xs, P x)
    (hys : ∀ y ∈ ys, P y) :
    C.Image (List.map (rename ρ)) (fun terms => ∀ t ∈ terms, P t)
      (Reduction.productRule node before xs ys)
      (Reduction.productRule node' (before.map (rename ρ)) (xs.map (rename ρ))
        (ys.map (rename ρ))) := by
  induction xs generalizing before ys with
  | nil =>
      simp only [List.map_nil, Reduction.productRule]
      exact C.pure ⟨List.forall_mem_nil _, rfl⟩
  | cons x xs ih =>
      cases ys with
      | nil =>
          simp only [List.map_nil, Reduction.productRule]
          exact C.pure ⟨List.forall_mem_nil _, rfl⟩
      | cons y ys =>
          have hx := hxs x List.mem_cons_self
          have hy := hys y List.mem_cons_self
          have htail := fun z hz => hxs z (List.mem_cons_of_mem x hz)
          have hrest := ih
            (List.forall_mem_append.mpr ⟨hbefore, List.forall_mem_singleton.mpr hx⟩) htail
            fun z hz => hys z (List.mem_cons_of_mem y hz)
          rw [List.map_append] at hrest
          have hconcat : ∀ terms, (∀ t ∈ terms, P t) →
              C.Image (List.map (rename ρ)) (fun terms => ∀ t ∈ terms, P t)
                (do return terms ++ (← Reduction.productRule node (before ++ [x]) xs ys))
                (do return terms.map (rename ρ) ++ (← Reduction.productRule node'
                  (before.map (rename ρ) ++ [x.rename ρ]) (xs.map (rename ρ))
                  (ys.map (rename ρ)))) := by
            intro terms hterms
            refine image_bind hrest fun others hothers => ?_
            exact C.pure ⟨List.forall_mem_append.mpr ⟨hterms, hothers⟩, by rw [List.map_append]⟩
          rw [List.map_cons, List.map_cons, Reduction.productRule, Reduction.productRule,
            isRational_rename]
          by_cases hzero : y.isRational 0 = true
          · simp only [hzero, if_true]
            exact hconcat [] (List.forall_mem_nil _)
          · simp only [hzero]
            have hproduct := hnode.multiply
              (List.forall_mem_cons.mpr ⟨hy, List.forall_mem_append.mpr ⟨hbefore, htail⟩⟩)
            rw [List.map_cons, List.map_append] at hproduct
            exact image_bind hproduct fun term hterm =>
              hconcat [term] (List.forall_mem_singleton.mpr hterm)

theorem Respects.powerRule (hP : Respects ρ P) (hnode : Parallel C ρ P node node')
    (hname : KeepsMentions ρ P name) {base exponent db dp : Expr} (hbase : P base)
    (hexponent : P exponent) (hdb : P db) (hdp : P dp) :
    C.Image (rename ρ) P (Reduction.powerRule node name base exponent db dp)
      (Reduction.powerRule node' (ρ name) (base.rename ρ) (exponent.rename ρ) (db.rename ρ)
        (dp.rename ρ)) := by
  have hwhole : P (.apply .power [base, exponent]) := hP.two rfl hbase hexponent
  have hrenamed : Expr.apply .power [base.rename ρ, exponent.rename ρ] =
      (Expr.apply .power [base, exponent]).rename ρ := by rw [rename_apply]; rfl
  have hlogarithm := hnode.naturalLogarithm hP hbase
  rw [Reduction.powerRule, Reduction.powerRule, hname base hbase, hname exponent hexponent]
  simp only [hrenamed]
  split
  · refine image_bind (hnode.add (forall_mem_pair hexponent (hP.integer (-1)))) fun low hlow => ?_
    refine image_bind (hnode.power hbase hlow) fun power hpower => ?_
    exact hnode.multiply (List.forall_mem_cons.mpr ⟨hexponent, forall_mem_pair hpower hdb⟩)
  · split
    · exact image_bind hlogarithm fun l hl =>
        hnode.multiply (List.forall_mem_cons.mpr ⟨hwhole, forall_mem_pair hl hdp⟩)
    · refine image_bind hlogarithm fun l hl => ?_
      refine image_bind (hnode.multiply (forall_mem_pair hdp hl)) fun first hfirst => ?_
      refine image_bind (hnode.invert hP hbase) fun inverse hinverse => ?_
      have hfactors := List.forall_mem_cons.mpr ⟨hexponent, forall_mem_pair hdb hinverse⟩
      refine image_bind (hnode.multiply hfactors)
        fun second hsecond => ?_
      refine image_bind (hnode.add (forall_mem_pair hfirst hsecond)) fun sum hsum => ?_
      exact hnode.multiply (forall_mem_pair hwhole hsum)

theorem Respects.arcSineDerivative (hP : Respects ρ P) (hnode : Parallel C ρ P node node')
    (hx : P x) : C.Image (rename ρ) P (outerDerivative?.arcSineDerivative node x)
      (outerDerivative?.arcSineDerivative node' (x.rename ρ)) := by
  refine image_bind (hnode.square hP hx) fun s hs => ?_
  refine image_bind (hnode.negate hP hs) fun z hz => ?_
  refine image_bind (hnode.add (forall_mem_pair (hP.integer 1) hz)) fun radicand hradicand => ?_
  exact hnode.power hradicand (hP.rational _)

theorem Respects.outerDerivative? (hP : Respects ρ P) (hnode : Parallel C ρ P node node')
    (hx : P x) : C.Both (rename ρ) P (Reduction.outerDerivative? node f x)
      (Reduction.outerDerivative? node' f (x.rename ρ)) := by
  cases f with
  | sine => exact both_some (hnode.apply1 rfl hx)
  | cosine =>
      exact both_some (image_bind (hnode.apply1 rfl hx) fun s hs => hnode.negate hP hs)
  | tangent =>
      exact both_some (image_bind (hnode.apply1 rfl hx) fun c hc =>
        hnode.power hc (hP.integer _))
  | arcTangent =>
      refine both_some (image_bind (hnode.square hP hx) fun s hs => ?_)
      exact image_bind (hnode.add (forall_mem_pair (hP.integer 1) hs)) fun sum hsum =>
        hnode.invert hP hsum
  | arcSine => exact both_some (hP.arcSineDerivative hnode hx)
  | arcCosine =>
      exact both_some (image_bind (hP.arcSineDerivative hnode hx) fun r hr => hnode.negate hP hr)
  | hyperbolicSine => exact both_some (hnode.apply1 rfl hx)
  | hyperbolicCosine => exact both_some (hnode.apply1 rfl hx)
  | hyperbolicTangent =>
      exact both_some (image_bind (hnode.apply1 rfl hx) fun c hc =>
        hnode.power hc (hP.integer _))
  | _ => exact both_none

theorem isOrdinary_of_outerDerivative? {m : ReduceM Expr}
    (h : Reduction.outerDerivative? node f x = some m) : f.isOrdinary = true := by
  cases f <;> first | rfl | cases h

theorem Respects.unitFactor? (hP : Respects ρ P) (hnode : Parallel C ρ P node node')
    (hsettings : ctx'.settings = ctx.settings) :
    C.Both (rename ρ) P (Reduction.unitFactor? ctx node f)
      (Reduction.unitFactor? ctx' node' f) := by
  have hscale := hP.radiansPerUnit? hnode hsettings
  have hinverse : C.Both (rename ρ) P
      ((Reduction.radiansPerUnit? ctx node).map
        fun scale => do Reduction.invert node (← scale))
      ((Reduction.radiansPerUnit? ctx' node').map
        fun scale => do Reduction.invert node' (← scale)) := by
    rcases hscale with ⟨hnone, hnone'⟩ | ⟨m, m', hsome, hsome', hm⟩
    · rw [hnone, hnone']
      exact both_none
    · rw [hsome, hsome']
      exact both_some (image_bind hm fun s hs => hnode.invert hP hs)
  cases f with
  | sine | cosine | tangent => exact hscale
  | arcSine | arcCosine | arcTangent => exact hinverse
  | _ => exact both_none

theorem Respects.chainRule (hP : Respects ρ P) (hnode : Parallel C ρ P node node')
    (hsettings : ctx'.settings = ctx.settings) {outer outer' : ReduceM Expr}
    (houter : C.Image (rename ρ) P outer outer') {du : Expr} (hdu : P du) :
    C.Image (rename ρ) P (Reduction.chainRule ctx node f outer du)
      (Reduction.chainRule ctx' node' f outer' (du.rename ρ)) := by
  rw [Reduction.chainRule, Reduction.chainRule]
  refine image_bind houter fun d hd => ?_
  rcases hP.unitFactor? (f := f) hnode hsettings with
    ⟨hnone, hnone'⟩ | ⟨m, m', hsome, hsome', hm⟩
  · rw [hnone, hnone']
    exact hnode.multiply (forall_mem_pair hd hdu)
  · rw [hsome, hsome']
    exact image_bind hm fun u hu =>
      hnode.multiply (List.forall_mem_cons.mpr ⟨hd, forall_mem_pair hdu hu⟩)

theorem Respects.logarithmRule (hP : Respects ρ P) (hnode : Parallel C ρ P node node')
    {base du : Expr} (hx : P x) (hbase : P base) (hdu : P du) :
    C.Image (rename ρ) P (Reduction.logarithmRule node x base du)
      (Reduction.logarithmRule node' (x.rename ρ) (base.rename ρ) (du.rename ρ)) := by
  refine image_bind (hnode.invert hP hx) fun inverse hinverse => ?_
  refine image_bind (hnode.naturalLogarithm hP hbase) fun l hl => ?_
  refine image_bind (hnode.invert hP hl) fun scale hscale => ?_
  exact hnode.multiply (List.forall_mem_cons.mpr ⟨hdu, forall_mem_pair hinverse hscale⟩)

/-! ## Derivatives -/

/-- The derivatives of a tree in two runs. -/
def Derived (C : Comparison) (ρ : String → String) (P : Expr → Prop) (ctx ctx' : Context)
    (node node' : NodeReducer) (name : String) (x : Expr) : Prop :=
  C.Image (Option.map (rename ρ)) (IfAny P) (Reduction.derivative? ctx node name x)
    (Reduction.derivative? ctx' node' (ρ name) (x.rename ρ))

theorem derived_some {m m' : ReduceM Expr} (hm : C.Image (rename ρ) P m m') :
    C.Image (Option.map (rename ρ)) (IfAny P) (do return some (← m)) (do return some (← m')) :=
  image_bind hm fun _ hd => C.pure ⟨ifAny_some hd, rfl⟩

theorem derived_none :
    C.Image (Option.map (rename ρ)) (IfAny P) (pure none) (pure none) :=
  C.pure ⟨nofun, rfl⟩

/-- A derivative that depends on that of an operand. -/
theorem derived_bind {k k' : Expr → ReduceM Expr}
    (hx : Derived C ρ P ctx ctx' node node' name x)
    (hk : ∀ d, P d → C.Image (rename ρ) P (k d) (k' (d.rename ρ))) :
    C.Image (Option.map (rename ρ)) (IfAny P)
      (do match ← Reduction.derivative? ctx node name x with
        | some d => return some (← k d)
        | none => return none)
      (do match ← Reduction.derivative? ctx' node' (ρ name) (x.rename ρ) with
        | some d => return some (← k' d)
        | none => return none) := by
  refine image_bind hx fun d hd => ?_
  cases d with
  | none => exact derived_none
  | some d => exact derived_some (hk d (hd d rfl))

theorem derivatives?_image (hxs : ∀ x ∈ xs, Derived C ρ P ctx ctx' node node' name x) :
    C.Image (Option.map (List.map (rename ρ))) (fun ds => ∀ ys ∈ ds, ∀ y ∈ ys, P y)
      (Reduction.derivatives? ctx node name xs)
      (Reduction.derivatives? ctx' node' (ρ name) (xs.map (rename ρ))) := by
  induction xs with
  | nil =>
      rw [List.map_nil, Reduction.derivatives?, Reduction.derivatives?]
      refine C.pure ⟨?_, rfl⟩
      rintro _ ⟨⟩
      exact List.forall_mem_nil _
  | cons x xs ih =>
      rw [List.map_cons, Reduction.derivatives?, Reduction.derivatives?]
      refine image_bind (hxs x List.mem_cons_self) fun d hd => ?_
      cases d with
      | none => exact C.pure ⟨nofun, rfl⟩
      | some d =>
          refine image_bind (ih fun y hy => hxs y (List.mem_cons_of_mem x hy)) fun ds hds =>
            C.pure ⟨?_, ?_⟩
          · intro ys hys
            rcases Option.map_eq_some_iff.mp hys with ⟨zs, hzs, rfl⟩
            exact List.forall_mem_cons.mpr ⟨hd d rfl, hds zs hzs⟩
          · cases ds <;> rfl

/-- A derivative that depends on those of all operands. -/
theorem derivatives?_bind {k k' : List Expr → ReduceM Expr}
    (hxs : ∀ x ∈ xs, Derived C ρ P ctx ctx' node node' name x)
    (hk : ∀ ds, (∀ d ∈ ds, P d) → C.Image (rename ρ) P (k ds) (k' (ds.map (rename ρ)))) :
    C.Image (Option.map (rename ρ)) (IfAny P)
      (do match ← Reduction.derivatives? ctx node name xs with
        | some ds => return some (← k ds)
        | none => return none)
      (do match ← Reduction.derivatives? ctx' node' (ρ name) (xs.map (rename ρ)) with
        | some ds => return some (← k' ds)
        | none => return none) := by
  refine image_bind (derivatives?_image hxs) fun ds hds => ?_
  cases ds with
  | none => exact derived_none
  | some ds => exact derived_some (hk ds (hds ds rfl))

theorem Respects.derived_function (hP : Respects ρ P) (hnode : Parallel C ρ P node node')
    (hsettings : ctx'.settings = ctx.settings) (hx : P (.apply f [x]))
    (hderived : f.isOrdinary = true → Derived C ρ P ctx ctx' node node' name x) :
    C.Image (Option.map (rename ρ)) (IfAny P)
      (match Reduction.outerDerivative? node f x with
        | none => return none
        | some outer => do
          match ← Reduction.derivative? ctx node name x with
          | some du => return some (← Reduction.chainRule ctx node f outer du)
          | none => return none)
      (match Reduction.outerDerivative? node' f (x.rename ρ) with
        | none => return none
        | some outer => do
          match ← Reduction.derivative? ctx' node' (ρ name) (x.rename ρ) with
          | some du => return some (← Reduction.chainRule ctx' node' f outer du)
          | none => return none) := by
  by_cases hf : f.isOrdinary = true
  · have hoperand := hP.operand hf hx x List.mem_cons_self
    rcases hP.outerDerivative? (f := f) hnode hoperand with
      ⟨hnone, hnone'⟩ | ⟨m, m', hsome, hsome', hm⟩
    · rw [hnone, hnone']
      exact derived_none
    · rw [hsome, hsome']
      exact derived_bind (hderived hf) fun du hdu => hP.chainRule hnode hsettings hm hdu
  · have hnone : ∀ node y, Reduction.outerDerivative? node f y = none := by
      intro node y
      cases hsome : Reduction.outerDerivative? node f y with
      | none => rfl
      | some m => exact absurd (isOrdinary_of_outerDerivative? hsome) hf
    rw [hnone, hnone]
    exact derived_none

theorem Respects.derived_apply (hP : Respects ρ P) (hnode : Parallel C ρ P node node')
    (hsettings : ctx'.settings = ctx.settings) (hname : KeepsMentions ρ P name)
    (hx : P (.apply f xs))
    (hderived : f.isOrdinary = true → ∀ y ∈ xs, Derived C ρ P ctx ctx' node node' name y) :
    Derived C ρ P ctx ctx' node node' name (.apply f xs) := by
  have hmentions : mentionsAny (ρ name) (xs.map (rename ρ)) = mentionsAny name xs := by
    have hwhole := hname _ hx
    rwa [rename_apply, mentions, mentions] at hwhole
  rw [Derived, rename_apply, Reduction.derivative?.eq_def, Reduction.derivative?.eq_def]
  dsimp only
  rw [hmentions]
  split
  · exact C.pure ⟨ifAny_some (hP.integer 0), rfl⟩
  · cases f with
    | addition => exact derivatives?_bind (hderived rfl) fun ds hds => hnode.add hds
    | multiplication =>
        refine image_bind (derivatives?_image (hderived rfl)) fun ds hds => ?_
        cases ds with
        | none => exact derived_none
        | some ds =>
            refine image_bind (productRule_image hnode (List.forall_mem_nil _) (hP.operand rfl hx)
              (hds ds rfl)) fun terms hterms => ?_
            exact derived_some (hnode.add hterms)
    | power =>
        have hoperands := hP.operand rfl hx
        match xs with
        | [] => exact derived_none
        | [x] => exact derived_none
        | [base, exponent] =>
            refine image_bind (hderived rfl base (by simp)) fun db hdb => ?_
            cases db with
            | none => exact derived_none
            | some db =>
                refine image_bind (hderived rfl exponent (by simp)) fun dp hdp => ?_
                cases dp with
                | none => exact derived_none
                | some dp =>
                    exact derived_some (hP.powerRule hnode hname (hoperands base (by simp))
                      (hoperands exponent (by simp)) (hdb db rfl) (hdp dp rfl))
        | _ :: _ :: _ :: _ => exact derived_none
    | logarithm =>
        have hoperands := hP.operand rfl hx
        match xs with
        | [] => exact derived_none
        | [x] => exact derived_none
        | [u, base] =>
            have hbase := hname base (hoperands base (by simp))
            simp only [List.map_cons, List.map_nil, hbase]
            split
            · exact derived_none
            · refine derived_bind (hderived rfl u (by simp)) fun du hdu => ?_
              exact hP.logarithmRule hnode (hoperands u (by simp)) (hoperands base (by simp)) hdu
        | _ :: _ :: _ :: _ => exact derived_none
    | _ =>
        match xs with
        | [] => exact derived_none
        | [x] => exact hP.derived_function hnode hsettings hx fun hf => hderived hf x (by simp)
        | _ :: _ :: _ => exact derived_none

theorem Respects.derivative? (hP : Respects ρ P) (hnode : Parallel C ρ P node node')
    (hsettings : ctx'.settings = ctx.settings) (hname : KeepsMentions ρ P name) :
    ∀ x, P x → Derived C ρ P ctx ctx' node node' name x
  | .apply f xs, hx => hP.derived_apply hnode hsettings hname hx fun hf y hy =>
      hP.derivative? hnode hsettings hname y (hP.operand hf hx y hy)
  | .symbol other, hx => by
      have hother : (ρ other == ρ name) = (other == name) := hname _ hx
      have hiff : ρ other = ρ name ↔ other = name := by
        rw [← beq_iff_eq, hother, beq_iff_eq]
      rw [Derived, rename_symbol, Reduction.derivative?, Reduction.derivative?]
      simp only [hiff]
      exact C.pure ⟨ifAny_some (hP.integer _), rfl⟩
  | .rational _, _ | .decimal _, _ | .infinity _, _ | .constant _, _ =>
      C.pure ⟨ifAny_some (hP.integer 0), rfl⟩
termination_by x => x.size
decreasing_by exact size_lt_of_mem hy

end Reduction

end PocketAlgebra
