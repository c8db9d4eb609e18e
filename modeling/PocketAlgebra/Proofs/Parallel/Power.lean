import PocketAlgebra.Proofs.Parallel.Arithmetic

/-!
# Powers, roots and logarithms side by side

The rules for powers look at numbers and signs, and at what stands at the top of base and exponent,
which is the same under other names.
-/

namespace PocketAlgebra

namespace Reduction

open PocketAlgebra.Expr Shape Comparison

variable {C : Comparison} {ρ : String → String} {P : Expr → Prop} {node node' : NodeReducer}
  {ctx ctx' : Context} {x y : Expr} {xs ys : List Expr}

/-! ## Powers of numbers -/

theorem Respects.radical (hP : Respects ρ P) (r : Radical) :
    P r.toExpr ∧ r.toExpr.rename ρ = r.toExpr := by
  rw [Radical.toExpr]
  have hroot : ∀ base exponent : Rat, P (.apply .power [.rational base, .rational exponent]) :=
    fun base exponent => hP.two rfl (hP.rational _) (hP.rational _)
  split
  · exact ⟨hP.rational _, rfl⟩
  · dsimp only
    split
    · exact ⟨hroot _ _, by simp⟩
    · exact ⟨hP.two rfl (hP.rational _) (hroot _ _), by simp⟩

theorem Respects.rawPower (hP : Respects ρ P) (hx : P x) (hy : P y) :
    C.Image (rename ρ) P (pure (Reduction.rawPower x y))
      (pure (Reduction.rawPower (x.rename ρ) (y.rename ρ))) :=
  C.pure ⟨hP.two rfl hx hy, by simp [Reduction.rawPower]⟩

theorem Respects.imaginaryUnitPower (hP : Respects ρ P) (hnode : Parallel C ρ P node node')
    (n : Int) : C.Image (rename ρ) P (Reduction.imaginaryUnitPower node n)
      (Reduction.imaginaryUnitPower node' n) := by
  rw [Reduction.imaginaryUnitPower, Reduction.imaginaryUnitPower]
  split
  · exact hP.renamed_integer 1
  · exact image_pure hP.i
  · exact hP.renamed_integer (-1)
  · exact hnode.negate hP hP.i

theorem Respects.negativeBasePower (hP : Respects ρ P) (hnode : Parallel C ρ P node node')
    (hsettings : ctx'.settings = ctx.settings) (base exponent : Rat) :
    C.Image (rename ρ) P (Reduction.negativeBasePower ctx node base exponent)
      (Reduction.negativeBasePower ctx' node' base exponent) := by
  have hkept : C.Image (rename ρ) P
      (pure (Reduction.rawPower (.rational base) (.rational exponent)))
      (pure (Reduction.rawPower (.rational base) (.rational exponent))) :=
    hP.rawPower (hP.rational base) (hP.rational exponent)
  have hroot : C.Image (rename ρ) P (power node (.rational (-base)) (.rational exponent))
      (power node' (.rational (-base)) (.rational exponent)) :=
    hnode.power (hP.rational _) (hP.rational _)
  rw [Reduction.negativeBasePower, Reduction.negativeBasePower, hsettings]
  split
  · split
    · exact hP.renamed_nonreal
    · split
      · exact hkept
      · refine image_bind (hnode.power hP.i (hP.integer _)) fun rotation hrotation => ?_
        exact image_bind hroot fun root hroot => hnode.multiply (forall_mem_pair hrotation hroot)
  · split
    · exact hkept
    · exact image_bind hroot fun root hroot => hnode.multiply (forall_mem_pair (hP.integer _) hroot)

theorem Respects.rationalPower (hP : Respects ρ P) (hnode : Parallel C ρ P node node')
    (hsettings : ctx'.settings = ctx.settings) (base exponent : Rat) :
    C.Image (rename ρ) P (Reduction.rationalPower ctx node base exponent)
      (Reduction.rationalPower ctx' node' base exponent) := by
  have hkept : C.Image (rename ρ) P
      (pure (Reduction.rawPower (.rational base) (.rational exponent)))
      (pure (Reduction.rawPower (.rational base) (.rational exponent))) :=
    hP.rawPower (hP.rational base) (hP.rational exponent)
  rw [Reduction.rationalPower, Reduction.rationalPower]
  split
  · cases wholePower? base exponent.num with
    | none => exact hkept
    | some value => exact hP.renamed_rational value
  · split
    · exact hkept
    · split
      · exact hP.negativeBasePower hnode hsettings base exponent
      · cases radical? base exponent with
        | none => exact hkept
        | some r => exact C.pure ⟨(hP.radical r).1, (hP.radical r).2.symm⟩

theorem Respects.infinitePower (hP : Respects ρ P) (negative : Bool) (exponent : Rat) :
    C.Image (rename ρ) P (pure (Reduction.infinitePower negative exponent))
      (pure (Reduction.infinitePower negative exponent)) := by
  rw [Reduction.infinitePower]
  split
  · exact hP.renamed_integer 0
  · split
    · exact hP.renamed_infinity _
    · split
      · exact hP.renamed_infinity _
      · exact hP.rawPower (hP.infinity _) (hP.rational _)

/-! ## Powers of compound expressions -/

theorem Respects.multiplyOut (hP : Respects ρ P) (hnode : Parallel C ρ P node node') (hx : P x)
    (hys : ∀ y ∈ ys, P y) :
    C.Image (rename ρ) P (Reduction.multiplyOut node x ys)
      (Reduction.multiplyOut node' (x.rename ρ) (ys.map (rename ρ))) := by
  rw [Reduction.multiplyOut, Reduction.multiplyOut, flatten_rename, List.mapM_map]
  refine image_bind (g := List.map (List.map (rename ρ)))
    (P := fun products => ∀ row ∈ products, ∀ z ∈ row, P z)
    (image_mapM fun a ha => ?_) fun products hproducts => ?_
  · rw [Function.comp_apply, List.mapM_map]
    refine image_mapM fun b hb => ?_
    exact hnode.multiply (forall_mem_pair (hP.flatten rfl x hx a ha) (hys b hb))
  · rw [← List.map_flatten]
    refine hnode.add fun z hz => ?_
    rcases List.mem_flatten.mp hz with ⟨row, hrow, hz⟩
    exact hproducts row hrow z hz

theorem Respects.expandPower (hP : Respects ρ P) (hnode : Parallel C ρ P node node')
    (hxs : ∀ x ∈ xs, P x) (times : Nat) (hy : P y) :
    C.Image (rename ρ) P (Reduction.expandPower node xs times y)
      (Reduction.expandPower node' (xs.map (rename ρ)) times (y.rename ρ)) := by
  induction times generalizing y with
  | zero => exact image_pure hy
  | succ times ih => exact image_bind (hP.multiplyOut hnode hy hxs) fun z hz => ih hz

theorem Respects.compoundPower? (hP : Respects ρ P) (hnode : Parallel C ρ P node node') (hx : P x)
    (n : Int) : C.Both (rename ρ) P (Reduction.compoundPower? node x n)
      (Reduction.compoundPower? node' (x.rename ρ) n) := by
  cases x with
  | apply f xs =>
      rw [rename_apply]
      by_cases hproduct : f = .multiplication
      · subst hproduct
        have hxs := hP.operand rfl hx
        rw [Reduction.compoundPower?, Reduction.compoundPower?, flattenAll_rename, List.mapM_map]
        refine both_some (image_bind (image_mapM fun y hy => ?_) fun powers hpowers =>
          hnode.multiply hpowers)
        exact hnode.power (hP.flattenAll rfl hxs y hy) (hP.integer n)
      · by_cases hsum : f = .addition
        · subst hsum
          have hexpanded := hP.expandPower hnode (hP.operand rfl hx) (n.toNat - 1) hx
          rw [rename_apply] at hexpanded
          rw [Reduction.compoundPower?, Reduction.compoundPower?]
          split
          · exact both_some hexpanded
          · exact both_none
        · have hnone : ∀ node ys, Reduction.compoundPower? node (.apply f ys) n = none := by
            intro node ys
            simp [Reduction.compoundPower?, hproduct, hsum]
          rw [hnone, hnone]
          exact both_none
  | _ => exact both_none

theorem Respects.nestedPower? (hP : Respects ρ P) (hnode : Parallel C ρ P node node') (hx : P x)
    (hy : P y) : C.Both (rename ρ) P (Reduction.nestedPower? node x y)
      (Reduction.nestedPower? node' (x.rename ρ) (y.rename ρ)) := by
  cases x with
  | apply f xs =>
      rw [rename_apply]
      by_cases hf : f = .power
      · subst hf
        have hxs := hP.operand rfl hx
        have hhead : ((xs.map (rename ρ)).head?.any (·.sign == .positive)) =
            xs.head?.any (·.sign == .positive) := by
          cases xs with
          | nil => rfl
          | cons x xs => simp
        simp only [Reduction.nestedPower?, integer?_rename, hhead]
        split
        · match xs, hxs with
          | [], _ | [_], _ | _ :: _ :: _ :: _, _ => exact both_some hP.renamed_undefined
          | [inner, innerExponent], hxs =>
              refine both_some (image_bind (hnode.multiply
                (forall_mem_pair (hxs innerExponent (by simp)) hy)) fun z hz => ?_)
              exact hnode.power (hxs inner (by simp)) hz
        · exact both_none
      · have hnone : ∀ node ys z, Reduction.nestedPower? node (.apply f ys) z = none := by
          intro node ys z
          simp [Reduction.nestedPower?, hf]
        rw [hnone, hnone]
        exact both_none
  | _ => exact both_none

theorem Respects.logarithmicPower? (hP : Respects ρ P) (hx : P x) (hy : P y) :
    (∀ z ∈ Reduction.logarithmicPower? x y, P z) ∧
      Reduction.logarithmicPower? (x.rename ρ) (y.rename ρ) =
        (Reduction.logarithmicPower? x y).map (rename ρ) := by
  cases y with
  | apply f xs =>
      rw [rename_apply]
      by_cases hf : f = .logarithm
      · subst hf
        have hxs := hP.operand rfl hy
        match xs with
        | [] | [_] => exact ⟨nofun, rfl⟩
        | argument :: base :: others =>
            have hsame := hP.same (hxs base (by simp)) hx
            simp only [Reduction.logarithmicPower?, List.map_cons, hsame]
            split
            · refine ⟨?_, rfl⟩
              rintro _ ⟨⟩
              exact hxs argument (by simp)
            · exact ⟨nofun, rfl⟩
      · have hnone : ∀ x ys, Reduction.logarithmicPower? x (.apply f ys) = none := by
          intro x ys
          simp [Reduction.logarithmicPower?, hf]
        rw [hnone, hnone]
        exact ⟨nofun, rfl⟩
  | _ => exact ⟨nofun, rfl⟩

theorem Respects.symbolicPower (hP : Respects ρ P) (hnode : Parallel C ρ P node node') (hx : P x)
    (hy : P y) : C.Image (rename ρ) P (Reduction.symbolicPower node x y)
      (Reduction.symbolicPower node' (x.rename ρ) (y.rename ρ)) := by
  have hcompound : C.Both (rename ρ) P (y.integer?.bind (Reduction.compoundPower? node x))
      (y.integer?.bind (Reduction.compoundPower? node' (x.rename ρ))) := by
    cases y.integer? with
    | none => exact both_none
    | some n => exact hP.compoundPower? hnode hx n
  have hlogarithmic := hP.logarithmicPower? hx hy
  rw [Reduction.symbolicPower, Reduction.symbolicPower, integer?_rename]
  rcases hP.nestedPower? hnode hx hy with ⟨hnone, hnone'⟩ | ⟨m, m', hsome, hsome', hresult⟩
  · rw [hnone, hnone']
    rcases hcompound with ⟨hnone, hnone'⟩ | ⟨m, m', hsome, hsome', hresult⟩
    · rw [hnone, hnone', hlogarithmic.2]
      cases hargument : Reduction.logarithmicPower? x y with
      | none => exact hP.rawPower hx hy
      | some argument => exact image_pure (hlogarithmic.1 argument hargument)
    · rw [hsome, hsome']
      exact hresult
  · rw [hsome, hsome']
    exact hresult

theorem Respects.properPower (hP : Respects ρ P) (hnode : Parallel C ρ P node node')
    (hsettings : ctx'.settings = ctx.settings) (hx : P x) (hy : P y) :
    C.Image (rename ρ) P (Reduction.properPower ctx node x y)
      (Reduction.properPower ctx' node' (x.rename ρ) (y.rename ρ)) := by
  have hsymbolic := hP.symbolicPower hnode hx hy
  cases x with
  | rational b =>
      cases y with
      | rational q => exact hP.rationalPower hnode hsettings b q
      | apply f ys =>
          rw [rename_apply] at hsymbolic ⊢
          exact hsymbolic
      | _ => exact hsymbolic
  | infinity negative =>
      cases y with
      | rational q => exact hP.infinitePower negative q
      | apply f ys =>
          rw [rename_apply] at hsymbolic ⊢
          exact hsymbolic
      | _ => exact hsymbolic
  | constant c =>
      cases c with
      | imaginaryUnit =>
          simp only [rename_constant, Reduction.properPower, integer?_rename]
          cases y.integer? with
          | none => exact hsymbolic
          | some n => exact hP.imaginaryUnitPower hnode n
      | _ => exact hsymbolic
  | apply f ys =>
      rw [rename_apply] at hsymbolic ⊢
      exact hsymbolic
  | _ => exact hsymbolic

theorem Respects.powerOfScalars (hP : Respects ρ P) (hnode : Parallel C ρ P node node')
    (hsettings : ctx'.settings = ctx.settings) (hx : P x) (hy : P y) :
    C.Image (rename ρ) P (Reduction.powerOfScalars ctx node x y)
      (Reduction.powerOfScalars ctx' node' (x.rename ρ) (y.rename ρ)) := by
  simp only [Reduction.powerOfScalars, isRational_rename, kind_rename, sign_rename]
  split
  · split
    · exact hP.renamed_undefined
    · exact hP.renamed_integer 1
  · split
    · exact image_pure hx
    · split
      · cases y.sign with
        | positive => exact hP.renamed_integer 0
        | negative => exact hP.renamed_undefined
        | null => exact hP.renamed_undefined
        | unknown => exact hP.rawPower hx hy
      · split
        · exact hP.renamed_integer 1
        · exact hP.properPower hnode hsettings hx hy

/-! ## Roots with an index -/

theorem Respects.squareRoot (hP : Respects ρ P) (hnode : Parallel C ρ P node node')
    (hxs : ∀ x ∈ xs, P x) :
    C.Image (rename ρ) P (Reduction.squareRoot node xs)
      (Reduction.squareRoot node' (xs.map (rename ρ))) := by
  cases xs with
  | nil => exact hP.renamed_undefined
  | cons radicand others => exact hnode.power (hxs _ List.mem_cons_self) (hP.rational _)

theorem Respects.rootExponent? (hP : Respects ρ P) (hnode : Parallel C ρ P node node')
    (hx : P x) : C.Image (Option.map (rename ρ)) (fun exponent => ∀ y ∈ exponent, P y)
      (Reduction.rootExponent? node x) (Reduction.rootExponent? node' (x.rename ρ)) := by
  have hinverse : C.Image (Option.map (rename ρ)) (fun exponent => ∀ y ∈ exponent, P y)
      (do return some (← Reduction.invert node x))
      (do return some (← Reduction.invert node' (x.rename ρ))) := by
    refine image_bind (hnode.invert hP hx) fun y hy => C.pure ⟨?_, rfl⟩
    rintro _ ⟨⟩
    exact hy
  cases x with
  | rational q =>
      refine C.pure ⟨?_, ?_⟩
      · split
        · nofun
        · rintro _ ⟨⟩
          exact hP.rational _
      · split <;> rfl
  | apply f ys =>
      rw [rename_apply] at hinverse ⊢
      exact hinverse
  | _ => exact hinverse

theorem Respects.nthRoot (hP : Respects ρ P) (hnode : Parallel C ρ P node node')
    (hxs : ∀ x ∈ xs, P x) :
    C.Image (rename ρ) P (Reduction.nthRoot node xs)
      (Reduction.nthRoot node' (xs.map (rename ρ))) := by
  match xs with
  | [] | [_] => exact hP.renamed_undefined
  | radicand :: index :: others =>
      refine image_bind (hP.rootExponent? hnode (hxs index (by simp))) fun exponent hexponent => ?_
      cases exponent with
      | none => exact hP.renamed_undefined
      | some exponent => exact hnode.power (hxs radicand (by simp)) (hexponent _ rfl)

/-! ## Logarithms -/

theorem infiniteLogarithm?_rename (ρ : String → String) (x : Expr) :
    infiniteLogarithm? (x.rename ρ) = infiniteLogarithm? x := by
  cases x with
  | apply f xs => rw [rename_apply]; rfl
  | _ => rfl

theorem Respects.infiniteLogarithm? (hP : Respects ρ P)
    (h : Reduction.infiniteLogarithm? x = some y) : C.Image (rename ρ) P (pure y) (pure y) := by
  rw [Reduction.infiniteLogarithm?.eq_def] at h
  split at h
  · split at h
    · cases h
      exact hP.renamed_infinity _
    · cases h
  · cases h
    exact hP.renamed_infinity _
  · cases h

theorem Respects.logarithmOfPower? (hP : Respects ρ P) (hnode : Parallel C ρ P node node')
    (hx : P x) (hy : P y) : C.Both (rename ρ) P (Reduction.logarithmOfPower? node x y)
      (Reduction.logarithmOfPower? node' (x.rename ρ) (y.rename ρ)) := by
  cases x with
  | apply f xs =>
      rw [rename_apply]
      by_cases hf : f = .power
      · subst hf
        have hxs := hP.operand rfl hx
        match xs with
        | [] | [_] | _ :: _ :: _ :: _ => exact both_none
        | [argument, exponent] =>
            simp only [List.map_cons, List.map_nil, Reduction.logarithmOfPower?, sign_rename]
            split
            · refine both_some (image_bind (hnode .logarithm [argument, y] rfl
                (forall_mem_pair (hxs argument (by simp)) hy)) fun z hz => ?_)
              exact hnode.multiply (forall_mem_pair (hxs exponent (by simp)) hz)
            · exact both_none
      · have hnone : ∀ node ys z, Reduction.logarithmOfPower? node (.apply f ys) z = none := by
          intro node ys z
          simp [Reduction.logarithmOfPower?, hf]
        rw [hnone, hnone]
        exact both_none
  | _ => exact both_none

theorem Respects.properLogarithm (hP : Respects ρ P) (hnode : Parallel C ρ P node node')
    (hsettings : ctx'.settings = ctx.settings) (hx : P x) (hy : P y) :
    C.Image (rename ρ) P (Reduction.properLogarithm ctx node x y)
      (Reduction.properLogarithm ctx' node' (x.rename ρ) (y.rename ρ)) := by
  simp only [Reduction.properLogarithm, hsettings, sign_rename, rational?_rename,
    infinity?_rename, infiniteLogarithm?_rename]
  generalize (x.rational?.bind fun a => y.rational?.bind fun b => wholeLogarithm? a b) = whole
  split
  · exact hP.renamed_nonreal
  · cases whole with
    | some k => exact hP.renamed_integer k
    | none =>
        have hinfinite : ∀ z ∈ (if x.infinity? = some false then
            Reduction.infiniteLogarithm? y else none),
            C.Image (rename ρ) P (pure z) (pure z) := by
          intro z hz
          split at hz
          · exact hP.infiniteLogarithm? hz
          · cases hz
        cases hresult : (if x.infinity? = some false then
            Reduction.infiniteLogarithm? y else none) with
        | some result => exact hinfinite result hresult
        | none =>
            rcases hP.logarithmOfPower? hnode hx hy with
              ⟨hnone, hnone'⟩ | ⟨m, m', hsome, hsome', hm⟩
            · rw [hnone, hnone']
              exact C.pure ⟨hP.two rfl hx hy, by simp⟩
            · rw [hsome, hsome']
              exact hm

theorem Respects.logarithm (hP : Respects ρ P) (hnode : Parallel C ρ P node node')
    (hsettings : ctx'.settings = ctx.settings) (hxs : ∀ x ∈ xs, P x) :
    C.Image (rename ρ) P (Reduction.logarithm ctx node xs)
      (Reduction.logarithm ctx' node' (xs.map (rename ρ))) := by
  match xs with
  | [] | [_] => exact hP.renamed_undefined
  | x :: base :: others =>
      have hx := hxs x (by simp)
      have hbase := hxs base (by simp)
      simp only [List.map_cons, Reduction.logarithm, rational?_rename, isRational_rename,
        hP.same hx hbase]
      split
      · exact hP.renamed_undefined
      · split
        · exact hP.renamed_undefined
        · split
          · exact hP.renamed_integer 0
          · split
            · exact hP.renamed_integer 1
            · exact hP.properLogarithm hnode hsettings hx hbase

theorem Respects.logarithmInBase (hP : Respects ρ P) (hnode : Parallel C ρ P node node')
    (hy : P y) (hbase : y.rename ρ = y) (hxs : ∀ x ∈ xs, P x) :
    C.Image (rename ρ) P (Reduction.logarithmInBase node y xs)
      (Reduction.logarithmInBase node' y (xs.map (rename ρ))) := by
  cases xs with
  | nil => exact hP.renamed_undefined
  | cons x others =>
      have hlogarithm := hnode .logarithm [x, y] rfl (forall_mem_pair (hxs x List.mem_cons_self) hy)
      rw [List.map_cons, List.map_cons, hbase] at hlogarithm
      exact hlogarithm

end Reduction

end PocketAlgebra
