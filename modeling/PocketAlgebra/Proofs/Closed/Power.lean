import PocketAlgebra.Proofs.Closed.Basic
import PocketAlgebra.Reduction.Logarithm
import PocketAlgebra.Reduction.Power

/-!
# Powers, roots and logarithms keep properties

The rules for powers either keep the power, or build on the operands of its base and exponent
through reduced nodes.
-/

namespace PocketAlgebra

namespace Reduction

open PocketAlgebra.Expr Shape

variable {side : Nat → Prop} {P : Expr → Prop} {node : NodeReducer} {ctx : Context} {x y : Expr}
  {xs ys : List Expr}

namespace Composed

/-! ## Powers of numbers -/

theorem radical (hP : Composed side P) {base exponent : Rat} {r : Radical} (hbase : 0 < base)
    (hint : exponent.isInt = false) (hden : exponent.den < UInt32.size)
    (h : radical? base exponent = some r) : P r.toExpr := by
  rw [Radical.toExpr]
  split
  · exact hP.rational _
  · rename_i hone
    exact hP.multiple _ (hP.root hbase hint hden h hone) Kind.noConfusion Kind.noConfusion

theorem imaginaryUnitPower (hP : Composed side P) (hnode : Keeps P node) (hi : P .i) (n : Int) :
    Yields (Reduction.imaginaryUnitPower node n) P := by
  rw [Reduction.imaginaryUnitPower]
  split
  · exact Yields.pure (hP.integer 1)
  · exact Yields.pure hi
  · exact Yields.pure (hP.integer (-1))
  · exact hnode.negate hP hi

/-- Outside the real format there is the imaginary unit. -/
theorem negativeBasePower (hP : Composed side P) (hnode : Keeps P node)
    (hunit : ctx.settings.complexFormat ≠ .real → P .i) (base exponent : Rat) :
    Yields (Reduction.negativeBasePower ctx node base exponent)
      (OrKept P (rawPower (.rational base) (.rational exponent))) := by
  have hroot : Yields (Reduction.power node (.rational (-base)) (.rational exponent)) P :=
    hnode.power (hP.rational _) (hP.rational _)
  rw [Reduction.negativeBasePower]
  split
  · split
    · exact Yields.pure (.inr hP.nonreal)
    · rename_i hreal
      split
      · exact Yields.kept P _
      · refine (hnode.power (hunit hreal) (hP.integer _)).bind fun rotation hrotation => ?_
        exact hroot.bind fun root hroot =>
          (hnode.multiply (forall_mem_pair hrotation hroot)).orKept
  · split
    · exact Yields.kept P _
    · exact hroot.bind fun root hroot =>
        (hnode.multiply (forall_mem_pair (hP.integer _) hroot)).orKept

theorem rationalPower (hP : Composed side P) (hnode : Keeps P node)
    (hunit : ctx.settings.complexFormat ≠ .real → P .i) {base : Rat} (hbase : base ≠ 0)
    (exponent : Rat) :
    Yields (Reduction.rationalPower ctx node base exponent)
      (OrKept P (rawPower (.rational base) (.rational exponent))) := by
  rw [Reduction.rationalPower]
  split
  · cases wholePower? base exponent.num with
    | none => exact Yields.kept P _
    | some value => exact Yields.pure (.inr (hP.rational value))
  · rename_i hint
    split
    · exact Yields.kept P _
    · rename_i hden
      split
      · exact hP.negativeBasePower hnode hunit base exponent
      · rename_i hsign
        cases hradical : radical? base exponent with
        | none => exact Yields.kept P _
        | some r =>
            exact Yields.pure (.inr (hP.radical (lt_of_le_of_ne (not_lt.mp hsign) hbase.symm)
              (Bool.not_eq_true _ ▸ hint) (not_le.mp hden) hradical))

theorem infinitePower (hP : Composed side P) (negative : Bool) (exponent : Rat) :
    OrKept P (rawPower (.infinity negative) (.rational exponent))
      (Reduction.infinitePower negative exponent) := by
  rw [Reduction.infinitePower]
  split
  · exact .inr (hP.integer 0)
  · split
    · exact .inr (hP.infinity _)
    · rename_i hnegative
      obtain rfl : negative = true := by simpa using hnegative
      split
      · exact .inr (hP.infinity _)
      · exact .inl rfl

theorem logarithmicPower? (hP : Composed side P) (hy : P y) {z : Expr}
    (h : Reduction.logarithmicPower? x y = some z) : P z := by
  rw [Reduction.logarithmicPower?.eq_def] at h
  split at h
  · split at h
    · cases h
      exact hP.operand hy List.mem_cons_self
    · cases h
  · cases h

theorem symbolicPower (hP : Composed side P) (hnode : Keeps P node) (hx : P x) (hy : P y) :
    Yields (Reduction.symbolicPower node x y) (OrKept P (rawPower x y)) :=
  hP.arithmetic.symbolicPower hnode.arithmetic hx hy fun _ => hP.logarithmicPower? hy

theorem powerOfScalars (hP : Composed side P) (hnode : Keeps P node)
    (hunit : ctx.settings.complexFormat ≠ .real → P .i) (hx : P x) (hy : P y) :
    Yields (Reduction.powerOfScalars ctx node x y) (OrKept P (rawPower x y)) := by
  have hsymbolic := hP.symbolicPower hnode hx hy
  rw [Reduction.powerOfScalars]
  split
  · refine Yields.pure (.inr ?_)
    split
    · exact hP.undefined
    · exact hP.integer 1
  · split
    · exact Yields.pure (.inr hx)
    · split
      · split
        · exact Yields.pure (.inr (hP.integer 0))
        · exact Yields.pure (.inr hP.undefined)
        · exact Yields.pure (.inr hP.undefined)
        · exact Yields.kept P _
      · rename_i hzero
        split
        · exact Yields.pure (.inr (hP.integer 1))
        · rw [properPower.eq_def]
          split
          · exact hP.rationalPower hnode hunit (fun h => hzero (by rw [h]; rfl)) _
          · exact Yields.pure (hP.infinitePower _ _)
          · split
            · exact (hP.imaginaryUnitPower hnode hx _).orKept
            · exact hsymbolic
          · exact hsymbolic

/-! ## Roots with an index -/

theorem squareRoot (hP : Composed side P) (hnode : Keeps P node) (hxs : ∀ x ∈ xs, P x) :
    Yields (Reduction.squareRoot node xs) P := by
  rw [Reduction.squareRoot.eq_def]
  split
  · exact hnode.power (hxs _ List.mem_cons_self) (hP.rational _)
  · exact Yields.pure hP.undefined

theorem rootExponent? (hP : Composed side P) (hnode : Keeps P node) (hx : P x) :
    Yields (Reduction.rootExponent? node x) fun exponent => ∀ y ∈ exponent, P y := by
  rw [Reduction.rootExponent?.eq_def]
  split
  · refine Yields.pure ?_
    split
    · rintro _ ⟨⟩
    · rintro _ ⟨⟩
      exact hP.rational _
  · refine (hnode.invert hP hx).bind fun y hy => Yields.pure ?_
    rintro _ ⟨⟩
    exact hy

theorem nthRoot (hP : Composed side P) (hnode : Keeps P node) (hxs : ∀ x ∈ xs, P x) :
    Yields (Reduction.nthRoot node xs) P := by
  rw [Reduction.nthRoot.eq_def]
  split
  · rename_i radicand index others
    refine (hP.rootExponent? hnode (hxs index (by simp))).bind fun exponent hexponent => ?_
    split
    · exact hnode.power (hxs radicand (by simp)) (hexponent _ rfl)
    · exact Yields.pure hP.undefined
  · exact Yields.pure hP.undefined

/-! ## Logarithms -/

theorem infiniteLogarithm? (hP : Composed side P) {z : Expr}
    (h : Reduction.infiniteLogarithm? x = some z) : P z := by
  rw [Reduction.infiniteLogarithm?.eq_def] at h
  split at h
  · split at h
    · cases h
      exact hP.infinity _
    · cases h
  · cases h
    exact hP.infinity _
  · cases h

theorem logarithmOfPower? (hP : Composed side P) (hnode : Keeps P node) (hx : P x) (hy : P y)
    {m : ReduceM Expr} (h : Reduction.logarithmOfPower? node x y = some m) : Yields m P := by
  rw [Reduction.logarithmOfPower?.eq_def] at h
  split at h
  · rename_i argument exponent
    split at h
    · cases h
      have hargument : P argument := hP.operand hx (by simp)
      have hexponent : P exponent := hP.operand hx (by simp)
      refine (hnode .logarithm [argument, y] rfl (by simp [hargument, hy])).bind fun z hz => ?_
      exact hnode.multiply (by simp [hexponent, hz])
    · cases h
  · cases h

theorem properLogarithm (hP : Composed side P) (hnode : Keeps P node) (hx : P x) (hy : P y) :
    Yields (Reduction.properLogarithm ctx node x y) (OrKept P (.apply .logarithm [x, y])) := by
  rw [Reduction.properLogarithm]
  split
  · exact Yields.pure (.inr hP.nonreal)
  · split
    · exact Yields.pure (.inr (hP.integer _))
    · dsimp only
      split
      · rename_i hresult
        split at hresult
        · exact Yields.pure (.inr (hP.infiniteLogarithm? hresult))
        · cases hresult
      · cases hpower : Reduction.logarithmOfPower? node x y with
        | none => exact Yields.kept P _
        | some m => exact (hP.logarithmOfPower? hnode hx hy hpower).orKept

theorem logarithmOf (hP : Composed side P) (hnode : Keeps P node) (hxs : ∀ x ∈ xs, P x) :
    Yields (Reduction.logarithm ctx node xs) (OrKept P (.apply .logarithm (xs.take 2))) := by
  rw [Reduction.logarithm.eq_def]
  split
  · split
    · exact Yields.pure (.inr hP.undefined)
    · split
      · exact Yields.pure (.inr hP.undefined)
      · split
        · exact Yields.pure (.inr (hP.integer 0))
        · split
          · exact Yields.pure (.inr (hP.integer 1))
          · exact hP.properLogarithm hnode (hxs _ (by simp)) (hxs _ (by simp))
  · exact Yields.pure (.inr hP.undefined)

theorem logarithmInBase (hP : Composed side P) (hnode : Keeps P node) (hy : P y)
    (hxs : ∀ x ∈ xs, P x) : Yields (Reduction.logarithmInBase node y xs) P := by
  rw [Reduction.logarithmInBase.eq_def]
  split
  · exact hnode .logarithm _ rfl (by simp [hy, hxs _ List.mem_cons_self])
  · exact Yields.pure hP.undefined

end Composed

end Reduction

end PocketAlgebra
