import Mathlib.Algebra.GroupWithZero.Basic
import Mathlib.Algebra.Order.Ring.Rat
import PocketAlgebra.Proofs.Shape.Arithmetic
import PocketAlgebra.Reduction.Logarithm
import PocketAlgebra.Reduction.Power

/-!
# Canonical powers, roots and logarithms

A power that is kept has proper operands, so it may stand anywhere.  The only product that is
written here without being reduced is a rational number times a root, and that number is not zero
where the base is not.
-/

namespace PocketAlgebra

namespace Shape

open PocketAlgebra.Expr Reduction

variable {node : NodeReducer} {ctx : Context} {x y : Expr} {xs ys : List Expr}

theorem proper_rawPower (hx : Proper x) (hy : Proper y) : Proper (rawPower x y) :=
  proper_plain rfl (by simp [hx, hy])

/-- A rational number other than zero before a power, where one is left out. -/
theorem proper_multiple_of_power {c : Rat} (hc : c ≠ 0) (hx : Proper x) (hy : Proper y) :
    Proper (if c = 1 then .apply .power [x, y]
      else .apply .multiplication [.rational c, .apply .power [x, y]]) := by
  have hpower := proper_rawPower hx hy
  split
  · exact hpower
  · rename_i hone
    exact proper_coefficient hc hone (by simp)
      (List.forall_mem_singleton.mpr ⟨hpower, nofun, nofun, nofun⟩)

/-! ## Roots of rational numbers -/

theorem outside_divideOut {divisor step : Nat} {parts : RootParts} (hdivisor : divisor ≠ 0)
    (h : parts.outside ≠ 0) : (divideOut divisor step parts).outside ≠ 0 := by
  fun_induction divideOut divisor step parts with
  | case1 parts _ ih => exact ih (Nat.mul_ne_zero h hdivisor)
  | case2 => exact h

theorem outside_trialDivision {q count divisor : Nat} {parts : RootParts} (hdivisor : divisor ≠ 0)
    (h : parts.outside ≠ 0) : (trialDivision q count divisor parts).outside ≠ 0 := by
  induction count generalizing divisor parts with
  | zero => exact h
  | succ count ih =>
      rw [trialDivision]
      split
      · exact h
      · dsimp only
        split
        · exact h
        · exact ih (Nat.succ_ne_zero _) (outside_divideOut hdivisor h)

theorem outside_extractRoot {n q : Nat} (hn : n ≠ 0) (hq : q ≠ 0) :
    (extractRoot n q).outside ≠ 0 := by
  rw [extractRoot]
  split
  · rename_i hpower
    intro hzero
    rw [show floorRoot n q = 0 from hzero, Nat.pow_eq, Nat.zero_pow (Nat.pos_of_ne_zero hq)]
      at hpower
    exact hn hpower.symm
  · exact outside_trialDivision two_ne_zero one_ne_zero

theorem coefficient_radical? {base exponent : Rat} {r : Radical} (hbase : base ≠ 0)
    (h : radical? base exponent = some r) : r.coefficient ≠ 0 := by
  rw [radical?] at h
  dsimp only at h
  split at h
  · cases h
    have hpart : ∀ n : Nat, n ≠ 0 → (extractRoot (n.pow (exponent.num % exponent.den).toNat)
        exponent.den).outside ≠ 0 := fun n hn =>
      outside_extractRoot (Nat.ne_of_gt (Nat.pow_pos (Nat.pos_of_ne_zero hn))) exponent.den_nz
    have hnumerator := hpart base.num.natAbs (Int.natAbs_ne_zero.mpr (Rat.num_ne_zero.mpr hbase))
    have hdenominator := hpart base.den base.den_nz
    refine mul_ne_zero (zpow_ne_zero _ hbase) ?_
    rw [Rat.mkRat_eq_div]
    exact div_ne_zero (by exact_mod_cast hnumerator) (by exact_mod_cast hdenominator)
  · cases h

theorem proper_radical {r : Radical} (h : r.coefficient ≠ 0) : Proper r.toExpr := by
  rw [Radical.toExpr]
  split
  · exact proper_rational _
  · exact proper_multiple_of_power h (proper_rational _) (proper_rational _)

/-! ## Powers of numbers -/

theorem imaginaryUnitPower_entry (hnode : KeepsShape node) (n : Int) :
    Yields (imaginaryUnitPower node n) Entry := by
  rw [imaginaryUnitPower]
  split
  · exact Yields.pure (proper_integer 1).1
  · exact Yields.pure (proper_constant _).1
  · exact Yields.pure (proper_integer (-1)).1
  · exact hnode.negate (proper_constant _).1

theorem negativeBasePower_entry (hnode : KeepsShape node) (base exponent : Rat) :
    Yields (negativeBasePower ctx node base exponent) Entry := by
  have hkept : Entry (rawPower (.rational base) (.rational exponent)) :=
    (proper_rawPower (proper_rational _) (proper_rational _)).1
  have hroot : Yields (power node (.rational (-base)) (.rational exponent)) Entry :=
    hnode.power (proper_rational _).1 (proper_rational _).1
  rw [negativeBasePower]
  split
  · split
    · exact Yields.pure entry_nonreal
    · split
      · exact Yields.pure hkept
      · refine (hnode.power (proper_constant _).1 (proper_integer _).1).bind fun rotation hr => ?_
        exact hroot.bind fun root hroot => hnode.multiply (by simp [hr, hroot])
  · split
    · exact Yields.pure hkept
    · exact hroot.bind fun root hroot => hnode.multiply (by simp [(proper_integer _).1, hroot])

theorem rationalPower_entry (hnode : KeepsShape node) {base exponent : Rat} (hbase : base ≠ 0) :
    Yields (rationalPower ctx node base exponent) Entry := by
  have hkept : Entry (rawPower (.rational base) (.rational exponent)) :=
    (proper_rawPower (proper_rational _) (proper_rational _)).1
  rw [rationalPower]
  split
  · refine Yields.pure ?_
    cases wholePower? base exponent.num with
    | none => exact hkept
    | some value => exact (proper_rational value).1
  · split
    · exact Yields.pure hkept
    · split
      · exact negativeBasePower_entry hnode base exponent
      · refine Yields.pure ?_
        cases hradical : radical? base exponent with
        | none => exact hkept
        | some r => exact (proper_radical (coefficient_radical? hbase hradical)).1

theorem entry_infinitePower (negative : Bool) (exponent : Rat) :
    Entry (infinitePower negative exponent) := by
  rw [infinitePower]
  split
  · exact (proper_integer 0).1
  · split
    · exact (proper_infinity _).1
    · split
      · exact (proper_infinity _).1
      · exact (proper_rawPower (proper_infinity _) (proper_rational _)).1

/-! ## Powers of compound expressions -/

theorem multiplyOut_entry (hnode : KeepsShape node) (hx : Entry x) (hys : ∀ y ∈ ys, Entry y) :
    Yields (multiplyOut node x ys) Entry := by
  have hproducts : Yields ((flatten .addition x).mapM fun a => ys.mapM fun b =>
      multiply node [a, b]) fun products => ∀ row ∈ products, ∀ z ∈ row, Entry z := by
    refine Yields.mapM_forall fun a ha => Yields.mapM_forall fun b hb => ?_
    exact hnode.multiply (by simp [(flatten_entry hx (.inl rfl) ha).1, hys b hb])
  refine hproducts.bind fun products hproducts => hnode.add fun z hz => ?_
  rcases List.mem_flatten.mp hz with ⟨row, hrow, hz⟩
  exact hproducts row hrow z hz

theorem expandPower_entry (hnode : KeepsShape node) (hxs : ∀ x ∈ xs, Entry x) (times : Nat)
    (hy : Entry y) : Yields (expandPower node xs times y) Entry := by
  induction times generalizing y with
  | zero => exact Yields.pure hy
  | succ times ih => exact (multiplyOut_entry hnode hy hxs).bind fun z hz => ih hz

theorem compoundPower?_entry (hnode : KeepsShape node) (hx : Proper x) {n : Int}
    {m : ReduceM Expr} (h : compoundPower? node x n = some m) : Yields m Entry := by
  rw [compoundPower?.eq_def] at h
  split at h
  · rename_i factors
    cases h
    have hfactors := flattenAll_proper
      (fun y (hy : y ∈ factors) => hx.canonical.operand_proper rfl hy) (.inr rfl)
    refine (Yields.mapM_forall fun y hy => ?_).bind fun powers hpowers => hnode.multiply hpowers
    exact hnode.power (hfactors y hy).1.1 (proper_integer n).1
  · split at h
    · cases h
      exact expandPower_entry hnode (fun y hy => (hx.canonical.operand_proper rfl hy).1) _ hx.1
    · cases h
  · cases h

theorem nestedPower?_entry (hnode : KeepsShape node) (hx : Proper x) (hy : Proper y)
    {m : ReduceM Expr} (h : nestedPower? node x y = some m) : Yields m Entry := by
  rw [nestedPower?.eq_def] at h
  split at h
  · split at h
    · split at h
      · rename_i inner innerExponent _
        cases h
        have hinner : Proper inner := hx.canonical.operand_proper rfl (by simp)
        have hexponent : Proper innerExponent := hx.canonical.operand_proper rfl (by simp)
        refine (hnode.multiply (by simp [hexponent.1, hy.1])).bind fun z hz => ?_
        exact hnode.power hinner.1 hz
      · cases h
        exact Yields.pure entry_undefined
    · cases h
  · cases h

theorem logarithmicPower?_entry (hy : Proper y) {z : Expr} (h : logarithmicPower? x y = some z) :
    Entry z := by
  rw [logarithmicPower?.eq_def] at h
  split at h
  · split at h
    · cases h
      exact (hy.canonical.operand_proper rfl List.mem_cons_self).1
    · cases h
  · cases h

theorem symbolicPower_entry (hnode : KeepsShape node) (hx : Proper x) (hy : Proper y) :
    Yields (symbolicPower node x y) Entry := by
  rw [symbolicPower]
  split
  · rename_i result hresult
    exact nestedPower?_entry hnode hx hy hresult
  · split
    · rename_i result hresult
      rcases Option.bind_eq_some_iff.mp hresult with ⟨n, _, hresult⟩
      exact compoundPower?_entry hnode hx hresult
    · refine Yields.pure ?_
      cases hargument : logarithmicPower? x y with
      | none => exact (proper_rawPower hx hy).1
      | some argument => exact logarithmicPower?_entry hy hargument

theorem powerOfScalars_entry (hnode : KeepsShape node) (hx : Proper x) (hy : Proper y) :
    Yields (powerOfScalars ctx node x y) Entry := by
  rw [powerOfScalars]
  split
  · refine Yields.pure ?_
    split
    · exact entry_undefined
    · exact (proper_integer 1).1
  · split
    · exact Yields.pure hx.1
    · split
      · split
        · exact Yields.pure (proper_integer 0).1
        · exact Yields.pure entry_undefined
        · exact Yields.pure entry_undefined
        · exact Yields.pure (proper_rawPower hx hy).1
      · rename_i hzero
        split
        · exact Yields.pure (proper_integer 1).1
        · rw [properPower.eq_def]
          split
          · rename_i b _
            refine rationalPower_entry hnode ?_
            rintro rfl
            exact hzero rfl
          · exact Yields.pure (entry_infinitePower _ _)
          · split
            · exact imaginaryUnitPower_entry hnode _
            · exact symbolicPower_entry hnode hx hy
          · exact symbolicPower_entry hnode hx hy

/-! ## Roots with an index -/

theorem squareRoot_entry (hnode : KeepsShape node) (hxs : ∀ x ∈ xs, Proper x) :
    Yields (squareRoot node xs) Entry := by
  rw [squareRoot.eq_def]
  split
  · exact hnode.power (hxs _ List.mem_cons_self).1 (proper_rational _).1
  · exact Yields.pure entry_undefined

theorem rootExponent?_entry (hnode : KeepsShape node) (hx : Proper x) :
    Yields (rootExponent? node x) fun exponent => ∀ y ∈ exponent, Entry y := by
  rw [rootExponent?.eq_def]
  split
  · refine Yields.pure ?_
    split
    · nofun
    · rintro _ ⟨⟩
      exact (proper_rational _).1
  · refine (hnode.invert hx.1).bind fun y hy => Yields.pure ?_
    rintro _ ⟨⟩
    exact hy

theorem nthRoot_entry (hnode : KeepsShape node) (hxs : ∀ x ∈ xs, Proper x) :
    Yields (nthRoot node xs) Entry := by
  rw [nthRoot.eq_def]
  split
  · rename_i radicand index others
    have hradicand := hxs radicand (by simp)
    refine (rootExponent?_entry hnode (hxs index (by simp))).bind fun exponent hexponent => ?_
    split
    · exact hnode.power hradicand.1 (hexponent _ rfl)
    · exact Yields.pure entry_undefined
  · exact Yields.pure entry_undefined

/-! ## Logarithms -/

theorem entry_infiniteLogarithm? {z : Expr} (h : infiniteLogarithm? x = some z) : Entry z := by
  rw [infiniteLogarithm?.eq_def] at h
  split at h
  · split at h
    · cases h
      exact (proper_infinity _).1
    · cases h
  · cases h
    exact (proper_infinity _).1
  · cases h

theorem logarithmOfPower?_entry (hnode : KeepsShape node) (hx : Proper x) (hy : Proper y)
    {m : ReduceM Expr} (h : logarithmOfPower? node x y = some m) : Yields m Entry := by
  rw [logarithmOfPower?.eq_def] at h
  split at h
  · rename_i argument exponent
    split at h
    · cases h
      have hargument : Proper argument := hx.canonical.operand_proper rfl (by simp)
      have hexponent : Proper exponent := hx.canonical.operand_proper rfl (by simp)
      refine (hnode .logarithm [argument, y] rfl (by simp [hargument.1, hy.1])).bind
        fun z hz => ?_
      exact hnode.multiply (by simp [hexponent.1, hz])
    · cases h
  · cases h

theorem properLogarithm_entry (hnode : KeepsShape node) (hx : Proper x) (hy : Proper y) :
    Yields (properLogarithm ctx node x y) Entry := by
  rw [properLogarithm]
  split
  · exact Yields.pure entry_nonreal
  · split
    · exact Yields.pure (proper_integer _).1
    · dsimp only
      split
      · rename_i hresult
        split at hresult
        · exact Yields.pure (entry_infiniteLogarithm? hresult)
        · cases hresult
      · cases hpower : logarithmOfPower? node x y with
        | none => exact Yields.pure (proper_plain rfl (by simp [hx, hy])).1
        | some m => exact logarithmOfPower?_entry hnode hx hy hpower

theorem logarithm_entry (hnode : KeepsShape node) (hxs : ∀ x ∈ xs, Proper x) :
    Yields (logarithm ctx node xs) Entry := by
  rw [logarithm.eq_def]
  split
  · split
    · exact Yields.pure entry_undefined
    · split
      · exact Yields.pure entry_undefined
      · split
        · exact Yields.pure (proper_integer 0).1
        · split
          · exact Yields.pure (proper_integer 1).1
          · exact properLogarithm_entry hnode (hxs _ (by simp)) (hxs _ (by simp))
  · exact Yields.pure entry_undefined

theorem logarithmInBase_entry (hnode : KeepsShape node) (hy : Proper y)
    (hxs : ∀ x ∈ xs, Proper x) : Yields (logarithmInBase node y xs) Entry := by
  rw [logarithmInBase.eq_def]
  split
  · exact hnode .logarithm _ rfl (by simp [hy.1, (hxs _ List.mem_cons_self).1])
  · exact Yields.pure entry_undefined

end Shape

end PocketAlgebra
