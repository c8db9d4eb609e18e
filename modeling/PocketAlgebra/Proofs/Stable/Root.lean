import PocketAlgebra.Proofs.Principal.RationalPower

/-!
# Roots from which all is taken out

The greatest root is found bit by bit, so a perfect power is recognised as one. Trial division tries
each divisor until it no longer divides, and what is left is divided no more when it is tried again.
So nothing more can be taken out of the radicand of a root.
-/

namespace PocketAlgebra

namespace Reduction

variable {q n : Nat} {parts : RootParts}

/-! ## Perfect powers -/

/-- The root found lies between those of the numbers that the bits left to find allow. -/
theorem rootBits_spec {bit r : Nat} (hlow : r ^ q ≤ n) (hhigh : n < (r + 2 ^ (bit + 1)) ^ q) :
    rootBits q n bit r ^ q ≤ n ∧ n < (rootBits q n bit r + 1) ^ q := by
  induction bit generalizing r with
  | zero =>
      rw [rootBits, Nat.pow_eq]
      split
      · rename_i hraised
        exact ⟨hraised, hhigh⟩
      · rename_i hraised
        exact ⟨hlow, not_le.mp hraised⟩
  | succ bit ih =>
      rw [rootBits, Nat.pow_eq, Nat.one_shiftLeft]
      split
      · rename_i hraised
        refine ih hraised ?_
        rwa [Nat.add_assoc, ← Nat.two_mul, ← Nat.pow_succ']
      · rename_i hraised
        exact ih hlow (not_le.mp hraised)

/-- The greatest number whose power is no more than the number given. -/
theorem floorRoot_spec (hq : 0 < q) (hn : 0 < n) :
    floorRoot n q ^ q ≤ n ∧ n < (floorRoot n q + 1) ^ q := by
  rw [floorRoot]
  split
  · rename_i hlog
    rw [Nat.one_pow]
    exact ⟨hn, (Nat.log2_lt hn.ne').mp hlog⟩
  · refine rootBits_spec (by rw [Nat.zero_pow hq]; exact hn.le) ?_
    rw [Nat.zero_add, ← Nat.pow_mul]
    refine (Nat.log2_lt hn.ne').mp ?_
    have := Nat.lt_mul_div_succ n.log2 hq
    rwa [Nat.mul_comm]

theorem floorRoot_pow {k : Nat} (hq : 0 < q) (hk : 0 < k) : floorRoot (k ^ q) q = k := by
  rcases floorRoot_spec hq (Nat.pow_pos hk) with ⟨hlow, hhigh⟩
  have hle := (Nat.pow_le_pow_iff_left hq.ne').mp hlow
  have hlt := (Nat.pow_lt_pow_iff_left hq.ne').mp hhigh
  omega

/-! ## Trial division -/

theorem not_dvd_divideOut {divisor step : Nat} (hstep : 1 < step) (hinside : 0 < parts.inside) :
    ¬ step ∣ (divideOut divisor step parts).inside := by
  fun_induction divideOut divisor step parts with
  | case1 parts h ih =>
      exact ih (Nat.div_pos (Nat.le_of_dvd hinside (Nat.dvd_of_mod_eq_zero h.2.2)) (by omega))
  | case2 parts h => exact fun hdvd => h ⟨hstep, hinside, Nat.mod_eq_zero_of_dvd hdvd⟩

theorem divideOut_of_not_dvd {divisor step outside inside : Nat} (h : ¬ step ∣ inside) :
    divideOut divisor step ⟨outside, inside⟩ = ⟨outside, inside⟩ := by
  rw [divideOut, if_neg fun hstep => h (Nat.dvd_of_mod_eq_zero hstep.2.2)]

theorem divideOut_dvd {divisor step : Nat} :
    (divideOut divisor step parts).inside ∣ parts.inside := by
  fun_induction divideOut divisor step parts with
  | case1 parts h ih => exact ih.trans (Nat.div_dvd_of_dvd (Nat.dvd_of_mod_eq_zero h.2.2))
  | case2 => exact dvd_rfl

theorem trialDivision_dvd {count divisor : Nat} :
    (trialDivision q count divisor parts).inside ∣ parts.inside := by
  induction count generalizing divisor parts with
  | zero => exact dvd_rfl
  | succ count ih =>
      rw [trialDivision]
      split
      · exact dvd_rfl
      · dsimp only
        split
        · exact dvd_rfl
        · exact ih.trans divideOut_dvd

/-- What is left after trial division is left by it once more. -/
theorem trialDivision_left {count divisor : Nat} (hq : 0 < q) (hdivisor : 1 < divisor)
    (hinside : 0 < parts.inside) :
    trialDivision q count divisor ⟨1, (trialDivision q count divisor parts).inside⟩ =
      ⟨1, (trialDivision q count divisor parts).inside⟩ := by
  induction count generalizing divisor parts with
  | zero => rfl
  | succ count ih =>
      rw [trialDivision.eq_def q (count + 1) divisor parts]
      dsimp only
      split
      · rename_i hlog
        rw [trialDivision, if_pos hlog]
      · rename_i hlog
        split
        · rename_i hsmall
          rw [trialDivision, if_neg hlog]
          exact if_pos hsmall
        · have hstep : 1 < divisor ^ q := Nat.one_lt_pow hq.ne' hdivisor
          have hleft : 0 < (divideOut divisor (divisor.pow q) parts).inside :=
            Nat.pos_of_dvd_of_pos divideOut_dvd hinside
          have hnot : ¬ divisor.pow q ∣ (trialDivision q count (divisor + 1)
              (divideOut divisor (divisor.pow q) parts)).inside := fun hdvd =>
            not_dvd_divideOut hstep hinside (hdvd.trans trialDivision_dvd)
          rw [trialDivision]
          split
          · rfl
          · dsimp only
            split
            · rfl
            · rw [divideOut_of_not_dvd hnot]
              exact ih (Nat.lt_succ_of_lt hdivisor) hleft

/-- What is left in a root is left there when the root is extracted once more. -/
theorem extractRoot_inside (hq : 0 < q) (hn : 0 < n) :
    extractRoot (extractRoot n q).inside q = ⟨1, (extractRoot n q).inside⟩ := by
  have hsplits := splits_extractRoot hq hn
  by_cases hroot : (floorRoot n q).pow q = n
  · have hinside : (extractRoot n q).inside = 1 := by rw [extractRoot, if_pos hroot]
    have hone : floorRoot 1 q = 1 := by simpa using floorRoot_pow hq one_pos
    rw [hinside, extractRoot, hone]
    exact if_pos (Nat.one_pow q)
  · have hparts : extractRoot n q = trialDivision q (maxTrialDivisor - 1) 2 ⟨1, n⟩ :=
      if_neg hroot
    rw [extractRoot.eq_def _ q, if_neg]
    · rw [hparts]
      exact trialDivision_left hq one_lt_two hn
    · -- The number itself would be a perfect power, too.
      intro hinside
      have hpower : n = ((extractRoot n q).outside * floorRoot (extractRoot n q).inside q) ^ q := by
        rw [Nat.mul_pow]
        exact hsplits.number_eq.symm.trans (congrArg _ hinside.symm)
      have hpos : 0 < (extractRoot n q).outside * floorRoot (extractRoot n q).inside q :=
        Nat.pos_of_ne_zero fun hzero => by
          rw [hzero, Nat.zero_pow hq] at hpower
          exact hn.ne' hpower
      refine hroot ?_
      conv_lhs => rw [hpower]
      rw [floorRoot_pow hq hpos]
      exact hpower.symm

/-! ## Roots of rational numbers -/

/-- A positive rational number from which no root can be taken out. -/
structure Extracted (q : Nat) (base : ℚ) : Prop where
  base_pos : 0 < base
  num : extractRoot base.num.natAbs q = ⟨1, base.num.natAbs⟩
  den : extractRoot base.den q = ⟨1, base.den⟩

variable {base exponent : ℚ}

theorem num_mkRat {c d : Nat} (hd : 0 < d) (h : Nat.Coprime c d) : (mkRat c d).num = c := by
  rw [Rat.mkRat_eq_div]
  exact Rat.num_div_eq_of_coprime (b := d) (mod_cast hd) h

theorem den_mkRat {c d : Nat} (hd : 0 < d) (h : Nat.Coprime c d) : (mkRat c d).den = d := by
  rw [Rat.mkRat_eq_div]
  exact_mod_cast Rat.den_div_eq_of_coprime (a := c) (b := d) (mod_cast hd) h

theorem extracted_mkRat {c d : Nat} (hc : 0 < c) (hd : 0 < d) (hcoprime : Nat.Coprime c d)
    (hnum : extractRoot c q = ⟨1, c⟩) (hden : extractRoot d q = ⟨1, d⟩) :
    Extracted q (mkRat c d) := by
  refine ⟨?_, ?_, ?_⟩
  · rw [Rat.mkRat_eq_div]
    exact div_pos (mod_cast hc) (mod_cast hd)
  · rw [num_mkRat hd hcoprime]
    exact hnum
  · rw [den_mkRat hd hcoprime]
    exact hden

theorem extractRoot_inside_dvd (hq : 0 < q) (hn : 0 < n) : (extractRoot n q).inside ∣ n :=
  ⟨_, ((Nat.mul_comm _ _).trans (splits_extractRoot hq hn).number_eq).symm⟩

/-- The radicand of a radical is such a number. -/
theorem extracted_of_radical? {r : Radical} (hbase : 0 < base)
    (h : radical? base exponent = some r) : Extracted r.index r.radicand := by
  rw [radical?] at h
  dsimp only at h
  split at h
  · cases h
    have hq := exponent.den_pos
    set remainder := (exponent.num % exponent.den).toNat
    have hnum : 0 < base.num.natAbs ^ remainder :=
      Nat.pow_pos (Int.natAbs_pos.mpr (Rat.num_ne_zero.mpr hbase.ne'))
    have hden : 0 < base.den ^ remainder := Nat.pow_pos base.den_pos
    have hcoprime : Nat.Coprime (extractRoot (base.num.natAbs ^ remainder) exponent.den).inside
        (extractRoot (base.den ^ remainder) exponent.den).inside :=
      (base.reduced.pow remainder remainder).of_dvd (extractRoot_inside_dvd hq hnum)
        (extractRoot_inside_dvd hq hden)
    exact extracted_mkRat (splits_extractRoot hq hnum).inside_pos
      (splits_extractRoot hq hden).inside_pos hcoprime (extractRoot_inside hq hnum)
      (extractRoot_inside hq hden)
  · cases h

/-- Such a root is computed to itself, if at all. -/
theorem Extracted.radical? (h : Extracted q base) (hq : 1 < q) :
    radical? base (mkRat 1 q) = none ∨ radical? base (mkRat 1 q) = some ⟨1, base, q⟩ := by
  have hnum : (mkRat 1 q).num = 1 := num_mkRat (one_pos.trans hq) (Nat.coprime_one_left q)
  have hden : (mkRat 1 q).den = q := den_mkRat (one_pos.trans hq) (Nat.coprime_one_left q)
  have hwhole : (1 : ℤ) / q = 0 := Int.ediv_eq_zero_of_lt one_pos.le (mod_cast hq)
  have hremainder : ((1 : ℤ) % q).toNat = 1 := by
    rw [Int.emod_eq_of_lt one_pos.le (mod_cast hq)]
    rfl
  rw [Reduction.radical?, hnum, hden]
  dsimp only
  split
  · refine .inr (congrArg some ?_)
    rw [hwhole, hremainder, Nat.pow_eq, Nat.pow_eq, Nat.pow_one, Nat.pow_one, h.num, h.den]
    have hbase : mkRat base.num.natAbs base.den = base := by
      rw [Int.natAbs_of_nonneg (Rat.num_pos.mpr h.base_pos).le]
      exact Rat.mkRat_self base
    rw [hbase, zpow_zero, one_mul]
    exact congrArg (Radical.mk · base q) (Rat.mkRat_self 1)
  · exact .inl rfl

variable {ctx : Context} {node : NodeReducer}

/-- A root from which nothing can be taken out is kept. -/
theorem Extracted.powerOfScalars (h : Extracted q base) (hq : 1 < q) (hsize : q < UInt32.size)
    (hone : base ≠ 1) :
    powerOfScalars ctx node (.rational base) (.rational (mkRat 1 q)) =
      pure (rawPower (.rational base) (.rational (mkRat 1 q))) := by
  have hden : (mkRat 1 q).den = q := den_mkRat (one_pos.trans hq) (Nat.coprime_one_left q)
  have hint : ¬ (mkRat 1 q).isInt = true := by
    simpa [Rat.isInt, hden] using hq.ne'
  have hnot {p r : ℚ} (hne : p ≠ r) : ¬ (Expr.rational p).isRational r = true := by
    simpa [Expr.isRational, Expr.rational?] using hne
  have hbase : ¬ ((Expr.rational base).isRational 1 &&
      (Expr.rational (mkRat 1 q)).kind ≠ .infinity) = true := by
    simp [Expr.isRational, Expr.rational?, hone]
  rw [Reduction.powerOfScalars, if_neg (hnot (ne_of_not_isInt hint rfl)),
    if_neg (hnot (ne_of_not_isInt hint rfl)), if_neg (hnot h.base_pos.ne'), if_neg hbase]
  refine (rationalPower_of_pos node hint (hden.symm ▸ hsize) h.base_pos).trans ?_
  rcases h.radical? hq with hradical | hradical
  · rw [hradical]
    rfl
  · rw [hradical, Option.map_some, Option.getD_some, Radical.toExpr, if_neg hone]
    rfl

end Reduction

end PocketAlgebra
