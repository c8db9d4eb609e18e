import Mathlib.Algebra.BigOperators.Ring.List
import Mathlib.Algebra.Order.Ring.Int
import PocketAlgebra.Proofs.Field.Value
import PocketAlgebra.Reduction.Power

/-!
# Powers of field expressions

The rules for powers with whole exponents keep the value of a power, where its
base is not zero or its exponent is positive.
-/

namespace PocketAlgebra

namespace Reduction

open PocketAlgebra.Expr

variable {K : Type*} [Field K] {ρ : Valuation K}
  {node : NodeReducer}

theorem integer?_integer (n : Int) : (integer n).integer? = some n := by
  simp [integer, integer?, Rat.isInt]

theorem represents_rawPower {x : Expr} {n : Int} (hx : Normal ρ x)
    (h : 0 < n ∨ x.value ρ ≠ 0) :
    Represents ρ (x.value ρ ^ n) (rawPower x (.integer n)) :=
  ⟨.power hx h, value_power_integer ρ x n⟩

/-!
## Powers of numbers and of the imaginary unit
-/

theorem rationalPower_spec [CharZero K] (ctx : Context) (node : NodeReducer) {b : Rat} {n : Int}
    (h : 0 < n ∨ (b : K) ≠ 0) :
    Yields (rationalPower ctx node b n) (Represents ρ ((b : K) ^ n)) := by
  have hint : (n : Rat).isInt = true := by simp [Rat.isInt]
  rw [rationalPower, if_pos hint]
  refine Yields.pure ?_
  rw [Rat.num_intCast, wholePower?]
  split
  · exact ⟨.rational _, by simp⟩
  · exact represents_rawPower (.rational b) h

theorem unit_zpow (ρ : Valuation K) (n : Int) :
    ρ.unit ^ n = ρ.unit ^ (n % 4) := by
  have hfour : ρ.unit ^ (4 : Int) = 1 := by
    have hsq := ρ.unit_sq
    calc ρ.unit ^ (4 : Int) = (ρ.unit ^ 2) ^ 2 := by
          rw [← pow_mul]
          exact zpow_natCast ρ.unit 4
      _ = 1 := by rw [hsq, neg_one_sq]
  conv_lhs => rw [← Int.emod_add_mul_ediv n 4]
  rw [zpow_add₀ ρ.unit_ne_zero, zpow_mul, hfour, one_zpow, mul_one]

theorem imaginaryUnitPower_spec [CharZero K] (hnode : KeepsValues ρ node) (n : Int) :
    Yields (imaginaryUnitPower node n) (Represents ρ (ρ.unit ^ n)) := by
  rw [unit_zpow]
  have hrange : n % 4 = 0 ∨ n % 4 = 1 ∨ n % 4 = 2 ∨ n % 4 = 3 := by omega
  have hunit : Normal ρ .i := .constant .imaginaryUnit
  rcases hrange with h | h | h | h <;> simp only [imaginaryUnitPower, h]
  · exact Yields.pure ⟨normal_integer ρ 1, by simp⟩
  · exact Yields.pure ⟨hunit, (zpow_one ρ.unit).symm⟩
  · refine Yields.pure ⟨normal_integer ρ (-1), ?_⟩
    rw [value_integer, Int.cast_neg, Int.cast_one, ← ρ.unit_sq]
    exact (zpow_natCast ρ.unit 2).symm
  · have hproduct := hnode.product (forall_mem_pair (normal_integer ρ (-1)) hunit)
    refine hproduct.mono fun r hr => ⟨hr.normal, hr.value_eq.trans ?_⟩
    have hcube : ρ.unit ^ (3 : Int) = ρ.unit ^ 2 * ρ.unit := by
      rw [← pow_succ]
      exact zpow_natCast ρ.unit 3
    rw [hcube, ρ.unit_sq]
    simp [Expr.i, value, Valuation.constant]

/-!
## Powers of sums, products and powers
-/

/-- The sums of all products of a member of one list with one of another. -/
theorem sum_products (vs ws : List K) :
    (vs.map fun v => (ws.map fun w => v * w).sum).sum = vs.sum * ws.sum := by
  induction vs with
  | nil => simp
  | cons v vs ih =>
      have hrow := List.sum_map_mul_left ws id v
      rw [List.map_id] at hrow
      rw [List.map_cons, List.sum_cons, ih, List.sum_cons, add_mul]
      exact congrArg (· + vs.sum * ws.sum) hrow

theorem sum_flatten_of_forall₂ {α : Type} {f : α → K} {xs : List α}
    {rows : List (List Expr)}
    (h : List.Forall₂ (fun x row => (∀ r ∈ row, Normal ρ r) ∧
      (row.map (value ρ)).sum = f x) xs rows) :
    (∀ r ∈ rows.flatten, Normal ρ r) ∧
      (rows.flatten.map (value ρ)).sum = (xs.map f).sum := by
  induction h with
  | nil => simp
  | cons hrow _ ih =>
      constructor
      · intro r hr
        rw [List.flatten_cons, List.mem_append] at hr
        rcases hr with hr | hr
        · exact hrow.1 r hr
        · exact ih.1 r hr
      · rw [List.flatten_cons, List.map_append, List.sum_append, hrow.2, ih.2,
          List.map_cons, List.sum_cons]

theorem represents_map_of_forall₂ {α : Type} {f : α → K} {xs : List α}
    {rs : List Expr} (h : List.Forall₂ (fun x r => Represents ρ (f x) r) xs rs) :
    (∀ r ∈ rs, Normal ρ r) ∧ rs.map (value ρ) = xs.map f := by
  induction h with
  | nil => simp
  | cons hr _ ih =>
      exact ⟨List.forall_mem_cons.mpr ⟨hr.normal, ih.1⟩,
        by rw [List.map_cons, hr.value_eq, ih.2, List.map_cons]⟩

theorem multiplyOut_spec (hnode : KeepsValues ρ node) {left : Expr}
    {right : List Expr} (hleft : Normal ρ left) (hright : ∀ x ∈ right, Normal ρ x) :
    Yields (multiplyOut node left right)
      (Represents ρ (left.value ρ * (right.map (value ρ)).sum)) := by
  have hterms : ∀ x ∈ flatten .addition left, Normal ρ x := by
    refine flatten_forall (fun ys hys => ?_) left hleft
    cases hys with
    | addition hys => exact hys
  have hrows : Yields
      ((flatten .addition left).mapM fun x => right.mapM fun y => multiply node [x, y])
      (List.Forall₂ (fun x row => (∀ r ∈ row, Normal ρ r) ∧ (row.map (value ρ)).sum =
        (right.map fun y => x.value ρ * y.value ρ).sum) (flatten .addition left)) := by
    refine Yields.mapM fun x hx => ?_
    have hrow : Yields (right.mapM fun y => multiply node [x, y])
        (List.Forall₂ (fun y r => Represents ρ (x.value ρ * y.value ρ) r) right) := by
      refine Yields.mapM fun y hy => ?_
      have hproduct := hnode.product (forall_mem_pair (hterms x hx) (hright y hy))
      simpa using hproduct
    refine hrow.mono fun row hrow => ?_
    rcases represents_map_of_forall₂ hrow with ⟨hnormal, hvalues⟩
    exact ⟨hnormal, by rw [hvalues]⟩
  refine hrows.bind fun rows hrows => ?_
  rcases sum_flatten_of_forall₂ hrows with ⟨hnormal, hsum⟩
  have hproducts := sum_products ((flatten .addition left).map (value ρ))
    (right.map (value ρ))
  rw [sum_flatten, List.map_map] at hproducts
  have hvalue : (rows.flatten.map (value ρ)).sum =
      left.value ρ * (right.map (value ρ)).sum := by
    rw [hsum, ← hproducts]
    simp [Function.comp_def]
  rw [← hvalue]
  exact hnode.sum hnormal

theorem expandPower_spec (hnode : KeepsValues ρ node) {terms : List Expr}
    (hterms : ∀ x ∈ terms, Normal ρ x) (times : Nat) {x : Expr} {v : K}
    (hx : Represents ρ v x) :
    Yields (expandPower node terms times x)
      (Represents ρ (v * (terms.map (value ρ)).sum ^ times)) := by
  induction times generalizing x v with
  | zero =>
      rw [pow_zero, mul_one]
      exact Yields.pure hx
  | succ times ih =>
      rw [expandPower, pow_succ', ← mul_assoc]
      have hstep := multiplyOut_spec hnode hx.normal hterms
      rw [hx.value_eq] at hstep
      exact hstep.bind fun y hy => ih hy

theorem compoundPower?_spec [CharZero K] (hnode : KeepsValues ρ node) {x : Expr} {n : Int}
    (hx : Normal ρ x) (h : 0 < n ∨ x.value ρ ≠ 0) {m : ReduceM Expr}
    (hm : compoundPower? node x n = some m) :
    Yields m (Represents ρ (x.value ρ ^ n)) := by
  cases hx with
  | multiplication hxs =>
      rename_i xs
      cases hm
      have hfactors := normal_flattenAll_multiplication hxs
      have hprod := prod_flattenAll ρ xs
      have hne : ∀ y ∈ flattenAll .multiplication xs, 0 < n ∨ y.value ρ ≠ 0 := by
        intro y hy
        refine h.imp_right fun hx hzero => hx ?_
        rw [value_multiplication, ← hprod]
        exact List.prod_eq_zero (List.mem_map.mpr ⟨y, hy, hzero⟩)
      have hpowers : Yields
          ((flattenAll .multiplication xs).mapM fun y => power node y (.integer n))
          (List.Forall₂ (fun y r => Represents ρ (y.value ρ ^ n) r)
            (flattenAll .multiplication xs)) :=
        Yields.mapM fun y hy => hnode.power (hfactors y hy) (hne y hy)
      refine hpowers.bind fun powers hpowers => ?_
      rcases represents_map_of_forall₂ hpowers with ⟨hnormal, hvalues⟩
      have hvalue : (powers.map (value ρ)).prod =
          (Expr.apply .multiplication xs).value ρ ^ n := by
        rw [hvalues, value_multiplication, ← hprod]
        have hhom := map_list_prod (zpowGroupHom n)
          ((flattenAll .multiplication xs).map (value ρ))
        rw [List.map_map] at hhom
        exact hhom.symm
      rw [← hvalue]
      exact hnode.product hnormal
  | addition hterms =>
      rename_i terms
      rw [compoundPower?] at hm
      split at hm
      · rename_i hn
        cases hm
        have hpos : 2 ≤ n := by
          simp only [Bool.and_eq_true, decide_eq_true_eq] at hn
          exact hn.1
        have hexpand := expandPower_spec hnode hterms (n.toNat - 1)
          (x := .apply .addition terms) ⟨.addition hterms, rfl⟩
        rw [← value_addition ρ terms, ← pow_succ'] at hexpand
        have hexponent : ((n.toNat - 1 + 1 : Nat) : Int) = n := by omega
        rw [← zpow_natCast, hexponent] at hexpand
        exact hexpand
      · cases hm
  | _ => cases hm

theorem nestedPower?_spec [CharZero K] (hnode : KeepsValues ρ node) {x : Expr} {n : Int}
    (hx : Normal ρ x) (h : 0 < n ∨ x.value ρ ≠ 0) {m : ReduceM Expr}
    (hm : nestedPower? node x (.integer n) = some m) :
    Yields m (Represents ρ (x.value ρ ^ n)) := by
  cases hx with
  | power hbase hinner =>
      rename_i base k
      rw [nestedPower?, integer?_integer] at hm
      cases hm
      have hexponent := hnode.integerProduct [k, n]
      refine hexponent.bind fun p hp => ?_
      rw [hp]
      rw [value_power_integer] at h ⊢
      rw [← zpow_mul]
      have hprod : [k, n].prod = k * n := by simp
      rw [hprod]
      refine hnode.power hbase ?_
      by_cases hzero : base.value ρ = 0
      · have hk : 0 < k := hinner.resolve_right (by simp [hzero])
        have hn : 0 < n := h.resolve_right (by simp [hzero, zero_zpow k hk.ne'])
        exact .inl (mul_pos hk hn)
      · exact .inr hzero
  | _ => cases hm

theorem symbolicPower_spec [CharZero K] (hnode : KeepsValues ρ node) {x : Expr} {n : Int}
    (hx : Normal ρ x) (h : 0 < n ∨ x.value ρ ≠ 0) :
    Yields (symbolicPower node x (.integer n)) (Represents ρ (x.value ρ ^ n)) := by
  rw [symbolicPower, integer?_integer]
  split
  · rename_i m hm
    exact nestedPower?_spec hnode hx h hm
  · split
    · rename_i m hm
      exact compoundPower?_spec hnode hx h hm
    · exact Yields.pure (represents_rawPower hx h)

/-!
## All powers
-/

theorem properPower_spec [CharZero K] (ctx : Context) (hnode : KeepsValues ρ node) {x : Expr}
    {n : Int} (hx : Normal ρ x) (h : 0 < n ∨ x.value ρ ≠ 0) :
    Yields (properPower ctx node x (.integer n)) (Represents ρ (x.value ρ ^ n)) := by
  have hsymbolic := symbolicPower_spec hnode hx h
  cases hx with
  | rational b => exact rationalPower_spec ctx node h
  | constant c =>
      cases c with
      | imaginaryUnit =>
          rw [properPower, integer?_integer]
          exact imaginaryUnitPower_spec hnode n
      | _ => exact hsymbolic
  | _ => exact hsymbolic

theorem powerOfScalars_spec [CharZero K] (ctx : Context) (hnode : KeepsValues ρ node)
    {x : Expr} {n : Int} (hx : Normal ρ x) (h : 0 < n ∨ x.value ρ ≠ 0) :
    Yields (powerOfScalars ctx node x (.integer n))
      (Represents ρ (x.value ρ ^ n)) := by
  have hzero : x.isRational 0 = true → x.value ρ = 0 := by
    intro hx0
    rw [isRational_iff.mp hx0]
    simp
  have hexponent : ∀ m : Int, (integer n).isRational m = true → n = m := by
    intro m hm
    have heq := isRational_iff.mp hm
    simpa [integer] using heq
  rw [powerOfScalars]
  split
  · rename_i hn
    obtain rfl : n = 0 := hexponent 0 hn
    have hx0 : x.isRational 0 = false := by
      rw [Bool.eq_false_iff]
      exact fun hx0 => h.elim (lt_irrefl 0) fun hne => hne (hzero hx0)
    rw [hx0, hx.kind_beq_infinity]
    exact Yields.pure ⟨normal_integer ρ 1, by simp⟩
  · split
    · rename_i hn
      obtain rfl : n = 1 := hexponent 1 hn
      exact Yields.pure ⟨hx, (zpow_one _).symm⟩
    · split
      · rename_i hx0
        have hpos : 0 < n := h.resolve_right fun hne => hne (hzero hx0)
        have hsign : (integer n).sign = .positive := by
          simp [integer, sign, Sign.ofRat, Sign.ofInt, hpos.ne', hpos.not_gt]
        rw [hsign, hzero hx0, zero_zpow n hpos.ne']
        exact Yields.pure ⟨normal_integer ρ 0, by simp⟩
      · split
        · rename_i hone
          rw [Bool.and_eq_true] at hone
          rw [isRational_iff.mp hone.1]
          exact Yields.pure ⟨normal_integer ρ 1, by simp⟩
        · exact properPower_spec ctx hnode hx h

end Reduction

end PocketAlgebra
