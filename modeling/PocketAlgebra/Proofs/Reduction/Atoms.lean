import PocketAlgebra.Proofs.Field.Engine

/-!
# Products of powers of different bases

Scalars that are not sums, and powers with an exponent other than one, stay as they are in a product
where no two of them have the same base: the numbers are multiplied, and the rest is sorted.
-/

namespace PocketAlgebra

namespace Reduction

open PocketAlgebra.Expr

variable {node : NodeReducer} {ctx : Context} {x y : Expr} {xs ys : List Expr}
  {gs : List PowerGroup}

/-! ## Factors that stay as they are -/

/-- A power with an exponent other than one, or a scalar that is neither a number nor a sum, product
or power. -/
inductive IsAtom : Expr → Prop
  | power {base exponent : Expr} : exponent.isRational 1 = false →
      IsAtom (.apply .power [base, exponent])
  | single {x : Expr} : IsPlain x → x.kind ≠ .rational → x.isMany = false → x.kind ≠ .power →
      IsAtom x

theorem IsAtom.constant (c : Constant) : IsAtom (.constant c) :=
  .single ⟨rfl, rfl, rfl⟩ nofun rfl nofun

/-- A factor as a group of its own. -/
def groupOf : Expr → PowerGroup
  | .apply .power [base, exponent] => ⟨base, [exponent]⟩
  | x => ⟨x, [.integer 1]⟩

/-- Two groups are not merged. -/
def Apart (g h : PowerGroup) : Prop :=
  g.base.same h.base = false

/-- The number that the rational factors make up. -/
def numberOf (xs : List Expr) : ℚ :=
  (xs.filterMap rational?).prod

/-- The factors other than rational numbers. -/
def atomsOf (xs : List Expr) : List Expr :=
  xs.filter (·.rational?.isNone)

/-- Rational numbers other than zero and factors that stay as they are, no two of the same base. -/
structure AreAtoms (xs : List Expr) : Prop where
  number_ne : numberOf xs ≠ 0
  atom : ∀ x ∈ atomsOf xs, IsAtom x
  apart : ((atomsOf xs).map groupOf).Pairwise Apart
  /-- An infinity does not take all other factors in. -/
  unabsorbed : ∀ negative, .infinity negative ∈ xs → ∃ x ∈ xs, x.sign.isStrict = false

theorem IsAtom.kind_ne (h : IsAtom x) : x.kind ≠ .rational ∧ x.isMany = false := by
  cases h with
  | power => exact ⟨nofun, rfl⟩
  | single _ hrational hmany _ => exact ⟨hrational, hmany⟩

theorem IsAtom.plain (h : IsAtom x) : IsPlain x := by
  cases h with
  | power => exact ⟨rfl, rfl, rfl⟩
  | single hplain => exact hplain

theorem groupOf_single (h : x.kind ≠ .power) : groupOf x = ⟨x, [.integer 1]⟩ := by
  rw [groupOf.eq_def]
  split
  · exact absurd rfl h
  · rfl

theorem insert_of_apart {base exponent : Expr} (h : ∀ g ∈ gs, Apart g ⟨base, [exponent]⟩) :
    PowerGroup.insert base exponent gs = gs ++ [⟨base, [exponent]⟩] := by
  induction gs with
  | nil => rfl
  | cons g gs ih =>
      have hg : g.base.same base = false := h g List.mem_cons_self
      rw [PowerGroup.insert, hg, if_neg Bool.false_ne_true,
        ih fun s hs => h s (List.mem_cons_of_mem g hs), List.cons_append]

theorem multiply?_atom (hx : IsAtom x) (p : PowerProduct)
    (h : ∀ g ∈ p.groups, Apart g (groupOf x)) :
    p.multiply? x = some { p with groups := p.groups ++ [groupOf x] } := by
  cases hx with
  | power => exact congrArg (fun gs => some { p with groups := gs }) (insert_of_apart h)
  | single _ hrational _ hpower =>
      rw [groupOf_single hpower] at h ⊢
      rw [← insert_of_apart h, PowerProduct.multiply?.eq_def]
      split
      · exact absurd rfl hrational
      · exact absurd rfl hpower
      · rfl

theorem merge_atom (node : NodeReducer) (hx : IsAtom x) : (groupOf x).merge node = pure x := by
  cases hx with
  | power hone =>
      dsimp only [groupOf, PowerGroup.merge]
      rw [hone, if_neg Bool.false_ne_true]
  | single _ _ _ hpower =>
      rw [groupOf_single hpower]
      rfl

theorem numberOf_cons (x : Expr) (xs : List Expr) :
    numberOf (x :: xs) = x.rational?.getD 1 * numberOf xs := by
  rw [numberOf, List.filterMap_cons]
  cases x.rational? with
  | none => rw [Option.getD_none, one_mul, numberOf]
  | some q => rfl

theorem atomsOf_cons (x : Expr) (xs : List Expr) :
    atomsOf (x :: xs) = if x.rational?.isNone then x :: atomsOf xs else atomsOf xs :=
  List.filter_cons

theorem foldlM_multiply?_atoms (hatom : ∀ x ∈ atomsOf xs, IsAtom x) {p : PowerProduct}
    (hapart : (p.groups ++ (atomsOf xs).map groupOf).Pairwise Apart) :
    xs.foldlM PowerProduct.multiply? p =
      some ⟨p.coefficient * numberOf xs, p.groups ++ (atomsOf xs).map groupOf⟩ := by
  induction xs generalizing p with
  | nil => simp [numberOf, atomsOf]
  | cons x xs ih =>
      rw [atomsOf_cons] at hatom hapart ⊢
      rw [numberOf_cons, List.foldlM_cons]
      cases hx : x.rational? with
      | some q =>
          rw [hx] at hatom hapart
          rw [eq_rational hx, ← mul_assoc]
          exact ih hatom hapart
      | none =>
          rw [hx] at hatom hapart
          simp only [Option.isNone_none, if_true, List.map_cons] at hatom hapart ⊢
          have hfirst : ∀ g ∈ p.groups, Apart g (groupOf x) := fun g hg =>
            (List.pairwise_append.mp hapart).2.2 g hg _ List.mem_cons_self
          have hrest := ih (p := ⟨p.coefficient, p.groups ++ [groupOf x]⟩)
            (fun y hy => hatom y (List.mem_cons_of_mem x hy)) (by
              rwa [List.append_assoc, List.singleton_append])
          rw [List.append_assoc, List.singleton_append] at hrest
          rw [multiply?_atom (hatom x List.mem_cons_self) p hfirst, Option.getD_none, one_mul]
          exact hrest

theorem mergeGroups_atoms (node : NodeReducer) (hxs : ∀ x ∈ xs, IsAtom x) (c : ℚ)
    (ys : List Expr) :
    mergeGroups node (xs.map groupOf) ⟨c, ys, false⟩ = pure (.ok ⟨c, ys ++ xs, false⟩) := by
  induction xs generalizing ys with
  | nil => rw [List.map_nil, mergeGroups, List.append_nil]
  | cons x xs ih =>
      have hx := hxs x List.mem_cons_self
      have hrest := ih (fun y hy => hxs y (List.mem_cons_of_mem x hy)) (ys ++ [x])
      obtain ⟨hrational, hmany⟩ := hx.kind_ne
      rw [List.map_cons, mergeGroups, merge_atom node hx, pure_bind, List.append_cons]
      split
      · exact absurd rfl hrational
      · cases hmany
      · rw [hx.plain.2.2, if_neg Bool.false_ne_true]
        exact hrest

theorem splitAtSum?_atoms (hxs : ∀ x ∈ xs, IsAtom x) : splitAtSum? xs = none := by
  fun_induction splitAtSum? xs with
  | case1 => rfl
  | case2 terms xs => cases (hxs _ List.mem_cons_self).kind_ne.2
  | case3 x xs _ ih =>
      rw [ih fun y hy => hxs y (List.mem_cons_of_mem x hy)]
      rfl

/-- A product of atoms as it is written. -/
def atomicProduct (xs : List Expr) : Expr :=
  assemble .multiplication 1 ((if numberOf xs = 1 then [] else [.rational (numberOf xs)]) ++
    Expr.sort (atomsOf xs))

theorem exists_infinity_of_kind (h : x.kind = .infinity) : ∃ negative, x = .infinity negative := by
  cases x with
  | infinity negative => exact ⟨negative, rfl⟩
  | apply f _ => cases f <;> cases h
  | _ => cases h

theorem AreAtoms.rational_or_atom (h : AreAtoms xs) (hx : x ∈ xs) :
    (∃ q : ℚ, q ≠ 0 ∧ x = .rational q) ∨ IsAtom x := by
  cases hrational : x.rational? with
  | none => exact .inr (h.atom x (List.mem_filter.mpr ⟨hx, by rw [hrational]; rfl⟩))
  | some q =>
      refine .inl ⟨q, fun hq => h.number_ne ?_, eq_rational hrational⟩
      exact List.prod_eq_zero (List.mem_filterMap.mpr ⟨x, hx, hrational.trans (congrArg some hq)⟩)

theorem AreAtoms.any_infinity_and_all_isStrict (h : AreAtoms xs) :
    (xs.any (·.kind == .infinity) && xs.all (·.sign.isStrict)) = false := by
  rw [Bool.and_eq_false_iff, or_iff_not_imp_left, Bool.not_eq_false, List.any_eq_true]
  rintro ⟨x, hx, hkind⟩
  obtain ⟨negative, rfl⟩ := exists_infinity_of_kind (eq_of_beq hkind)
  obtain ⟨y, hy, hsign⟩ := h.unabsorbed negative hx
  rw [List.all_eq_false]
  exact ⟨y, hy, by simp [hsign]⟩

theorem productOfScalars_atoms (node : NodeReducer) (h : AreAtoms xs) :
    productOfScalars node xs = pure (atomicProduct xs) := by
  have hzero : xs.any (·.isRational 0) = false := by
    refine List.any_eq_false.mpr fun x hx hzero => ?_
    have hx' := eq_rational (eq_of_beq hzero)
    rcases h.rational_or_atom hx with ⟨q, hq, rfl⟩ | hatom
    · injection hx' with hx'
      exact hq hx'
    · exact hatom.kind_ne.1 (hx' ▸ rfl)
  have hcollected : xs.foldlM PowerProduct.multiply? {} =
      some ⟨numberOf xs, (atomsOf xs).map groupOf⟩ := by
    rw [foldlM_multiply?_atoms h.atom (p := {}) h.apart, one_mul, List.nil_append]
  rw [productOfScalars, hzero, h.any_infinity_and_all_isStrict, if_neg Bool.false_ne_true,
    if_neg Bool.false_ne_true, hcollected]
  dsimp only
  rw [mergeGroups_atoms node h.atom, pure_bind, List.nil_append]
  dsimp only
  rw [finishProduct, if_neg h.number_ne, if_neg Bool.false_ne_true,
    splitAtSum?_atoms h.atom]
  rfl

/-! ## Products at a node -/

theorem AreAtoms.plain (h : AreAtoms xs) (hx : x ∈ xs) : IsPlain x := by
  rcases h.rational_or_atom hx with ⟨q, -, rfl⟩ | hatom
  · exact ⟨rfl, rfl, rfl⟩
  · exact hatom.plain

theorem AreAtoms.operand_plain (h : AreAtoms (flattenAll .multiplication xs)) (hx : x ∈ xs) :
    IsPlain x := by
  by_cases hkind : x.kind = .multiplication
  · rw [IsPlain, isList, isMatrix, hkind]
    exact ⟨rfl, rfl, rfl⟩
  · refine h.plain (mem_flattenAll.mpr ⟨x, hx, ?_⟩)
    rw [flatten_of_ne hkind]
    exact List.mem_singleton_self x

theorem reduceProduct_atoms (node : NodeReducer)
    (h : AreAtoms (flattenAll .multiplication xs)) :
    reduceProduct node xs = pure (atomicProduct (flattenAll .multiplication xs)) := by
  have hplain := fun x hx => h.plain (x := x) hx
  rw [reduceProduct, poison?_plain hplain]
  dsimp only
  rw [any_isMatrix_plain hplain, if_neg Bool.false_ne_true, productOfScalars_atoms _ h]

theorem nodeWithin_atoms (ctx : Context) (nesting : Nat)
    (h : AreAtoms (flattenAll .multiplication xs)) :
    Yields (nodeWithin nesting ctx (.apply .multiplication xs))
      (· = atomicProduct (flattenAll .multiplication xs)) := by
  refine nodeWithin_unspoiled (spoiled?_plain _ fun x hx => h.operand_plain hx) fun inner _ => ?_
  rw [reduceApply, reduceProduct_atoms _ h]
  exact Yields.pure rfl

theorem numberOf_append (xs ys : List Expr) : numberOf (xs ++ ys) = numberOf xs * numberOf ys := by
  rw [numberOf, List.filterMap_append, List.prod_append, numberOf, numberOf]

theorem atomsOf_append (xs ys : List Expr) : atomsOf (xs ++ ys) = atomsOf xs ++ atomsOf ys :=
  List.filter_append ..

theorem AreAtoms.append (hxs : AreAtoms xs) (hys : AreAtoms ys)
    (h : ∀ x ∈ atomsOf xs, ∀ y ∈ atomsOf ys, Apart (groupOf x) (groupOf y)) :
    AreAtoms (xs ++ ys) where
  number_ne := by
    rw [numberOf_append]
    exact mul_ne_zero hxs.number_ne hys.number_ne
  atom x hx := by
    rw [atomsOf_append] at hx
    exact (List.mem_append.mp hx).elim (hxs.atom x) (hys.atom x)
  apart := by
    rw [atomsOf_append, List.map_append, List.pairwise_append]
    refine ⟨hxs.apart, hys.apart, fun g hg s hs => ?_⟩
    rcases List.mem_map.mp hg with ⟨x, hx, rfl⟩
    rcases List.mem_map.mp hs with ⟨y, hy, rfl⟩
    exact h x hx y hy
  unabsorbed negative hmem := by
    rcases List.mem_append.mp hmem with hmem | hmem
    · obtain ⟨x, hx, hsign⟩ := hxs.unabsorbed negative hmem
      exact ⟨x, List.mem_append_left ys hx, hsign⟩
    · obtain ⟨y, hy, hsign⟩ := hys.unabsorbed negative hmem
      exact ⟨y, List.mem_append_right xs hy, hsign⟩

theorem areAtoms_rational {q : ℚ} (hq : q ≠ 0) : AreAtoms [.rational q] where
  number_ne := by simpa [numberOf, rational?] using hq
  atom := nofun
  apart := .nil
  unabsorbed _ hmem := by cases List.mem_singleton.mp hmem

theorem areAtoms_of_eq_singleton (hx : IsAtom x) (hinfinity : x.kind ≠ .infinity)
    (hnumber : numberOf xs ≠ 0) (hatoms : atomsOf xs = [x]) : AreAtoms xs where
  number_ne := hnumber
  atom y hy := by
    rw [hatoms] at hy
    rwa [List.mem_singleton.mp hy]
  apart := by
    rw [hatoms]
    exact List.pairwise_singleton Apart _
  unabsorbed negative hmem := by
    have hatom : .infinity negative ∈ atomsOf xs := List.mem_filter.mpr ⟨hmem, rfl⟩
    rw [hatoms] at hatom
    exact absurd (List.mem_singleton.mp hatom ▸ rfl) hinfinity

theorem areAtoms_singleton (hx : IsAtom x) (hinfinity : x.kind ≠ .infinity)
    (hrational : x.rational? = none) : AreAtoms [x] :=
  areAtoms_of_eq_singleton hx hinfinity (by simp [numberOf, hrational])
    (by simp [atomsOf, hrational])

end Reduction

end PocketAlgebra
