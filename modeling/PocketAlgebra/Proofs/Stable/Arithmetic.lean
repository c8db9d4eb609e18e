import PocketAlgebra.Proofs.Closed.Arithmetic
import PocketAlgebra.Proofs.Order.Agreement
import PocketAlgebra.Proofs.Reduction.Atoms

/-!
# Sums and products that stay

The terms of a sum are multiples of different expressions once they are collected, and the factors of
a product stand in order behind one number. Reduced again they are read as what they were, and put
together in the same way: unless the order is none for them, infinities are to be absorbed, or powers
have come to have one base.
-/

namespace PocketAlgebra

namespace Expr

/-! ## Sorting where nothing clashes -/

section Sorting

variable {α : Type} {compare : α → α → Ordering} [Std.TransCmp compare]

/-- The list is kept from its end, so that it descends. -/
theorem insertBackwards_isLE {x : α} {ys : List α}
    (hys : ys.Pairwise fun a b => (compare b a).isLE) :
    (insertBackwards compare x ys).Pairwise fun a b => (compare b a).isLE := by
  induction ys with
  | nil => exact List.pairwise_singleton _ x
  | cons y ys ih =>
      obtain ⟨hy, htail⟩ := List.pairwise_cons.mp hys
      rw [insertBackwards]
      split
      · rename_i hgt
        have hswap : compare x y = (compare y x).swap := Std.OrientedCmp.eq_swap
        have hxy : (compare x y).isLE := by
          rw [hswap, hgt]
          rfl
        refine List.pairwise_cons.mpr ⟨fun z hz => ?_, ih htail⟩
        rcases List.mem_cons.mp ((insertBackwards_perm compare x ys).mem_iff.mp hz) with rfl | hz
        · exact hxy
        · exact hy z hz
      · rename_i hgt
        have hyx : (compare y x).isLE := Ordering.isLE_iff_ne_gt.mpr hgt
        refine List.pairwise_cons.mpr ⟨fun z hz => ?_, hys⟩
        rcases List.mem_cons.mp hz with rfl | hz
        · exact hyx
        · exact Std.TransCmp.isLE_trans (hy z hz) hyx

/-- A list is sorted by a comparison that is transitive. -/
theorem insertionSort_isLE (items : List α) :
    (insertionSort compare items).Pairwise fun a b => (compare a b).isLE := by
  have hfold : ∀ sorted : List α, (sorted.Pairwise fun a b => (compare b a).isLE) →
      (items.foldl (fun sorted x => insertBackwards compare x sorted) sorted).Pairwise
        fun a b => (compare b a).isLE := by
    induction items with
    | nil => exact fun _ hsorted => hsorted
    | cons x items ih => exact fun sorted hsorted => ih _ (insertBackwards_isLE hsorted)
  rw [insertionSort, List.pairwise_reverse]
  exact hfold [] .nil

end Sorting

variable {x y : Expr} {xs ys : List Expr}

/-- Where no two of several trees clash, their order decides how they are sorted. -/
theorem sort_of_perm (hperm : xs.Perm ys) (hxs : ∀ x ∈ xs, Sortable x)
    (hclear : ∀ x ∈ xs, ∀ y ∈ xs, ¬ Clashes x y) : sort xs = sort ys := by
  have hlayered : ∀ x ∈ xs, ∀ y ∈ xs, order x y = layered x y := fun x hx y hy =>
    (hxs x hx).order_eq_layered (hxs y hy) (hclear x hx y hy)
  have hleft : sort xs = insertionSort layered xs := insertionSort_congr hlayered
  have hright : sort ys = insertionSort layered ys := insertionSort_congr fun x hx y hy =>
    hlayered x (hperm.mem_iff.mpr hx) y (hperm.mem_iff.mpr hy)
  rw [hleft, hright]
  refine List.Perm.eq_of_pairwise (fun x y hx hy hxy hyx => ?_) (insertionSort_isLE xs)
    (insertionSort_isLE ys)
    ((insertionSort_perm layered xs).trans (hperm.trans (insertionSort_perm layered ys).symm))
  have hx := (insertionSort_perm layered xs).mem_iff.mp hx
  have hy := hperm.mem_iff.mpr ((insertionSort_perm layered ys).mem_iff.mp hy)
  refine (hxs x hx).eq_of_order_eq (hxs y hy) ?_
  rw [hlayered x hx y hy]
  exact Std.OrientedCmp.isLE_antisymm hxy hyx

theorem Sortable.base (h : Sortable x) : Sortable x.base := by
  rw [Expr.base, power?.eq_def]
  split
  · exact h.operand List.mem_cons_self
  · exact h

end Expr

namespace Reduction

open PocketAlgebra.Expr Shape

variable {c : Rat} {x y : Expr} {xs ys : List Expr}

/-! ## Terms and factors that are put together -/

/-- A factor that is neither a number nor a product. -/
def IsFactor (x : Expr) : Prop :=
  x.kind ≠ .rational ∧ x.kind ≠ .multiplication

/-- Factors as products have them: in order, behind one number at most. -/
inductive Gathered : List Expr → Prop where
  | intro (c : Rat) (xs : List Expr) (factors : ∀ x ∈ xs, IsFactor x)
      (many : 2 ≤ (orderedFactors c xs).length) : Gathered (orderedFactors c xs)

/-- What a term is a multiple of: a factor, or several of them in order. -/
inductive IsRest : Expr → Prop where
  | factor {x : Expr} (h : IsFactor x) : IsRest x
  | product (xs : List Expr) (factors : ∀ x ∈ xs, IsFactor x) (many : 2 ≤ (sort xs).length) :
    IsRest (.apply .multiplication (sort xs))

/-- Terms as sums have them: in order, and multiples of different expressions. -/
structure Collected (xs : List Expr) : Prop where
  ordered : ∃ ys, xs = sort ys
  different : xs.Pairwise fun x y => x.kind ≠ .rational → y.kind ≠ .rational →
    (Term.ofExpr x).rest ≠ (Term.ofExpr y).rest

theorem forall_mem_sort {p : Expr → Prop} (h : ∀ x ∈ xs, p x) : ∀ x ∈ sort xs, p x :=
  fun x hx => h x ((sort_perm xs).mem_iff.mp hx)

theorem IsRest.kind_ne (h : IsRest x) : x.kind ≠ .rational := by
  cases h with
  | factor h => exact h.1
  | product => nofun

/-- A list of factors does not begin with a number. -/
theorem sort_ne_cons (hxs : ∀ x ∈ xs, IsFactor x) : sort xs ≠ .rational c :: ys := by
  intro h
  have hmem : Expr.rational c ∈ sort xs := by simp [h]
  exact (forall_mem_sort hxs _ hmem).1 rfl

/-- Such expressions are not read as multiples of others. -/
theorem IsRest.ofExpr (h : IsRest x) : Term.ofExpr x = ⟨1, x⟩ := by
  rw [Term.ofExpr.eq_def]
  split
  · rename_i c factors
    generalize hx : Expr.apply .multiplication (.rational c :: factors) = x at h
    cases h with
    | factor h => exact absurd (hx ▸ rfl) h.2
    | product xs hxs =>
        injection hx with _ hx
        exact absurd hx.symm (sort_ne_cons hxs)
  · rfl

/-- Several factors make up what a term is a multiple of only in order. -/
theorem IsRest.gathered (h : IsRest (.apply .multiplication xs)) : Gathered xs := by
  generalize hx : Expr.apply .multiplication xs = x at h
  cases h with
  | factor h => exact absurd (hx ▸ rfl) h.2
  | product ys hys hmany =>
      injection hx with _ hx
      have hordered : orderedFactors 1 ys = sort ys := by
        rw [orderedFactors, if_pos rfl, List.nil_append]
      rw [hx, ← hordered]
      exact .intro 1 ys hys (hordered ▸ hmany)

/-- A multiple as it is written. -/
theorem toExpr_cases {t : Term} (h : IsRest t.rest) (hone : t.coefficient ≠ 1) :
    ∃ ys, (∀ y ∈ ys, IsFactor y) ∧ 2 ≤ (orderedFactors t.coefficient ys).length ∧
      t.toExpr = .apply .multiplication (orderedFactors t.coefficient ys) ∧
        orderedFactors t.coefficient ys = .rational t.coefficient :: sort ys ∧
          assemble .multiplication 1 (sort ys) = t.rest := by
  obtain ⟨c, rest⟩ := t
  have hordered : ∀ ys, orderedFactors c ys = .rational c :: sort ys := fun ys => by
    rw [orderedFactors, if_neg hone]
    rfl
  rw [Term.toExpr, if_neg hone]
  dsimp only
  cases h with
  | product ys hys hmany =>
      refine ⟨ys, hys, ?_, ?_, hordered ys, assemble_of_length _ _ hmany⟩ <;> rw [hordered]
      exact hmany.trans (Nat.le_succ _)
  | factor h =>
      refine ⟨[rest], List.forall_mem_singleton.mpr h, ?_, ?_, hordered _, rfl⟩ <;> rw [hordered]
      · exact le_rfl
      · split
        · exact absurd rfl h.2
        · rfl

/-- A multiple is read as it is written. -/
theorem ofExpr_toExpr {t : Term} (h : IsRest t.rest) : Term.ofExpr t.toExpr = t := by
  by_cases hone : t.coefficient = 1
  · rw [Term.toExpr, if_pos hone, h.ofExpr, ← hone]
  · obtain ⟨ys, -, -, htoExpr, hordered, hrest⟩ := toExpr_cases h hone
    rw [htoExpr, hordered, Term.ofExpr, hrest]

theorem kind_toExpr {t : Term} (h : IsRest t.rest) : t.toExpr.kind ≠ .rational := by
  by_cases hone : t.coefficient = 1
  · rw [Term.toExpr, if_pos hone]
    exact h.kind_ne
  · obtain ⟨ys, -, -, htoExpr, -⟩ := toExpr_cases h hone
    rw [htoExpr]
    exact Kind.noConfusion

/-- Factors in order make up what a term is a multiple of. -/
theorem isRest_assemble (hxs : ∀ x ∈ xs, IsFactor x) (hne : sort xs ≠ []) :
    IsRest (assemble .multiplication 1 (sort xs)) := by
  match hsort : sort xs, hne with
  | [x], _ => exact .factor (forall_mem_sort hxs x (by simp [hsort]))
  | x :: y :: ys, _ =>
      rw [assemble_of_length _ _ (by simp), ← hsort]
      exact .product xs hxs (by simp [hsort])

/-- Of a term, the number is taken away. -/
theorem isRest_ofExpr (hrational : x.kind ≠ .rational)
    (hproduct : ∀ xs, x = .apply .multiplication xs → Gathered xs) :
    IsRest (Term.ofExpr x).rest := by
  by_cases hkind : x.kind = .multiplication
  · obtain ⟨xs, rfl⟩ := exists_operands_of_kind (.inr rfl) hkind
    obtain ⟨c, ys, hys, hmany⟩ := hproduct xs rfl
    rw [orderedFactors] at hmany ⊢
    split at hmany <;> rename_i hone
    · rw [if_pos hone, List.nil_append]
      have hrest : IsRest (.apply .multiplication (sort ys)) := .product ys hys hmany
      rwa [hrest.ofExpr]
    · rw [if_neg hone]
      refine isRest_assemble hys fun hnil => ?_
      simp [hnil] at hmany
  · have hrest : IsRest x := .factor ⟨hrational, hkind⟩
    rwa [hrest.ofExpr]

/-! ## Collecting -/

theorem rest_of_mem_insert {t u : Term} {ts : List Term} (h : u ∈ t.insert ts) :
    u.rest = t.rest ∨ ∃ s ∈ ts, u.rest = s.rest := by
  induction ts with
  | nil => exact .inl (congrArg Term.rest (List.mem_singleton.mp h))
  | cons s ts ih =>
      rw [Term.insert] at h
      split at h
      · rcases List.mem_cons.mp h with rfl | h
        · exact .inr ⟨s, List.mem_cons_self, rfl⟩
        · exact .inr ⟨u, List.mem_cons_of_mem s h, rfl⟩
      · rcases List.mem_cons.mp h with rfl | h
        · exact .inr ⟨u, List.mem_cons_self, rfl⟩
        · obtain heq | ⟨r, hr, hu⟩ := ih h
          · exact .inl heq
          · exact .inr ⟨r, List.mem_cons_of_mem s hr, hu⟩

theorem different_insert {t : Term} {ts : List Term} (hts : ts.Pairwise (·.rest ≠ ·.rest)) :
    (t.insert ts).Pairwise (·.rest ≠ ·.rest) := by
  induction ts with
  | nil => exact List.pairwise_singleton _ t
  | cons s ts ih =>
      obtain ⟨hs, htail⟩ := List.pairwise_cons.mp hts
      rw [Term.insert]
      split
      · exact List.pairwise_cons.mpr ⟨hs, htail⟩
      · rename_i hsame
        refine List.pairwise_cons.mpr ⟨fun u hu heq => ?_, ih htail⟩
        rcases rest_of_mem_insert hu with hu | ⟨r, hr, hu⟩
        · exact hsame (heq.trans hu ▸ same_self _)
        · exact hs r hr (heq.trans hu)

/-- Collected terms are multiples of what the given ones are multiples of. -/
theorem rest_of_mem_foldl {t : Term} {s : LinearSum} (h : t ∈ (xs.foldl LinearSum.add s).terms) :
    (∃ u ∈ s.terms, t.rest = u.rest) ∨
      ∃ x ∈ xs, x.kind ≠ .rational ∧ t.rest = (Term.ofExpr x).rest := by
  induction xs generalizing s with
  | nil => exact .inl ⟨t, h, rfl⟩
  | cons x xs ih =>
      rcases ih h with ⟨u, hu, ht⟩ | ⟨y, hy, ht⟩
      · rw [LinearSum.add.eq_def] at hu
        split at hu
        · exact .inl ⟨u, hu, ht⟩
        · rename_i hrational
          rcases rest_of_mem_insert hu with hux | ⟨r, hr, hur⟩
          · refine .inr ⟨x, List.mem_cons_self, fun hkind => ?_, ht.trans hux⟩
            obtain ⟨q, rfl⟩ := exists_rational_of_kind hkind
            exact hrational q rfl
          · exact .inl ⟨r, hr, ht.trans hur⟩
      · exact .inr ⟨y, List.mem_cons_of_mem x hy, ht⟩

theorem different_foldl {s : LinearSum} (hs : s.terms.Pairwise (·.rest ≠ ·.rest)) :
    (xs.foldl LinearSum.add s).terms.Pairwise (·.rest ≠ ·.rest) := by
  induction xs generalizing s with
  | nil => exact hs
  | cons x xs ih =>
      refine ih ?_
      rw [LinearSum.add.eq_def]
      split
      · exact hs
      · exact different_insert hs

/-- The terms of a sum, as they are written. -/
def writtenTerms (s : LinearSum) : List Expr :=
  (s.terms.filter (·.coefficient ≠ 0)).map Term.toExpr ++
    (if s.constant = 0 then [] else [.rational s.constant])

theorem collected_writtenTerms {s : LinearSum} (hrest : ∀ t ∈ s.terms, IsRest t.rest)
    (hdifferent : s.terms.Pairwise (·.rest ≠ ·.rest)) : Collected (sort (writtenTerms s)) := by
  refine ⟨⟨_, rfl⟩, (sort_perm _).symm.pairwise ?_ fun h hy hx => (h hx hy).symm⟩
  refine List.pairwise_append.mpr ⟨List.pairwise_map.mpr ?_, ?_, ?_⟩
  · refine (hdifferent.filter (·.coefficient ≠ 0)).imp_of_mem fun {t u} ht hu htu _ _ => ?_
    rwa [ofExpr_toExpr (hrest t (List.mem_of_mem_filter ht)),
      ofExpr_toExpr (hrest u (List.mem_of_mem_filter hu))]
  · split
    · exact .nil
    · exact List.pairwise_singleton _ _
  · intro x _ y hy _ hrational
    split at hy
    · cases hy
    · rw [List.mem_singleton.mp hy] at hrational
      exact absurd rfl hrational

/-! ## Tidy sums and products -/

/-- Terms that reduction leaves alone once they are collected: no two of them clash, infinities
agree, and there are others with them than numbers. -/
structure TidySum (xs : List Expr) : Prop where
  scalars : ∀ x ∈ xs, x.isMatrix = false
  clear : ∀ x ∈ xs, ∀ y ∈ xs, ¬ Clashes x y
  agreed : ∀ a b, .infinity a ∈ xs → .infinity b ∈ xs → a = b
  unabsorbed : ∀ a, .infinity a ∈ xs → ∃ x ∈ xs, x.kind.isNumber = false

/-- Factors that reduction leaves alone once they are gathered: no two of them clash, no two are
powers of one base, and if there is an infinity then not all signs are known. -/
structure TidyProduct (xs : List Expr) : Prop where
  scalars : ∀ x ∈ xs, x.isMatrix = false
  clear : ∀ x ∈ xs, ∀ y ∈ xs, ¬ Clashes x y
  bases : xs.Pairwise fun x y => x.kind ≠ .rational → y.kind ≠ .rational → x.base ≠ y.base
  unabsorbed : ∀ a, .infinity a ∈ xs → ∃ x ∈ xs, x.sign.isStrict = false

theorem flattenAll_of_ne {f : Operator} (h : ∀ x ∈ xs, x.kind ≠ f.kind) : flattenAll f xs = xs := by
  induction xs with
  | nil => rfl
  | cons x xs ih =>
      rw [flattenAll, flatten_of_ne (h x List.mem_cons_self),
        ih fun y hy => h y (List.mem_cons_of_mem x hy)]
      rfl

/-! ### Sums -/

theorem insert_of_ne {t : Term} {ts : List Term} (h : ∀ s ∈ ts, s.rest.same t.rest = false) :
    t.insert ts = ts ++ [t] := by
  induction ts with
  | nil => rfl
  | cons s ts ih =>
      rw [Term.insert, h s List.mem_cons_self, if_neg Bool.false_ne_true,
        ih fun r hr => h r (List.mem_cons_of_mem s hr), List.cons_append]

/-- The constant of a sum is that of its numbers. -/
theorem constant_foldl_add (s : LinearSum) (xs : List Expr) :
    (xs.foldl LinearSum.add s).constant = s.constant + (xs.filterMap Expr.rational?).sum := by
  induction xs generalizing s with
  | nil => exact (add_zero _).symm
  | cons x xs ih =>
      rw [List.foldl_cons, ih, LinearSum.add.eq_def]
      split
      · simp [Expr.rational?, add_assoc]
      · rename_i hrational
        have hnone : x.rational? = none := by
          cases x with
          | rational q => exact absurd rfl (hrational q)
          | _ => rfl
        rw [List.filterMap_cons_none hnone]

/-- Terms that are multiples of different expressions are not merged. -/
theorem terms_foldl_add {s : LinearSum}
    (hs : ∀ t ∈ s.terms, ∀ x ∈ xs, x.kind ≠ .rational → t.rest.same (Term.ofExpr x).rest = false)
    (hxs : xs.Pairwise fun x y => x.kind ≠ .rational → y.kind ≠ .rational →
      (Term.ofExpr x).rest.same (Term.ofExpr y).rest = false) :
    (xs.foldl LinearSum.add s).terms =
      s.terms ++ (xs.filter (·.kind != .rational)).map Term.ofExpr := by
  induction xs generalizing s with
  | nil => exact (List.append_nil _).symm
  | cons x xs ih =>
      obtain ⟨hx, htail⟩ := List.pairwise_cons.mp hxs
      have hrest : ∀ t ∈ s.terms, ∀ y ∈ xs, y.kind ≠ .rational →
          t.rest.same (Term.ofExpr y).rest = false := fun t ht y hy =>
        hs t ht y (List.mem_cons_of_mem x hy)
      rw [List.foldl_cons]
      by_cases hkind : x.kind = .rational
      · obtain ⟨q, rfl⟩ := exists_rational_of_kind hkind
        exact ih (s := s.add (.rational q)) hrest htail
      · have hadd : s.add x = { s with terms := s.terms ++ [Term.ofExpr x] } := by
          rw [LinearSum.add.eq_def, ← insert_of_ne fun t ht => hs t ht x List.mem_cons_self hkind]
          split
          · exact absurd rfl hkind
          · rfl
        rw [hadd, ih ?_ htail, List.filter_cons_of_pos (by simpa using hkind), List.map_cons,
          List.append_assoc]
        · rfl
        · intro t ht y hy hy'
          rcases List.mem_append.mp ht with ht | ht
          · exact hrest t ht y hy hy'
          · rw [List.mem_singleton.mp ht]
            exact hx y hy hkind hy'

/-- A number that stands first among factors is not one, and the others are in order. -/
theorem Gathered.of_cons (h : Gathered (.rational c :: xs)) :
    c ≠ 1 ∧ xs ≠ [] ∧ ∀ x ∈ xs, IsFactor x := by
  generalize hcons : Expr.rational c :: xs = ys at h
  obtain ⟨d, ys, hys, hmany⟩ := h
  rw [orderedFactors] at hcons hmany
  split at hcons <;> rename_i hone
  · exact absurd hcons.symm (sort_ne_cons hys)
  · rw [if_neg hone] at hmany
    obtain ⟨hd, hxs⟩ := List.cons.inj hcons
    injection hd with hd
    change xs = sort ys at hxs
    rw [hd, hxs]
    refine ⟨hone, fun hnil => ?_, forall_mem_sort hys⟩
    simp [hnil] at hmany

/-- A term that is read is written as it was. -/
theorem toExpr_ofExpr (hproduct : ∀ xs, x = .apply .multiplication xs → Gathered xs) :
    (Term.ofExpr x).toExpr = x := by
  rw [Term.ofExpr.eq_def]
  split
  · rename_i c factors
    obtain ⟨hone, hne, hfactors⟩ := (hproduct _ rfl).of_cons
    rw [Term.toExpr, if_neg hone]
    rcases factors with _ | ⟨y, _ | ⟨z, factors⟩⟩
    · exact absurd rfl hne
    · have hy := (hfactors y List.mem_cons_self).2
      split
      · rename_i hrest
        exact absurd (congrArg kind hrest) hy
      · rfl
    · rfl
  · rw [Term.toExpr, if_pos rfl]

theorem coefficient_ofExpr (h : ∀ xs, x = .apply .multiplication xs → .rational 0 ∉ xs) :
    (Term.ofExpr x).coefficient ≠ 0 := by
  rw [Term.ofExpr.eq_def]
  split
  · rename_i c factors
    rintro rfl
    exact h _ rfl List.mem_cons_self
  · exact one_ne_zero

/-- Reading leaves out no more than a number. -/
theorem closedOperands_everywhere : ClosedOperands (Everywhere (·.kind ≠ .decimal)) where
  rational q := (everywhere_leaf rfl).mpr nofun
  operand _ h hx := h.operand hx
  many hf _ hxs := everywhere_apply.mpr ⟨by rcases hf with rfl | rfl <;> nofun, hxs⟩
  prefixed h hx := everywhere_apply.mpr ⟨nofun, List.forall_mem_cons.mpr
    ⟨hx, fun _ hy => h.operand hy⟩⟩

theorem same_eq_false (hx : Sortable x) (h : (Term.ofExpr x).rest ≠ y) :
    (Term.ofExpr x).rest.same y = false :=
  Bool.eq_false_iff.mpr fun hsame =>
    h ((closedOperands_everywhere.term_ofExpr hx.everywhere).eq_of_same hsame)

theorem filterMap_rational? (xs : List Expr) :
    (xs.filterMap Expr.rational?).map Expr.rational = xs.filter (·.kind == .rational) := by
  induction xs with
  | nil => rfl
  | cons x xs ih =>
      by_cases hkind : x.kind = .rational
      · obtain ⟨q, rfl⟩ := exists_rational_of_kind hkind
        rw [List.filter_cons_of_pos (by simpa using hkind), ← ih]
        rfl
      · have hnone : x.rational? = none := by
          cases x with
          | rational q => exact absurd rfl hkind
          | _ => rfl
        rw [List.filterMap_cons_none hnone, ih, List.filter_cons_of_neg (by simpa using hkind)]

/-- A collected sum is made up of its terms again. -/
theorem perm_writtenTerms (hsum : SumShape xs) (hcollected : Collected xs)
    (hsortable : ∀ x ∈ xs, Sortable x)
    (hproducts : ∀ x ∈ xs, ∀ ys, x = .apply .multiplication ys → Gathered ys ∧ .rational 0 ∉ ys) :
    (writtenTerms (xs.foldl LinearSum.add {})).Perm xs := by
  have hterms := terms_foldl_add (s := {}) nofun
    (hcollected.different.imp_of_mem fun {x y} hx _ h hrx hry =>
      same_eq_false (hsortable x hx) (h hrx hry))
  have hconstant : (xs.foldl LinearSum.add {}).constant = (xs.filterMap Expr.rational?).sum :=
    (constant_foldl_add {} xs).trans (zero_add _)
  have hwritten : (((xs.filter (·.kind != .rational)).map Term.ofExpr).filter
      (·.coefficient ≠ 0)).map Term.toExpr = xs.filter (·.kind != .rational) := by
    rw [List.filter_eq_self.mpr, List.map_map]
    · refine (List.map_congr_left fun x hx => ?_).trans (List.map_id _)
      exact toExpr_ofExpr fun ys hys => (hproducts x (List.mem_of_mem_filter hx) ys hys).1
    · intro t ht
      obtain ⟨x, hx, rfl⟩ := List.mem_map.mp ht
      exact decide_eq_true (coefficient_ofExpr fun ys hys =>
        (hproducts x (List.mem_of_mem_filter hx) ys hys).2)
  have hnumbers : (if (xs.foldl LinearSum.add {}).constant = 0 then []
      else [Expr.rational (xs.foldl LinearSum.add {}).constant]) =
        xs.filter (·.kind == .rational) := by
    have hcount := hsum.constant
    rw [List.countP_eq_length_filter, ← filterMap_rational?, List.length_map] at hcount
    have hmem : ∀ q ∈ xs.filterMap Expr.rational?, q ≠ 0 := by
      rintro q hq rfl
      have hrational := List.mem_map_of_mem (f := Expr.rational) hq
      rw [filterMap_rational?] at hrational
      exact hsum.nonzero _ (List.mem_of_mem_filter hrational) rfl
    rw [hconstant, ← filterMap_rational?]
    match xs.filterMap Expr.rational?, hcount, hmem with
    | [], _, _ => exact if_pos List.sum_nil
    | [q], _, hmem =>
        rw [List.sum_singleton, if_neg (hmem q List.mem_cons_self), List.map_singleton]
  rw [writtenTerms, hnumbers, hterms, List.nil_append, hwritten]
  exact List.perm_append_comm.trans (List.filter_append_perm _ xs)

theorem infiniteSum?_ne (h : TidySum xs) : infiniteSum? xs ≠ some none := by
  rw [infiniteSum?]
  split
  · exact (Option.some_ne_none none).symm
  · rename_i a others hsigns
    have hmem : ∀ b ∈ a :: others, .infinity b ∈ xs := by
      intro b hb
      rw [← hsigns] at hb
      obtain ⟨x, hx, hb⟩ := List.mem_filterMap.mp hb
      cases x with
      | infinity negative => exact Option.some.inj hb ▸ hx
      | _ => cases hb
    have hall : others.all (· == a) = true := List.all_eq_true.mpr fun b hb =>
      beq_iff_eq.mpr (h.agreed b a (hmem b (List.mem_cons_of_mem a hb)) (hmem a List.mem_cons_self))
    simp [hall]

theorem all_isNumber_eq_false (h : TidySum xs) {a : Bool} (ha : infiniteSum? xs = some (some a)) :
    xs.all (·.kind.isNumber) = false := by
  rw [infiniteSum?] at ha
  split at ha
  · cases ha
  · rename_i b others hsigns
    have hb : b ∈ xs.filterMap Expr.infinity? := by simp [hsigns]
    obtain ⟨x, hx, hb⟩ := List.mem_filterMap.mp hb
    have hinfinity : .infinity b ∈ xs := by
      cases x with
      | infinity negative => exact Option.some.inj hb ▸ hx
      | _ => cases hb
    obtain ⟨y, hy, hnumber⟩ := h.unabsorbed b hinfinity
    rw [List.all_eq_false]
    exact ⟨y, hy, by simp [hnumber]⟩

/-- A tidy sum of collected terms stays. -/
theorem reduceSum_of_tidy (node : NodeReducer) (hcanonical : Canonical (.apply .addition xs))
    (hregular : Regular (.apply .addition xs)) (hcollected : Collected xs)
    (hproducts : ∀ x ∈ xs, ∀ ys, x = .apply .multiplication ys → Gathered ys) (htidy : TidySum xs) :
    reduceSum node xs = pure (.apply .addition xs) := by
  have hsum := hcanonical.shape.sum rfl
  have hsortable : ∀ x ∈ xs, Sortable x := fun x hx =>
    (sortable_of_canonical hcanonical hregular).operand hx
  have hpoison : poison? xs = none := poison?_eq_none fun x hx =>
    (hcanonical.operand_proper rfl hx).2
  have hmatrices : xs.any isMatrix = false := by
    rw [List.any_eq_false]
    exact fun x hx => by simp [htidy.scalars x hx]
  have hscalars : sumOfScalars xs = (xs.foldl LinearSum.add {}).toExpr := by
    rw [sumOfScalars]
    split
    · rename_i h
      exact absurd h (infiniteSum?_ne htidy)
    · rename_i h
      rw [all_isNumber_eq_false htidy h, if_neg Bool.false_ne_true]
    · rfl
  have hperm := perm_writtenTerms hsum hcollected hsortable fun x hx ys hys => by
    refine ⟨hproducts x hx ys hys, fun hzero => ?_⟩
    subst hys
    exact (((hcanonical.operand hx).shape.product rfl).coefficient _ hzero).1 rfl
  obtain ⟨ys, rfl⟩ := hcollected.ordered
  have hsort := sort_of_perm (hperm.trans (sort_perm ys))
    (fun x hx => hsortable x (hperm.mem_iff.mp hx))
    fun x hx y hy => htidy.clear x (hperm.mem_iff.mp hx) y (hperm.mem_iff.mp hy)
  rw [reduceSum, flattenAll_of_ne hsum.flat, hpoison, hmatrices, hscalars]
  change pure (assemble .addition 0 (sort (writtenTerms _))) = _
  rw [hsort, assemble_of_length _ _ hsum.many]

/-! ### Products -/

theorem atomsOf_orderedFactors (hxs : ∀ x ∈ sort xs, x.kind ≠ .rational) :
    atomsOf (orderedFactors c xs) = sort xs := by
  have hsort : atomsOf (sort xs) = sort xs := List.filter_eq_self.mpr fun x hx => by
    rw [Option.isNone_iff_eq_none, Option.eq_none_iff_forall_not_mem]
    exact fun q hq => hxs x hx (eq_rational hq ▸ rfl)
  rw [orderedFactors, atomsOf_append, hsort]
  split <;> rfl

theorem numberOf_orderedFactors (hxs : ∀ x ∈ sort xs, x.kind ≠ .rational) :
    numberOf (orderedFactors c xs) = c := by
  have hsort : numberOf (sort xs) = 1 := by
    rw [numberOf, List.filterMap_eq_nil_iff.mpr fun x hx => ?_, List.prod_nil]
    rw [Option.eq_none_iff_forall_not_mem]
    exact fun q hq => hxs x hx (eq_rational hq ▸ rfl)
  rw [orderedFactors, numberOf_append, hsort, mul_one]
  split
  · rename_i hone
    rw [hone]
    rfl
  · exact mul_one c

/-- Factors in order are written as they were. -/
theorem atomicProduct_orderedFactors (hxs : ∀ x ∈ sort xs, x.kind ≠ .rational)
    (hsort : sort (sort xs) = sort xs) :
    atomicProduct (orderedFactors c xs) = assemble .multiplication 1 (orderedFactors c xs) := by
  rw [atomicProduct, numberOf_orderedFactors hxs, atomsOf_orderedFactors hxs, hsort]
  rfl

theorem base_groupOf (x : Expr) : (groupOf x).base = x.base := by
  rw [groupOf.eq_def]
  split
  · rfl
  · rename_i hpower
    rw [base, power?.eq_def]
    split
    · exact absurd rfl (hpower _ _)
    · rfl

/-- The factors of a product, apart from numbers, stay as they are. -/
theorem areAtoms_of_tidy (hcanonical : Canonical (.apply .multiplication xs))
    (hregular : Regular (.apply .multiplication xs))
    (hpowers : ∀ x ∈ xs, ∀ base exponent, x = .apply .power [base, exponent] →
      exponent.isRational 1 = false) (htidy : TidyProduct xs) : AreAtoms xs := by
  have hshape := hcanonical.shape.product rfl
  have hproper : ∀ x ∈ xs, Proper x := fun x => hcanonical.operand_proper rfl
  have hatoms : ∀ x ∈ atomsOf xs, x ∈ xs ∧ x.kind ≠ .rational := by
    intro x hx
    obtain ⟨hx, hnone⟩ := List.mem_filter.mp hx
    refine ⟨hx, fun hkind => ?_⟩
    obtain ⟨q, rfl⟩ := exists_rational_of_kind hkind
    cases hnone
  refine ⟨fun hzero => ?_, fun x hx => ?_, List.pairwise_map.mpr ?_, htidy.unabsorbed⟩
  · obtain ⟨x, hx, hzero⟩ := List.mem_filterMap.mp (List.prod_eq_zero_iff.mp hzero)
    exact (hshape.coefficient x hx).1 (eq_rational hzero)
  · obtain ⟨hx, hrational⟩ := hatoms x hx
    by_cases hkind : x.kind = .power
    · have hlength := (hregular.operand hx).here
      cases x with
      | apply f ys =>
          cases eq_of_arithmetic (.inr (.inr rfl)) hkind
          obtain ⟨base, exponent, rfl⟩ := List.length_eq_two.mp (hlength.1 rfl)
          exact .power (hpowers _ hx base exponent rfl)
      | _ => cases hkind
    · refine .single ⟨(hproper x hx).1.2, htidy.scalars x hx, (hproper x hx).2⟩ hrational ?_ hkind
      exact isMany_eq_false_iff.mpr (hshape.flat x hx)
  · refine (htidy.bases.filter _).imp_of_mem fun {x y} hx hy h => Bool.eq_false_iff.mpr fun hsame => ?_
    obtain ⟨hx, hrational⟩ := hatoms x hx
    rw [base_groupOf, base_groupOf] at hsame
    have hsortable := (sortable_of_canonical hcanonical hregular).operand hx
    exact h hrational (hatoms y hy).2 (hsortable.base.everywhere.eq_of_same hsame)

/-- A tidy product of gathered factors stays. -/
theorem reduceProduct_of_tidy (node : NodeReducer)
    (hcanonical : Canonical (.apply .multiplication xs))
    (hregular : Regular (.apply .multiplication xs)) (hgathered : Gathered xs)
    (hpowers : ∀ x ∈ xs, ∀ base exponent, x = .apply .power [base, exponent] →
      exponent.isRational 1 = false) (htidy : TidyProduct xs) :
    reduceProduct node xs = pure (.apply .multiplication xs) := by
  have hflat : flattenAll .multiplication xs = xs :=
    flattenAll_of_ne fun x hx => hcanonical.flat (.inr rfl) hx
  have hatoms := areAtoms_of_tidy hcanonical hregular hpowers htidy
  rw [reduceProduct_atoms node (hflat.symm ▸ hatoms), hflat]
  obtain ⟨c, ys, hys, hmany⟩ := hgathered
  have hmem : ∀ x ∈ sort ys, x ∈ orderedFactors c ys := fun x => List.mem_append_right _
  have hsort : sort (sort ys) = sort ys :=
    sort_of_perm (sort_perm ys)
      (fun x hx => (sortable_of_canonical hcanonical hregular).operand (hmem x hx))
      fun x hx y hy => htidy.clear x (hmem x hx) y (hmem y hy)
  rw [atomicProduct_orderedFactors (fun x hx => (forall_mem_sort hys x hx).1) hsort,
    assemble_of_length _ _ hmany]

end Reduction

end PocketAlgebra
