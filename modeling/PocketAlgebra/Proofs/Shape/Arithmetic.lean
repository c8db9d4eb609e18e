import PocketAlgebra.Proofs.Field.Product
import PocketAlgebra.Proofs.Shape.Canonical
import PocketAlgebra.Reduction.Product
import PocketAlgebra.Reduction.Sum

/-!
# Canonical sums and products
-/

namespace PocketAlgebra

/-!
## Canonical sums

Collected terms are multiples of expressions that are neither sums nor numbers, and whose factors
are no numbers either.  So what is written for a term is no number, and putting a coefficient before
it gives a canonical product.
-/

namespace Shape

open PocketAlgebra.Expr Reduction

variable {x y : Expr} {xs ys : List Expr}

/-! ### Assembling -/

theorem proper_addition (hxs : ∀ x ∈ xs, Proper x) (hsum : SumShape xs) :
    Proper (.apply .addition xs) := by
  refine ⟨⟨.apply ⟨rfl, fun _ => hsum, nofun, fun x hx hpoison => ?_, fun x hx hlist => ?_, nofun⟩
    fun x hx => (hxs x hx).canonical, rfl⟩, rfl⟩
  · rw [(hxs x hx).2] at hpoison
    cases hpoison
  · rw [(hxs x hx).1.2] at hlist
    cases hlist

theorem proper_multiplication (hxs : ∀ x ∈ xs, Proper x) (hproduct : ProductShape xs) :
    Proper (.apply .multiplication xs) := by
  refine ⟨⟨.apply ⟨rfl, nofun, fun _ => hproduct, fun x hx hpoison => ?_, fun x hx hlist => ?_,
    nofun⟩ fun x hx => (hxs x hx).canonical, rfl⟩, rfl⟩
  · rw [(hxs x hx).2] at hpoison
    cases hpoison
  · rw [(hxs x hx).1.2] at hlist
    cases hlist

/-- What may stand behind the coefficient of a product. -/
structure Factor (x : Expr) : Prop where
  proper : Proper x
  not_rational : x.kind ≠ .rational
  not_addition : x.kind ≠ .addition
  not_multiplication : x.kind ≠ .multiplication

/-- A rational number other than zero and one before factors that are no numbers. -/
theorem productShape_cons {c : Rat} (hzero : c ≠ 0) (hone : c ≠ 1) (hne : xs ≠ [])
    (hxs : ∀ x ∈ xs, Factor x) : ProductShape (.rational c :: xs) where
  many := by
    have := List.length_pos_of_ne_nil hne
    rw [List.length_cons]
    omega
  flat := List.forall_mem_cons.mpr ⟨by simp [kind],
    fun x hx => ⟨(hxs x hx).not_addition, (hxs x hx).not_multiplication⟩⟩
  leading := fun x hx => (hxs x hx).not_rational
  coefficient := List.forall_mem_cons.mpr ⟨by simp [hzero, hone], fun x hx =>
    ⟨fun h => (hxs x hx).not_rational (by rw [h]; rfl),
      fun h => (hxs x hx).not_rational (by rw [h]; rfl)⟩⟩

theorem productShape_factors (hmany : 2 ≤ xs.length) (hxs : ∀ x ∈ xs, Factor x) :
    ProductShape xs where
  many := hmany
  flat := fun x hx => ⟨(hxs x hx).not_addition, (hxs x hx).not_multiplication⟩
  leading := fun x hx => (hxs x (List.mem_of_mem_tail hx)).not_rational
  coefficient := fun x hx =>
    ⟨fun h => (hxs x hx).not_rational (by rw [h]; rfl),
      fun h => (hxs x hx).not_rational (by rw [h]; rfl)⟩

theorem proper_coefficient {c : Rat} (hzero : c ≠ 0) (hone : c ≠ 1) (hne : xs ≠ [])
    (hxs : ∀ x ∈ xs, Factor x) : Proper (.apply .multiplication (.rational c :: xs)) :=
  proper_multiplication
    (List.forall_mem_cons.mpr ⟨proper_rational c, fun x hx => (hxs x hx).proper⟩)
    (productShape_cons hzero hone hne hxs)

theorem proper_assemble (hxs : ∀ x ∈ xs, Factor x) : Proper (assemble .multiplication 1 xs) := by
  match xs with
  | [] => exact proper_integer 1
  | [x] => exact (hxs x List.mem_cons_self).proper
  | x :: y :: xs =>
      exact proper_multiplication (fun z hz => (hxs z hz).proper)
        (productShape_factors (by simp) hxs)

/-- The factors of a canonical product behind the first one. -/
theorem Canonical.factor (h : Canonical (.apply .multiplication (x :: xs))) (hy : y ∈ xs) :
    Factor y where
  proper := h.operand_proper rfl (List.mem_cons_of_mem x hy)
  not_rational := (h.shape.product rfl).leading y hy
  not_addition := ((h.shape.product rfl).flat y (List.mem_cons_of_mem x hy)).1
  not_multiplication := ((h.shape.product rfl).flat y (List.mem_cons_of_mem x hy)).2

/-! ### Terms -/

/-- What a term is a multiple of. -/
structure Rest (x : Expr) : Prop where
  proper : Proper x
  not_rational : x.kind ≠ .rational
  not_addition : x.kind ≠ .addition
  factors : ∀ ys, x = .apply .multiplication ys → ∀ y ∈ ys, y.kind ≠ .rational

theorem Factor.rest (h : Factor x) : Rest x where
  proper := h.proper
  not_rational := h.not_rational
  not_addition := h.not_addition
  factors := by
    rintro ys rfl
    exact absurd rfl h.not_multiplication

/-- Factors behind a coefficient make up what the product is a multiple of. -/
theorem rest_assemble (hne : xs ≠ []) (hxs : ∀ x ∈ xs, Factor x) :
    Rest (assemble .multiplication 1 xs) := by
  match xs, hne with
  | [x], _ => exact (hxs x List.mem_cons_self).rest
  | x :: y :: xs, _ =>
      refine ⟨proper_assemble hxs, nofun, nofun, ?_⟩
      rintro ys ⟨⟩ z hz
      exact (hxs z hz).not_rational

theorem rest_ofExpr (h : Proper x) (hsum : x.kind ≠ .addition) (hrational : x.kind ≠ .rational) :
    Rest (Term.ofExpr x).rest := by
  rw [Term.ofExpr.eq_def]
  split
  · rename_i c factors
    have hmany := (h.canonical.shape.product rfl).many
    refine rest_assemble ?_ fun y hy => h.canonical.factor hy
    rintro rfl
    simp at hmany
  · rename_i hcoefficient
    refine ⟨h, hrational, hsum, ?_⟩
    rintro ys rfl y hy hkind
    -- A rational factor would stand first, and then the term were read with a coefficient.
    match ys, hy with
    | z :: zs, hy =>
        rcases List.mem_cons.mp hy with rfl | hy
        · rcases exists_rational_of_kind hkind with ⟨c, rfl⟩
          exact hcoefficient c zs rfl
        · exact (h.canonical.factor hy).not_rational hkind

theorem rest_insert {t : Term} {ts : List Term} (ht : Rest t.rest) (hts : ∀ s ∈ ts, Rest s.rest) :
    ∀ s ∈ t.insert ts, Rest s.rest := by
  induction ts with
  | nil => simpa [Term.insert] using ht
  | cons r ts ih =>
      have hr := hts r List.mem_cons_self
      have htail := fun s hs => hts s (List.mem_cons_of_mem r hs)
      rw [Term.insert]
      split
      · exact List.forall_mem_cons.mpr ⟨hr, htail⟩
      · exact List.forall_mem_cons.mpr ⟨hr, ih htail⟩

/-- What is written for a term. -/
theorem rest_factors (h : Rest (.apply .multiplication xs)) : xs ≠ [] ∧ ∀ x ∈ xs, Factor x := by
  have hshape := h.proper.canonical.shape.product rfl
  constructor
  · rintro rfl
    exact absurd hshape.many (by simp)
  · intro x hx
    exact ⟨h.proper.canonical.operand_proper rfl hx, h.factors xs rfl x hx, (hshape.flat x hx).1,
      (hshape.flat x hx).2⟩

theorem term_toExpr {t : Term} (h : Rest t.rest) (hzero : t.coefficient ≠ 0) :
    Proper t.toExpr ∧ t.toExpr.kind ≠ .addition ∧ t.toExpr.kind ≠ .rational := by
  rw [Term.toExpr]
  split
  · exact ⟨h.proper, h.not_addition, h.not_rational⟩
  · rename_i hone
    split
    · rename_i factors hrest
      rw [hrest] at h
      rcases rest_factors h with ⟨hne, hfactors⟩
      exact ⟨proper_coefficient hzero hone hne hfactors, nofun, nofun⟩
    · rename_i rest hmultiplication
      have hfactor : Factor t.rest := by
        refine ⟨h.proper, h.not_rational, h.not_addition, fun hkind => ?_⟩
        rcases exists_operands_of_kind (.inr rfl) hkind with ⟨ys, hrest⟩
        exact hmultiplication ys hrest
      exact ⟨proper_coefficient hzero hone (by simp) (List.forall_mem_singleton.mpr hfactor),
        nofun, nofun⟩

/-! ### Collected sums -/

theorem foldl_add_rest (hxs : ∀ x ∈ xs, Proper x ∧ x.kind ≠ .addition) {s : LinearSum}
    (hs : ∀ t ∈ s.terms, Rest t.rest) : ∀ t ∈ (xs.foldl LinearSum.add s).terms, Rest t.rest := by
  induction xs generalizing s with
  | nil => exact hs
  | cons x xs ih =>
      rcases hxs x List.mem_cons_self with ⟨hproper, hsum⟩
      refine ih (fun y hy => hxs y (List.mem_cons_of_mem x hy)) ?_
      rw [LinearSum.add.eq_def]
      split
      · exact hs
      · rename_i hrational
        refine rest_insert (rest_ofExpr hproper hsum fun hkind => ?_) hs
        rcases exists_rational_of_kind hkind with ⟨q, rfl⟩
        exact hrational q rfl

theorem countP_rational_constant (q : Rat) :
    (if q = 0 then [] else [Expr.rational q]).countP (·.kind == .rational) ≤ 1 := by
  split <;> simp [kind]

theorem proper_linearSum {s : LinearSum} (hs : ∀ t ∈ s.terms, Rest t.rest) : Proper s.toExpr := by
  rw [LinearSum.toExpr]
  set terms := (s.terms.filter (·.coefficient ≠ 0)).map Term.toExpr with hterms
  set constant := if s.constant = 0 then [] else [Expr.rational s.constant] with hconstant
  have hterm : ∀ x ∈ terms, Proper x ∧ x.kind ≠ .addition ∧ x.kind ≠ .rational := by
    intro x hx
    rcases List.mem_map.mp hx with ⟨t, ht, rfl⟩
    rw [List.mem_filter, decide_eq_true_eq] at ht
    exact term_toExpr (hs t ht.1) ht.2
  have hnumber : ∀ x ∈ constant, x = .rational s.constant ∧ s.constant ≠ 0 := by
    intro x hx
    rw [hconstant] at hx
    split at hx
    · cases hx
    · rename_i hne
      exact ⟨List.mem_singleton.mp hx, hne⟩
  have hsort := sort_perm (terms ++ constant)
  have hall : ∀ x ∈ sort (terms ++ constant), x ∈ terms ∨ x ∈ constant := fun x hx =>
    List.mem_append.mp (hsort.mem_iff.mp hx)
  have hproper : ∀ x ∈ sort (terms ++ constant), Proper x := by
    intro x hx
    rcases hall x hx with hx | hx
    · exact (hterm x hx).1
    · rw [(hnumber x hx).1]
      exact proper_rational _
  have hcount : (sort (terms ++ constant)).countP (·.kind == .rational) ≤ 1 := by
    have hnone : terms.countP (·.kind == .rational) = 0 :=
      List.countP_eq_zero.mpr fun x hx => by simp [(hterm x hx).2.2]
    rw [hsort.countP_eq, List.countP_append, hnone, Nat.zero_add]
    exact countP_rational_constant s.constant
  match hsorted : sort (terms ++ constant) with
  | [] => exact proper_integer 0
  | [x] => exact hproper x (by simp [hsorted])
  | x :: y :: zs =>
      rw [hsorted] at hall hproper hcount
      refine proper_addition hproper ⟨by simp, fun z hz => ?_, hcount, fun z hz hzero => ?_⟩
      · rcases hall z hz with hz | hz
        · exact (hterm z hz).2.1
        · rw [(hnumber z hz).1]
          nofun
      · subst hzero
        rcases hall _ hz with hz | hz
        · exact (hterm _ hz).2.2 rfl
        · exact (hnumber _ hz).2 (by simpa using (hnumber _ hz).1.symm)

theorem entry_sumOfScalars (hxs : ∀ x ∈ xs, Proper x ∧ x.kind ≠ .addition) :
    Entry (sumOfScalars xs) := by
  have hcollected : Entry (xs.foldl LinearSum.add {}).toExpr :=
    (proper_linearSum (foldl_add_rest hxs fun t ht => by cases ht)).1
  rw [sumOfScalars]
  split
  · exact entry_undefined
  · split
    · exact (proper_infinity _).1
    · exact hcollected
  · exact hcollected

end Shape

/-!
## Canonical products

The groups of a product are powers of proper bases.  Merging them gives factors that are neither
numbers nor products, as long as no product is taken in; where one is, the whole product is reduced
once more.
-/

namespace Shape

open PocketAlgebra.Expr Reduction

variable {node : NodeReducer} {x y : Expr} {xs ys : List Expr}

/-! ### Powers of one base -/

/-- A group of powers whose base and exponents may be operands. -/
structure Grouped (g : PowerGroup) : Prop where
  base : Proper g.base
  exponents : ∀ x ∈ g.exponents, Proper x

theorem grouped_insert {gs : List PowerGroup} (hx : Proper x) (hy : Proper y)
    (hgs : ∀ g ∈ gs, Grouped g) : ∀ g ∈ PowerGroup.insert x y gs, Grouped g := by
  induction gs with
  | nil =>
      rw [PowerGroup.insert]
      exact List.forall_mem_singleton.mpr ⟨hx, List.forall_mem_singleton.mpr hy⟩
  | cons g gs ih =>
      have hg := hgs g List.mem_cons_self
      have htail := fun r hr => hgs r (List.mem_cons_of_mem g hr)
      rw [PowerGroup.insert]
      split
      · refine List.forall_mem_cons.mpr ⟨⟨hg.base, fun z hz => ?_⟩, htail⟩
        rcases List.mem_append.mp hz with hz | hz
        · exact hg.exponents z hz
        · rw [List.mem_singleton.mp hz]
          exact hy
      · exact List.forall_mem_cons.mpr ⟨hg, ih htail⟩

theorem merge_entry (hnode : KeepsShape node) {g : PowerGroup} (hg : Grouped g) :
    Yields (g.merge node) Entry := by
  rw [PowerGroup.merge]
  split
  · rename_i exponent hexponents
    have hexponent := hg.exponents exponent (by simp [hexponents])
    refine Yields.pure ?_
    split
    · exact hg.base.1
    · exact (proper_plain rfl (by simp [hg.base, hexponent])).1
  · exact (hnode.add fun z hz => (hg.exponents z hz).1).bind fun sum hsum =>
      hnode.power hg.base.1 hsum

theorem grouped_multiply? {p r : PowerProduct} (hp : ∀ g ∈ p.groups, Grouped g) (hx : Proper x)
    (h : p.multiply? x = some r) : ∀ g ∈ r.groups, Grouped g := by
  rw [PowerProduct.multiply?.eq_def] at h
  split at h
  · cases h
    exact hp
  · split at h
    · rename_i base exponent
      cases h
      exact grouped_insert (hx.canonical.operand_proper rfl (by simp))
        (hx.canonical.operand_proper rfl (by simp)) hp
    · cases h
  · cases h
    exact grouped_insert hx (proper_integer 1) hp

theorem grouped_foldlM {p r : PowerProduct} (hp : ∀ g ∈ p.groups, Grouped g)
    (hxs : ∀ x ∈ xs, Proper x) (h : xs.foldlM PowerProduct.multiply? p = some r) :
    ∀ g ∈ r.groups, Grouped g := by
  induction xs generalizing p with
  | nil =>
      cases h
      exact hp
  | cons x xs ih =>
      rw [List.foldlM_cons] at h
      rcases Option.bind_eq_some_iff.mp h with ⟨q, hq, h⟩
      exact ih (grouped_multiply? hp (hxs x List.mem_cons_self) hq)
        (fun y hy => hxs y (List.mem_cons_of_mem x hy)) h

/-! ### Merged factors -/

/-- Factors that have been merged: none is a number or a product unless one was taken in. -/
structure Merged (f : Factors) : Prop where
  proper : ∀ x ∈ f.others, Proper x
  factors : f.spliced = false → ∀ x ∈ f.others, x.kind ≠ .rational ∧ x.kind ≠ .multiplication

theorem Merged.concat {f : Factors} (hf : Merged f) (hx : Proper x) (hrational : x.kind ≠ .rational)
    (hproduct : x.kind ≠ .multiplication) : Merged { f with others := f.others ++ [x] } where
  proper := List.forall_mem_append.mpr ⟨hf.proper, List.forall_mem_singleton.mpr hx⟩
  factors := fun hspliced => List.forall_mem_append.mpr
    ⟨hf.factors hspliced, List.forall_mem_singleton.mpr ⟨hrational, hproduct⟩⟩

theorem mergeGroups_merged (hnode : KeepsShape node) {gs : List PowerGroup}
    (hgs : ∀ g ∈ gs, Grouped g) {f : Factors} (hf : Merged f) :
    Yields (mergeGroups node gs f) fun r => match r with
      | .ok f' => Merged f'
      | .error poison => Entry poison := by
  induction gs generalizing f with
  | nil => exact Yields.pure hf
  | cons g gs ih =>
      have htail := fun r hr => hgs r (List.mem_cons_of_mem g hr)
      rw [mergeGroups]
      refine (merge_entry hnode (hgs g List.mem_cons_self)).bind fun x hx => ?_
      split
      · exact ih htail ⟨hf.proper, hf.factors⟩
      · rename_i xs
        refine ih htail ⟨List.forall_mem_append.mpr ⟨hf.proper, fun y hy => ?_⟩,
          fun hspliced => absurd hspliced.symm Bool.false_ne_true⟩
        exact hx.1.operand_proper rfl hy
      · rename_i hrational hproduct
        split
        · exact Yields.pure hx
        · rename_i hpoison
          refine ih htail (hf.concat ⟨hx, Bool.eq_false_iff.mpr hpoison⟩ (fun hkind => ?_)
            fun hkind => ?_)
          · rcases exists_rational_of_kind hkind with ⟨q, rfl⟩
            exact hrational q rfl
          · rcases exists_operands_of_kind (.inr rfl) hkind with ⟨ys, rfl⟩
            exact hproduct ys rfl

theorem distribute_entry (hnode : KeepsShape node) {c : Rat} (hxs : ∀ x ∈ xs, Proper x)
    (hys : ∀ y ∈ ys, Proper y) : Yields (distribute node c xs ys) Entry := by
  refine (Yields.mapM_forall fun y hy => hnode.multiply ?_).bind fun products hproducts =>
    hnode.add hproducts
  refine List.forall_mem_append.mpr ⟨List.forall_mem_cons.mpr ⟨(proper_rational c).1, ?_⟩, ?_⟩
  · exact fun x hx => (hxs x hx).1
  · exact List.forall_mem_singleton.mpr (hys y hy).1

theorem kind_ne_of_splitAtSum?_eq_none (h : splitAtSum? xs = none) (hx : x ∈ xs) :
    x.kind ≠ .addition := by
  fun_induction splitAtSum? xs with
  | case1 => cases hx
  | case2 => cases h
  | case3 y ys hsum ih =>
      rcases List.mem_cons.mp hx with rfl | hx
      · intro hkind
        rcases exists_operands_of_kind (.inl rfl) hkind with ⟨terms, rfl⟩
        exact hsum terms rfl
      · exact ih (Option.map_eq_none_iff.mp h) hx

theorem finishProduct_entry (hnode : KeepsShape node) {f : Factors} (hf : Merged f) :
    Yields (finishProduct node f) Entry := by
  rw [finishProduct]
  split
  · exact Yields.pure (proper_integer 0).1
  rename_i hzero
  split
  · refine hnode.multiply (List.forall_mem_cons.mpr ⟨(proper_rational _).1, fun x hx => ?_⟩)
    exact (hf.proper x hx).1
  rename_i hspliced
  split
  · rename_i before terms behind hsplit
    have heq := eq_of_splitAtSum?_eq_some hsplit
    refine distribute_entry hnode (fun x hx => hf.proper x ?_) fun x hx => ?_
    · rw [heq]
      rcases List.mem_append.mp hx with hx | hx <;> simp [hx]
    · exact (hf.proper (.apply .addition terms) (by simp [heq])).canonical.operand_proper rfl hx
  · rename_i hsplit
    have hsort := sort_perm f.others
    have hfactors : ∀ x ∈ sort f.others, Factor x := by
      intro x hx
      have hmem := hsort.mem_iff.mp hx
      rcases hf.factors (Bool.eq_false_iff.mpr hspliced) x hmem with ⟨hrational, hproduct⟩
      exact ⟨hf.proper x hmem, hrational, kind_ne_of_splitAtSum?_eq_none hsplit hmem, hproduct⟩
    refine Yields.pure ?_
    split
    · exact (proper_assemble hfactors).1
    · rename_i hone
      cases hsorted : sort f.others with
      | nil => exact (proper_rational _).1
      | cons x xs =>
          rw [hsorted] at hfactors
          exact (proper_coefficient hzero hone (List.cons_ne_nil x xs) hfactors).1

theorem productOfScalars_entry (hnode : KeepsShape node) (hxs : ∀ x ∈ xs, Proper x) :
    Yields (productOfScalars node xs) Entry := by
  rw [productOfScalars]
  split
  · refine Yields.pure ?_
    split
    · exact entry_undefined
    · exact (proper_integer 0).1
  · split
    · exact Yields.pure (proper_infinity _).1
    · split
      · exact Yields.pure entry_undefined
      · rename_i product hproduct
        have hgroups := grouped_foldlM (p := {}) (List.forall_mem_nil _) hxs hproduct
        have hempty : Merged ⟨product.coefficient, [], false⟩ :=
          ⟨List.forall_mem_nil _, fun _ => List.forall_mem_nil _⟩
        refine (mergeGroups_merged hnode hgroups hempty).bind fun r hr => ?_
        split
        · exact Yields.pure hr
        · exact finishProduct_entry hnode hr

end Shape

end PocketAlgebra
