import PocketAlgebra.Proofs.Field.Product
import PocketAlgebra.Proofs.Parallel.Basic

/-!
# Sums and products side by side

Collecting terms and factors goes by identity and order alone, so that it gives the same under other
names as long as these keep both.
-/

namespace PocketAlgebra

namespace Reduction

open PocketAlgebra.Expr Shape Comparison

variable {C : Comparison} {ρ : String → String} {P : Expr → Prop} {node node' : NodeReducer}
  {x y : Expr} {xs ys : List Expr}

/-! ## Terms -/

/-- A term under other names. -/
def Term.rename (ρ : String → String) (t : Term) : Term :=
  ⟨t.coefficient, t.rest.rename ρ⟩

theorem Term.ofExpr_rename (ρ : String → String) (x : Expr) :
    Term.ofExpr (x.rename ρ) = (Term.ofExpr x).rename ρ := by
  cases x with
  | apply f xs =>
      by_cases hf : f = .multiplication
      · subst hf
        match xs with
        | [] => rfl
        | .rational c :: factors =>
            simp only [rename_apply, List.map_cons, rename_rational, Term.ofExpr, Term.rename,
              assemble_rename]
        | .apply g ys :: factors =>
            simp only [rename_apply, List.map_cons, Term.ofExpr, Term.rename]
        | .decimal _ :: factors | .infinity _ :: factors | .constant _ :: factors
        | .symbol _ :: factors =>
            simp only [rename_apply, List.map_cons, rename_decimal, rename_infinity,
              rename_constant, rename_symbol, Term.ofExpr, Term.rename]
      · simp [Term.ofExpr, Term.rename, hf]
  | _ => rfl

theorem Term.toExpr_rename (ρ : String → String) (t : Term) :
    (t.rename ρ).toExpr = t.toExpr.rename ρ := by
  rcases t with ⟨coefficient, rest⟩
  by_cases hone : coefficient = 1
  · simp [Term.toExpr, Term.rename, hone]
  · cases rest with
    | apply f xs =>
        by_cases hf : f = .multiplication
        · simp [Term.toExpr, Term.rename, hone, hf]
        · simp [Term.toExpr, Term.rename, hone, hf]
    | _ => simp [Term.toExpr, Term.rename, hone]

theorem Respects.term_ofExpr (hP : Respects ρ P) (hx : P x) : P (Term.ofExpr x).rest := by
  rw [Term.ofExpr.eq_def]
  split
  · exact hP.assemble rfl 1 fun y hy => hP.operand rfl hx y (List.mem_cons_of_mem _ hy)
  · exact hx

theorem Respects.term_toExpr (hP : Respects ρ P) {t : Term} (ht : P t.rest) : P t.toExpr := by
  rw [Term.toExpr]
  split
  · exact ht
  · split
    · rename_i factors hrest
      rw [hrest] at ht
      exact (hP.apply rfl).mpr (List.forall_mem_cons.mpr ⟨hP.rational _, hP.operand rfl ht⟩)
    · exact hP.two rfl (hP.rational _) ht

theorem Respects.term_insert {t : Term} {ts : List Term} (ht : P t.rest)
    (hts : ∀ s ∈ ts, P s.rest) : ∀ s ∈ t.insert ts, P s.rest := by
  induction ts with
  | nil => simpa [Term.insert] using ht
  | cons r ts ih =>
      have hr := hts r List.mem_cons_self
      have htail := fun s hs => hts s (List.mem_cons_of_mem r hs)
      rw [Term.insert]
      split
      · exact List.forall_mem_cons.mpr ⟨hr, htail⟩
      · exact List.forall_mem_cons.mpr ⟨hr, ih htail⟩

theorem Respects.insert_rename (hP : Respects ρ P) {t : Term} {ts : List Term} (ht : P t.rest)
    (hts : ∀ s ∈ ts, P s.rest) :
    (t.rename ρ).insert (ts.map (Term.rename ρ)) = (t.insert ts).map (Term.rename ρ) := by
  induction ts with
  | nil => rfl
  | cons r ts ih =>
      have hsame : (r.rename ρ).rest.same (t.rename ρ).rest = r.rest.same t.rest :=
        hP.same (hts r List.mem_cons_self) ht
      rw [List.map_cons, Term.insert, Term.insert, hsame]
      split
      · rfl
      · rw [ih fun s hs => hts s (List.mem_cons_of_mem r hs), List.map_cons]

theorem Respects.sort_rename (hP : Respects ρ P) (hxs : ∀ x ∈ xs, P x) :
    Expr.sort (xs.map (rename ρ)) = (Expr.sort xs).map (rename ρ) := by
  rw [Expr.sort, insertionSort_map, Expr.sort]
  exact congrArg (List.map (rename ρ))
    (insertionSort_congr fun x hx y hy => hP.order (hxs x hx) (hxs y hy))

/-! ## Sums -/

/-- A sum under other names. -/
def LinearSum.rename (ρ : String → String) (s : LinearSum) : LinearSum :=
  ⟨s.constant, s.terms.map (Term.rename ρ)⟩

theorem Respects.add_rename (hP : Respects ρ P) {s : LinearSum} (hs : ∀ t ∈ s.terms, P t.rest)
    (hx : P x) : (s.rename ρ).add (x.rename ρ) = (s.add x).rename ρ := by
  have hinsert : (Term.ofExpr (x.rename ρ)).insert (s.rename ρ).terms =
      ((Term.ofExpr x).insert s.terms).map (Term.rename ρ) := by
    rw [Term.ofExpr_rename]
    exact hP.insert_rename (hP.term_ofExpr hx) hs
  cases x with
  | rational q => rfl
  | apply f ys =>
      rw [rename_apply] at hinsert ⊢
      exact congrArg (LinearSum.mk s.constant) hinsert
  | _ => exact congrArg (LinearSum.mk s.constant) hinsert

theorem Respects.add_terms (hP : Respects ρ P) {s : LinearSum} (hs : ∀ t ∈ s.terms, P t.rest)
    (hx : P x) : ∀ t ∈ (s.add x).terms, P t.rest := by
  rw [LinearSum.add.eq_def]
  split
  · exact hs
  · exact Respects.term_insert (hP.term_ofExpr hx) hs

theorem Respects.foldl_add (hP : Respects ρ P) {s : LinearSum} (hs : ∀ t ∈ s.terms, P t.rest)
    (hxs : ∀ x ∈ xs, P x) :
    (∀ t ∈ (xs.foldl LinearSum.add s).terms, P t.rest) ∧
      (xs.map (rename ρ)).foldl LinearSum.add (s.rename ρ) =
        (xs.foldl LinearSum.add s).rename ρ := by
  induction xs generalizing s with
  | nil => exact ⟨hs, rfl⟩
  | cons x xs ih =>
      have hx := hxs x List.mem_cons_self
      rw [List.map_cons, List.foldl_cons, List.foldl_cons, hP.add_rename hs hx]
      exact ih (hP.add_terms hs hx) fun y hy => hxs y (List.mem_cons_of_mem x hy)

theorem Respects.linearSum (hP : Respects ρ P) {s : LinearSum} (hs : ∀ t ∈ s.terms, P t.rest) :
    P s.toExpr ∧ (s.rename ρ).toExpr = s.toExpr.rename ρ := by
  have hconstant : ∀ x ∈ (if s.constant = 0 then [] else [Expr.rational s.constant]), P x := by
    split
    · exact List.forall_mem_nil _
    · exact List.forall_mem_singleton.mpr (hP.rational _)
  have hterms : ∀ x ∈ (s.terms.filter (·.coefficient ≠ 0)).map Term.toExpr, P x := by
    intro x hx
    rcases List.mem_map.mp hx with ⟨t, ht, rfl⟩
    exact hP.term_toExpr (hs t (List.mem_of_mem_filter ht))
  have hall := List.forall_mem_append.mpr ⟨hterms, hconstant⟩
  constructor
  · exact hP.assemble rfl 0 (sort hall)
  · have hrenamed : ((s.rename ρ).terms.filter (·.coefficient ≠ 0)).map Term.toExpr =
        ((s.terms.filter (·.coefficient ≠ 0)).map Term.toExpr).map (rename ρ) := by
      rw [LinearSum.rename, List.filter_map, List.map_map, List.map_map]
      exact List.map_congr_left fun t _ => Term.toExpr_rename ρ t
    have hnumber : (if (s.rename ρ).constant = 0 then [] else
        [Expr.rational (s.rename ρ).constant]) =
        (if s.constant = 0 then [] else [Expr.rational s.constant]).map (rename ρ) := by
      rw [LinearSum.rename]
      split <;> rfl
    rw [LinearSum.toExpr, LinearSum.toExpr, ← assemble_rename, ← hP.sort_rename hall,
      List.map_append, ← hrenamed, ← hnumber]

theorem infiniteSum?_rename (ρ : String → String) (xs : List Expr) :
    infiniteSum? (xs.map (rename ρ)) = infiniteSum? xs := by
  have hsigns : (xs.map (rename ρ)).filterMap infinity? = xs.filterMap infinity? := by
    rw [List.filterMap_map]
    exact congrArg (fun p => List.filterMap p xs) (funext fun x => infinity?_rename ρ x)
  rw [infiniteSum?, infiniteSum?, hsigns]

theorem Respects.sumOfScalars (hP : Respects ρ P) (hxs : ∀ x ∈ xs, P x) :
    P (Reduction.sumOfScalars xs) ∧
      Reduction.sumOfScalars (xs.map (rename ρ)) = (Reduction.sumOfScalars xs).rename ρ := by
  have hnone : ∀ t ∈ ({} : LinearSum).terms, P t.rest := List.forall_mem_nil _
  have hcollected := hP.foldl_add hnone hxs
  have hsum := hP.linearSum hcollected.1
  have hrenamed : ((xs.map (rename ρ)).foldl LinearSum.add {}).toExpr =
      (xs.foldl LinearSum.add {}).toExpr.rename ρ := by
    rw [← hsum.2, ← hcollected.2]
    rfl
  rw [Reduction.sumOfScalars, Reduction.sumOfScalars, infiniteSum?_rename, hrenamed,
    all_map_rename fun x => by rw [kind_rename]]
  split
  · exact ⟨hP.undefined, rfl⟩
  · split
    · exact ⟨hP.infinity _, rfl⟩
    · exact ⟨hsum.1, rfl⟩
  · exact ⟨hsum.1, rfl⟩

/-! ## Powers of one base -/

/-- The base and the exponents of a group have a property. -/
def PowerGroup.All (P : Expr → Prop) (g : PowerGroup) : Prop :=
  P g.base ∧ ∀ x ∈ g.exponents, P x

/-- A group of powers under other names. -/
def PowerGroup.rename (ρ : String → String) (g : PowerGroup) : PowerGroup :=
  ⟨g.base.rename ρ, g.exponents.map (Expr.rename ρ)⟩

/-- A product of powers under other names. -/
def PowerProduct.rename (ρ : String → String) (p : PowerProduct) : PowerProduct :=
  ⟨p.coefficient, p.groups.map (PowerGroup.rename ρ)⟩

/-- Factors under other names. -/
def Factors.rename (ρ : String → String) (f : Factors) : Factors :=
  ⟨f.coefficient, f.others.map (Expr.rename ρ), f.spliced⟩

theorem PowerGroup.all_insert {gs : List PowerGroup} (hx : P x) (hy : P y)
    (hgs : ∀ g ∈ gs, g.All P) : ∀ g ∈ PowerGroup.insert x y gs, g.All P := by
  induction gs with
  | nil =>
      rw [PowerGroup.insert]
      exact List.forall_mem_singleton.mpr ⟨hx, List.forall_mem_singleton.mpr hy⟩
  | cons g gs ih =>
      have hg := hgs g List.mem_cons_self
      have htail := fun r hr => hgs r (List.mem_cons_of_mem g hr)
      rw [PowerGroup.insert]
      split
      · refine List.forall_mem_cons.mpr ⟨⟨hg.1, ?_⟩, htail⟩
        exact List.forall_mem_append.mpr ⟨hg.2, List.forall_mem_singleton.mpr hy⟩
      · exact List.forall_mem_cons.mpr ⟨hg, ih htail⟩

theorem Respects.powerGroup_insert (hP : Respects ρ P) {gs : List PowerGroup} (hx : P x)
    (hgs : ∀ g ∈ gs, g.All P) :
    PowerGroup.insert (x.rename ρ) (y.rename ρ) (gs.map (PowerGroup.rename ρ)) =
      (PowerGroup.insert x y gs).map (PowerGroup.rename ρ) := by
  induction gs with
  | nil => rfl
  | cons g gs ih =>
      have hsame : (g.rename ρ).base.same (x.rename ρ) = g.base.same x :=
        hP.same (hgs g List.mem_cons_self).1 hx
      rw [List.map_cons, PowerGroup.insert, PowerGroup.insert, hsame]
      split
      · rw [List.map_cons, PowerGroup.rename, PowerGroup.rename, List.map_append]
        rfl
      · rw [ih fun r hr => hgs r (List.mem_cons_of_mem g hr), List.map_cons]

theorem Respects.merge (hP : Respects ρ P) (hnode : Parallel C ρ P node node') {g : PowerGroup}
    (hg : g.All P) : C.Image (rename ρ) P (g.merge node) ((g.rename ρ).merge node') := by
  rcases g with ⟨base, exponents⟩
  have hsum : C.Image (rename ρ) P (do power node base (← add node exponents))
      (do power node' (base.rename ρ) (← add node' (exponents.map (rename ρ)))) :=
    image_bind (hnode.add hg.2) fun sum hsum => hnode.power hg.1 hsum
  match exponents with
  | [] => exact hsum
  | [exponent] =>
      have hexponent := hg.2 exponent List.mem_cons_self
      simp only [PowerGroup.merge, PowerGroup.rename, List.map_cons, List.map_nil,
        isRational_rename]
      split
      · exact image_pure hg.1
      · exact C.pure ⟨hP.two rfl hg.1 hexponent, by simp⟩
  | _ :: _ :: _ => exact hsum

/-! ## Collecting factors -/

theorem Respects.multiply?_groups (hP : Respects ρ P) {p r : PowerProduct}
    (hp : ∀ g ∈ p.groups, g.All P) (hx : P x) (h : p.multiply? x = some r) :
    ∀ g ∈ r.groups, g.All P := by
  rw [PowerProduct.multiply?.eq_def] at h
  split at h
  · cases h
    exact hp
  · have hoperands := hP.operand rfl hx
    split at h
    · cases h
      exact PowerGroup.all_insert (hoperands _ (by simp)) (hoperands _ (by simp)) hp
    · cases h
  · cases h
    exact PowerGroup.all_insert hx (hP.integer 1) hp

theorem Respects.multiply?_rename (hP : Respects ρ P) {p : PowerProduct}
    (hp : ∀ g ∈ p.groups, g.All P) (hx : P x) :
    (p.rename ρ).multiply? (x.rename ρ) = (p.multiply? x).map (PowerProduct.rename ρ) := by
  have hinsert : ∀ {x y}, P x →
      PowerGroup.insert (x.rename ρ) (y.rename ρ) (p.rename ρ).groups =
        (PowerGroup.insert x y p.groups).map (PowerGroup.rename ρ) :=
    fun hx => hP.powerGroup_insert hx hp
  have hother : (some { p.rename ρ with
        groups := PowerGroup.insert (x.rename ρ) (.integer 1) (p.rename ρ).groups } :
          Option PowerProduct) =
      (some { p with groups := PowerGroup.insert x (.integer 1) p.groups }).map
        (PowerProduct.rename ρ) :=
    congrArg (fun gs => some (PowerProduct.mk p.coefficient gs)) (hinsert (y := .integer 1) hx)
  cases x with
  | rational q => rfl
  | apply f xs =>
      rw [rename_apply] at hother ⊢
      by_cases hf : f = .power
      · subst hf
        have hoperands := hP.operand rfl hx
        match xs with
        | [] => rfl
        | [_] => rfl
        | [base, exponent] =>
            exact congrArg (fun gs => some (PowerProduct.mk p.coefficient gs))
              (hinsert (hoperands base List.mem_cons_self))
        | _ :: _ :: _ :: _ => rfl
      · simpa [PowerProduct.multiply?, hf] using hother
  | _ => exact hother

theorem Respects.foldlM_multiply? (hP : Respects ρ P) {p : PowerProduct}
    (hp : ∀ g ∈ p.groups, g.All P) (hxs : ∀ x ∈ xs, P x) :
    (∀ r ∈ xs.foldlM PowerProduct.multiply? p, ∀ g ∈ r.groups, g.All P) ∧
      (xs.map (rename ρ)).foldlM PowerProduct.multiply? (p.rename ρ) =
        (xs.foldlM PowerProduct.multiply? p).map (PowerProduct.rename ρ) := by
  induction xs generalizing p with
  | nil =>
      refine ⟨?_, rfl⟩
      rintro _ ⟨⟩
      exact hp
  | cons x xs ih =>
      have hx := hxs x List.mem_cons_self
      rw [List.map_cons, List.foldlM_cons, List.foldlM_cons, hP.multiply?_rename hp hx]
      cases hq : p.multiply? x with
      | none => exact ⟨nofun, rfl⟩
      | some q =>
          exact ih (hP.multiply?_groups hp hx hq) fun y hy => hxs y (List.mem_cons_of_mem x hy)

/-! ## Merging -/

/-- What merging groups gives, under other names. -/
def renameMerged (ρ : String → String) : Except Expr Factors → Except Expr Factors
  | .error poison => .error (poison.rename ρ)
  | .ok f => .ok (f.rename ρ)

/-- A property of what merging groups gives. -/
def Merged (P : Expr → Prop) : Except Expr Factors → Prop
  | .error poison => P poison
  | .ok f => ∀ x ∈ f.others, P x

theorem Respects.mergeGroups (hP : Respects ρ P) (hnode : Parallel C ρ P node node')
    {gs : List PowerGroup} (hgs : ∀ g ∈ gs, g.All P) {f : Factors} (hf : ∀ x ∈ f.others, P x) :
    C.Image (renameMerged ρ) (Merged P) (Reduction.mergeGroups node gs f)
      (Reduction.mergeGroups node' (gs.map (PowerGroup.rename ρ)) (f.rename ρ)) := by
  induction gs generalizing f with
  | nil => exact image_pure (g := renameMerged ρ) (P := Merged P) (a := .ok f) hf
  | cons g gs ih =>
      have htail := @ih fun r hr => hgs r (List.mem_cons_of_mem g hr)
      rw [List.map_cons, Reduction.mergeGroups, Reduction.mergeGroups]
      refine image_bind (hP.merge hnode (hgs g List.mem_cons_self)) fun x hx => ?_
      have happended : (f.rename ρ).others ++ [x.rename ρ] = (f.others ++ [x]).map (rename ρ) := by
        rw [List.map_append]
        rfl
      have hother : C.Image (renameMerged ρ) (Merged P)
          (if x.kind.isPoison then return .error x
            else Reduction.mergeGroups node gs { f with others := f.others ++ [x] })
          (if (x.rename ρ).kind.isPoison then return .error (x.rename ρ)
            else Reduction.mergeGroups node' (gs.map (PowerGroup.rename ρ))
              { f.rename ρ with others := (f.rename ρ).others ++ [x.rename ρ] }) := by
        rw [kind_rename, happended]
        split
        · exact image_pure (g := renameMerged ρ) (P := Merged P) (a := .error x) hx
        · exact htail (List.forall_mem_append.mpr ⟨hf, List.forall_mem_singleton.mpr hx⟩)
      cases x with
      | rational q => exact htail hf
      | apply h ys =>
          rw [rename_apply] at hother ⊢
          by_cases hh : h = .multiplication
          · subst hh
            have hspliced := htail (f := { f with others := f.others ++ ys, spliced := true })
              (List.forall_mem_append.mpr ⟨hf, hP.operand rfl hx⟩)
            rw [Factors.rename, List.map_append] at hspliced
            exact hspliced
          · simpa [hh] using hother
      | _ => exact hother

/-! ## Sums among factors -/

theorem splitAtSum?_rename (ρ : String → String) (xs : List Expr) :
    splitAtSum? (xs.map (rename ρ)) = (splitAtSum? xs).map fun (before, terms, behind) =>
      (before.map (rename ρ), terms.map (rename ρ), behind.map (rename ρ)) := by
  induction xs with
  | nil => rfl
  | cons x xs ih =>
      have hother : (splitAtSum? (xs.map (rename ρ))).map (fun (before, terms, behind) =>
            (x.rename ρ :: before, terms, behind)) =
          ((splitAtSum? xs).map fun (before, terms, behind) =>
            (x :: before, terms, behind)).map fun (before, terms, behind) =>
              (before.map (rename ρ), terms.map (rename ρ), behind.map (rename ρ)) := by
        rw [ih, Option.map_map, Option.map_map]
        rfl
      cases x with
      | apply f ys =>
          by_cases hf : f = .addition
          · subst hf
            simp [splitAtSum?]
          · rw [rename_apply] at hother
            simpa [splitAtSum?, hf] using hother
      | _ => exact hother

theorem Respects.distribute (hP : Respects ρ P) (hnode : Parallel C ρ P node node') {c : Rat}
    (hxs : ∀ x ∈ xs, P x) (hys : ∀ y ∈ ys, P y) :
    C.Image (rename ρ) P (Reduction.distribute node c xs ys)
      (Reduction.distribute node' c (xs.map (rename ρ)) (ys.map (rename ρ))) := by
  rw [Reduction.distribute, Reduction.distribute, List.mapM_map]
  refine image_bind (image_mapM fun y hy => ?_) fun products hproducts => hnode.add hproducts
  have hproduct := hnode.multiply
    (List.forall_mem_append.mpr
      ⟨List.forall_mem_cons.mpr ⟨hP.rational c, hxs⟩, List.forall_mem_singleton.mpr (hys y hy)⟩)
  simpa using hproduct

theorem Respects.finishProduct (hP : Respects ρ P) (hnode : Parallel C ρ P node node')
    {f : Factors} (hf : ∀ x ∈ f.others, P x) :
    C.Image (rename ρ) P (Reduction.finishProduct node f)
      (Reduction.finishProduct node' (f.rename ρ)) := by
  rcases f with ⟨coefficient, others, spliced⟩
  have hsorted := hP.sort_rename hf
  simp only [Reduction.finishProduct, Factors.rename, splitAtSum?_rename, hsorted]
  split
  · exact hP.renamed_integer 0
  · split
    · exact hnode.multiply (List.forall_mem_cons.mpr ⟨hP.rational coefficient, hf⟩)
    · cases hsplit : splitAtSum? others with
      | some parts =>
          rcases parts with ⟨before, terms, behind⟩
          have heq := eq_of_splitAtSum?_eq_some hsplit
          subst heq
          have hbefore : ∀ x ∈ before ++ behind, P x := by
            intro x hx
            rcases List.mem_append.mp hx with hx | hx <;> exact hf x (by simp [hx])
          have hterms : ∀ x ∈ terms, P x := hP.operand rfl (hf (.apply .addition terms) (by simp))
          have hdistributed := hP.distribute (c := coefficient) hnode hbefore hterms
          rw [List.map_append] at hdistributed
          exact hdistributed
      | none =>
          have hfactors : ∀ x ∈ (if coefficient = 1 then [] else [Expr.rational coefficient]) ++
              Expr.sort others, P x := by
            refine List.forall_mem_append.mpr ⟨?_, sort hf⟩
            split
            · exact List.forall_mem_nil _
            · exact List.forall_mem_singleton.mpr (hP.rational _)
          refine C.pure ⟨hP.assemble rfl 1 hfactors, ?_⟩
          rw [← assemble_rename, List.map_append]
          by_cases hone : coefficient = 1
          · simp [hone]
          · simp [hone]

theorem Respects.productOfScalars (hP : Respects ρ P) (hnode : Parallel C ρ P node node')
    (hxs : ∀ x ∈ xs, P x) :
    C.Image (rename ρ) P (Reduction.productOfScalars node xs)
      (Reduction.productOfScalars node' (xs.map (rename ρ))) := by
  have hfold := hP.foldlM_multiply? (p := {}) (List.forall_mem_nil _) hxs
  have hproduct : (xs.map (rename ρ)).foldlM PowerProduct.multiply? {} =
      (xs.foldlM PowerProduct.multiply? {}).map (PowerProduct.rename ρ) := hfold.2
  simp only [Reduction.productOfScalars, hproduct, List.any_map, List.all_map, List.map_map,
    Function.comp_def, isRational_rename, kind_rename, sign_rename]
  split
  · split
    · exact hP.renamed_undefined
    · exact hP.renamed_integer 0
  · split
    · exact hP.renamed_infinity _
    · cases hcollected : xs.foldlM PowerProduct.multiply? {} with
      | none => exact hP.renamed_undefined
      | some product =>
          have hgroups := hfold.1 product hcollected
          refine image_bind (hP.mergeGroups hnode hgroups (f := ⟨product.coefficient, [], false⟩)
            (List.forall_mem_nil _)) fun merged hmerged => ?_
          cases merged with
          | error poison => exact image_pure hmerged
          | ok factors => exact hP.finishProduct hnode hmerged

end Reduction

end PocketAlgebra
