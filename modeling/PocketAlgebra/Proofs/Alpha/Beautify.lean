import PocketAlgebra.Proofs.Alpha.Equivalence
import PocketAlgebra.Proofs.Closed.Basic
import PocketAlgebra.Proofs.Parallel.Basic

/-!
# The form for the user under other names

How an expression is shown does not depend on the names in it, and no name comes to stand where
nothing binds it.
-/

namespace PocketAlgebra

namespace Reduction

open PocketAlgebra.Expr

/-! ## Shown forms under other names -/

/-- A face under other names. -/
def Face.rename (ρ : String → String) : Face → Face
  | whole x => whole (x.rename ρ)
  | reciprocal d => reciprocal (d.rename ρ)

/-- A shown form under other names. -/
def Shown.rename (ρ : String → String) (s : Shown) : Shown :=
  ⟨s.negative, s.face.rename ρ⟩

/-- An operand and its shown form, under other names. -/
def renameShown (ρ : String → String) (p : Expr × Shown) : Expr × Shown :=
  (p.1.rename ρ, p.2.rename ρ)

variable {ρ : String → String} {x : Expr} {s : Shown} {f : Operator}

theorem Face.toExpr_rename (ρ : String → String) (face : Face) :
    (face.rename ρ).toExpr = face.toExpr.rename ρ := by
  cases face <;> simp [Face.rename, Face.toExpr]

theorem Shown.toExpr_rename (ρ : String → String) (s : Shown) :
    (s.rename ρ).toExpr = s.toExpr.rename ρ := by
  rw [Shown.toExpr, Shown.toExpr, Shown.rename]
  dsimp only
  split
  · rw [rename_apply, List.map_singleton, Face.toExpr_rename]
  · exact Face.toExpr_rename ρ s.face

theorem standalone_rename (ρ : String → String) (x : Expr) (s : Shown) :
    standalone (x.rename ρ) (s.rename ρ) = (standalone x s).rename ρ := by
  rw [standalone, standalone, kind_rename]
  split
  · rfl
  · exact s.toExpr_rename ρ

theorem rootOrPower_rename (ρ : String → String) (base : Expr) (q : Rat) :
    rootOrPower (base.rename ρ) q = (rootOrPower base q).rename ρ := by
  rw [rootOrPower, rootOrPower]
  split
  · split
    · simp
    · split <;> simp
  · simp

theorem showPower_rename (ρ : String → String) (base : Expr) (q : Rat) :
    showPower (base.rename ρ) q = (showPower base q).rename ρ := by
  rw [showPower, showPower]
  split
  · split
    · rfl
    · rw [rootOrPower_rename]
      rfl
  · rw [rootOrPower_rename]
    rfl

theorem shownProduct_rename (ρ : String → String) (xs : List Expr) :
    shownProduct (xs.map (Expr.rename ρ)) = (shownProduct xs).rename ρ := by
  match xs with
  | [] => rfl
  | [x] => rfl
  | x :: y :: xs => simp [shownProduct]

theorem filterMap_rename (part : Face → Option Expr)
    (hpart : ∀ face, part (face.rename ρ) = (part face).map (Expr.rename ρ)) (faces : List Face) :
    (faces.map (Face.rename ρ)).filterMap part = (faces.filterMap part).map (Expr.rename ρ) := by
  rw [List.filterMap_map, List.map_filterMap]
  exact congrArg (List.filterMap · faces) (funext hpart)

theorem showProduct_rename (ρ : String → String) (q : Rat) (faces : List Face) :
    showProduct q (faces.map (Face.rename ρ)) = (showProduct q faces).rename ρ := by
  have hnumerators := filterMap_rename (ρ := ρ) Face.numerator?
    (fun face => by cases face <;> rfl) faces
  have hdenominators := filterMap_rename (ρ := ρ) Face.denominator?
    (fun face => by cases face <;> rfl) faces
  have hinteger : ∀ (n : Int) (xs : List Expr),
      (if n = 1 then [] else [Expr.integer n]) ++ xs.map (Expr.rename ρ) =
        ((if n = 1 then [] else [Expr.integer n]) ++ xs).map (Expr.rename ρ) := by
    intro n xs
    split <;> simp
  have hwhole : ∀ (d : Nat) (xs : List Expr),
      (if d = 1 then [] else [Expr.integer d]) ++ xs.map (Expr.rename ρ) =
        ((if d = 1 then [] else [Expr.integer d]) ++ xs).map (Expr.rename ρ) := by
    intro d xs
    split <;> simp
  simp only [showProduct]
  rw [hnumerators, hdenominators, hinteger, hwhole, shownProduct_rename]
  generalize (if q.den = 1 then [] else [Expr.integer q.den]) ++
    faces.filterMap Face.denominator? = denominators
  cases denominators with
  | nil => rfl
  | cons d denominators =>
      have hall := shownProduct_rename ρ (d :: denominators)
      rw [List.map_cons] at hall ⊢
      simp [hall]

theorem showSum_rename (ρ : String → String) (terms : List Shown) :
    showSum (terms.map (Shown.rename ρ)) = (showSum terms).rename ρ := by
  cases terms with
  | nil => rfl
  | cons term terms =>
      rw [List.map_cons, showSum, showSum, Shown.toExpr_rename]
      generalize term.toExpr = total
      induction terms generalizing total with
      | nil => rfl
      | cons t terms ih =>
          rw [List.map_cons, List.foldl_cons, List.foldl_cons, ← ih]
          refine congrArg (fun total => List.foldl _ total _) ?_
          rw [rename_apply, List.map_cons, List.map_singleton, ← Face.toExpr_rename]
          rfl

theorem showLogarithm_rename (ρ : String → String) (base argument shownBase : Expr) :
    showLogarithm (base.rename ρ) (argument.rename ρ) (shownBase.rename ρ) =
      (showLogarithm base argument shownBase).rename ρ := by
  rw [showLogarithm, showLogarithm, constant?_rename, isRational_rename]
  split
  · simp
  · split <;> simp

theorem numbersLast_rename (ρ : String → String) (terms : List (Expr × Shown)) :
    numbersLast (terms.map (renameShown ρ)) = (numbersLast terms).map (Shown.rename ρ) := by
  have hnumbers : ∀ p : Expr × Shown, (renameShown ρ p).1.kind = p.1.kind :=
    fun p => kind_rename ρ p.1
  simp only [numbersLast, List.filter_map, List.map_append, List.map_map, Function.comp_def,
    hnumbers]
  rfl

theorem factorFace_rename (ρ : String → String) (p : Expr × Shown) :
    factorFace (renameShown ρ p) = (factorFace p).rename ρ := by
  rcases p with ⟨x, s⟩
  have hwhole := congrArg Face.whole (standalone_rename ρ x s)
  cases x with
  | apply f xs =>
      rw [renameShown, rename_apply] at *
      cases f <;> first | rfl | exact hwhole
  | _ => exact hwhole

theorem texts_rename (ρ : String → String) (operands : List (Expr × Shown)) :
    (operands.map (renameShown ρ)).map (fun p => standalone p.1 p.2) =
      (operands.map fun p => standalone p.1 p.2).map (Expr.rename ρ) := by
  rw [List.map_map, List.map_map]
  exact List.map_congr_left fun p _ => standalone_rename ρ p.1 p.2

theorem factorFaces_rename (ρ : String → String) (factors : List (Expr × Shown)) :
    (factors.map (renameShown ρ)).map factorFace =
      (factors.map factorFace).map (Face.rename ρ) := by
  rw [List.map_map, List.map_map]
  exact List.map_congr_left fun p _ => factorFace_rename ρ p

theorem whole_rename {x y : Expr} (negative : Bool) (h : y = x.rename ρ) :
    Shown.mk negative (.whole y) = (Shown.mk negative (.whole x)).rename ρ := by
  rw [h]
  rfl

theorem showMultiplication_rename (ρ : String → String) (operands : List (Expr × Shown)) :
    showApply .multiplication (operands.map (renameShown ρ)) =
      (showApply .multiplication operands).rename ρ := by
  have hfactors : ∀ (q : Rat) (factors : List (Expr × Shown)),
      showProduct q ((factors.map (renameShown ρ)).map factorFace) =
        (showProduct q (factors.map factorFace)).rename ρ := by
    intro q factors
    rw [factorFaces_rename, showProduct_rename]
  match operands with
  | [] => rfl
  | (.rational q, s) :: factors => exact whole_rename _ (hfactors _ factors)
  | (.apply f xs, s) :: factors =>
      have hall := whole_rename false (hfactors 1 ((.apply f xs, s) :: factors))
      rw [List.map_cons, renameShown, rename_apply] at hall ⊢
      exact hall
  | (.decimal d, s) :: factors => exact whole_rename false (hfactors 1 ((.decimal d, s) :: factors))
  | (.infinity negative, s) :: factors =>
      exact whole_rename false (hfactors 1 ((.infinity negative, s) :: factors))
  | (.constant c, s) :: factors =>
      exact whole_rename false (hfactors 1 ((.constant c, s) :: factors))
  | (.symbol name, s) :: factors =>
      exact whole_rename false (hfactors 1 ((.symbol name, s) :: factors))

theorem showPower_apply_rename (ρ : String → String) (operands : List (Expr × Shown)) :
    showApply .power (operands.map (renameShown ρ)) = (showApply .power operands).rename ρ := by
  have htexts := texts_rename ρ operands
  match operands with
  | [] | [_] => rfl
  | _ :: (x, _) :: _ :: _ => cases x <;> rfl
  | [(x, s), (.rational q, t)] =>
      have hpower := showPower_rename ρ (standalone x s) q
      rw [← standalone_rename] at hpower
      exact congrArg (Shown.mk false) hpower
  | [(x, s), (.apply f xs, t)] =>
      have hall := whole_rename false (congrArg (Expr.apply .power) htexts |>.trans
        (rename_apply ρ _ _).symm)
      rw [List.map_cons, List.map_singleton, renameShown, renameShown, rename_apply] at hall ⊢
      exact hall
  | [(_, _), (.decimal _, _)] | [(_, _), (.infinity _, _)] | [(_, _), (.constant _, _)]
  | [(_, _), (.symbol _, _)] =>
      exact whole_rename false (congrArg (Expr.apply .power) htexts |>.trans
        (rename_apply ρ _ _).symm)

theorem showLogarithm_apply_rename (ρ : String → String) (operands : List (Expr × Shown)) :
    showApply .logarithm (operands.map (renameShown ρ)) =
      (showApply .logarithm operands).rename ρ := by
  match operands with
  | [] | [_] | _ :: _ :: _ :: _ => rfl
  | [(x, s), (base, t)] =>
      refine whole_rename false ?_
      rw [← showLogarithm_rename, ← standalone_rename, ← standalone_rename]
      rfl

theorem showApply_rename (ρ : String → String) (f : Operator) (operands : List (Expr × Shown)) :
    showApply f (operands.map (renameShown ρ)) = (showApply f operands).rename ρ := by
  cases f with
  | addition =>
      refine whole_rename false ?_
      rw [numbersLast_rename, showSum_rename]
  | multiplication => exact showMultiplication_rename ρ operands
  | power => exact showPower_apply_rename ρ operands
  | logarithm => exact showLogarithm_apply_rename ρ operands
  | _ =>
      refine whole_rename false ?_
      rw [rename_apply]
      exact congrArg (Expr.apply _) (texts_rename ρ operands)

mutual

theorem shown_rename (ρ : String → String) : ∀ x : Expr,
    shown (x.rename ρ) = (shown x).rename ρ
  | .apply f xs => by
      rw [Expr.rename, shown, shown, renameAll_eq_map, shownAll_map_rename ρ xs, showApply_rename]
  | .rational q | .infinity negative => rfl
  | .decimal _ | .constant _ | .symbol _ => rfl

theorem shownAll_map_rename (ρ : String → String) : ∀ xs : List Expr,
    shownAll (xs.map (Expr.rename ρ)) = (shownAll xs).map (renameShown ρ)
  | [] => rfl
  | x :: xs => by
      rw [List.map_cons, shownAll, shownAll, shown_rename ρ x, shownAll_map_rename ρ xs]
      rfl

end

/-- How an expression is shown does not depend on the names in it. -/
theorem beautify_rename (ρ : String → String) (x : Expr) :
    beautify (x.rename ρ) = (beautify x).rename ρ := by
  rw [beautify, shown_rename, standalone_rename, beautify]

/-! ## Names in shown forms -/

/-- A property of numbers, which ordinary functions pass on. -/
structure PassedOn (P : Expr → Prop) : Prop where
  rational : ∀ q, P (.rational q)
  infinity : ∀ negative, P (.infinity negative)
  apply : ∀ {f xs}, f.isOrdinary = true → (∀ x ∈ xs, P x) → P (.apply f xs)

theorem isOrdinary_of_drawn {n : Nat} (h : isDrawn f n = true) : f.isOrdinary = true := by
  unfold isDrawn at h
  split at h <;> first | rfl | cases h

theorem PassedOn.drawn {P : Expr → Prop} (hP : PassedOn P) : Drawn P where
  rational := hP.rational
  infinity := hP.infinity
  apply hf hxs := hP.apply (isOrdinary_of_drawn hf) hxs

variable {names : String → Prop} {k : String} {B : List String}

theorem passedOn_holds (names : String → Prop) : PassedOn (Holds names) where
  rational _ := nofun
  infinity _ := nofun
  apply hf hxs := by
    refine holds_apply.mpr ⟨?_, hxs⟩
    rintro name rfl
    cases hf

/-- The shown form of a compound expression whose operator is not ordinary. -/
theorem showApply_of_not_ordinary (hf : f.isOrdinary = false) (operands : List (Expr × Shown)) :
    showApply f operands =
      ⟨false, .whole (.apply f (operands.map fun p => standalone p.1 p.2))⟩ := by
  cases f <;> first | rfl | cases hf

theorem shown_apply_of_not_ordinary (hf : f.isOrdinary = false) (xs : List Expr) :
    shown (.apply f xs) = ⟨false, .whole (.apply f (xs.map beautify))⟩ := by
  rw [shown, showApply_of_not_ordinary hf, shownAll_eq_map, List.map_map]
  rfl

/-- No name comes into an expression by the form in which it is shown. -/
theorem holds_beautify (hx : Holds names x) : Holds names (beautify x) :=
  (passedOn_holds names).drawn.beautify (fun h hy => (holds_apply.mp h).2 _ hy)
    (fun h _ hys => holds_apply.mpr ⟨(holds_apply.mp h).1, hys⟩) hx

/-! ## Scopes of shown forms -/

theorem passedOn_scoped (A : NameRules) (B : List String) : PassedOn (Scoped A B) where
  rational _ := .literal rfl
  infinity _ := .literal rfl
  apply := .ordinary

/-- In shown forms the operands that name variables are admitted as before, and bind the same names
as far as it matters. -/
structure NamesShown (A : NameRules) : Prop where
  binder : ∀ y, A.binder y → A.binder (beautify y)
  bound : ∀ xs : List Expr, (∀ y ∈ xs[1]?, A.binder y) →
    A.free (boundName xs) ∨ boundName (xs.map beautify) = boundName xs

/-- The names in the form for the user are admitted where they stand, if they were so before. -/
theorem satisfies_scoped {A : NameRules} (hA : NamesShown A) (hx : Scoped A B x) :
    (shown x).face.Satisfies (Scoped A B) := by
  induction hx with
  | literal hx => exact (passedOn_scoped _ _).drawn.literal hx (.literal hx)
  | symbol hname hfree => exact .symbol hname hfree
  | ordinary hf hxs ih =>
      rw [shown, shownAll_eq_map]
      refine (passedOn_scoped _ _).drawn.showApply (fun p hp => ?_) (Scoped.ordinary hf)
      rcases List.mem_map.mp hp with ⟨y, hy, rfl⟩
      exact ⟨hxs y hy, ih y hy⟩
  | call hcalled hxs ih =>
      rw [shown_apply_of_not_ordinary rfl]
      refine .call hcalled fun z hz => ?_
      rcases List.mem_map.mp hz with ⟨y, hy, rfl⟩
      exact (passedOn_scoped _ _).drawn.standalone (hxs y hy) (ih y hy)
  | @binding B f xs hf hbinder hbody hrest ihbody ihrest =>
      have hordinary : f.isOrdinary = false := by
        cases f <;> first | rfl | cases hf
      rw [shown_apply_of_not_ordinary hordinary]
      refine .binding hf ?_ ?_ ?_
      · intro z hz
        rw [List.getElem?_map] at hz
        rcases Option.map_eq_some_iff.mp hz with ⟨y, hy, rfl⟩
        exact hA.binder y (hbinder y hy)
      · intro z hz
        rw [List.head?_map] at hz
        rcases Option.map_eq_some_iff.mp hz with ⟨y, hy, rfl⟩
        have hshown := (passedOn_scoped _ _).drawn.standalone (hbody y hy) (ihbody y hy)
        refine hshown.rescope fun name hname => ?_
        rcases List.mem_cons.mp hname with rfl | hname
        · refine (hA.bound xs hbinder).imp_right fun hbound => ?_
          rw [hbound]
          exact List.mem_cons_self
        · exact .inr (List.mem_cons_of_mem _ hname)
      · intro z hz
        rw [← List.map_drop] at hz
        rcases List.mem_map.mp hz with ⟨y, hy, rfl⟩
        exact (passedOn_scoped _ _).drawn.standalone (hrest y hy) (ihrest y hy)

theorem scoped_beautify {A : NameRules} (hA : NamesShown A) (hx : Scoped A B x) :
    Scoped A B (beautify x) :=
  (passedOn_scoped _ _).drawn.standalone hx (satisfies_scoped hA hx)

theorem binder_beautify {y : Expr} (hy : (bindsOnly names k).binder y) :
    (bindsOnly names k).binder (beautify y) := by
  refine ⟨holds_beautify hy.1, ?_⟩
  rcases hy.2 with rfl | hother
  · exact .inl rfl
  · exact .inr (holds_beautify hother)

/-- Where the name is bound, it is bound in the shown form as well. -/
theorem boundName_beautify (hk : k ≠ "") {xs : List Expr}
    (hbinder : ∀ y ∈ xs[1]?, (bindsOnly names k).binder y) (hbound : boundName xs = k) :
    boundName (xs.map beautify) = k := by
  rw [boundName] at hbound ⊢
  rw [List.getElem?_map]
  cases hsecond : xs[1]? with
  | none =>
      rw [hsecond] at hbound
      exact absurd hbound.symm hk
  | some y =>
      rw [hsecond, Option.bind_some] at hbound
      rcases (hbinder y hsecond).2 with rfl | hother
      · rfl
      · cases hname : y.name? with
        | none =>
            rw [hname] at hbound
            exact absurd hbound.symm hk
        | some name =>
            rw [hname] at hbound
            exact absurd hbound (hother.name? name hname)

/-- A name that stands only where it is bound does so in the form for the user as well. -/
theorem namesShown_bindsOnly (hk : k ≠ "") : NamesShown (bindsOnly names k) where
  binder _ := binder_beautify
  bound xs hbinder := by
    by_cases heq : boundName xs = k
    · exact .inr ((boundName_beautify hk hbinder heq).trans heq.symm)
    · exact .inl heq

end Reduction

end PocketAlgebra
