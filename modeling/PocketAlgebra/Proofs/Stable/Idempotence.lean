import PocketAlgebra.Proofs.Stable.Kept

/-!
# Reducing results again
-/

namespace PocketAlgebra

namespace Reduction

open PocketAlgebra.Expr Shape

variable {settings : Settings} {ctx : Context} {f : Operator} {x y : Expr} {xs : List Expr}
  {nesting : Nat}

/-! ## Tidy trees -/

/-- A sum or product that reduction leaves alone once it is put together. -/
def NodeTidy : Expr → Prop
  | .apply .addition xs => TidySum xs
  | .apply .multiplication xs => TidyProduct xs
  | _ => True

/-- A tree of such sums and products. -/
def Tidy (x : Expr) : Prop :=
  x.Everywhere NodeTidy

theorem nodeTidy_of_isMany (h : x.isMany = false) : NodeTidy x := by
  cases x with
  | apply f xs => cases f <;> trivial
  | _ => trivial

/-- Trees without sums and products are tidy. -/
theorem tidy_of_single (h : x.Everywhere (·.isMany = false)) : Tidy x :=
  h.mono fun _ => nodeTidy_of_isMany

/-- Scalars that contain no sums, and are not infinite. -/
def Sumless (xs : List Expr) : Prop :=
  ∀ x ∈ xs, x.isMatrix = false ∧ x.kind ≠ .infinity ∧ x.Everywhere (·.kind ≠ .addition)

instance (xs : List Expr) : Decidable (Sumless xs) :=
  inferInstanceAs (Decidable (∀ x ∈ xs,
    x.isMatrix = false ∧ x.kind ≠ .infinity ∧ x.Everywhere (·.kind ≠ .addition)))

theorem Sumless.tidySum (h : Sumless xs) : TidySum xs where
  scalars x hx := (h x hx).1
  clear x hx y hy := not_clashes_of_everywhere (.inl rfl) (h x hx).2.2 (h y hy).2.2
  agreed a _ ha _ := absurd rfl (h (.infinity a) ha).2.1
  unabsorbed a ha := absurd rfl (h (.infinity a) ha).2.1

theorem Sumless.tidyProduct (h : Sumless xs)
    (hbases : xs.Pairwise fun x y => x.kind ≠ .rational → y.kind ≠ .rational → x.base ≠ y.base) :
    TidyProduct xs where
  scalars x hx := (h x hx).1
  clear x hx y hy := not_clashes_of_everywhere (.inl rfl) (h x hx).2.2 (h y hy).2.2
  bases := hbases
  unabsorbed a ha := absurd rfl (h (.infinity a) ha).2.1

/-- What is known of a reduced tree that is tidy. -/
structure Settled (settings : Settings) (x : Expr) : Prop where
  canonical : Canonical x
  regular : Regular x
  kept : x.Everywhere (NodeKept settings)
  tidy : Tidy x

theorem Settled.operand (h : Settled settings (.apply f xs)) (hx : x ∈ xs) : Settled settings x :=
  ⟨h.canonical.operand hx, h.regular.operand hx, h.kept.operand hx, h.tidy.operand hx⟩

/-! ## Nodes -/

theorem spoiled?_proper (hf : admitsMatrices f.kind = true) (hxs : ∀ x ∈ xs, Proper x) :
    spoiled? f xs = none := by
  have hlists : xs.any isList = false :=
    List.any_eq_false.mpr fun x hx => by simp [(hxs x hx).1.2]
  rw [spoiled?, hlists, poison?_eq_none fun x hx => (hxs x hx).2, hf]
  simp

/-- A power with the exponent 1 is not kept. -/
theorem exponent_of_isKept (hproper : ∀ z ∈ [x, y], Proper z)
    (h : IsKept settings (.apply .power [x, y])) : y.isRational 1 = false := by
  rw [Bool.eq_false_iff]
  intro hone
  cases eq_rational (eq_of_beq hone)
  obtain ⟨nesting, ctx, b, c, -, hr⟩ := h
  have hne : Yields (nodeWithin nesting ctx (.apply .power [x, .rational 1]))
      (· ≠ .apply .power [x, .rational 1]) := by
    refine nodeWithin_unspoiled (spoiled?_proper rfl hproper) fun inner _ => ?_
    have hmatrix : (Expr.rational 1).isMatrix = false := rfl
    rw [reduceApply, reducePower, hmatrix, if_neg Bool.false_ne_true]
    split
    · change Yields (powerOfMatrix _ _ 1) _
      rw [powerOfMatrix]
      split
      · exact Yields.pure fun heq => by cases heq
      · refine Yields.bind (P := fun _ => True) (fun _ _ _ _ => trivial) fun m _ => ?_
        exact Yields.pure fun heq => by cases heq
    · rw [powerOfScalars, if_neg (by simp [isRational, rational?]), if_pos hone]
      refine Yields.pure fun heq => ?_
      have hsize := congrArg size heq
      simp only [size, sizeAll] at hsize
      omega
  exact hne b _ c hr rfl

theorem isKept_settled (hsymbolic : settings.symbolic ≠ .replaceAllSymbolsOrUndefined)
    (h : Settled settings (.apply f xs)) : IsKept settings (.apply f xs) := by
  have hstays := h.kept.here.2
  cases f with
  | addition =>
      refine isKept_of_pure hsymbolic fun ctx _ node tree => ?_
      rw [reduceNode, spoiled?_proper rfl fun x => h.canonical.operand_proper rfl]
      exact reduceSum_of_tidy node h.canonical h.regular hstays
        (fun x hx => gathered_of_nodeKept (h.kept.operand hx)) h.tidy.here
  | multiplication =>
      refine isKept_of_pure hsymbolic fun ctx _ node tree => ?_
      rw [reduceNode, spoiled?_proper rfl fun x => h.canonical.operand_proper rfl]
      refine reduceProduct_of_tidy node h.canonical h.regular hstays ?_ h.tidy.here
      rintro x hx base exponent rfl
      exact exponent_of_isKept (fun z => (h.canonical.operand hx).operand_proper rfl)
        (h.kept.operand hx).here.2
  | matrix rows columns =>
      refine isKept_of_pure hsymbolic fun ctx _ node tree => ?_
      have hlists : xs.any isList = false := List.any_eq_false.mpr fun x hx hlist => by
        cases h.canonical.shape.lists x hx hlist
      have hspoiled : spoiled? (.matrix rows columns) xs = none := by
        rw [spoiled?, hlists]
        rfl
      rw [reduceNode, hspoiled]
      rfl
  | _ => exact hstays

/-! ## Trees -/

/-- Leaves of reduced trees are given back. -/
theorem leaf_settled (hctx : Under settings ctx) (hleaf : ∀ f xs, x ≠ .apply f xs)
    (h : x.Everywhere (NodeKept settings)) (nesting : Nat) :
    Yields (treeWithin nesting ctx x) (· = x) := by
  refine treeWithin_leaf hleaf (fun inner => ?_) nesting
  cases x with
  | rational q => exact Yields.pure rfl
  | infinity negative => exact Yields.pure rfl
  | decimal d => cases h.here
  | constant c =>
      refine Yields.pure ?_
      rw [reduceConstant, if_neg]
      rw [Bool.and_eq_true, decide_eq_true_iff, decide_eq_true_iff, hctx.settings_eq]
      exact fun hunit => h.here hunit.1 hunit.2
  | symbol name =>
      rw [reduceNode, symbol]
      split
      · exact Yields.pure rfl
      · have hnone : ctx.definitions.value? name = none := by
          rw [hctx.definitions]
          rfl
        rw [hnone]
        exact Yields.pure (if_neg hctx.symbolic)
  | apply f xs => exact absurd rfl (hleaf f xs)

theorem mapM_settled {tree : NodeReducer} (h : ∀ x ∈ xs, Yields (tree x) (· = x)) :
    Yields (xs.mapM tree) (· = xs) := by
  refine (Yields.mapM (R := fun x y => x = y) fun x hx => ?_).mono fun ys hys => ?_
  · exact (h x hx).mono fun _ => Eq.symm
  · rw [List.forall₂_eq_eq_eq] at hys
    exact hys.symm

theorem reduceOperands_settled {tree : Context → NodeReducer} (hctx : Under settings ctx)
    (h : ∀ ctx, Under settings ctx → ∀ x ∈ xs, Yields (tree ctx x) (· = x)) :
    Yields (reduceOperands ctx tree f xs) (· = xs) := by
  rw [reduceOperands.eq_def]
  split
  · cases xs with
    | nil => exact Yields.pure rfl
    | cons body others =>
        have hinner : Under settings (Context.binding ctx (body :: others)) :=
          ⟨⟨hctx.definitions, hctx.symbolic⟩, hctx.settings_eq⟩
        have hrest : ∀ x ∈ others.drop 1, Yields (tree ctx x) (· = x) := fun x hx =>
          h ctx hctx x (List.mem_cons_of_mem body (List.mem_of_mem_drop hx))
        refine (h _ hinner body List.mem_cons_self).bind fun body' hbody => ?_
        refine (mapM_settled hrest).bind fun rest hrest => Yields.pure ?_
        rw [hbody, hrest, List.cons_append, List.take_append_drop]
  · exact mapM_settled (h ctx hctx)

/-- A settled tree is given back, in whatever room and under whatever breaker. -/
theorem tree_settled (hsymbolic : settings.symbolic ≠ .replaceAllSymbolsOrUndefined)
    (h : Settled settings x) (hctx : Under settings ctx) (nesting : Nat) :
    Yields (treeWithin nesting ctx x) (· = x) := by
  induction nesting generalizing ctx x with
  | zero => exact Yields.throw _
  | succ nesting ih =>
      cases x with
      | apply f xs =>
          have hnode := (isKept_settled hsymbolic h).yields hctx nesting
          have hstore : f ≠ .store := by
            rintro rfl
            cases h.canonical.shape.kept
          rw [treeWithin, reduceWithin]
          · refine Yields.bind_unit ?_
            dsimp only
            split
            · exact hnode
            · refine Yields.bind (reduceOperands_settled hctx fun ctx hctx x hx =>
                ih (h.operand hx) hctx) ?_
              rintro _ rfl
              exact hnode
          · exact hstore
      | _ => exact leaf_settled hctx (fun _ _ happly => by cases happly) h.kept _

/-! ## Results -/

end Reduction

open Reduction Expr Shape

/-- What a tree is reduced to without definitions is reduced to itself, if it is tidy. -/
theorem reduce_tidy {settings : Settings} {room room' : Nat} {breaker breaker' : Breaker}
    {x r s : Expr} (hx : Arranged x) (htarget : settings.target ≠ .user)
    (hsymbolic : settings.symbolic ≠ .replaceAllSymbolsOrUndefined)
    (hr : x.reduce ⟨settings, {}, room, []⟩ breaker = .ok r) (htidy : Tidy r)
    (hs : r.reduce ⟨settings, {}, room', []⟩ breaker' = .ok s) : s = r := by
  have hsettled : Settled settings r := by
    have hnone : Defines Arranged ({} : Definitions) := fun _ hentry => by cases hentry
    refine ⟨reduce_canonical hx.bindsSymbols (fun entry hentry => (hnone entry hentry).bindsSymbols)
      htarget hr, closed_regular.reduce hx.regular (fun entry hentry => (hnone entry hentry).regular)
      htarget hr, ?_, htidy⟩
    exact (transforms_nodeKept hsymbolic).reduce hx.bindsSymbols ⟨⟨rfl, hsymbolic⟩, rfl⟩ htarget hr
  exact of_reduce (P := (· = r)) (tree_settled hsymbolic hsettled ⟨⟨rfl, hsymbolic⟩, rfl⟩ maxNesting) htarget hs

namespace Reduction

def rootAndLogarithms : Expr :=
  .apply .addition
    [.apply .naturalLogarithm [.symbol "y"],
      .apply .addition
        [.apply .multiplication
          [.apply .squareRoot [.integer 8], .apply .absoluteValue [.apply .sine [.symbol "x"]]],
          .apply .naturalLogarithm [.symbol "y"]]]

def rootTerm : Expr :=
  .apply .multiplication
    [.integer 2, .apply .power [.integer 2, .rational (mkRat 1 2)],
      .apply .absoluteValue [.apply .sine [.symbol "x"]]]

def logarithmTerm : Expr :=
  .apply .multiplication [.integer 2, .apply .logarithm [.symbol "y", .e]]

def rootAndLogarithm : Expr :=
  .apply .addition [rootTerm, logarithmTerm]

theorem tidy_rootAndLogarithm : Tidy rootAndLogarithm := by
  have hroot : Tidy rootTerm := by
    refine everywhere_apply.mpr ⟨Sumless.tidyProduct (by decide) ?_, fun x hx => ?_⟩
    · exact List.pairwise_cons.mpr ⟨fun _ _ h => absurd rfl h, List.pairwise_pair.mpr fun _ _ => nofun⟩
    · exact tidy_of_single ((by decide : ∀ x ∈ rootTerm.operands, x.Everywhere (·.isMany = false)) x hx)
  have hlogarithm : Tidy logarithmTerm := by
    refine everywhere_apply.mpr ⟨Sumless.tidyProduct (by decide) ?_, fun x hx => ?_⟩
    · exact List.pairwise_pair.mpr fun h => absurd rfl h
    · exact tidy_of_single ((by decide : ∀ x ∈ logarithmTerm.operands, x.Everywhere (·.isMany = false)) x hx)
  exact everywhere_apply.mpr ⟨Sumless.tidySum (by decide), forall_mem_pair hroot hlogarithm⟩

/-- Equal terms are collected, a square is taken out of the root, and the result stays. -/
theorem reduce_tidy_rootAndLogarithms :
    Arranged rootAndLogarithms ∧
      rootAndLogarithms.reduce ⟨{ target := .systemForAnalysis }, {}, 4096, []⟩ {} =
        .ok rootAndLogarithm ∧
      Tidy rootAndLogarithm ∧
      ∃ s, rootAndLogarithm.reduce ⟨{ target := .systemForAnalysis }, {}, 4096, []⟩ {} = .ok s ∧
        s = rootAndLogarithm := by
  have harranged : Arranged rootAndLogarithms := by decide
  have hreduced : rootAndLogarithms.reduce ⟨{ target := .systemForAnalysis }, {}, 4096, []⟩ {} =
      .ok rootAndLogarithm := Everywhere.eq_ok (by decide) (by decide +kernel)
  have hagain : rootAndLogarithm.reduce ⟨{ target := .systemForAnalysis }, {}, 4096, []⟩ {} =
      .ok rootAndLogarithm := Everywhere.eq_ok (by decide) (by decide +kernel)
  exact ⟨harranged, hreduced, tidy_rootAndLogarithm, _, hagain,
    reduce_tidy harranged (by decide) (by decide) hreduced tidy_rootAndLogarithm hagain⟩

end Reduction

end PocketAlgebra
