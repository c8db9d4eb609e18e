import PocketAlgebra.Proofs.Parallel.Derivative
import PocketAlgebra.Proofs.Parallel.Matrix

/-!
# All rules side by side

Every node except a symbol and a call of a user function is reduced alike in two runs whose calls go
side by side. What names stand for, and how the recursion is closed, is left to the runs that are
compared.
-/

namespace PocketAlgebra

namespace Reduction

open PocketAlgebra.Expr Shape Comparison

variable {C : Comparison} {ρ : String → String} {P : Expr → Prop} {node node' : NodeReducer}
  {tree tree' : NodeReducer} {ctx ctx' : Context} {f : Operator} {x y : Expr} {xs ys : List Expr}

/-! ## Arithmetic, with matrices and without -/

theorem spoiled?_rename (ρ : String → String) (f : Operator) (xs : List Expr) :
    spoiled? f (xs.map (rename ρ)) = spoiled? f xs := by
  rw [spoiled?, spoiled?, poison?_rename, any_map_rename (isList_rename ρ),
    any_map_rename (isMatrix_rename ρ)]

theorem eq_of_spoiled? (h : spoiled? f xs = some x) : x = .undefined ∨ x = .nonreal := by
  rw [spoiled?] at h
  split at h
  · exact .inl (Option.some.inj h).symm
  · rcases Option.or_eq_some_iff.mp h with h | ⟨_, h⟩
    · split at h
      · cases h
      · rw [poison?] at h
        split at h
        · exact .inl (Option.some.inj h).symm
        · split at h
          · exact .inr (Option.some.inj h).symm
          · cases h
    · split at h
      · exact .inl (Option.some.inj h).symm
      · cases h

theorem Respects.renamed_spoiled (hP : Respects ρ P) (h : spoiled? f xs = some x) :
    C.Image (rename ρ) P (pure x) (pure x) := by
  rcases eq_of_spoiled? h with rfl | rfl
  · exact hP.renamed_undefined
  · exact hP.renamed_nonreal

theorem Respects.reduceSum (hP : Respects ρ P) (hnode : Parallel C ρ P node node')
    (hxs : ∀ x ∈ xs, P x) : C.Image (rename ρ) P (Reduction.reduceSum node xs)
      (Reduction.reduceSum node' (xs.map (rename ρ))) := by
  have hterms := hP.flattenAll (f := .addition) rfl hxs
  have hsum := hP.sumOfScalars hterms
  simp only [Reduction.reduceSum, flattenAll_rename, poison?_rename,
    any_map_rename (isMatrix_rename ρ), hsum.2]
  cases hpoison : Reduction.poison? (Reduction.flattenAll .addition xs) with
  | some poison => exact hP.renamed_poison hpoison
  | none =>
      dsimp only
      split
      · exact hP.sumOfMatrices hnode hterms
      · exact image_pure hsum.1

theorem Respects.reduceProduct (hP : Respects ρ P) (hnode : Parallel C ρ P node node')
    (hxs : ∀ x ∈ xs, P x) : C.Image (rename ρ) P (Reduction.reduceProduct node xs)
      (Reduction.reduceProduct node' (xs.map (rename ρ))) := by
  have hfactors := hP.flattenAll (f := .multiplication) rfl hxs
  simp only [Reduction.reduceProduct, flattenAll_rename, poison?_rename,
    any_map_rename (isMatrix_rename ρ)]
  cases hpoison : Reduction.poison? (Reduction.flattenAll .multiplication xs) with
  | some poison => exact hP.renamed_poison hpoison
  | none =>
      dsimp only
      split
      · exact hP.productOfMatrices hnode hfactors
      · exact hP.productOfScalars hnode hfactors

theorem Respects.reducePower (hP : Respects ρ P) (hnode : Parallel C ρ P node node')
    (hsettings : ctx'.settings = ctx.settings) (hxs : ∀ x ∈ xs, P x) :
    C.Image (rename ρ) P (Reduction.reducePower ctx node xs)
      (Reduction.reducePower ctx' node' (xs.map (rename ρ))) := by
  match xs with
  | [] | [_] | _ :: _ :: _ :: _ => exact hP.renamed_undefined
  | [base, exponent] =>
      have hbase := hxs base (by simp)
      have hexponent := hxs exponent (by simp)
      simp only [List.map_cons, List.map_nil, Reduction.reducePower, isMatrix_rename,
        Grid.ofExpr?_rename, integer?_rename]
      split
      · exact hP.renamed_undefined
      · cases hmatrix : Grid.ofExpr? base with
        | none => exact hP.powerOfScalars hnode hsettings hbase hexponent
        | some m =>
            cases exponent.integer? with
            | none => exact hP.renamed_undefined
            | some n => exact hP.powerOfMatrix hnode (hP.all_of_ofExpr? hbase hmatrix) n

theorem Respects.reduceDifference (hP : Respects ρ P) (hnode : Parallel C ρ P node node')
    (hxs : ∀ x ∈ xs, P x) : C.Image (rename ρ) P (Reduction.reduceDifference node xs)
      (Reduction.reduceDifference node' (xs.map (rename ρ))) := by
  match xs with
  | [] | [_] | _ :: _ :: _ :: _ => exact hP.renamed_undefined
  | [x, y] =>
      exact image_bind (hnode.negate hP (hxs y (by simp))) fun z hz =>
        hnode.add (forall_mem_pair (hxs x (by simp)) hz)

theorem Respects.reduceOpposite (hP : Respects ρ P) (hnode : Parallel C ρ P node node')
    (hxs : ∀ x ∈ xs, P x) : C.Image (rename ρ) P (Reduction.reduceOpposite node xs)
      (Reduction.reduceOpposite node' (xs.map (rename ρ))) := by
  match xs with
  | [] | _ :: _ :: _ => exact hP.renamed_undefined
  | [x] => exact hnode.negate hP (hxs x List.mem_cons_self)

theorem Respects.reduceQuotient (hP : Respects ρ P) (hnode : Parallel C ρ P node node')
    (hxs : ∀ x ∈ xs, P x) : C.Image (rename ρ) P (Reduction.reduceQuotient node xs)
      (Reduction.reduceQuotient node' (xs.map (rename ρ))) := by
  match xs with
  | [] | [_] | _ :: _ :: _ :: _ => exact hP.renamed_undefined
  | [x, y] =>
      simp only [List.map_cons, List.map_nil, Reduction.reduceQuotient, isRational_rename,
        sign_rename]
      split
      · cases x.sign with
        | positive => exact hP.renamed_infinity false
        | negative => exact hP.renamed_infinity true
        | _ => exact hP.renamed_undefined
      · exact image_bind (hnode.invert hP (hxs y (by simp))) fun z hz =>
          hnode.multiply (forall_mem_pair (hxs x (by simp)) hz)

theorem Respects.reduceComparison (hP : Respects ρ P) {relation : Relation}
    (hxs : ∀ x ∈ xs, P x) : C.Image (rename ρ) P (pure (Reduction.reduceComparison relation xs))
      (pure (Reduction.reduceComparison relation (xs.map (rename ρ)))) := by
  have hkept : C.Image (rename ρ) P (pure (.apply (.comparison relation) xs))
      (pure (.apply (.comparison relation) (xs.map (rename ρ)))) :=
    C.pure ⟨(hP.apply rfl).mpr hxs, by rw [rename_apply]⟩
  match xs with
  | [] | [_] => exact hkept
  | x :: y :: others =>
      have hsame := hP.same (hxs x (by simp)) (hxs y (by simp))
      simp only [List.map_cons, Reduction.reduceComparison, hsame]
      split
      · exact hP.renamed_integer 1
      · exact hkept

theorem Respects.first (hP : Respects ρ P) (hxs : ∀ x ∈ xs, P x) :
    C.Image (rename ρ) P (pure (xs.headD .undefined))
      (pure ((xs.map (rename ρ)).headD .undefined)) := by
  cases xs with
  | nil => exact hP.renamed_undefined
  | cons x xs => exact image_pure (hxs x List.mem_cons_self)

/-! ## Ordinary operators -/

theorem Respects.reduceCalled (hP : Respects ρ P) (hnode : Parallel C ρ P node node')
    (hsettings : ctx'.settings = ctx.settings) (hf : isCalled f = true) (hxs : ∀ x ∈ xs, P x) :
    C.Image (rename ρ) P (reduceApply ctx node tree f xs)
      (reduceApply ctx' node' tree' f (xs.map (rename ρ))) := by
  cases f with
  | addition => exact hP.reduceSum hnode hxs
  | multiplication => exact hP.reduceProduct hnode hxs
  | power => exact hP.reducePower hnode hsettings hxs
  | logarithm => exact hP.logarithm hnode hsettings hxs
  | sine | cosine | tangent | arcSine | arcCosine | arcTangent =>
      exact hP.trigonometric hnode hsettings rfl hxs
  | hyperbolicSine | hyperbolicCosine | hyperbolicTangent =>
      exact hP.trigonometric hnode hsettings rfl hxs
  | hyperbolicArcSine | hyperbolicArcCosine | hyperbolicArcTangent =>
      exact hP.trigonometric hnode hsettings rfl hxs
  | _ => cases hf

theorem Respects.reduceOrdinary (hP : Respects ρ P) (hnode : Parallel C ρ P node node')
    (hsettings : ctx'.settings = ctx.settings) (hf : f.isOrdinary = true) (hxs : ∀ x ∈ xs, P x) :
    C.Image (rename ρ) P (reduceApply ctx node tree f xs)
      (reduceApply ctx' node' tree' f (xs.map (rename ρ))) := by
  have hx : P (.apply f xs) := (hP.apply hf).mpr hxs
  have hkept : C.Image (rename ρ) P (pure (.apply f xs))
      (pure (.apply f (xs.map (rename ρ)))) :=
    C.pure ⟨hx, by rw [rename_apply]⟩
  have hinteger : C.Image (rename ρ) P (pure ((integerFunction f xs).toExpr (.apply f xs)))
      (pure ((integerFunction f (xs.map (rename ρ))).toExpr (.apply f (xs.map (rename ρ))))) := by
    rw [integerFunction_rename, ← rename_apply]
    exact hP.outcome _ hx
  by_cases hcalled : isCalled f = true
  · exact hP.reduceCalled hnode hsettings hcalled hxs
  cases f with
  | undefined | nonreal | matrix | list => exact hkept
  | subtraction => exact hP.reduceDifference hnode hxs
  | division => exact hP.reduceQuotient hnode hxs
  | opposite => exact hP.reduceOpposite hnode hxs
  | factorial =>
      match xs with
      | [] | _ :: _ :: _ => exact hP.renamed_undefined
      | [x] =>
          have houtcome := hP.outcome (C := C) (factorial x) hx
          rw [rename_apply] at houtcome
          simp only [List.map_cons, List.map_nil, Reduction.reduceApply, factorial_rename]
          exact houtcome
  | parenthesis | store => exact hP.first hxs
  | comparison relation => exact hP.reduceComparison hxs
  | absoluteValue | complexArgument | realPart | imaginaryPart | conjugate =>
      exact hP.complexPart hnode hsettings rfl hxs
  | squareRoot => exact hP.squareRoot hnode hxs
  | nthRoot => exact hP.nthRoot hnode hxs
  | naturalLogarithm => exact hP.logarithmInBase hnode hP.e rfl hxs
  | commonLogarithm => exact hP.logarithmInBase hnode (hP.integer 10) rfl hxs
  | floor | ceiling | fractionalPart | round => exact hinteger
  | greatestCommonDivisor | leastCommonMultiple | quotient | remainder => exact hinteger
  | binomial | permutations => exact hinteger
  | determinant | matrixInverse | trace | transpose | dimension =>
      exact hP.matrixFunction hnode hxs
  | listSum | listMean => exact hP.listFunction hnode rfl hxs
  | function | derivative | integral | sum | product => cases hf
  | _ => exact absurd rfl hcalled

/-! ## Leaves -/

theorem Respects.reduceDecimal (hP : Respects ρ P) (d : Decimal) :
    C.Image (rename ρ) P (pure (Reduction.reduceDecimal d))
      (pure (Reduction.reduceDecimal d)) := by
  rw [Reduction.reduceDecimal]
  split
  · exact hP.renamed_infinity _
  · exact hP.renamed_integer 0
  · exact hP.renamed_rational _

theorem Respects.reduceConstant (hP : Respects ρ P) (hsettings : ctx'.settings = ctx.settings)
    (c : Constant) : C.Image (rename ρ) P (pure (Reduction.reduceConstant ctx c))
      (pure (Reduction.reduceConstant ctx' c)) := by
  rw [Reduction.reduceConstant, Reduction.reduceConstant, hsettings]
  split
  · exact hP.renamed_nonreal
  · exact image_pure (hP.constant c)

/-! ## Nodes in a scope -/

section Scopes

variable {A A₀ : NameRules} {B : List String}

theorem respects_scoped (hρ : Renames ρ A) (B : List String) : Respects ρ (Scoped A B) where
  rational _ := .literal rfl
  infinity _ := .literal rfl
  constant _ := .literal rfl
  apply := scoped_ordinary
  same hx hy := same_rename hρ.keeps _ _ (hx.named hρ) (hy.named hρ)
  order hx hy := order_rename hρ.keeps _ _ (hx.named hρ) (hy.named hρ)

theorem keepsMentions_scoped (hρ : Renames ρ A) {name : String} (hname : A.occurs name) :
    KeepsMentions ρ (Scoped A B) name :=
  fun x hx => mentions_rename hρ.keeps hname x (hx.named hρ)

/-- The derivative at a point, where the trees that are made are reduced side by side. -/
theorem derivativeAt_image (hρ : Renames ρ A)
    (hnode : ∀ B, Parallel C ρ (Scoped A B) node node')
    (htree : ∀ y, Scoped A B y → C.Image (rename ρ) (Scoped A B) (tree y) (tree' (y.rename ρ)))
    (hsettings : ctx'.settings = ctx.settings) (hx : Scoped A B (.apply .derivative xs)) :
    C.Image (rename ρ) (Scoped A B) (derivativeAt ctx node tree xs)
      (derivativeAt ctx' node' tree' (xs.map (rename ρ))) := by
  have hP := respects_scoped hρ B
  have hundefined : C.Image (rename ρ) (Scoped A B) (pure .undefined) (pure .undefined) :=
    hP.renamed_undefined
  have hkept : C.Image (rename ρ) (Scoped A B) (pure (.apply .derivative xs))
      (pure (.apply .derivative (xs.map (rename ρ)))) :=
    C.pure ⟨hx, by rw [rename_apply]⟩
  rcases (scoped_binding rfl).mp hx with ⟨hbinder, hbody, hrest⟩
  match xs with
  | [] | [_] => exact hundefined
  | [_, second] | _ :: second :: _ :: _ :: _ =>
      cases second with
      | apply g ys =>
          rw [List.map_cons, List.map_cons, rename_apply]
          exact hundefined
      | _ => exact hundefined
  | [body, second, point] =>
      cases second with
      | symbol name =>
          have hname : A.occurs name := named_symbol.mp (hρ.named _ (hbinder _ rfl))
          have hbody : Scoped A (name :: B) body := hbody body rfl
          have hpoint : Scoped A B point := hrest point List.mem_cons_self
          have hiff : ∀ other, A.occurs other → (ρ other = ρ name ↔ other = name) :=
            fun other hother => ⟨hρ.keeps.injective hother hname, congrArg ρ⟩
          refine image_bind ((respects_scoped hρ (name :: B)).derivative? (hnode _) hsettings
            (keepsMentions_scoped hρ hname) body hbody) fun d hd => ?_
          cases d with
          | none => exact hkept
          | some d =>
              have hd : Scoped A (name :: B) d := hd d rfl
              have hresult := htree _ (hpoint.substitute hd)
              rw [hd.rename_substitute hρ hiff] at hresult
              exact hresult
      | apply g ys =>
          rw [List.map_cons, List.map_cons, rename_apply]
          exact hundefined
      | _ => exact hundefined

/-- Symbols and calls of user functions. -/
def isName : Expr → Bool
  | .symbol _ | .apply (.function _) _ => true
  | _ => false

/-- Every node that is not a name is reduced side by side. -/
theorem reduceNode_image (hρ : Renames ρ A) (hnode : ∀ B, Parallel C ρ (Scoped A B) node node')
    (htree : ∀ y, Scoped A B y → C.Image (rename ρ) (Scoped A B) (tree y) (tree' (y.rename ρ)))
    (hsettings : ctx'.settings = ctx.settings) (hname : isName x = false) (hx : Scoped A B x) :
    C.Image (rename ρ) (Scoped A B) (reduceNode ctx node tree x)
      (reduceNode ctx' node' tree' (x.rename ρ)) := by
  have hP := respects_scoped hρ B
  cases x with
  | rational q => exact image_pure hx
  | infinity negative => exact image_pure hx
  | decimal d => exact hP.reduceDecimal d
  | constant c => exact hP.reduceConstant hsettings c
  | symbol name => cases hname
  | apply f xs =>
      have hkept : C.Image (rename ρ) (Scoped A B) (pure (.apply f xs))
          (pure (.apply f (xs.map (rename ρ)))) :=
        C.pure ⟨hx, by rw [rename_apply]⟩
      rw [rename_apply, reduceNode, reduceNode, spoiled?_rename]
      cases hspoiled : spoiled? f xs with
      | some result => exact hP.renamed_spoiled hspoiled
      | none =>
          by_cases hf : f.isOrdinary = true
          · exact hP.reduceOrdinary (hnode B) hsettings hf ((scoped_ordinary hf).mp hx)
          · cases f with
            | function => cases hname
            | derivative => exact derivativeAt_image hρ hnode htree hsettings hx
            | integral | sum | product => exact hkept
            | _ => exact absurd rfl hf

/-- The nodes that rules call for are reduced side by side. -/
theorem reduceNode_called (hρ : Renames ρ A) (hnode : Parallel C ρ (Scoped A B) node node')
    (hsettings : ctx'.settings = ctx.settings) (hf : isCalled f = true)
    (hxs : ∀ x ∈ xs, Scoped A B x) :
    C.Image (rename ρ) (Scoped A B) (reduceNode ctx node tree (.apply f xs))
      (reduceNode ctx' node' tree' (.apply f (xs.map (rename ρ)))) := by
  have hP := respects_scoped hρ B
  rw [reduceNode, reduceNode, spoiled?_rename]
  cases hspoiled : spoiled? f xs with
  | some result => exact hP.renamed_spoiled hspoiled
  | none => exact hP.reduceCalled hnode hsettings hf hxs

/-! ## Operands -/

variable {reducer reducer' : Context → NodeReducer}

theorem reduceOperands_nil (ctx : Context) (reducer : Context → NodeReducer) (f : Operator) :
    reduceOperands ctx reducer f [] = pure [] := by
  rw [reduceOperands.eq_def]
  split <;> rfl

/-- The operands of a function that binds no variable. -/
theorem reduceOperands_image (hf : f.kind.isParametered = false)
    (hreducer : ∀ x ∈ xs, C.Image (rename ρ) P (reducer ctx x) (reducer' ctx' (x.rename ρ))) :
    C.Image (List.map (rename ρ)) (fun ys => ∀ y ∈ ys, P y) (reduceOperands ctx reducer f xs)
      (reduceOperands ctx' reducer' f (xs.map (rename ρ))) := by
  rw [reduceOperands.eq_def, reduceOperands.eq_def, hf]
  simp only [Bool.false_eq_true, if_false]
  rw [List.mapM_map]
  exact image_mapM hreducer

/-- The operands of a function that binds a variable make such a function again. -/
theorem reduceOperands_binding (hf : f.kind.isParametered = true)
    (hbinder : ∀ y ∈ xs[1]?, A.binder y)
    (hbody : ∀ x ∈ xs.head?, C.Image (rename ρ) (Scoped A (boundName xs :: B))
      (reducer (ctx.binding xs) x) (reducer' (ctx'.binding (xs.map (rename ρ))) (x.rename ρ)))
    (hrest : ∀ x ∈ xs.drop 2, C.Image (rename ρ) (Scoped A B) (reducer ctx x)
      (reducer' ctx' (x.rename ρ))) :
    C.Image (List.map (rename ρ)) (fun ys => Scoped A B (.apply f ys))
      (reduceOperands ctx reducer f xs) (reduceOperands ctx' reducer' f (xs.map (rename ρ))) := by
  rw [reduceOperands.eq_def, reduceOperands.eq_def, hf]
  cases xs with
  | nil => exact C.pure ⟨.binding hf nofun nofun nofun, rfl⟩
  | cons body others =>
      refine image_bind (hbody body rfl) fun body' hbody' => ?_
      cases others with
      | nil =>
          simp only [List.map_nil, List.drop_nil, List.mapM_nil, pure_bind]
          refine C.pure ⟨.binding hf nofun ?_ nofun, rfl⟩
          rintro _ ⟨⟩
          exact hbody'
      | cons second others =>
          have htail : C.Image (List.map (rename ρ)) (fun ys => ∀ y ∈ ys, Scoped A B y)
              (others.mapM (reducer ctx)) ((others.map (rename ρ)).mapM (reducer' ctx')) := by
            rw [List.mapM_map]
            exact image_mapM hrest
          refine image_bind htail fun rest hrest' => C.pure ⟨.binding hf hbinder ?_ hrest', ?_⟩
          · rintro _ ⟨⟩
            exact hbody'
          · rw [List.map_append]
            rfl

end Scopes

end Reduction

end PocketAlgebra
