import PocketAlgebra.Proofs.Closed.Function
import PocketAlgebra.Proofs.Closed.Matrix
import PocketAlgebra.Reduction.Engine

/-!
# Reduction keeps properties

A property that the nodes built by rules have is kept by every rule, as long as the calls it makes
keep it. The recursion is closed by induction on the depth of nesting, for nodes and for whole trees
together.
-/

namespace PocketAlgebra

namespace Reduction

open PocketAlgebra.Expr Shape

variable {side : Nat → Prop} {P : Expr → Prop} {node tree : NodeReducer} {ctx : Context}
  {f : Operator} {x y : Expr} {xs : List Expr}

/-- Definitions all of whose bodies have a property. -/
def Defines (P : Expr → Prop) (ds : Definitions) : Prop :=
  ∀ entry ∈ ds.entries, P entry.2.body

instance (P : Expr → Prop) [DecidablePred P] (ds : Definitions) : Decidable (Defines P ds) :=
  inferInstanceAs (Decidable (∀ entry ∈ ds.entries, P entry.2.body))

theorem Defines.body {ds : Definitions} (hds : Defines P ds) {name : String} {d : Definition}
    (h : ds.get? name = some d) : P d.body := by
  rcases List.lookup_eq_some_iff.mp h with ⟨before, behind, hentries, _⟩
  exact hds (name, d) (by simp [hentries])

/-- The nodes that rules call for and may keep. -/
def mayKeep : Operator → List Expr → Bool
  | .power, [_, _] | .logarithm, [_, _] => true
  | f, [_] => f.kind.isTrigonometric
  | _, _ => false

/-- What does not spoil a node does not spoil one over fewer operands. -/
theorem spoiled?_of_front {ys : List Expr} (h : spoiled? f xs = none) (hfront : ys <+: xs) :
    spoiled? f ys = none := by
  have hany : ∀ (b : Bool) {check : Expr → Bool}, (b && ys.any check) = true →
      (b && xs.any check) = true := by
    intro b check hys
    rw [Bool.and_eq_true, List.any_eq_true] at hys ⊢
    rcases hys with ⟨rfl, y, hy, hcheck⟩
    exact ⟨rfl, y, hfront.subset hy, hcheck⟩
  have hpoison : poison? xs = none → poison? ys = none := by
    simp only [poison?]
    split
    · intro hsome
      cases hsome
    · split
      · intro hsome
        cases hsome
      · rename_i hundefined hnonreal
        exact fun _ => (if_neg (mt (hany true) hundefined)).trans (if_neg (mt (hany true) hnonreal))
  rw [spoiled?] at h ⊢
  split at h
  · cases h
  · rename_i hlists
    rw [if_neg (mt (hany _) hlists)]
    rcases Option.or_eq_none_iff.mp h with ⟨hpoisoned, hmatrices⟩
    refine Option.or_eq_none_iff.mpr ⟨?_, if_neg fun hmatrix => ?_⟩
    · split
      · rfl
      · rename_i hlist
        exact hpoison (by rwa [if_neg hlist] at hpoisoned)
    · rw [if_pos (hany _ hmatrix)] at hmatrices
      cases hmatrices

namespace Composed

/-! ## Arithmetic, with matrices and without -/

theorem spoiled? (hP : Composed side P) (h : Reduction.spoiled? f xs = some x) : P x := by
  rw [Reduction.spoiled?] at h
  split at h
  · cases h
    exact hP.undefined
  · rcases Option.or_eq_some_iff.mp h with h | ⟨_, h⟩
    · split at h
      · cases h
      · exact hP.poison? h
    · split at h
      · cases h
        exact hP.undefined
      · cases h

theorem reduceSum (hP : Composed side P) (hnode : Keeps P node) (hxs : ∀ x ∈ xs, P x) :
    Yields (Reduction.reduceSum node xs) P := by
  have hterms : ∀ x ∈ Reduction.flattenAll .addition xs, P x :=
    hP.arithmetic.flattenAll (.inl rfl) hxs
  rw [Reduction.reduceSum]
  split
  · rename_i hpoison
    exact Yields.pure (hP.poison? hpoison)
  · split
    · exact hP.sumOfMatrices hnode hterms
    · exact Yields.pure (hP.arithmetic.sumOfScalars hterms)

theorem reduceProduct (hP : Composed side P) (hnode : Keeps P node) (hxs : ∀ x ∈ xs, P x) :
    Yields (Reduction.reduceProduct node xs) P := by
  have hfactors : ∀ x ∈ Reduction.flattenAll .multiplication xs, P x :=
    hP.arithmetic.flattenAll (.inr rfl) hxs
  rw [Reduction.reduceProduct]
  split
  · rename_i hpoison
    exact Yields.pure (hP.poison? hpoison)
  · split
    · exact hP.productOfMatrices hnode hfactors
    · exact hP.arithmetic.productOfScalars hnode.arithmetic hfactors

theorem eq_integer_of_integer? {n : Int} (h : x.integer? = some n) : x = .integer n := by
  cases x with
  | rational q =>
      rw [Expr.integer?] at h
      split at h
      · rename_i hint
        cases h
        rw [Expr.integer, (Rat.den_eq_one_iff q).mp (by simpa [Rat.isInt] using hint)]
      · cases h
  | _ => cases h

theorem reducePower (hP : Composed side P) (hnode : Keeps P node)
    (hunit : ctx.settings.complexFormat ≠ .real → P .i) (hx : P x) (hy : P y) :
    Yields (Reduction.reducePower ctx node [x, y]) (OrKept P (.apply .power [x, y])) := by
  rw [Reduction.reducePower.eq_def]
  dsimp only
  split
  · exact Yields.pure (.inr hP.undefined)
  · split
    · rename_i hmatrix
      split
      · rename_i n hn
        rw [eq_integer_of_integer? hn, ← Grid.toExpr_of_ofExpr? hmatrix]
        exact hP.powerOfMatrix hnode (Composed.ofExpr? hx hmatrix) n
      · exact Yields.pure (.inr hP.undefined)
    · exact hP.powerOfScalars hnode hunit hx hy

theorem reduceDifference (hP : Composed side P) (hnode : Keeps P node) (hxs : ∀ x ∈ xs, P x) :
    Yields (Reduction.reduceDifference node xs) P := by
  rw [Reduction.reduceDifference.eq_def]
  split
  · refine (hnode.negate hP (hxs _ (by simp))).bind fun z hz => hnode.add ?_
    simp [hz, hxs _ List.mem_cons_self]
  · exact Yields.pure hP.undefined

theorem reduceOpposite (hP : Composed side P) (hnode : Keeps P node) (hxs : ∀ x ∈ xs, P x) :
    Yields (Reduction.reduceOpposite node xs) P := by
  rw [Reduction.reduceOpposite.eq_def]
  split
  · exact hnode.negate hP (hxs _ List.mem_cons_self)
  · exact Yields.pure hP.undefined

theorem reduceQuotient (hP : Composed side P) (hnode : Keeps P node) (hxs : ∀ x ∈ xs, P x) :
    Yields (Reduction.reduceQuotient node xs) P := by
  rw [Reduction.reduceQuotient.eq_def]
  split
  · split
    · split
      · exact Yields.pure (hP.infinity _)
      · exact Yields.pure (hP.infinity _)
      · exact Yields.pure hP.undefined
    · refine (hnode.invert hP (hxs _ (by simp))).bind fun z hz => hnode.multiply ?_
      simp [hz, hxs _ List.mem_cons_self]
  · exact Yields.pure hP.undefined

theorem reduceComparison (hP : Composed side P) (relation : Relation) (xs : List Expr) :
    OrKept P (.apply (.comparison relation) xs) (Reduction.reduceComparison relation xs) := by
  rw [Reduction.reduceComparison.eq_def]
  split
  · split
    · exact .inr (hP.rational _)
    · exact .inl rfl
  · exact .inl rfl

/-! ## Leaves and names -/

theorem reduceDecimal (hP : Composed side P) (d : Decimal) : P (Reduction.reduceDecimal d) := by
  rw [Reduction.reduceDecimal]
  split
  · exact hP.infinity _
  · exact hP.rational _
  · exact hP.rational _

theorem reduceConstant (hP : Composed side P)
    (hunit : ctx.settings.complexFormat ≠ .real → P .i) (c : Constant) :
    P (Reduction.reduceConstant ctx c) := by
  rw [Reduction.reduceConstant]
  split
  · exact hP.nonreal
  · rename_i hkept
    by_cases hc : c = .imaginaryUnit
    · subst hc
      exact hunit (by simpa using hkept)
    · exact hP.constant hc

theorem undefinedName (hP : Composed side P) (ctx : Context) (x : Expr) :
    OrKept P x (Reduction.undefinedName ctx x) := by
  rw [Reduction.undefinedName]
  split
  · exact .inr hP.undefined
  · exact .inl rfl

variable {T : Expr → Prop}

theorem symbol (hP : Composed side P) (htree : ∀ x, T x → Yields (tree x) P) {name : String}
    (hvalue : ∀ value, ctx.definitions.value? name = some value → T value) :
    Yields (Reduction.symbol ctx tree name) (OrKept P (.symbol name)) := by
  rw [Reduction.symbol]
  split
  · exact Yields.kept P _
  · split
    · rename_i value hdefined
      split
      · exact Yields.pure (.inr hP.undefined)
      · exact (htree _ (hvalue value hdefined)).orKept
    · exact Yields.pure (hP.undefinedName ctx _)

theorem userFunction (hP : Composed side P) (htree : ∀ x, T x → Yields (tree x) P) {name : String}
    (hbody : ∀ parameter body, ctx.definitions.function? name = some (parameter, body) →
      ∀ argument ∈ xs, T (Expr.substitute parameter argument body)) :
    Yields (Reduction.userFunction ctx tree name xs) (OrKept P (.apply (.function name) xs)) := by
  rw [Reduction.userFunction]
  split
  · exact Yields.kept P _
  · split
    · rename_i parameter body hfunction
      split
      · exact Yields.pure (.inr hP.undefined)
      · split
        · rename_i argument
          exact (htree _ (hbody parameter body hfunction argument List.mem_cons_self)).orKept
        · exact Yields.pure (.inr hP.undefined)
    · exact Yields.pure (hP.undefinedName ctx _)

/-! ## All rules -/

/-- The rules for the operators whose nodes other rules call for. Of a logarithm, no more than two
operands are kept. -/
theorem reduceCalled (hP : Composed side P) (hnode : Keeps P node)
    (hunit : ctx.settings.complexFormat ≠ .real → P .i)
    (hkept : ∀ ys, mayKeep f ys = true → ys <+: xs →
      Yields (reduceApply ctx node tree f ys) fun r => r = .apply f ys → P r)
    (hf : isCalled f = true) (hxs : ∀ x ∈ xs, P x) :
    Yields (reduceApply ctx node tree f xs) P := by
  have htrigonometric (hrule : reduceApply ctx node tree f = Reduction.trigonometric ctx node f)
      (hf : f.kind.isTrigonometric = true) : Yields (reduceApply ctx node tree f xs) P := by
    match xs with
    | [x] =>
        refine Yields.settle (hrule ▸ hP.trigonometric ctx hnode hf hxs) (hkept [x] ?_ List.prefix_rfl)
        cases f <;> first | rfl | cases hf
    | [] | _ :: _ :: _ => exact hrule ▸ Yields.pure hP.undefined
  cases f with
  | addition => exact hP.reduceSum hnode hxs
  | multiplication => exact hP.reduceProduct hnode hxs
  | power =>
      match xs with
      | [x, y] =>
          exact Yields.settle (hP.reducePower hnode hunit (hxs x (by simp)) (hxs y (by simp)))
            (hkept [x, y] rfl List.prefix_rfl)
      | [] | [_] | _ :: _ :: _ :: _ => exact Yields.pure hP.undefined
  | logarithm =>
      match xs with
      | x :: base :: others =>
          exact Yields.settle (hP.logarithmOf hnode hxs)
            (hkept [x, base] rfl (List.prefix_append [x, base] others))
      | [] | [_] => exact Yields.pure hP.undefined
  | sine | cosine | tangent | arcSine | arcCosine | arcTangent =>
      exact htrigonometric rfl rfl
  | hyperbolicSine | hyperbolicCosine | hyperbolicTangent =>
      exact htrigonometric rfl rfl
  | hyperbolicArcSine | hyperbolicArcCosine | hyperbolicArcTangent =>
      exact htrigonometric rfl rfl
  | _ => cases hf

/-- The rules for all other operators. -/
theorem reduceOther (hP : Composed side P) (hnode : Keeps P node) (hvanishes : Vanishes P node)
    (htree : ∀ x, T x → Yields (tree x) P)
    (hsubstitute : ∀ {name point d}, P point → P d → T (Expr.substitute name point d))
    (hbody : ∀ {name parameter body},
      ctx.definitions.function? name = some (parameter, body) →
        ∀ argument, P argument → T (Expr.substitute parameter argument body))
    (hf : isCalled f = false) (hxs : ∀ x ∈ xs, P x) :
    Yields (reduceApply ctx node tree f xs) (OrKept P (.apply f xs)) := by
  cases f with
  | undefined | nonreal | matrix | list => exact Yields.kept P _
  | integral | sum | product => exact Yields.kept P _
  | function name =>
      exact hP.userFunction htree fun parameter body hdefined argument hargument =>
        hbody hdefined argument (hxs argument hargument)
  | subtraction => exact (hP.reduceDifference hnode hxs).orKept
  | division => exact (hP.reduceQuotient hnode hxs).orKept
  | opposite => exact (hP.reduceOpposite hnode hxs).orKept
  | factorial =>
      rw [Reduction.reduceApply.eq_def]
      dsimp only
      split
      · exact Yields.pure (hP.outcome _ _)
      · exact Yields.pure (.inr hP.undefined)
  | parenthesis | store =>
      refine Yields.pure (.inr ?_)
      cases xs with
      | nil => exact hP.undefined
      | cons x xs => exact hxs x List.mem_cons_self
  | comparison relation => exact Yields.pure (hP.reduceComparison relation xs)
  | absoluteValue | complexArgument | realPart | imaginaryPart | conjugate =>
      exact hP.complexPart hnode hvanishes hxs
  | squareRoot => exact (hP.squareRoot hnode hxs).orKept
  | nthRoot => exact (hP.nthRoot hnode hxs).orKept
  | naturalLogarithm => exact (hP.logarithmInBase hnode hP.e hxs).orKept
  | commonLogarithm => exact (hP.logarithmInBase hnode (hP.integer _) hxs).orKept
  | floor | ceiling | fractionalPart | round => exact Yields.pure (hP.outcome _ _)
  | greatestCommonDivisor | leastCommonMultiple | quotient | remainder =>
      exact Yields.pure (hP.outcome _ _)
  | binomial | permutations => exact Yields.pure (hP.outcome _ _)
  | determinant | matrixInverse | trace | transpose | dimension =>
      exact hP.matrixFunction hnode hxs
  | listSum | listMean => exact hP.listFunction hnode hxs
  | derivative => exact hP.derivativeAt hnode htree hsubstitute hxs
  | _ => cases hf

end Composed

/-! ## Closing the recursion -/

/-- Reduction under the contexts of a kind turns trees of one kind into trees with a property that
the nodes built by rules have. -/
structure Transforms (A : Context → Prop) (side : Nat → Prop) (T P : Expr → Prop) : Prop
    extends Composed side P where
  binding : ∀ {ctx xs}, A ctx → A (Context.binding ctx xs)
  unit : ∀ {ctx}, A ctx → ctx.settings.complexFormat ≠ .real → P .i
  symbol : ∀ {name}, T (.symbol name) → P (.symbol name)
  value : ∀ {ctx name value}, A ctx → ctx.definitions.value? name = some value → T value
  body : ∀ {ctx name parameter body argument}, A ctx →
    ctx.definitions.function? name = some (parameter, body) → P argument →
      T (Expr.substitute parameter argument body)
  substitute : ∀ {name point d}, P point → P d → T (Expr.substitute name point d)
  below : ∀ {f xs x}, T (.apply f xs) → x ∈ xs → T x
  named : ∀ {f xs x}, T (.apply f xs) → f.kind.isParametered = true → xs[1]? = some x → P x
  reduced : ∀ {f xs ys}, T (.apply f xs) → ys.length = xs.length →
    (f.kind.isParametered = true → ys[1]? = xs[1]?) → (∀ y ∈ ys, P y) → T (.apply f ys)
  /-- Nodes that rules keep have the property. -/
  kept : ∀ {nesting ctx f xs}, A ctx → spoiled? f xs = none →
    mayKeep f xs = true ∨ isCalled f = false ∧ T (.apply f xs) → (∀ x ∈ xs, P x) →
      Yields (reduceApply ctx (nodeWithin nesting ctx) (treeWithin nesting ctx) f xs)
        fun r => r = .apply f xs → P r

/-- What calls that are nested so deep turn trees into. -/
structure Kept (T P : Expr → Prop) (nesting : Nat) (ctx : Context) : Prop where
  called : Keeps P (nodeWithin nesting ctx)
  node : ∀ x, T x → (∀ y ∈ x.operands, P y) → Yields (nodeWithin nesting ctx x) P
  tree : ∀ x, T x → Yields (treeWithin nesting ctx x) P

namespace Transforms

variable {A : Context → Prop} {T : Expr → Prop} {nesting : Nat}

theorem vanishes (hP : Transforms A side T P) (nesting : Nat) (ctx : Context) :
    Composed.Vanishes P (nodeWithin nesting ctx) :=
  nodeWithin_unspoiled rfl fun _ _ => Yields.pure (hP.integer 0)

theorem reduceCalled (hP : Transforms A side T P) (hctx : A ctx)
    (hnode : Keeps P (nodeWithin nesting ctx)) (hspoiled : Reduction.spoiled? f xs = none)
    (hf : isCalled f = true) (hxs : ∀ x ∈ xs, P x) :
    Yields (reduceApply ctx (nodeWithin nesting ctx) (treeWithin nesting ctx) f xs) P := by
  refine hP.toComposed.reduceCalled hnode (hP.unit hctx) (fun ys hkeep hfront => ?_) hf hxs
  exact hP.kept hctx (spoiled?_of_front hspoiled hfront) (.inl hkeep)
    fun y hy => hxs y (hfront.subset hy)

theorem reduceNode (hP : Transforms A side T P) (hctx : A ctx) (h : Kept T P nesting ctx)
    (hx : T x) (hoperands : ∀ y ∈ x.operands, P y) :
    Yields (Reduction.reduceNode ctx (nodeWithin nesting ctx) (treeWithin nesting ctx) x) P := by
  cases x with
  | rational q => exact Yields.pure (hP.rational q)
  | decimal d => exact Yields.pure (hP.reduceDecimal d)
  | infinity negative => exact Yields.pure (hP.infinity negative)
  | constant c => exact Yields.pure (hP.reduceConstant (hP.unit hctx) c)
  | symbol name =>
      exact (hP.toComposed.symbol h.tree fun value => hP.value hctx).of_orKept (hP.symbol hx)
  | apply f xs =>
      rw [Reduction.reduceNode]
      split
      · rename_i hspoiled
        exact Yields.pure (hP.spoiled? hspoiled)
      · rename_i hspoiled
        by_cases hf : isCalled f = true
        · exact hP.reduceCalled hctx h.called hspoiled hf hoperands
        · have hf := Bool.not_eq_true _ ▸ hf
          exact Yields.settle (hP.reduceOther h.called (hP.vanishes nesting ctx) h.tree
            hP.substitute (fun hdefined _ => hP.body hctx hdefined) hf hoperands)
            (hP.kept hctx hspoiled (.inr ⟨hf, hx⟩) hoperands)

theorem reduceNodeCalled (hP : Transforms A side T P) (hctx : A ctx)
    (hnode : Keeps P (nodeWithin nesting ctx)) (hf : isCalled f = true) (hxs : ∀ x ∈ xs, P x) :
    Yields (Reduction.reduceNode ctx (nodeWithin nesting ctx) (treeWithin nesting ctx)
      (.apply f xs)) P := by
  rw [Reduction.reduceNode]
  split
  · rename_i hspoiled
    exact Yields.pure (hP.spoiled? hspoiled)
  · rename_i hspoiled
    exact hP.reduceCalled hctx hnode hspoiled hf hxs

/-- Reduced operands may be put into the node that they come from. -/
theorem reduceOperands (hP : Transforms A side T P) {tree : Context → NodeReducer}
    (htree : ∀ ctx, A ctx → ∀ x, T x → Yields (tree ctx x) P) (hctx : A ctx)
    (hx : T (.apply f xs)) :
    Yields (Reduction.reduceOperands ctx tree f xs) fun ys =>
      T (.apply f ys) ∧ ∀ y ∈ ys, P y := by
  have hxs : ∀ x ∈ xs, T x := fun x => hP.below hx
  rw [Reduction.reduceOperands.eq_def]
  split
  · rename_i hbinds
    match xs with
    | [] => exact Yields.pure ⟨hx, List.forall_mem_nil _⟩
    | [body] =>
        have hbody := htree (ctx.binding [body]) (hP.binding hctx) body (hxs body List.mem_cons_self)
        refine hbody.bind fun body' hbody' => Yields.bind (P := (· = [])) (Yields.pure rfl) ?_
        rintro _ rfl
        have hall := List.forall_mem_singleton.mpr hbody'
        exact Yields.pure ⟨hP.reduced hx rfl (fun _ => rfl) hall, hall⟩
    | body :: name :: others =>
        have hbody := htree (ctx.binding (body :: name :: others)) (hP.binding hctx) body
          (hxs body List.mem_cons_self)
        have hname : P name := hP.named hx hbinds rfl
        refine hbody.bind fun body' hbody' => ?_
        refine (Yields.mapM_length fun x hx => htree ctx hctx x
          (hxs x (by simp_all))).bind fun rest hrest => ?_
        have hall : ∀ y ∈ body' :: name :: rest, P y :=
          List.forall_mem_cons.mpr ⟨hbody', List.forall_mem_cons.mpr ⟨hname, hrest.2⟩⟩
        exact Yields.pure ⟨hP.reduced hx (by simpa using hrest.1) (fun _ => rfl) hall, hall⟩
  · rename_i hbinds
    exact (Yields.mapM_length fun x hx => htree ctx hctx x (hxs x hx)).mono fun ys hys =>
      ⟨hP.reduced hx hys.1 (fun h => absurd h hbinds) hys.2, hys.2⟩

theorem kept_reduceWithin (hP : Transforms A side T P) (nesting : Nat) (hctx : A ctx) :
    Kept T P nesting ctx := by
  induction nesting generalizing ctx with
  | zero =>
      exact ⟨fun _ _ _ _ => Yields.throw _, fun _ _ _ => Yields.throw _, fun _ _ => Yields.throw _⟩
  | succ nesting ih =>
      have hinner := ih hctx
      refine ⟨fun f xs hf hxs => ?_, fun x hx hoperands => ?_, fun x hx => ?_⟩
      · exact Yields.bind_unit (hP.reduceNodeCalled hctx hinner.called hf hxs)
      · exact Yields.bind_unit (hP.reduceNode hctx hinner hx hoperands)
      · refine Yields.bind_unit ?_
        split
        · split
          · exact hinner.node _ hx (List.forall_mem_nil _)
          · exact hinner.tree _ (hP.below hx List.mem_cons_self)
        · split
          · rename_i hempty
            rw [List.isEmpty_iff.mp hempty] at hx ⊢
            exact hinner.node _ hx (List.forall_mem_nil _)
          · exact (hP.reduceOperands (fun ctx hctx => (ih hctx).tree) hctx hx).bind
              fun ys hys => hinner.node _ hys.1 hys.2
        · rename_i hstore happly
          refine hinner.node x hx ?_
          cases x with
          | apply f xs => exact absurd rfl (happly f xs)
          | _ => exact List.forall_mem_nil _

/-- What a tree is reduced to has the property, unless it is brought into the form that is expected
by the user. -/
theorem reduce (hP : Transforms A side T P) {breaker : Breaker} {r : Expr} (hx : T x)
    (hctx : A ctx) (htarget : ctx.settings.target ≠ .user)
    (h : x.reduce ctx breaker = .ok r) : P r :=
  of_reduce ((hP.kept_reduceWithin maxNesting hctx).tree x hx) htarget h

end Transforms

/-! ## Properties that kept nodes have -/

namespace Closed

/-- Definitions are trees with the property, too. -/
theorem transforms (hP : Closed side P) :
    Transforms (fun ctx => Defines P ctx.definitions) side P P where
  toComposed := hP.composed
  binding hctx := hctx
  unit _ _ := hP.constant _
  symbol h := h
  value {ctx name value} hctx hvalue := by
    rcases Option.bind_eq_some_iff.mp hvalue with ⟨d, hd, hvalue⟩
    cases d with
    | value body =>
        cases hvalue
        exact Defines.body hctx hd
    | function parameter body => cases hvalue
  body {ctx name parameter body argument} hctx hfunction hargument := by
    rcases Option.bind_eq_some_iff.mp hfunction with ⟨d, hd, hfunction⟩
    cases d with
    | value body => cases hfunction
    | function parameter body =>
        cases hfunction
        exact hP.substitute hargument body (Defines.body hctx hd)
  substitute hpoint hd := hP.substitute hpoint _ hd
  below := hP.operand
  named hx _ hname := hP.operand hx (List.mem_of_getElem? hname)
  reduced hx hlength _ hys := hP.rebuilt hx hlength hys
  kept {nesting ctx f xs} _ _ hnode hxs := by
    have hx : P (.apply f xs) := by
      refine hnode.elim (fun hkeep => ?_) And.right
      match f, xs with
      | .power, [x, y] => exact hP.power (hxs x (by simp)) (hxs y (by simp))
      | .logarithm, [x, y] => exact hP.logarithm (hxs x (by simp)) (hxs y (by simp))
      | f, [x] =>
          have htrigonometric : f.kind.isTrigonometric = true := by
            cases f <;> exact hkeep
          exact hP.function (by simp [isApplied, htrigonometric]) (hxs x (by simp))
    exact fun _ _ _ _ hr => hr ▸ hx

theorem kept_reduceWithin (hP : Closed side P) (nesting : Nat)
    (hdefinitions : Defines P ctx.definitions) : Kept P P nesting ctx :=
  hP.transforms.kept_reduceWithin nesting hdefinitions

/-- What a tree is reduced to has the property that the tree had, unless it is brought into the form
that is expected by the user. -/
theorem reduce (hP : Closed side P) {breaker : Breaker} {r : Expr} (hx : P x)
    (hdefinitions : Defines P ctx.definitions) (htarget : ctx.settings.target ≠ .user)
    (h : x.reduce ctx breaker = .ok r) : P r :=
  hP.transforms.reduce hx hdefinitions htarget h

end Closed

end Reduction

end PocketAlgebra
