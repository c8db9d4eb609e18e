import PocketAlgebra.Proofs.Shape.Function
import PocketAlgebra.Proofs.Shape.Matrix
import PocketAlgebra.Proofs.Shape.Arithmetic
import PocketAlgebra.Reduction.Engine
import PocketAlgebra.Text.Printer

/-!
# Reduction gives canonical trees

Every rule, over operands that it has not rejected, gives a canonical tree, as long as the calls
it makes do.  The recursion is closed by induction on the depth of nesting, for nodes over canonical
operands and for whole trees together, since each calls for the other.
-/

namespace PocketAlgebra

namespace Shape

open PocketAlgebra.Expr Reduction

variable {node tree : NodeReducer} {ctx : Context} {f : Operator} {x y : Expr} {xs ys : List Expr}

/-! ## Operands that are not rejected -/

theorem spoiled?_entry (h : spoiled? f xs = some x) : Entry x := by
  rw [spoiled?] at h
  split at h
  · cases h
    exact entry_undefined
  · rcases Option.or_eq_some_iff.mp h with h | ⟨_, h⟩
    · split at h
      · cases h
      · exact poison?_entry h
    · split at h
      · cases h
        exact entry_undefined
      · cases h

theorem isList_of_spoiled?_eq_none (h : spoiled? f xs = none) (hf : admitsLists f.kind = false)
    (hx : x ∈ xs) : x.isList = false := by
  rw [spoiled?, hf] at h
  split at h
  · cases h
  · rename_i hlists
    rw [Bool.not_false, Bool.true_and, Bool.not_eq_true, List.any_eq_false] at hlists
    exact Bool.eq_false_iff.mpr (hlists x hx)

theorem isPoison_of_spoiled?_eq_none (h : spoiled? f xs = none) (hlist : f ≠ .list)
    (hmatrix : f.kind ≠ .matrix) (hx : x ∈ xs) : x.kind.isPoison = false := by
  rw [spoiled?] at h
  split at h
  · cases h
  · have hpoison := (Option.or_eq_none_iff.mp h).1
    rw [if_neg (by simp [hlist, hmatrix])] at hpoison
    exact isPoison_of_poison?_eq_none hpoison hx

/-- Operands that are not rejected are proper, except for those that may be poison or lists. -/
theorem proper_of_spoiled?_eq_none (h : spoiled? f xs = none) (hf : admitsAny f = false)
    (hparenthesis : f ≠ .parenthesis) (hxs : ∀ x ∈ xs, Canonical x) : ∀ x ∈ xs, Proper x := by
  have hlists : admitsLists f.kind = false := by
    cases f <;> first | rfl | exact absurd rfl hparenthesis | cases hf
  have hlist : f ≠ .list := by
    rintro rfl
    cases hf
  have hmatrix : f.kind ≠ .matrix := by
    intro hkind
    cases f <;> cases hkind
    cases hf
  exact fun x hx => ⟨⟨hxs x hx, isList_of_spoiled?_eq_none h hlists hx⟩,
    isPoison_of_spoiled?_eq_none h hlist hmatrix hx⟩

/-! ## Arithmetic, with matrices and without -/

theorem reduceSum_entry (hnode : KeepsShape node) (hxs : ∀ x ∈ xs, Proper x) :
    Yields (reduceSum node xs) Entry := by
  have hterms := flattenAll_proper (f := .addition) hxs (.inl rfl)
  rw [reduceSum]
  split
  · rename_i hpoison
    exact Yields.pure (poison?_entry hpoison)
  · split
    · exact sumOfMatrices_entry hnode fun x hx => (hterms x hx).1
    · exact Yields.pure (entry_sumOfScalars hterms)

theorem reduceProduct_entry (hnode : KeepsShape node) (hxs : ∀ x ∈ xs, Proper x) :
    Yields (reduceProduct node xs) Entry := by
  have hfactors := flattenAll_proper (f := .multiplication) hxs (.inr rfl)
  rw [reduceProduct]
  split
  · rename_i hpoison
    exact Yields.pure (poison?_entry hpoison)
  · split
    · exact productOfMatrices_entry hnode fun x hx => (hfactors x hx).1
    · exact productOfScalars_entry hnode fun x hx => (hfactors x hx).1

theorem reducePower_entry (hnode : KeepsShape node) (hxs : ∀ x ∈ xs, Proper x) :
    Yields (reducePower ctx node xs) Entry := by
  rw [reducePower.eq_def]
  split
  · rename_i base exponent
    have hbase := hxs base (by simp)
    split
    · exact Yields.pure entry_undefined
    · split
      · rename_i hmatrix
        split
        · exact powerOfMatrix_entry hnode (filled_ofExpr? hbase.canonical hmatrix) _
        · exact Yields.pure entry_undefined
      · exact powerOfScalars_entry hnode hbase (hxs exponent (by simp))
  · exact Yields.pure entry_undefined

theorem reduceDifference_entry (hnode : KeepsShape node) (hxs : ∀ x ∈ xs, Proper x) :
    Yields (reduceDifference node xs) Entry := by
  rw [reduceDifference.eq_def]
  split
  · refine (hnode.negate (hxs _ (by simp)).1).bind fun z hz => hnode.add ?_
    simp [hz, (hxs _ List.mem_cons_self).1]
  · exact Yields.pure entry_undefined

theorem reduceOpposite_entry (hnode : KeepsShape node) (hxs : ∀ x ∈ xs, Proper x) :
    Yields (reduceOpposite node xs) Entry := by
  rw [reduceOpposite.eq_def]
  split
  · exact hnode.negate (hxs _ List.mem_cons_self).1
  · exact Yields.pure entry_undefined

theorem reduceQuotient_entry (hnode : KeepsShape node) (hxs : ∀ x ∈ xs, Proper x) :
    Yields (reduceQuotient node xs) Entry := by
  rw [reduceQuotient.eq_def]
  split
  · split
    · split
      · exact Yields.pure (proper_infinity _).1
      · exact Yields.pure (proper_infinity _).1
      · exact Yields.pure entry_undefined
    · refine (hnode.invert (hxs _ (by simp)).1).bind fun z hz => hnode.multiply ?_
      simp [hz, (hxs _ List.mem_cons_self).1]
  · exact Yields.pure entry_undefined

theorem canonical_reduceComparison (relation : Relation) (hxs : ∀ x ∈ xs, Proper x) :
    Canonical (reduceComparison relation xs) := by
  have hkept : Canonical (.apply (.comparison relation) xs) := canonical_plain rfl hxs
  rw [reduceComparison.eq_def]
  split
  · split
    · exact .rational _
    · exact hkept
  · exact hkept

/-! ## Leaves and names -/

theorem canonical_reduceDecimal (d : Decimal) : Canonical (reduceDecimal d) := by
  rw [reduceDecimal]
  split
  · exact .infinity _
  · exact .rational _
  · exact .rational _

theorem canonical_reduceConstant (ctx : Context) (c : Constant) :
    Canonical (reduceConstant ctx c) := by
  rw [reduceConstant]
  split
  · exact entry_nonreal.1
  · exact .constant c

theorem canonical_undefinedName (hx : Canonical x) : Canonical (undefinedName ctx x) := by
  rw [undefinedName]
  split
  · exact entry_undefined.1
  · exact hx

theorem bindsSymbols_body {ds : Definitions} (hds : DefinesSymbols ds) {name : String}
    {d : Definition} (h : ds.get? name = some d) : BindsSymbols d.body := by
  rcases List.lookup_eq_some_iff.mp h with ⟨before, behind, hentries, _⟩
  exact hds (name, d) (by simp [hentries])

theorem symbol_canonical (hdefinitions : DefinesSymbols ctx.definitions)
    (htree : ∀ x, BindsSymbols x → Yields (tree x) Canonical) (name : String) :
    Yields (Reduction.symbol ctx tree name) Canonical := by
  rw [Reduction.symbol]
  split
  · exact Yields.pure (.symbol name)
  · split
    · rename_i value hvalue
      split
      · exact Yields.pure entry_undefined.1
      · rcases Option.bind_eq_some_iff.mp hvalue with ⟨d, hd, hvalue⟩
        cases d with
        | value body =>
            cases hvalue
            exact htree _ (bindsSymbols_body hdefinitions hd)
        | function parameter body => cases hvalue
    · exact Yields.pure (canonical_undefinedName (.symbol name))

theorem userFunction_canonical (hdefinitions : DefinesSymbols ctx.definitions)
    (htree : ∀ x, BindsSymbols x → Yields (tree x) Canonical) (name : String)
    (hxs : ∀ x ∈ xs, Proper x) : Yields (userFunction ctx tree name xs) Canonical := by
  have hcall : Canonical (.apply (.function name) xs) := canonical_plain rfl hxs
  rw [userFunction]
  split
  · exact Yields.pure hcall
  · split
    · rename_i parameter body hfunction
      split
      · exact Yields.pure entry_undefined.1
      · split
        · rename_i argument
          rcases Option.bind_eq_some_iff.mp hfunction with ⟨d, hd, hfunction⟩
          cases d with
          | value body => cases hfunction
          | function parameter body =>
              cases hfunction
              exact htree _ (bindsSymbols_substitute
                (hxs argument List.mem_cons_self).1.bindsSymbols (bindsSymbols_body hdefinitions hd))
        · exact Yields.pure entry_undefined.1
    · exact Yields.pure (canonical_undefinedName hcall)

/-! ## All rules -/

/-- The rules for the operators whose nodes other rules call for. -/
theorem reduceApply_entry (hnode : KeepsShape node) (hf : isCalled f = true)
    (hxs : ∀ x ∈ xs, Proper x) : Yields (reduceApply ctx node tree f xs) Entry := by
  cases f with
  | addition => exact reduceSum_entry hnode hxs
  | multiplication => exact reduceProduct_entry hnode hxs
  | power => exact reducePower_entry hnode hxs
  | logarithm => exact logarithm_entry hnode hxs
  | sine | cosine | tangent | arcSine | arcCosine | arcTangent =>
      exact trigonometric_entry ctx hnode rfl rfl hxs
  | hyperbolicSine | hyperbolicCosine | hyperbolicTangent =>
      exact trigonometric_entry ctx hnode rfl rfl hxs
  | hyperbolicArcSine | hyperbolicArcCosine | hyperbolicArcTangent =>
      exact trigonometric_entry ctx hnode rfl rfl hxs
  | _ => cases hf

theorem reduceApply_canonical (hnode : KeepsShape node)
    (htree : ∀ x, BindsSymbols x → Yields (tree x) Canonical)
    (hdefinitions : DefinesSymbols ctx.definitions) (hxs : ∀ x ∈ xs, Canonical x)
    (hbound : NamesVariable f xs) (hspoiled : spoiled? f xs = none) :
    Yields (reduceApply ctx node tree f xs) Canonical := by
  have hproper := fun hf hparenthesis =>
    proper_of_spoiled?_eq_none (f := f) hspoiled hf hparenthesis hxs
  by_cases hcalled : isCalled f = true
  · refine (reduceApply_entry hnode hcalled (hproper ?_ ?_)).mono fun r hr => hr.1
    · cases f <;> first | rfl | cases hcalled
    · rintro rfl
      cases hcalled
  have hentry : ∀ {m}, Yields m Entry → Yields m Canonical := fun h => h.mono fun r hr => hr.1
  cases f with
  | undefined | nonreal => exact Yields.pure (canonical_plain rfl (hproper rfl nofun))
  | matrix rows columns =>
      refine Yields.pure (proper_matrix fun x hx => ⟨hxs x hx, ?_⟩).canonical
      exact isList_of_spoiled?_eq_none hspoiled rfl hx
  | list =>
      refine Yields.pure (.apply (.of_plain rfl (fun _ _ _ => .inl rfl) fun x hx hlist => ?_) hxs)
      rw [isList_of_spoiled?_eq_none hspoiled rfl hx] at hlist
      cases hlist
  | integral | sum | product =>
      exact Yields.pure (canonical_binding rfl (hproper rfl nofun) hbound)
  | function name => exact userFunction_canonical hdefinitions htree name (hproper rfl nofun)
  | subtraction => exact hentry (reduceDifference_entry hnode (hproper rfl nofun))
  | division => exact hentry (reduceQuotient_entry hnode (hproper rfl nofun))
  | opposite => exact hentry (reduceOpposite_entry hnode (hproper rfl nofun))
  | factorial =>
      rw [reduceApply.eq_def]
      dsimp only
      split
      · exact Yields.pure (entry_outcome _ (proper_plain rfl (hproper rfl nofun)).1).1
      · exact Yields.pure entry_undefined.1
  | parenthesis | store =>
      refine Yields.pure ?_
      cases xs with
      | nil => exact entry_undefined.1
      | cons x xs => exact hxs x List.mem_cons_self
  | comparison relation =>
      exact Yields.pure (canonical_reduceComparison relation (hproper rfl nofun))
  | absoluteValue | complexArgument | realPart | imaginaryPart | conjugate =>
      exact hentry (complexPart_entry ctx hnode rfl (hproper rfl nofun))
  | squareRoot => exact hentry (squareRoot_entry hnode (hproper rfl nofun))
  | nthRoot => exact hentry (nthRoot_entry hnode (hproper rfl nofun))
  | naturalLogarithm =>
      exact hentry (logarithmInBase_entry hnode (proper_constant _) (hproper rfl nofun))
  | commonLogarithm =>
      exact hentry (logarithmInBase_entry hnode (proper_integer _) (hproper rfl nofun))
  | floor | ceiling | fractionalPart | round =>
      exact Yields.pure (entry_outcome _ (proper_plain rfl (hproper rfl nofun)).1).1
  | greatestCommonDivisor | leastCommonMultiple | quotient | remainder =>
      exact Yields.pure (entry_outcome _ (proper_plain rfl (hproper rfl nofun)).1).1
  | binomial | permutations =>
      exact Yields.pure (entry_outcome _ (proper_plain rfl (hproper rfl nofun)).1).1
  | determinant | matrixInverse | trace | transpose | dimension =>
      exact hentry (matrixFunction_entry hnode (hproper rfl nofun))
  | listSum | listMean =>
      refine hentry (listFunction_entry hnode rfl hxs fun x hx => ?_)
      exact isPoison_of_spoiled?_eq_none hspoiled nofun nofun hx
  | derivative => exact derivativeAt_canonical hnode htree (hproper rfl nofun)
  | _ => exact absurd rfl hcalled

/-- A node whose operands are canonical. -/
def Ready (x : Expr) : Prop :=
  ∀ f xs, x = .apply f xs → NamesVariable f xs ∧ ∀ y ∈ xs, Canonical y

theorem ready_apply (hbound : NamesVariable f xs) (hxs : ∀ x ∈ xs, Canonical x) :
    Ready (.apply f xs) := by
  rintro _ _ ⟨⟩
  exact ⟨hbound, hxs⟩

theorem reduceNode_canonical (hnode : KeepsShape node)
    (htree : ∀ x, BindsSymbols x → Yields (tree x) Canonical)
    (hdefinitions : DefinesSymbols ctx.definitions) (hx : Ready x) :
    Yields (reduceNode ctx node tree x) Canonical := by
  cases x with
  | rational q => exact Yields.pure (.rational q)
  | decimal d => exact Yields.pure (canonical_reduceDecimal d)
  | infinity negative => exact Yields.pure (.infinity negative)
  | constant c => exact Yields.pure (canonical_reduceConstant ctx c)
  | symbol name => exact symbol_canonical hdefinitions htree name
  | apply f xs =>
      rcases hx f xs rfl with ⟨hbound, hxs⟩
      rw [reduceNode]
      split
      · rename_i hspoiled
        exact Yields.pure (spoiled?_entry hspoiled).1
      · rename_i hspoiled
        exact reduceApply_canonical hnode htree hdefinitions hxs hbound hspoiled

theorem reduceNode_entry (hnode : KeepsShape node) (hf : isCalled f = true)
    (hxs : ∀ x ∈ xs, Entry x) : Yields (reduceNode ctx node tree (.apply f xs)) Entry := by
  rw [reduceNode]
  split
  · rename_i hspoiled
    exact Yields.pure (spoiled?_entry hspoiled)
  · rename_i hspoiled
    refine reduceApply_entry hnode hf (proper_of_spoiled?_eq_none hspoiled ?_ ?_ fun x hx =>
      (hxs x hx).1)
    · cases f <;> first | rfl | cases hf
    · rintro rfl
      cases hf

/-! ## Closing the recursion -/

theorem canonical_of_kind_eq_symbol (h : x.kind = .symbol) : Canonical x := by
  cases x with
  | symbol name => exact .symbol name
  | apply g _ => cases g <;> cases h
  | _ => cases h

/-- Reduced operands. The one that names a variable is left alone, and is a symbol. -/
theorem reduceOperands_canonical {tree : Context → NodeReducer}
    (htree : ∀ ctx : Context, DefinesSymbols ctx.definitions → ∀ x, BindsSymbols x →
      Yields (tree ctx x) Canonical)
    (hdefinitions : DefinesSymbols ctx.definitions) (hbound : NamesVariable f xs)
    (hxs : ∀ x ∈ xs, BindsSymbols x) :
    Yields (reduceOperands ctx tree f xs) fun ys =>
      NamesVariable f ys ∧ ∀ y ∈ ys, Canonical y := by
  rw [reduceOperands.eq_def]
  split
  · rename_i hbinds
    match xs with
    | [] => exact Yields.pure ⟨hbound, List.forall_mem_nil _⟩
    | [body] =>
        have hbody := htree (ctx.binding [body]) hdefinitions body (hxs body List.mem_cons_self)
        refine hbody.bind fun body' hbody' => Yields.bind (P := (· = [])) (Yields.pure rfl) ?_
        rintro _ rfl
        exact Yields.pure ⟨fun _ _ => nofun, List.forall_mem_singleton.mpr hbody'⟩
    | body :: name :: others =>
        have hbody := htree (ctx.binding (body :: name :: others)) hdefinitions body
          (hxs body List.mem_cons_self)
        have hname : name.kind = .symbol := hbound hbinds name rfl
        refine hbody.bind fun body' hbody' => ?_
        refine (Yields.mapM_forall fun x hx => htree ctx hdefinitions x
          (hxs x (by simp_all))).bind fun rest hrest => Yields.pure ⟨?_, ?_⟩
        · rintro _ _ ⟨⟩
          exact hname
        · exact List.forall_mem_cons.mpr ⟨hbody', List.forall_mem_cons.mpr
            ⟨canonical_of_kind_eq_symbol hname, hrest⟩⟩
  · rename_i hbinds
    refine (Yields.mapM_forall fun x hx => htree ctx hdefinitions x (hxs x hx)).mono
      fun ys hys => ⟨fun h => absurd h hbinds, hys⟩

/-- What calls that are nested so deep give. -/
structure Shaped (nesting : Nat) (ctx : Context) : Prop where
  called : KeepsShape fun x => reduceWithin nesting ctx (.node x)
  node : ∀ x, Ready x → Yields (reduceWithin nesting ctx (.node x)) Canonical
  tree : ∀ x, BindsSymbols x → Yields (reduceWithin nesting ctx (.tree x)) Canonical

theorem shaped_reduceWithin (nesting : Nat) (hdefinitions : DefinesSymbols ctx.definitions) :
    Shaped nesting ctx := by
  induction nesting generalizing ctx with
  | zero =>
      exact ⟨fun _ _ _ _ => Yields.throw _, fun _ _ => Yields.throw _, fun _ _ => Yields.throw _⟩
  | succ nesting ih =>
      have hinner := ih hdefinitions
      have hnode := hinner.called
      refine ⟨fun f xs hf hxs => ?_, fun x hx => ?_, fun x hx => ?_⟩
      · exact Yields.bind_unit (reduceNode_entry hnode hf hxs)
      · exact Yields.bind_unit (reduceNode_canonical hnode hinner.tree hdefinitions hx)
      · refine Yields.bind_unit ?_
        cases hx with
        | apply bound operands =>
            rename_i f xs
            split
            · rename_i heq
              cases heq
              split
              · exact hinner.node _ (ready_apply bound (List.forall_mem_nil _))
              · exact hinner.tree _ (operands _ List.mem_cons_self)
            · rename_i heq
              cases heq
              split
              · rename_i hempty
                rw [List.isEmpty_iff.mp hempty] at bound ⊢
                exact hinner.node _ (ready_apply bound (List.forall_mem_nil _))
              · refine (reduceOperands_canonical (fun ctx hctx => (ih hctx).tree) hdefinitions bound
                  operands).bind fun ys hys => hinner.node _ (ready_apply hys.1 hys.2)
            · rename_i hstore happly
              exact absurd rfl (happly f xs)
        | _ =>
            refine hinner.node _ fun g ys happly => ?_
            cases happly

/-- What a tree is reduced to is canonical, unless it is brought into the form that is expected by
the user. -/
theorem reduce_canonical {breaker : Breaker} {x r : Expr} (hx : BindsSymbols x)
    (hdefinitions : DefinesSymbols ctx.definitions) (htarget : ctx.settings.target ≠ .user)
    (h : x.reduce ctx breaker = .ok r) : Canonical r := by
  have hrun : Yields (run ctx x) Canonical := by
    refine Yields.bind_unit (((shaped_reduceWithin maxNesting hdefinitions).tree x hx).bind
      fun reduced hreduced => ?_)
    rw [if_neg htarget]
    exact Yields.bind_unit (Yields.pure hreduced)
  rw [Expr.reduce] at h
  cases hresult : run ctx x breaker with
  | error failure =>
      rw [hresult] at h
      cases h
  | ok result =>
      rw [hresult] at h
      cases h
      exact hrun breaker result.1 result.2 hresult

def fallingSquare : Definitions :=
  ⟨[("f", .function "t"
    (.apply .multiplication [.symbol "t", .apply .subtraction [.symbol "t", .integer 1]]))]⟩

def callAndSlope : Expr :=
  .apply .subtraction
    [.apply (.function "f") [.apply .addition [.symbol "x", .decimal ⟨5, 1⟩]],
      .apply .division
        [.apply .derivative [.apply .floor [.symbol "t"], .symbol "t", .symbol "x"],
          .apply .squareRoot [.integer 8]]]

theorem reduce_canonical_callAndSlope : ∃ r,
    callAndSlope.reduce ⟨{ target := .systemForAnalysis }, fallingSquare, 4096, []⟩ {} = .ok r ∧
      r.text = "-1/4+x^2+(-1/4)×2^(1/2)×diff(floor(t),t,x)" ∧ Canonical r := by
  have hresult : (callAndSlope.reduce ⟨{ target := .systemForAnalysis }, fallingSquare, 4096, []⟩
      {}).toOption.map Expr.text = some "-1/4+x^2+(-1/4)×2^(1/2)×diff(floor(t),t,x)" := by
    decide +kernel
  rcases exists_ok hresult with ⟨r, hr, htext⟩
  exact ⟨r, hr, htext, reduce_canonical (by decide) (by decide) (by decide) hr⟩

end Shape

end PocketAlgebra
