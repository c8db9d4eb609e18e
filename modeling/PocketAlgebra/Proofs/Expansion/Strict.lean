import PocketAlgebra.Proofs.Alpha.Beautify
import PocketAlgebra.Proofs.Closed.Engine
import PocketAlgebra.Proofs.Expansion.Chain
import PocketAlgebra.Proofs.Expansion.References
import PocketAlgebra.Proofs.Shape.Engine

/-!
# Results without names

Where symbols and functions that have no definition become undefined, a result calls no function of
the user, and its symbols stand only where they are bound. Definitions are reduced under the
variables that are bound around their names, and a derivative takes a body out of the scope of its
variable; but the point comes in the place of the variable, and holds no free names either.
-/

namespace PocketAlgebra

namespace Reduction

open PocketAlgebra.Expr Shape Comparison Definitions

/-! ## Two runs of one computation -/

/-- A computation beside itself does what its results alone do. -/
theorem image_self_iff {α : Type} {g : α → α} (hg : ∀ a, g a = a) {P : α → Prop} {m : ReduceM α} :
    equal.Image g P m m ↔ Yields m P := by
  constructor
  · intro h b a b' hm
    rcases h b with ⟨failure, hfails, _⟩ | ⟨c, _, _, hgives, _, hc, _⟩
    · rw [hm] at hfails
      cases hfails
    · rw [hm] at hgives
      cases hgives
      exact hc
  · intro h b
    cases hm : m b with
    | error failure => exact .inl ⟨failure, rfl, rfl⟩
    | ok s => exact .inr ⟨s.1, s.1, s.2, rfl, rfl, h b s.1 s.2 hm, (hg s.1).symm⟩

/-! ## Names that are left -/

/-- Variables are named by symbols. -/
def symbolBinders : NameRules where
  binder y := y.kind = .symbol

/-- No function is called, and no symbol is free. -/
def closed : NameRules where
  free _ := False
  called _ := False
  binder y := y.kind = .symbol

variable {name : String} {B : List String} {x y : Expr} {xs : List Expr} {f : Operator}

theorem eq_symbol_of_kind (h : x.kind = .symbol) : ∃ name, x = .symbol name := by
  cases x with
  | symbol name => exact ⟨name, rfl⟩
  | apply f xs => cases f <;> cases h
  | _ => cases h

theorem renames_closed : Renames id closed :=
  renames_id fun _ => trivial

theorem scoped_symbolBinders_of_closed (hx : Scoped closed B x) : Scoped symbolBinders B x :=
  hx.weaken (fun _ _ => trivial) (fun _ => False.elim) (fun _ => False.elim) fun _ h => h

theorem scoped_of_bindsSymbols (hx : BindsSymbols x) : ∀ B, Scoped symbolBinders B x := by
  induction hx with
  | symbol name => exact fun B => .symbol trivial fun _ => trivial
  | @apply f xs hbound _ ih =>
      intro B
      by_cases hbinds : f.kind.isParametered = true
      · exact .binding hbinds (hbound hbinds) (fun x hx => ih x (List.mem_of_mem_head? hx) _)
          fun x hx => ih x (List.mem_of_mem_drop hx) B
      · cases f with
        | function name => exact .call trivial fun x hx => ih x hx B
        | derivative | integral | sum | product => exact absurd rfl hbinds
        | _ => exact .ordinary rfl fun x hx => ih x hx B
  | _ => exact fun B => .literal rfl

/-! ## Names -/

variable {ctx : Context} {node tree : NodeReducer} {nesting : Nat}

/-- The settings under which names without a definition are undefined. -/
def IsStrict (ctx : Context) : Prop :=
  ctx.settings.symbolic = .replaceAllSymbolsOrUndefined

/-- Trees whose variables are symbols are reduced to trees without names. -/
def ClosesTrees (tree : NodeReducer) (B : List String) : Prop :=
  ∀ y, Scoped symbolBinders B y → Yields (tree y) (Scoped closed B)

theorem undefinedName_of_strict (hstrict : IsStrict ctx) (x : Expr) :
    undefinedName ctx x = .undefined :=
  if_pos hstrict

theorem symbol_closed (hstrict : IsStrict ctx) (hdefinitions : DefinesSymbols ctx.definitions)
    (htree : ClosesTrees tree ctx.bound) (name : String) :
    Yields (symbol ctx tree name) (Scoped closed ctx.bound) := by
  rw [symbol]
  split
  · rename_i hkept
    refine Yields.pure (.symbol trivial fun hfree => ?_)
    rw [IsStrict] at hstrict
    rw [hstrict, Bool.or_eq_true, List.contains_iff_mem] at hkept
    exact hkept.elim hfree Bool.false_ne_true.elim
  · cases hvalue : ctx.definitions.value? name with
    | none =>
        dsimp only
        rw [undefinedName_of_strict hstrict]
        exact Yields.pure scoped_undefined
    | some value =>
        dsimp only
        split
        · exact Yields.pure scoped_undefined
        · exact htree value (scoped_of_bindsSymbols
            (bindsSymbols_body hdefinitions (get?_of_value? hvalue)) _)

theorem userFunction_closed (hstrict : IsStrict ctx) (hdefinitions : DefinesSymbols ctx.definitions)
    (htree : ClosesTrees tree ctx.bound) (name : String)
    (hxs : ∀ x ∈ xs, Scoped closed ctx.bound x) :
    Yields (userFunction ctx tree name xs) (Scoped closed ctx.bound) := by
  rw [userFunction]
  split
  · rename_i hkept
    rw [IsStrict, hkept] at hstrict
    cases hstrict
  · split
    · rename_i parameter body hfunction
      split
      · exact Yields.pure scoped_undefined
      · split
        · rename_i argument
          have hargument := hxs argument List.mem_cons_self
          have hbody := bindsSymbols_body hdefinitions (get?_of_function? hfunction)
          exact htree _ ((scoped_symbolBinders_of_closed hargument).substitute
            (scoped_of_bindsSymbols hbody _))
        · exact Yields.pure scoped_undefined
    · rw [undefinedName_of_strict hstrict]
      exact Yields.pure scoped_undefined

/-! ## Nodes and trees -/

/-- The rules for all other nodes. -/
theorem reduceNode_closed (hnode : ∀ B, Parallel equal id (Scoped closed B) node node)
    (htree : ClosesTrees tree B) (hname : isName x = false) (hx : Scoped closed B x) :
    Yields (reduceNode ctx node tree x) (Scoped closed B) := by
  have hsame : ∀ y, Scoped closed B y →
      equal.Image (rename id) (Scoped closed B) (tree y) (tree (y.rename id)) := by
    intro y hy
    rw [rename_id]
    exact (image_self_iff rename_id).mpr (htree y (scoped_symbolBinders_of_closed hy))
  have himage : equal.Image (rename id) (Scoped closed B) (reduceNode ctx node tree x)
      (reduceNode ctx node tree (x.rename id)) :=
    reduceNode_image renames_closed hnode hsame rfl hname hx
  rw [rename_id] at himage
  exact (image_self_iff rename_id).mp himage

/-- A node whose operands are reduced. -/
inductive Closable (B : List String) : Expr → Prop
  | plain {x : Expr} : isName x = false → Scoped closed B x → Closable B x
  | symbol {name : String} : Closable B (.symbol name)
  | call {name : String} {xs : List Expr} : (∀ x ∈ xs, Scoped closed B x) →
      Closable B (.apply (.function name) xs)

/-- So many nested calls leave no names. -/
structure Closes (nesting : Nat) (ctx : Context) : Prop where
  /-- Nodes that rules call for. -/
  called : ∀ B, Parallel equal id (Scoped closed B) (fun x => reduceWithin nesting ctx (.node x))
    fun x => reduceWithin nesting ctx (.node x)
  /-- Nodes of the tree that is reduced. -/
  node : ∀ x, Closable ctx.bound x →
    Yields (reduceWithin nesting ctx (.node x)) (Scoped closed ctx.bound)
  /-- Trees. -/
  tree : ClosesTrees (fun x => reduceWithin nesting ctx (.tree x)) ctx.bound

theorem Closes.node_succ (h : Closes nesting ctx) (hstrict : IsStrict ctx)
    (hdefinitions : DefinesSymbols ctx.definitions) (hx : Closable ctx.bound x) :
    Yields (reduceWithin (nesting + 1) ctx (.node x)) (Scoped closed ctx.bound) := by
  refine Yields.bind_unit ?_
  cases hx with
  | symbol => exact symbol_closed hstrict hdefinitions h.tree _
  | @call name xs hxs =>
      rw [reduceNode]
      cases hspoiled : spoiled? (.function name) xs with
      | some result =>
          rcases eq_of_spoiled? hspoiled with rfl | rfl
          · exact Yields.pure scoped_undefined
          · exact Yields.pure scoped_nonreal
      | none => exact userFunction_closed hstrict hdefinitions h.tree name hxs
  | plain hname hx =>
      exact reduceNode_closed h.called h.tree hname hx

theorem Closes.called_succ (h : Closes nesting ctx) (B : List String) :
    Parallel equal id (Scoped closed B) (fun x => reduceWithin (nesting + 1) ctx (.node x))
      fun x => reduceWithin (nesting + 1) ctx (.node x) := by
  intro f xs hf hxs
  have hnode : equal.Image (rename id) (Scoped closed B)
      (reduceNode ctx (fun x => reduceWithin nesting ctx (.node x))
        (fun x => reduceWithin nesting ctx (.tree x)) (.apply f xs))
      (reduceNode ctx (fun x => reduceWithin nesting ctx (.node x))
        (fun x => reduceWithin nesting ctx (.tree x)) (.apply f (xs.map (rename id)))) :=
    reduceNode_called renames_closed (h.called B) rfl hf hxs
  rw [map_rename_id] at hnode ⊢
  exact equal.bind (equal_refl _) fun _ _ _ => hnode

/-- Reduced operands leave no names but that of the node over them. -/
theorem yields_closable {tree : Context → NodeReducer}
    (htree : ∀ ctx', IsStrict ctx' → DefinesSymbols ctx'.definitions →
      ClosesTrees (tree ctx') ctx'.bound)
    (hstrict : IsStrict ctx) (hdefinitions : DefinesSymbols ctx.definitions)
    (hx : Scoped symbolBinders ctx.bound (.apply f xs)) :
    Yields (reduceOperands ctx tree f xs) fun ys => Closable ctx.bound (.apply f ys) := by
  have hname : f.isOrdinary = true ∨ f.kind.isParametered = true →
      ∀ ys, isName (.apply f ys) = false := by
    intro hf ys
    cases f <;> first | rfl | simp [Operator.isOrdinary, Operator.kind, Kind.isParametered] at hf
  have hplain : ∀ hf : f.kind.isParametered = false, (∀ x ∈ xs, Scoped symbolBinders ctx.bound x) →
      Yields (reduceOperands ctx tree f xs) fun ys => ∀ y ∈ ys, Scoped closed ctx.bound y := by
    intro hf hxs
    rw [reduceOperands.eq_def, hf]
    exact Yields.mapM_forall fun x hx => htree ctx hstrict hdefinitions x (hxs x hx)
  cases hx with
  | literal hx => cases hx
  | ordinary hf hxs =>
      refine (hplain (isParametered_of_ordinary hf) hxs).mono fun ys hys => ?_
      exact .plain (hname (.inl hf) ys) (.ordinary hf hys)
  | call _ hxs => exact (hplain rfl hxs).mono fun ys hys => .call hys
  | binding hf hbinder hbody hrest =>
      have himage : equal.Image (List.map (rename id))
          (fun ys => Scoped closed ctx.bound (.apply f ys))
          (reduceOperands ctx tree f xs) (reduceOperands ctx tree f (xs.map (rename id))) := by
        refine reduceOperands_binding hf hbinder (fun x hhead => ?_) fun x hmem => ?_
        · rw [map_rename_id, rename_id]
          exact (image_self_iff rename_id).mpr
            (htree (ctx.binding xs) hstrict hdefinitions x (hbody x hhead))
        · rw [rename_id]
          exact (image_self_iff rename_id).mpr (htree ctx hstrict hdefinitions x (hrest x hmem))
      rw [map_rename_id] at himage
      refine ((image_self_iff map_rename_id).mp himage).mono fun ys hys => ?_
      exact .plain (hname (.inr hf) ys) hys

theorem closes (nesting : Nat) (ctx : Context) (hstrict : IsStrict ctx)
    (hdefinitions : DefinesSymbols ctx.definitions) : Closes nesting ctx := by
  induction nesting generalizing ctx with
  | zero =>
      have hthrow : ∀ {P}, Yields (throw .interrupted : ReduceM Expr) P := Yields.throw _
      exact ⟨fun B f xs _ _ => (image_self_iff rename_id).mpr hthrow, fun _ _ => hthrow,
        fun _ _ => hthrow⟩
  | succ nesting ih =>
      have h := ih ctx hstrict hdefinitions
      refine ⟨h.called_succ, fun x => h.node_succ hstrict hdefinitions, fun x hx => ?_⟩
      refine Yields.bind_unit ?_
      cases x with
      | symbol name => exact h.node _ .symbol
      | apply f xs =>
          have happly : Yields (if xs.isEmpty then reduceWithin nesting ctx (.node (.apply f xs))
              else reduceOperands ctx (fun ctx x => reduceWithin nesting ctx (.tree x)) f xs >>=
                fun ys => reduceWithin nesting ctx (.node (.apply f ys)))
              (Scoped closed ctx.bound) := by
            have hoperands := yields_closable (fun ctx' hstrict' hdefinitions' =>
              (ih ctx' hstrict' hdefinitions').tree) hstrict hdefinitions hx
            have hall := hoperands.bind fun ys hys => h.node _ hys
            cases xs with
            | nil =>
                rw [reduceOperands_nil, pure_bind] at hall
                exact hall
            | cons => exact hall
          cases f with
          | store =>
              cases xs with
              | nil => exact h.node _ (.plain rfl (.ordinary rfl (List.forall_mem_nil _)))
              | cons value others =>
                  exact h.tree value ((scoped_ordinary rfl).mp hx _ List.mem_cons_self)
          | _ => exact happly
      | _ => exact h.node _ (.plain rfl (.literal rfl))

/-! ## Results -/

theorem namesShown_closed : NamesShown closed where
  binder y hy := by
    rcases eq_symbol_of_kind hy with ⟨name, rfl⟩
    rfl
  bound xs hbinder := by
    refine .inr ?_
    rw [boundName, boundName, List.getElem?_map]
    cases hsecond : xs[1]? with
    | none => rfl
    | some y =>
        rcases eq_symbol_of_kind (hbinder y hsecond) with ⟨name, rfl⟩
        rfl

/-- A function that binds a variable has an operand that names it. -/
def NamesOne : Expr → Prop
  | .apply f xs => f.kind.isParametered = true → 2 ≤ xs.length
  | _ => True

theorem closed_namesOne : Closed (fun _ => True) (Everywhere NamesOne) := by
  refine closed_everywhere (fun {x} hx => ?_) (fun {f} hf hbinds => ?_) (fun h hlength => ?_)
    (fun {f xs} hf hbinds => ?_) nofun
  · cases x with
    | symbol | apply => cases hx
    | _ => trivial
  · cases f <;> first | cases hf; done | cases hbinds
  · rwa [NamesOne, hlength]
  · have hnone : f.kind.isParametered = false := by cases f <;> first | rfl | cases hf
    rw [hnone] at hbinds
    cases hbinds

theorem passedOn_namesOne : PassedOn (Everywhere NamesOne) where
  rational _ := (everywhere_leaf rfl).mpr trivial
  infinity _ := (everywhere_leaf rfl).mpr trivial
  apply hf hxs := by
    refine everywhere_apply.mpr ⟨fun hbinds => ?_, hxs⟩
    rw [isParametered_of_ordinary hf] at hbinds
    cases hbinds

theorem namesOne_beautify (hx : x.Everywhere NamesOne) : (beautify x).Everywhere NamesOne :=
  passedOn_namesOne.drawn.beautify (fun h hy => h.operand hy) (fun h hlength hys =>
    everywhere_apply.mpr ⟨by rw [NamesOne, hlength]; exact h.here, hys⟩) hx

theorem not_freeIn_of_closed (hx : Scoped closed B x) (hone : x.Everywhere NamesOne) :
    ¬ FreeIn name B x := by
  intro hfree
  induction hfree with
  | symbol hname => exact (scoped_symbol.mp hx).2 hname
  | call => exact (scoped_call.mp hx).1
  | operand hf hy _ ih => exact ih (hx.operand hf _ hy) (hone.operand hy)
  | @body B f xs x hf hy _ ih =>
      rcases (scoped_binding hf).mp hx with ⟨hbinder, hbody, _⟩
      have hsecond := List.getElem?_eq_getElem (Nat.lt_of_succ_le (hone.here hf))
      have hbound : (xs[1]?.bind name?).toList ++ B = boundName xs :: B := by
        rcases eq_symbol_of_kind (hbinder _ hsecond) with ⟨other, hother⟩
        rw [boundName, hsecond, hother]
        rfl
      rw [hbound] at ih
      exact ih (hbody x hy) (hone.operand (List.mem_of_mem_head? hy))
  | bound hf hy _ ih =>
      exact ih (((scoped_binding hf).mp hx).2.2 _ hy) (hone.operand (List.mem_of_mem_drop hy))

/-- Nothing in a closed tree calls a function. -/
theorem not_within_call_of_closed (hx : Scoped closed B x) {ys : List Expr} :
    ¬ Within (.apply (.function name) ys) x := by
  have hbelow : ∀ {f : Operator} {xs : List Expr}, f ≠ .function name →
      (∀ x ∈ xs, ¬ Within (.apply (.function name) ys) x) →
      ¬ Within (.apply (.function name) ys) (.apply f xs) := by
    intro f xs hf hxs h
    rcases within_apply.mp h with heq | ⟨y, hy, hcall⟩
    · cases heq
      exact hf rfl
    · exact hxs y hy hcall
  induction hx with
  | @literal B x hx =>
      cases x with
      | symbol | apply => cases hx
      | _ => nofun
  | symbol => nofun
  | ordinary hf _ ih =>
      refine hbelow ?_ ih
      rintro rfl
      cases hf
  | call hcalled => exact hcalled.elim
  | binding hf hbinder _ _ ihbody ihrest =>
      refine hbelow ?_ (forall_mem_of_parts ihbody (fun y hy => ?_) ihrest)
      · rintro rfl
        cases hf
      · rcases eq_symbol_of_kind (hbinder y hy) with ⟨other, rfl⟩
        nofun

theorem bindsSymbols_of_closed (hx : Scoped closed B x) : BindsSymbols x := by
  induction hx with
  | @literal B x hx =>
      cases x with
      | rational q => exact .rational q
      | decimal d => exact .decimal d
      | infinity negative => exact .infinity negative
      | constant c => exact .constant c
      | symbol | apply => cases hx
  | symbol => exact .symbol _
  | ordinary hf _ ih =>
      refine .apply (fun hbinds => ?_) ih
      rw [isParametered_of_ordinary hf] at hbinds
      cases hbinds
  | call hcalled => exact hcalled.elim
  | binding hf hbinder _ _ ihbody ihrest =>
      refine .apply (fun _ => hbinder) (forall_mem_of_parts ihbody (fun y hy => ?_) ihrest)
      rcases eq_symbol_of_kind (hbinder y hy) with ⟨other, rfl⟩
      exact .symbol other

/-! ## Results under the strict settings -/

/-- A function that binds a variable has an operand that names it, and this is a symbol. -/
def BindsSymbol : Expr → Prop
  | .apply f xs => f.kind.isParametered = true → (xs[1]?.bind symbol?).isSome = true
  | _ => True

instance : DecidablePred BindsSymbol
  | .apply f xs => inferInstanceAs
      (Decidable (f.kind.isParametered = true → (xs[1]?.bind symbol?).isSome = true))
  | .rational _ | .decimal _ | .infinity _ | .constant _ | .symbol _ => .isTrue trivial

theorem bindsSymbol_apply_iff : BindsSymbol (.apply f xs) ↔
    NamesVariable f xs ∧ NamesOne (.apply f xs) := by
  rw [BindsSymbol, NamesVariable, NamesOne, ← imp_and]
  refine imp_congr_right fun _ => ?_
  cases hsecond : xs[1]? with
  | none =>
      have hlength := List.getElem?_eq_none_iff.mp hsecond
      simp
      omega
  | some y =>
      have hlength : 2 ≤ xs.length := (List.getElem?_eq_some_iff.mp hsecond).1
      constructor
      · intro hsymbol
        refine ⟨?_, hlength⟩
        rintro _ ⟨⟩
        cases y with
        | symbol name => rfl
        | _ => cases hsymbol
      · rintro ⟨hkind, _⟩
        rcases eq_symbol_of_kind (hkind y rfl) with ⟨name, rfl⟩
        rfl

theorem bindsSymbol_everywhere_iff :
    x.Everywhere BindsSymbol ↔ BindsSymbols x ∧ x.Everywhere NamesOne := by
  constructor
  · intro h
    induction h with
    | @node x here _ ih =>
        cases x with
        | apply f xs =>
            rcases bindsSymbol_apply_iff.mp here with ⟨hnames, hone⟩
            exact ⟨.apply hnames fun y hy => (ih y hy).1, .node hone fun y hy => (ih y hy).2⟩
        | rational q => exact ⟨.rational q, (everywhere_leaf rfl).mpr trivial⟩
        | decimal d => exact ⟨.decimal d, (everywhere_leaf rfl).mpr trivial⟩
        | infinity negative => exact ⟨.infinity negative, (everywhere_leaf rfl).mpr trivial⟩
        | constant c => exact ⟨.constant c, (everywhere_leaf rfl).mpr trivial⟩
        | symbol name => exact ⟨.symbol name, (everywhere_leaf rfl).mpr trivial⟩
  · rintro ⟨h, hone⟩
    induction h with
    | apply hnames _ ih =>
        exact everywhere_apply.mpr ⟨bindsSymbol_apply_iff.mpr ⟨hnames, hone.here⟩,
          fun y hy => ih y hy (hone.operand hy)⟩
    | _ => exact (everywhere_leaf rfl).mpr trivial

/-- Under the strict settings a result calls no function of the user, and no symbol in it is free.
This takes that all variables are bound by symbols, in the expression and in the definitions, as
they are in the result. -/
theorem reduce_closed (ctx : Context) (x r : Expr) (breaker : Breaker)
    (hstrict : ctx.settings.symbolic = .replaceAllSymbolsOrUndefined) (hbound : ctx.bound = [])
    (hx : x.Everywhere BindsSymbol)
    (hdefinitions : Defines (Everywhere BindsSymbol) ctx.definitions)
    (hr : x.reduce ctx breaker = .ok r) :
    (∀ name ys, ¬ Within (.apply (.function name) ys) r) ∧ (∀ name, ¬ FreeIn name [] r) ∧
      r.Everywhere BindsSymbol := by
  rcases bindsSymbol_everywhere_iff.mp hx with ⟨hsymbols, hone⟩
  have hcloses := closes maxNesting ctx hstrict fun entry hentry =>
    (bindsSymbol_everywhere_iff.mp (hdefinitions entry hentry)).1
  have hkept := closed_namesOne.kept_reduceWithin maxNesting fun entry hentry =>
    (bindsSymbol_everywhere_iff.mp (hdefinitions entry hentry)).2
  have hreduced := (hcloses.tree x (scoped_of_bindsSymbols hsymbols _)).and (hkept.tree x hone)
  have hresult : Scoped closed [] r ∧ r.Everywhere NamesOne := by
    rcases exists_of_reduce hreduced hr with ⟨c, ⟨hclosed, hone⟩, rfl⟩
    rw [hbound] at hclosed
    split
    · exact ⟨scoped_beautify namesShown_closed hclosed, namesOne_beautify hone⟩
    · exact ⟨hclosed, hone⟩
  rcases hresult with ⟨hclosed, hone⟩
  exact ⟨fun _ _ => not_within_call_of_closed hclosed, fun _ => not_freeIn_of_closed hclosed hone,
    bindsSymbol_everywhere_iff.mpr ⟨bindsSymbols_of_closed hclosed, hone⟩⟩

/-- A function that adds a value to its argument. -/
def shift : Definitions :=
  ⟨[("g", .function "s" (.apply .addition [.symbol "s", .symbol "m"])), ("m", .value (.integer 5)),
    ("n", .value (.integer 4))]⟩

/-- A call and a sum over a variable, with a symbol that is replaced in the scope of the
variable. -/
theorem reduce_closed_shift : ∃ r,
    (Expr.apply .addition [.apply (.function "g") [.symbol "n"], .apply .sum
      [.apply .multiplication [.symbol "k", .symbol "n"], .symbol "k", .integer 1,
        .symbol "n"]]).reduce
      ⟨{ symbolic := .replaceAllSymbolsOrUndefined }, shift, 4096, []⟩ {} = .ok r ∧
    r.kind = .addition ∧ (∀ name ys, ¬ Within (.apply (.function name) ys) r) ∧
    (∀ name, ¬ FreeIn name [] r) ∧ r.Everywhere BindsSymbol := by
  have hresult : ((Expr.apply .addition [.apply (.function "g") [.symbol "n"], .apply .sum
      [.apply .multiplication [.symbol "k", .symbol "n"], .symbol "k", .integer 1,
        .symbol "n"]]).reduce ⟨{ symbolic := .replaceAllSymbolsOrUndefined }, shift, 4096, []⟩
      {}).toOption.map Expr.kind = some .addition := by
    decide +kernel
  rcases exists_ok hresult with ⟨r, hr, hkind⟩
  exact ⟨r, hr, hkind, reduce_closed
    ⟨{ symbolic := .replaceAllSymbolsOrUndefined }, shift, 4096, []⟩ _ r {} rfl rfl (by decide)
    (by decide) hr⟩

end Reduction

end PocketAlgebra
