import PocketAlgebra.Proofs.Expansion.References
import PocketAlgebra.Proofs.Parallel.Engine

/-!
# Chains of expansions

A reduction that expands a name reduces the definition of the name, and may expand further names in
it. Each name is checked against itself alone, and not against the names that are being expanded
around it. Still no chain of expansions meets a name again: the arguments that are put into a body
are reduced, and hold no name that could be expanded; so every name that is expanded stands in the
definition of the one before it, and a chain is a way along references.

A reduction that refuses to expand a name inside its own expansion, or deeper than there are
definitions, therefore does the same as one that refuses nothing, whatever a refusal would come
to.
-/

open Relation

namespace PocketAlgebra

namespace Definitions

/-- A name may follow the names that are being expanded, the last one first: it stands in the
definition of the last one. -/
def Follows (ds : Definitions) : List String → String → Prop
  | [], _ => True
  | last :: _, name => ds.Refers last name

/-- Names that are expanded one inside the other, the last one first. -/
inductive Chain (ds : Definitions) : List String → Prop
  | nil : Chain ds []
  | cons {name chain} : ds.Follows chain name → (ds.get? name).isSome = true →
      ds.isCircular name = false → Chain ds chain → Chain ds (name :: chain)

variable {ds : Definitions} {name : String} {chain : List String}

/-- From all names that are being expanded, a way leads to any name that may follow. -/
theorem Chain.leads (h : Chain ds chain) (hname : ds.Follows chain name) :
    ∀ other ∈ chain, TransGen ds.Refers other name := by
  induction h generalizing name with
  | nil => nofun
  | @cons last chain hlast _ _ _ ih =>
      refine List.forall_mem_cons.mpr ⟨.single hname, fun other hother => ?_⟩
      exact (ih hlast other hother).tail hname

theorem Chain.not_mem (h : Chain ds chain) (hname : ds.Follows chain name)
    (hcircular : ds.isCircular name = false) : name ∉ chain := by
  intro hmem
  have htrue := isCircular_iff.mpr (h.leads hname name hmem)
  rw [hcircular] at htrue
  cases htrue

theorem Chain.nodup (h : Chain ds chain) : chain.Nodup := by
  induction h with
  | nil => exact List.nodup_nil
  | cons hname _ hcircular hchain ih =>
      exact List.nodup_cons.mpr ⟨hchain.not_mem hname hcircular, ih⟩

theorem Chain.defined (h : Chain ds chain) : ∀ name ∈ chain, (ds.get? name).isSome = true := by
  induction h with
  | nil => nofun
  | cons _ hname _ _ ih => exact List.forall_mem_cons.mpr ⟨hname, ih⟩

/-- Chains are not longer than there are definitions. -/
theorem Chain.length_le (h : Chain ds chain) : chain.length ≤ ds.size :=
  length_le_size h.nodup h.defined

/-- Whatever may follow in a chain is not refused. -/
theorem Chain.admits (h : Chain ds chain) (hname : ds.Follows chain name)
    (hdefined : (ds.get? name).isSome = true) (hcircular : ds.isCircular name = false) :
    ¬ (name ∈ chain ∨ ds.size ≤ chain.length) := by
  have hlonger := (Chain.cons hname hdefined hcircular h).length_le
  rw [List.length_cons] at hlonger
  rintro (hmem | hsize)
  · exact h.not_mem hname hcircular hmem
  · omega

end Definitions

namespace Reduction

open PocketAlgebra.Expr Comparison Definitions

/-! ## A reduction that keeps track -/

/-- The name that a node stands for. -/
def headName? : Expr → Option String
  | .symbol name | .apply (.function name) _ => some name
  | _ => none

/-- How a node has trees reduced, where the given names are being expanded. What a name stands for
is reduced under a longer chain; the name is refused where it is being expanded already, or where
the chain is as long as there are definitions. -/
def expanding (refuse : ReduceM Expr) (ctx : Context) (chain : List String)
    (tree : List String → NodeReducer) (x : Expr) : NodeReducer :=
  match headName? x with
  | none => tree chain
  | some name => fun body =>
    if name ∈ chain ∨ ctx.definitions.size ≤ chain.length then
      refuse
    else
      tree (name :: chain) body

/-- Reduces an expression like `reduceWithin`, and keeps track of the names that are being
expanded. -/
def reduceGuarded (refuse : ReduceM Expr) : Nat → List String → Context → Task → ReduceM Expr
  | 0, _, _, _ => throw .interrupted
  | nesting + 1, chain, ctx, task => do
    let node : NodeReducer := fun x => reduceGuarded refuse nesting chain ctx (.node x)
    let tree : List String → Context → NodeReducer := fun chain ctx x =>
      reduceGuarded refuse nesting chain ctx (.tree x)
    match task with
    | .node x =>
      checkRoom ctx x
      reduceNode ctx node (expanding refuse ctx chain (fun chain => tree chain ctx) x) x
    | .tree x =>
      checkBreaker
      match x with
      | .apply .store xs =>
        match xs with
        | [] => node x
        | value :: _ => tree chain ctx value
      | .apply f xs =>
        if xs.isEmpty then
          node x
        else
          node (.apply f (← reduceOperands ctx (tree chain) f xs))
      | x => node x

/-! ## Names that are not expanded -/

/-- Symbols are replaced by what this name stands for. -/
def ExpandsSymbol (settings : Settings) (ds : Definitions) (name : String) : Prop :=
  replacesSymbols settings.symbolic = true ∧ (ds.value? name).isSome = true ∧
    ds.isCircular name = false

/-- Calls of this function are replaced by its body. -/
def ExpandsCall (settings : Settings) (ds : Definitions) (name : String) : Prop :=
  settings.symbolic ≠ .doNotReplaceAnySymbol ∧ (ds.function? name).isSome = true ∧
    ds.isCircular name = false

/-- No names are to be expanded but those that are given. -/
def onlyExpands (settings : Settings) (ds : Definitions) (names : String → Prop) : NameRules where
  free name := ExpandsSymbol settings ds name → names name
  called name := ExpandsCall settings ds name → names name

/-- Nothing is left to be expanded. -/
abbrev settled (settings : Settings) (ds : Definitions) : NameRules :=
  onlyExpands settings ds fun _ => False

/-- A node whose operands are reduced. -/
inductive Ready (ctx : Context) (names : String → Prop) : Expr → Prop
  | plain {x} : isName x = false → Scoped (settled ctx.settings ctx.definitions) ctx.bound x →
      Ready ctx names x
  | symbol {name} : (name ∉ ctx.bound → ExpandsSymbol ctx.settings ctx.definitions name →
      names name) → Ready ctx names (.symbol name)
  | call {name xs} : (ExpandsCall ctx.settings ctx.definitions name → names name) →
      (∀ x ∈ xs, Scoped (settled ctx.settings ctx.definitions) ctx.bound x) →
      Ready ctx names (.apply (.function name) xs)

variable {settings : Settings} {ds : Definitions} {names : String → Prop} {chain : List String}
  {name parameter : String} {x y body : Expr} {xs : List Expr} {ctx : Context}

/-! ## Definitions in their scopes -/

/-- All names of a tree are among its references and its parameter. -/
theorem scoped_of_references {A : NameRules} {B : List String} {p : Option String}
    (hoccurs : ∀ name, A.occurs name) (hbinder : ∀ y, A.binder y) (hB : ∀ name ∈ p, name ∈ B)
    (x : Expr) : (∀ name ∈ x.references p, A.free name) →
    (∀ name ∈ x.references p, A.called name) → Scoped A B x := by
  cases x with
  | symbol name =>
      intro hfree _
      refine .symbol (hoccurs name) fun hname => hfree name ?_
      exact mem_references_symbol.mpr ⟨rfl, fun hp => hname (hB name hp)⟩
  | apply f xs =>
      intro hfree hcalled
      have hscope : ∀ C, B ⊆ C → ∀ x ∈ xs, Scoped A C x := fun C hBC x hx =>
        scoped_of_references hoccurs hbinder (fun name hname => hBC (hB name hname)) x
          (fun name hname => hfree name (mem_references_apply.mpr (.inr ⟨x, hx, hname⟩)))
          fun name hname => hcalled name (mem_references_apply.mpr (.inr ⟨x, hx, hname⟩))
      by_cases hbinds : f.kind.isParametered = true
      · refine .binding hbinds (fun y _ => hbinder y) (fun y hy => ?_) fun y hy => ?_
        · exact hscope _ (List.subset_cons_self _ B) y (List.mem_of_mem_head? hy)
        · exact hscope B (List.Subset.refl B) y (List.mem_of_mem_drop hy)
      · have hxs := hscope B (List.Subset.refl B)
        cases f with
        | function name => exact .call (hcalled name (mem_references_apply.mpr (.inl rfl))) hxs
        | derivative | integral | sum | product => exact absurd rfl hbinds
        | _ => exact .ordinary rfl hxs
  | _ => exact fun _ _ => .literal rfl
termination_by x.size
decreasing_by exact size_lt_of_mem hx

variable {B : List String}

theorem scoped_definition {d : Definition} (hd : ds.get? name = some d)
    (hB : ∀ p ∈ d.parameter?, p ∈ B) :
    Scoped (onlyExpands settings ds (ds.Refers name)) B d.body := by
  have hrefers : ∀ other ∈ d.body.references d.parameter?, ds.Refers name other := fun other h =>
    ⟨d, hd, (mem_references d.body).mp h⟩
  exact scoped_of_references (fun _ => trivial) (fun _ => trivial) hB d.body
    (fun other h _ => hrefers other h) fun other h _ => hrefers other h

theorem scoped_value (h : ds.value? name = some body) :
    Scoped (onlyExpands settings ds (ds.Refers name)) B body :=
  scoped_definition (get?_of_value? h) nofun

theorem scoped_of_settled (hx : Scoped (settled settings ds) B x) :
    Scoped (onlyExpands settings ds names) B x :=
  hx.weaken (fun _ h => h) (fun _ h hexpands => (h hexpands).elim)
    (fun _ h hexpands => (h hexpands).elim) fun _ h => h

/-- A body with a settled argument holds no names to be expanded but those that it refers to. -/
theorem scoped_expansion (h : ds.function? name = some (parameter, body))
    (hx : Scoped (settled settings ds) B x) :
    Scoped (onlyExpands settings ds (ds.Refers name)) B (substitute parameter x body) := by
  have hbody : Scoped (onlyExpands settings ds (ds.Refers name)) (parameter :: B) body :=
    scoped_definition (get?_of_function? h) (by rintro _ ⟨⟩; exact List.mem_cons_self)
  exact (scoped_of_settled hx).substitute hbody

/-! ## Equal computations -/

/-- Under every breaker two computations fail alike, or use it alike and give results that belong
together. -/
def equal : Comparison where
  Holds R m m' := ∀ b, (∃ failure, m b = .error failure ∧ m' b = .error failure) ∨
    ∃ a a' c, m b = .ok (a, c) ∧ m' b = .ok (a', c) ∧ R a a'
  pure hR b := .inr ⟨_, _, b, rfl, rfl, hR⟩
  bind := by
    intro α β γ δ R Q m m' k k' hm hk b
    rcases hm b with ⟨failure, hfails, hfails'⟩ | ⟨a, a', c, hgives, hgives', hR⟩
    · refine .inl ⟨failure, ?_, ?_⟩
      · change (m b).bind _ = _
        rw [hfails]
        rfl
      · change (m' b).bind _ = _
        rw [hfails']
        rfl
    · have hfirst : (m >>= k) b = k a c := by
        change (m b).bind _ = _
        rw [hgives]
        rfl
      have hfirst' : (m' >>= k') b = k' a' c := by
        change (m' b).bind _ = _
        rw [hgives']
        rfl
      rw [hfirst, hfirst']
      exact hk a a' hR c

theorem equal_refl {α : Type} (m : ReduceM α) : equal.Holds Eq m m := by
  intro b
  cases hm : m b with
  | error failure => exact .inl ⟨failure, rfl, rfl⟩
  | ok s => exact .inr ⟨s.1, s.1, s.2, rfl, rfl, rfl⟩

theorem eq_of_equal {α : Type} {m m' : ReduceM α} (h : equal.Holds Eq m m') : m = m' := by
  funext b
  rcases h b with ⟨failure, hfails, hfails'⟩ | ⟨a, a', c, hgives, hgives', rfl⟩
  · rw [hfails, hfails']
  · rw [hgives, hgives']

end Reduction

/-! ## How deep expansions are nested -/

namespace Reduction

open PocketAlgebra.Expr Comparison Definitions

/-- Two reductions are equal, and leave nothing to be expanded. -/
def Agree (ctx : Context) (B : List String) (m m' : ReduceM Expr) : Prop :=
  equal.Image (rename id) (Scoped (settled ctx.settings ctx.definitions) B) m m'

variable {refuse : ReduceM Expr} {nesting : Nat} {ctx : Context} {B chain : List String}
  {name : String} {f : Operator} {x y : Expr} {xs : List Expr} {node node' : NodeReducer}
  {tree : NodeReducer} {trees : List String → NodeReducer}

theorem agree_pure (hx : Scoped (settled ctx.settings ctx.definitions) B x) :
    Agree ctx B (pure x) (pure x) :=
  equal.pure ⟨hx, (rename_id x).symm⟩

theorem agree_checked {m m' : ReduceM Unit} {k k' : ReduceM Expr} (hm : equal.Holds Eq m m')
    (hk : Agree ctx B k k') : Agree ctx B (m >>= fun _ => k) (m' >>= fun _ => k') :=
  equal.bind hm fun _ _ _ => hk

theorem scoped_undefined {A : NameRules} : Scoped A B .undefined :=
  .ordinary rfl (List.forall_mem_nil _)

theorem scoped_nonreal {A : NameRules} : Scoped A B .nonreal :=
  .ordinary rfl (List.forall_mem_nil _)

theorem renames_settled (ctx : Context) : Renames id (settled ctx.settings ctx.definitions) :=
  renames_id fun _ => trivial

/-! ## Names -/

/-- What reduces a definition does so alike with and without a guard. -/
def AgreeOn (ctx : Context) (tree : NodeReducer) (trees : List String → NodeReducer) : Prop :=
  ∀ chain, Chain ctx.definitions chain → ∀ y,
    Scoped (onlyExpands ctx.settings ctx.definitions (ctx.definitions.Follows chain)) ctx.bound y →
    Agree ctx ctx.bound (tree y) (trees chain y)

theorem agree_expanding (htree : AgreeOn ctx tree trees) (hchain : Chain ctx.definitions chain)
    (hhead : headName? x = some name) (hname : ctx.definitions.Follows chain name)
    (hdefined : (ctx.definitions.get? name).isSome = true)
    (hcircular : ctx.definitions.isCircular name = false)
    (hy : Scoped (onlyExpands ctx.settings ctx.definitions (ctx.definitions.Refers name))
      ctx.bound y) :
    Agree ctx ctx.bound (tree y) (expanding refuse ctx chain trees x y) := by
  simp only [expanding, hhead, if_neg (hchain.admits hname hdefined hcircular)]
  exact htree _ (.cons hname hdefined hcircular hchain) y hy

theorem agree_symbol (htree : AgreeOn ctx tree trees) (hchain : Chain ctx.definitions chain)
    (hname : name ∉ ctx.bound → ExpandsSymbol ctx.settings ctx.definitions name →
      ctx.definitions.Follows chain name) :
    Agree ctx ctx.bound (symbol ctx tree name)
      (symbol ctx (expanding refuse ctx chain trees (.symbol name)) name) := by
  rw [symbol, symbol]
  split
  · rename_i hkept
    refine agree_pure (.symbol trivial fun hfree hexpands => ?_)
    rw [Bool.or_eq_true, List.contains_iff_mem, hexpands.1] at hkept
    exact hkept.elim hfree Bool.noConfusion
  · rename_i hreplaced
    rw [Bool.or_eq_true, List.contains_iff_mem, not_or, Bool.not_eq_true, Bool.not_eq_false']
      at hreplaced
    cases hvalue : ctx.definitions.value? name with
    | none =>
        dsimp only [undefinedName]
        split
        · exact agree_pure scoped_undefined
        · refine agree_pure (.symbol trivial fun _ hexpands => ?_)
          rw [ExpandsSymbol, hvalue] at hexpands
          cases hexpands.2.1
    | some value =>
        dsimp only
        split
        · exact agree_pure scoped_undefined
        · rename_i hcircular
          rw [Bool.not_eq_true] at hcircular
          have hdefined : (ctx.definitions.get? name).isSome = true := by
            rw [get?_of_value? hvalue]
            rfl
          have hexpands : ExpandsSymbol ctx.settings ctx.definitions name :=
            ⟨hreplaced.2, by rw [hvalue]; rfl, hcircular⟩
          exact agree_expanding htree hchain rfl (hname hreplaced.1 hexpands) hdefined hcircular
            (scoped_value hvalue)

theorem agree_userFunction (htree : AgreeOn ctx tree trees) (hchain : Chain ctx.definitions chain)
    (hname : ExpandsCall ctx.settings ctx.definitions name → ctx.definitions.Follows chain name)
    (hxs : ∀ x ∈ xs, Scoped (settled ctx.settings ctx.definitions) ctx.bound x) :
    Agree ctx ctx.bound (userFunction ctx tree name xs) (userFunction ctx
      (expanding refuse ctx chain trees (.apply (.function name) xs)) name xs) := by
  have hkept : ¬ ExpandsCall ctx.settings ctx.definitions name →
      Scoped (settled ctx.settings ctx.definitions) ctx.bound (.apply (.function name) xs) :=
    fun h => .call h hxs
  unfold userFunction
  dsimp only
  split
  · rename_i hpolicy
    exact agree_pure (hkept fun hexpands => hexpands.1 hpolicy)
  · rename_i hpolicy
    cases hfunction : ctx.definitions.function? name with
    | none =>
        dsimp only [undefinedName]
        split
        · exact agree_pure scoped_undefined
        · refine agree_pure (hkept fun hexpands => ?_)
          rw [ExpandsCall, hfunction] at hexpands
          cases hexpands.2.1
    | some function =>
        rcases function with ⟨parameter, body⟩
        dsimp only
        split
        · exact agree_pure scoped_undefined
        · rename_i hcircular
          rw [Bool.not_eq_true] at hcircular
          match xs with
          | [] | _ :: _ :: _ => exact agree_pure scoped_undefined
          | [argument] =>
              have hdefined : (ctx.definitions.get? name).isSome = true := by
                rw [get?_of_function? hfunction]
                rfl
              have hexpands : ExpandsCall ctx.settings ctx.definitions name :=
                ⟨hpolicy, by rw [hfunction]; rfl, hcircular⟩
              exact agree_expanding htree hchain rfl (hname hexpands) hdefined hcircular
                (scoped_expansion hfunction (hxs argument List.mem_cons_self))

/-! ## Nodes and trees -/

/-- With and without a guard, so many nested calls come to the same. -/
structure Tracks (refuse : ReduceM Expr) (nesting : Nat) : Prop where
  /-- Nodes that rules call for. -/
  called : ∀ ctx chain B, Parallel equal id (Scoped (settled ctx.settings ctx.definitions) B)
    (fun x => reduceWithin nesting ctx (.node x))
    fun x => reduceGuarded refuse nesting chain ctx (.node x)
  /-- Nodes of the tree that is reduced. -/
  node : ∀ ctx chain x, Chain ctx.definitions chain → Ready ctx (ctx.definitions.Follows chain) x →
    Agree ctx ctx.bound (reduceWithin nesting ctx (.node x))
      (reduceGuarded refuse nesting chain ctx (.node x))
  /-- Trees. -/
  tree : ∀ ctx, AgreeOn ctx (fun x => reduceWithin nesting ctx (.tree x))
    fun chain x => reduceGuarded refuse nesting chain ctx (.tree x)

theorem ready_of_literal {names : String → Prop} (hx : x.isLiteral = true) : Ready ctx names x := by
  cases x with
  | symbol | apply => cases hx
  | _ => exact .plain rfl (.literal rfl)

theorem Tracks.called_succ (h : Tracks refuse nesting) (ctx : Context) (chain B : List String) :
    Parallel equal id (Scoped (settled ctx.settings ctx.definitions) B)
      (fun x => reduceWithin (nesting + 1) ctx (.node x))
      fun x => reduceGuarded refuse (nesting + 1) chain ctx (.node x) := by
  intro f xs hf hxs
  have hplain : headName? (.apply f xs) = none := by
    cases f <;> first | rfl | cases hf
  have hresult : Agree ctx B
      (reduceNode ctx (fun x => reduceWithin nesting ctx (.node x))
        (fun x => reduceWithin nesting ctx (.tree x)) (.apply f xs))
      (reduceNode ctx (fun x => reduceGuarded refuse nesting chain ctx (.node x))
        (fun x => reduceGuarded refuse nesting chain ctx (.tree x))
        (.apply f (xs.map (rename id)))) :=
    reduceNode_called (renames_settled ctx) (h.called ctx chain B) rfl hf hxs
  rw [map_rename_id] at hresult ⊢
  refine agree_checked (equal_refl _) ?_
  simp only [expanding, hplain]
  exact hresult

theorem Tracks.node_succ (h : Tracks refuse nesting) (hchain : Chain ctx.definitions chain)
    (hx : Ready ctx (ctx.definitions.Follows chain) x) :
    Agree ctx ctx.bound (reduceWithin (nesting + 1) ctx (.node x))
      (reduceGuarded refuse (nesting + 1) chain ctx (.node x)) := by
  refine agree_checked (equal_refl _) ?_
  cases hx with
  | plain hname hx =>
      have hplain : headName? x = none := by
        cases x with
        | symbol => cases hname
        | apply f xs => cases f <;> first | rfl | cases hname
        | _ => rfl
      have hresult : Agree ctx ctx.bound
          (reduceNode ctx (fun x => reduceWithin nesting ctx (.node x))
            (fun x => reduceWithin nesting ctx (.tree x)) x)
          (reduceNode ctx (fun x => reduceGuarded refuse nesting chain ctx (.node x))
            (fun x => reduceGuarded refuse nesting chain ctx (.tree x)) (x.rename id)) := by
        refine reduceNode_image (renames_settled ctx) (h.called ctx chain) (fun y hy => ?_) rfl
          hname hx
        rw [rename_id]
        exact h.tree ctx chain hchain y (scoped_of_settled hy)
      rw [rename_id] at hresult
      simp only [expanding, hplain]
      exact hresult
  | symbol hname => exact agree_symbol (h.tree ctx) hchain hname
  | @call name xs hname hxs =>
      rw [reduceNode, reduceNode]
      cases hspoiled : spoiled? (.function name) xs with
      | some result =>
          rcases eq_of_spoiled? hspoiled with rfl | rfl
          · exact agree_pure scoped_undefined
          · exact agree_pure scoped_nonreal
      | none => exact agree_userFunction (h.tree ctx) hchain hname hxs

theorem Tracks.operands_of_plain (h : Tracks refuse nesting)
    (hchain : Chain ctx.definitions chain) (hf : f.kind.isParametered = false)
    (hxs : ∀ x ∈ xs, Scoped (onlyExpands ctx.settings ctx.definitions
      (ctx.definitions.Follows chain)) ctx.bound x) :
    equal.Image (List.map (rename id))
      (fun ys => ∀ y ∈ ys, Scoped (settled ctx.settings ctx.definitions) ctx.bound y)
      (reduceOperands ctx (fun ctx x => reduceWithin nesting ctx (.tree x)) f xs)
      (reduceOperands ctx (fun ctx x => reduceGuarded refuse nesting chain ctx (.tree x)) f
        (xs.map (rename id))) := by
  refine reduceOperands_image hf fun x hx => ?_
  rw [rename_id]
  exact h.tree ctx chain hchain x (hxs x hx)

theorem Tracks.operands_binding (h : Tracks refuse nesting)
    (hchain : Chain ctx.definitions chain) (hf : f.kind.isParametered = true)
    (hx : Scoped (onlyExpands ctx.settings ctx.definitions (ctx.definitions.Follows chain))
      ctx.bound (.apply f xs)) :
    equal.Image (List.map (rename id))
      (fun ys => Scoped (settled ctx.settings ctx.definitions) ctx.bound (.apply f ys))
      (reduceOperands ctx (fun ctx x => reduceWithin nesting ctx (.tree x)) f xs)
      (reduceOperands ctx (fun ctx x => reduceGuarded refuse nesting chain ctx (.tree x)) f
        (xs.map (rename id))) := by
  rcases (scoped_binding hf).mp hx with ⟨_, hbody, hrest⟩
  refine reduceOperands_binding hf (fun _ _ => trivial) (fun x hhead => ?_) fun x hmem => ?_
  · rw [map_rename_id, rename_id]
    exact h.tree (ctx.binding xs) chain hchain x (hbody x hhead)
  · rw [rename_id]
    exact h.tree ctx chain hchain x (hrest x hmem)

/-- Reduced operands leave nothing to be expanded but the node over them. -/
theorem Tracks.operands (h : Tracks refuse nesting) (hchain : Chain ctx.definitions chain)
    (hx : Scoped (onlyExpands ctx.settings ctx.definitions (ctx.definitions.Follows chain))
      ctx.bound (.apply f xs)) :
    equal.Image (List.map (rename id))
      (fun ys => Ready ctx (ctx.definitions.Follows chain) (.apply f ys))
      (reduceOperands ctx (fun ctx x => reduceWithin nesting ctx (.tree x)) f xs)
      (reduceOperands ctx (fun ctx x => reduceGuarded refuse nesting chain ctx (.tree x)) f
        (xs.map (rename id))) := by
  cases hx with
  | literal hx => cases hx
  | ordinary hf hxs =>
      have hname : ∀ ys, isName (.apply f ys) = false := by
        intro ys
        cases f <;> first | rfl | cases hf
      refine mono (h.operands_of_plain hchain (isParametered_of_ordinary hf) hxs) ?_
      exact fun ys _ hys => ⟨.plain (hname ys) (.ordinary hf hys.1), hys.2⟩
  | call hcalled hxs =>
      refine mono (h.operands_of_plain hchain rfl hxs) ?_
      exact fun ys _ hys => ⟨.call hcalled hys.1, hys.2⟩
  | binding hf hbinder hbody hrest =>
      have hname : ∀ ys, isName (.apply f ys) = false := by
        intro ys
        cases f <;> first | rfl | cases hf
      refine mono (h.operands_binding hchain hf (.binding hf hbinder hbody hrest)) ?_
      exact fun ys _ hys => ⟨.plain (hname ys) hys.1, hys.2⟩

theorem Tracks.tree_succ (h : Tracks refuse nesting) (ctx : Context) :
    AgreeOn ctx (fun x => reduceWithin (nesting + 1) ctx (.tree x))
      fun chain x => reduceGuarded refuse (nesting + 1) chain ctx (.tree x) := by
  intro chain hchain x hx
  refine agree_checked (equal_refl _) ?_
  have hnode := h.node ctx chain
  cases x with
  | symbol name => exact hnode _ hchain (.symbol (scoped_symbol.mp hx).2)
  | apply f xs =>
      have happly : Agree ctx ctx.bound
          (if xs.isEmpty then reduceWithin nesting ctx (.node (.apply f xs)) else
            reduceOperands ctx (fun ctx x => reduceWithin nesting ctx (.tree x)) f xs >>= fun ys =>
              reduceWithin nesting ctx (.node (.apply f ys)))
          (if xs.isEmpty then reduceGuarded refuse nesting chain ctx (.node (.apply f xs)) else
            reduceOperands ctx (fun ctx x => reduceGuarded refuse nesting chain ctx (.tree x)) f xs
              >>= fun ys => reduceGuarded refuse nesting chain ctx (.node (.apply f ys))) := by
        have hoperands := h.operands hchain hx
        rw [map_rename_id] at hoperands
        have hall := equal.bind hoperands fun ys _ hys => by
          rw [hys.2, map_rename_id]
          exact hnode _ hchain hys.1
        cases xs with
        | nil =>
            rw [reduceOperands_nil, reduceOperands_nil, pure_bind, pure_bind] at hall
            exact hall
        | cons => exact hall
      cases f with
      | store =>
          cases xs with
          | nil => exact hnode _ hchain (.plain rfl (.ordinary rfl (List.forall_mem_nil _)))
          | cons value others =>
              exact h.tree ctx chain hchain value ((scoped_ordinary rfl).mp hx _ List.mem_cons_self)
      | _ => exact happly
  | _ => exact hnode _ hchain (ready_of_literal rfl)

theorem tracks (refuse : ReduceM Expr) (nesting : Nat) : Tracks refuse nesting := by
  induction nesting with
  | zero =>
      have hthrow : ∀ ctx B, Agree ctx B (throw .interrupted) (throw .interrupted) :=
        fun _ _ _ => .inl ⟨_, rfl, rfl⟩
      exact ⟨fun ctx _ B _ _ _ _ => hthrow ctx B, fun ctx _ _ _ _ => hthrow ctx _,
        fun ctx _ _ _ _ => hthrow ctx _⟩
  | succ nesting ih =>
      exact ⟨ih.called_succ, fun ctx chain x => ih.node_succ, ih.tree_succ⟩

/-- A guard against repeated and too deep expansions has nothing to refuse. -/
theorem reduceGuarded_eq (refuse : ReduceM Expr) (nesting : Nat) (ctx : Context) (x : Expr) :
    reduceGuarded refuse nesting [] ctx (.tree x) = reduceWithin nesting ctx (.tree x) := by
  have hx : Scoped (onlyExpands ctx.settings ctx.definitions (ctx.definitions.Follows []))
      ctx.bound x :=
    (scoped_default x ctx.bound).weaken (fun _ _ => trivial) (fun _ _ _ => trivial)
      (fun _ _ _ => trivial) fun _ _ => trivial
  refine (eq_of_equal (mono ((tracks refuse nesting).tree ctx [] .nil x hx) ?_)).symm
  rintro y _ ⟨_, rfl⟩
  exact (rename_id y).symm

/-- A name is circular exactly where a way along references leads from it back to itself, and the
search for such a way ends. No reduction expands a name inside its own expansion, and expansions
are never nested deeper than there are definitions. -/
theorem expansions_without_repetition (ctx : Context) :
    (∀ name, (ctx.definitions.isCircular name = true ↔
        TransGen ctx.definitions.Refers name name) ∧
      ∀ more, (Search.step ctx.definitions name)^[Search.bound ctx.definitions + more]
        (Search.start name) = .ended (ctx.definitions.isCircular name)) ∧
    ∀ refuse nesting x,
      reduceGuarded refuse nesting [] ctx (.tree x) = reduceWithin nesting ctx (.tree x) := by
  constructor
  · intro name
    constructor
    · exact isCircular_iff
    · exact Search.iterate_eq_ended ctx.definitions name
  · intro refuse nesting x
    exact reduceGuarded_eq refuse nesting ctx x

end Reduction

end PocketAlgebra
