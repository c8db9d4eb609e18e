import PocketAlgebra.Proofs.Alpha.Beautify
import PocketAlgebra.Proofs.Expansion.Chain
import PocketAlgebra.Proofs.Parallel.Engine
import PocketAlgebra.Proofs.Reduction.Yields
import PocketAlgebra.Text.Printer

/-!
# Reduction under another name for a variable

Where a variable is bound under another name, reduction does the same under this name, as long as
the definitions mention neither name and the new one stands in the order of names where the old one
stands. What is expanded in the scope of the variable is then the same under both names, and terms
and factors keep their order.
-/

namespace PocketAlgebra

namespace Reduction

open PocketAlgebra.Expr Comparison Definitions

/-! ## Results of two runs -/

/-- Where two computations both succeed, their results belong together, under whatever breakers. -/
def whenBoth : Comparison where
  Holds R m m' := ∀ b b' s s', m b = .ok s → m' b' = .ok s' → R s.1 s'.1
  pure := by
    intro α β R a a' hR b b' s s' h h'
    cases h
    cases h'
    exact hR
  bind := by
    intro α β γ δ R Q m m' k k' hm hk b b' s s' h h'
    change (m b).bind (fun s => k s.1 s.2) = .ok s at h
    change (m' b').bind (fun s => k' s.1 s.2) = .ok s' at h'
    cases hfirst : m b with
    | error failure =>
        rw [hfirst] at h
        cases h
    | ok first =>
        cases hfirst' : m' b' with
        | error failure =>
            rw [hfirst'] at h'
            cases h'
        | ok first' =>
            rw [hfirst] at h
            rw [hfirst'] at h'
            have hR := hm b b' first first' hfirst hfirst'
            exact hk first.1 first'.1 hR first.2 first'.2 s s' h h'

/-- Two contexts that differ in a name under which variables are bound. What is defined is the same,
and leaves this name alone. -/
structure Renamed (names : String → Prop) (k z : String) (ctx ctx' : Context) : Prop where
  settings : ctx'.settings = ctx.settings
  definitions : ctx'.definitions = ctx.definitions
  bound : ctx'.bound = ctx.bound.map (exchange k z)
  spares : ∀ name d, ctx.definitions.get? name = some d → d.Spares names k

section Runs

variable {names : String → Prop} {k z name : String} {ctx ctx' : Context} {nesting : Nat}
  {B : List String} {f : Operator} {x y : Expr} {xs : List Expr} {tree tree' : NodeReducer}

/-- Inside the scope of a function the contexts differ in this name as well. -/
theorem Renamed.binding (hctx : Renamed names k z ctx ctx') (h : Exchangeable names k z)
    (hbinder : ∀ y ∈ xs[1]?, (bindsOnly names k).binder y) :
    Renamed names k z (ctx.binding xs) (ctx'.binding (xs.map (Expr.rename (exchange k z)))) where
  settings := hctx.settings
  definitions := hctx.definitions
  bound := congrArg₂ List.cons (boundName_rename h hbinder) hctx.bound
  spares := hctx.spares

/-- Two reductions give results that differ in the name that is exchanged. -/
def Exchanges (names : String → Prop) (k z : String) (B : List String) (m m' : ReduceM Expr) :
    Prop :=
  whenBoth.Image (Expr.rename (exchange k z)) (Scoped (bindsOnly names k) B) m m'

theorem exchanges_after {m m' : ReduceM Unit} {r r' : ReduceM Expr}
    (hr : Exchanges names k z B r r') :
    Exchanges names k z B (m >>= fun _ => r) (m' >>= fun _ => r') :=
  whenBoth.bind (R := fun _ _ => True) (fun _ _ _ _ _ _ => trivial) fun _ _ _ => hr

theorem exchanges_pure (hx : Scoped (bindsOnly names k) B x) :
    Exchanges names k z B (pure x) (pure (x.rename (exchange k z))) :=
  image_pure hx

theorem exchanges_undefined : Exchanges names k z B (pure .undefined) (pure .undefined) :=
  exchanges_pure (.ordinary rfl (List.forall_mem_nil _))

/-- Trees are reduced to results that differ in the name that is exchanged. -/
def ExchangesTrees (names : String → Prop) (k z : String) (B : List String)
    (tree tree' : NodeReducer) : Prop :=
  ∀ y, Scoped (bindsOnly names k) B y →
    Exchanges names k z B (tree y) (tree' (y.rename (exchange k z)))

/-! ## Names -/

/-- The same symbols are bound. -/
theorem Renamed.contains_eq (hctx : Renamed names k z ctx ctx') (h : Exchangeable names k z)
    (hname : names name) (hfree : name ∉ ctx.bound → name ≠ k) :
    ctx'.bound.contains (exchange k z name) = ctx.bound.contains name := by
  rw [hctx.bound, Bool.eq_iff_iff, List.contains_iff_mem, List.contains_iff_mem, List.mem_map]
  constructor
  · rintro ⟨other, hother, heq⟩
    by_contra hmem
    have hne := hfree hmem
    rw [exchange_of_ne hne] at heq
    by_cases hk : other = k
    · rw [hk, exchange_self] at heq
      exact h.ne_new hname hne heq.symm
    · rw [exchange_of_ne hk] at heq
      exact hmem (heq ▸ hother)
  · exact fun hmem => ⟨name, hmem, rfl⟩

theorem exchanges_symbol (h : Exchangeable names k z) (hctx : Renamed names k z ctx ctx')
    (htree : ExchangesTrees names k z ctx.bound tree tree') (hname : names name)
    (hfree : name ∉ ctx.bound → name ≠ k) :
    Exchanges names k z ctx.bound (symbol ctx tree name)
      (symbol ctx' tree' (exchange k z name)) := by
  rw [symbol, symbol, hctx.contains_eq h hname hfree, hctx.settings, hctx.definitions]
  split
  · exact exchanges_pure (.symbol hname hfree)
  · rename_i hreplaced
    rw [Bool.or_eq_true, List.contains_iff_mem, not_or] at hreplaced
    have hkept := exchanges_pure (z := z) (.symbol (A := bindsOnly names k) hname hfree)
    rw [rename_symbol] at hkept
    rw [exchange_of_ne (hfree hreplaced.1)] at hkept ⊢
    cases hvalue : ctx.definitions.value? name with
    | none =>
        simp only [undefinedName, hctx.settings]
        split
        · exact exchanges_undefined
        · exact hkept
    | some body =>
        dsimp only
        split
        · exact exchanges_undefined
        · have hspares : Scoped (spares names k none) [] body :=
            hctx.spares name _ (get?_of_value? hvalue)
          have hnamed := named_of_spares (Option.some_ne_none k).symm hspares
          have hbody := htree body (scoped_of_spares hspares (by rintro _ ⟨⟩))
          rwa [rename_exchange hnamed] at hbody

theorem exchanges_userFunction (hctx : Renamed names k z ctx ctx')
    (htree : ExchangesTrees names k z ctx.bound tree tree')
    (hxs : ∀ x ∈ xs, Scoped (bindsOnly names k) ctx.bound x) :
    Exchanges names k z ctx.bound (userFunction ctx tree name xs)
      (userFunction ctx' tree' name (xs.map (Expr.rename (exchange k z)))) := by
  have hkept : Exchanges names k z ctx.bound (pure (.apply (.function name) xs))
      (pure (.apply (.function name) (xs.map (Expr.rename (exchange k z))))) := by
    rw [← rename_apply]
    exact exchanges_pure (.call trivial hxs)
  rw [userFunction.eq_def, userFunction.eq_def, hctx.settings, hctx.definitions]
  dsimp only
  split
  · exact hkept
  · cases hfunction : ctx.definitions.function? name with
    | none =>
        simp only [undefinedName, hctx.settings]
        split
        · exact exchanges_undefined
        · exact hkept
    | some function =>
        rcases function with ⟨parameter, body⟩
        dsimp only
        split
        · exact exchanges_undefined
        · rcases xs with _ | ⟨argument, _ | ⟨_, _⟩⟩
          · exact exchanges_undefined
          · have hspares : Scoped (spares names k (some parameter)) [] body :=
              hctx.spares name _ (get?_of_function? hfunction)
            have hbody : Scoped (bindsOnly names k) (parameter :: ctx.bound) body := by
              refine scoped_of_spares hspares ?_
              rintro _ ⟨⟩
              exact List.mem_cons_self
            have hexpanded := htree _ ((hxs argument List.mem_cons_self).substitute hbody)
            rwa [rename_expansion hspares] at hexpanded
          · exact exchanges_undefined

/-! ## Nodes and trees -/

/-- So many nested calls come to the same under both names. -/
structure ExchangesWithin (names : String → Prop) (k z : String) (nesting : Nat) : Prop where
  /-- Nodes that rules call for. -/
  called : ∀ {ctx ctx'} B, Renamed names k z ctx ctx' →
    Parallel whenBoth (exchange k z) (Scoped (bindsOnly names k) B)
      (fun x => reduceWithin nesting ctx (.node x)) fun x => reduceWithin nesting ctx' (.node x)
  /-- Nodes of the tree that is reduced. -/
  node : ∀ {ctx ctx'}, Renamed names k z ctx ctx' →
    ExchangesTrees names k z ctx.bound (fun x => reduceWithin nesting ctx (.node x))
      fun x => reduceWithin nesting ctx' (.node x)
  /-- Trees. -/
  tree : ∀ {ctx ctx'}, Renamed names k z ctx ctx' →
    ExchangesTrees names k z ctx.bound (fun x => reduceWithin nesting ctx (.tree x))
      fun x => reduceWithin nesting ctx' (.tree x)

namespace ExchangesWithin

variable (h : Exchangeable names k z) (hwithin : ExchangesWithin names k z nesting)
  (hctx : Renamed names k z ctx ctx')

include h hwithin hctx

theorem called_succ (B : List String) :
    Parallel whenBoth (exchange k z) (Scoped (bindsOnly names k) B)
      (fun x => reduceWithin (nesting + 1) ctx (.node x))
      fun x => reduceWithin (nesting + 1) ctx' (.node x) := by
  intro f xs hf hxs
  exact exchanges_after
    (reduceNode_called (renames_bindsOnly h) (hwithin.called B hctx) hctx.settings hf hxs)

theorem node_succ :
    ExchangesTrees names k z ctx.bound (fun x => reduceWithin (nesting + 1) ctx (.node x))
      fun x => reduceWithin (nesting + 1) ctx' (.node x) := by
  intro x hx
  refine exchanges_after ?_
  have htree := hwithin.tree hctx
  by_cases hname : isName x = true
  · match x with
    | .symbol name =>
        rcases scoped_symbol.mp hx with ⟨hname, hfree⟩
        exact exchanges_symbol h hctx htree hname hfree
    | .apply (.function name) xs =>
        rw [rename_apply, reduceNode, reduceNode, spoiled?_rename]
        cases hspoiled : spoiled? (.function name) xs with
        | some result =>
            exact (respects_scoped (renames_bindsOnly h) ctx.bound).renamed_spoiled hspoiled
        | none => exact exchanges_userFunction hctx htree (scoped_call.mp hx).2
  · exact reduceNode_image (renames_bindsOnly h) (fun B => hwithin.called B hctx) htree
      hctx.settings (Bool.eq_false_iff.mpr hname) hx

/-- Reduced operands differ in the name that is exchanged, and so does the node over them. -/
theorem operands (hx : Scoped (bindsOnly names k) ctx.bound (.apply f xs)) :
    whenBoth.Image (List.map (Expr.rename (exchange k z)))
      (fun ys => Scoped (bindsOnly names k) ctx.bound (.apply f ys))
      (reduceOperands ctx (fun ctx x => reduceWithin nesting ctx (.tree x)) f xs)
      (reduceOperands ctx' (fun ctx x => reduceWithin nesting ctx (.tree x)) f
        (xs.map (Expr.rename (exchange k z)))) := by
  cases hx with
  | literal hx => cases hx
  | ordinary hf hxs =>
      refine mono (reduceOperands_image (isParametered_of_ordinary hf)
        fun x hx => hwithin.tree hctx x (hxs x hx)) ?_
      exact fun ys _ hys => ⟨.ordinary hf hys.1, hys.2⟩
  | call hcalled hxs =>
      refine mono (reduceOperands_image rfl fun x hx => hwithin.tree hctx x (hxs x hx)) ?_
      exact fun ys _ hys => ⟨.call hcalled hys.1, hys.2⟩
  | binding hf hbinder hbody hrest =>
      exact reduceOperands_binding hf hbinder
        (fun x hx => hwithin.tree (hctx.binding h hbinder) x (hbody x hx))
        fun x hx => hwithin.tree hctx x (hrest x hx)

theorem tree_succ :
    ExchangesTrees names k z ctx.bound (fun x => reduceWithin (nesting + 1) ctx (.tree x))
      fun x => reduceWithin (nesting + 1) ctx' (.tree x) := by
  intro x hx
  refine exchanges_after ?_
  have hnode := hwithin.node hctx
  cases x with
  | apply f xs =>
      have hall : Exchanges names k z ctx.bound
          (reduceOperands ctx (fun ctx x => reduceWithin nesting ctx (.tree x)) f xs >>= fun ys =>
            reduceWithin nesting ctx (.node (.apply f ys)))
          (reduceOperands ctx' (fun ctx x => reduceWithin nesting ctx (.tree x)) f
            (xs.map (Expr.rename (exchange k z))) >>= fun ys =>
              reduceWithin nesting ctx' (.node (.apply f ys))) := by
        refine whenBoth.bind (hwithin.operands h hctx hx) ?_
        rintro ys _ ⟨hys, rfl⟩
        have hresult := hnode _ hys
        rwa [rename_apply] at hresult
      rw [rename_apply]
      cases xs with
      | nil =>
          rw [List.map_nil, reduceOperands_nil, reduceOperands_nil, pure_bind, pure_bind] at hall
          cases f <;> exact hall
      | cons y ys =>
          rw [List.map_cons] at hall ⊢
          cases f with
          | store =>
              exact hwithin.tree hctx y ((scoped_ordinary rfl).mp hx y List.mem_cons_self)
          | _ => exact hall
  | _ => exact hnode _ hx

end ExchangesWithin

/-- Calls that are nested however deep come to the same under both names. -/
theorem exchangesWithin (h : Exchangeable names k z) (nesting : Nat) :
    ExchangesWithin names k z nesting := by
  induction nesting with
  | zero =>
      have hthrow : ∀ B, Exchanges names k z B (throw .interrupted) (throw .interrupted) := by
        intro B b b' s s' hs _
        cases hs
      exact ⟨fun B _ _ _ _ _ => hthrow B, fun _ _ _ => hthrow _, fun _ _ _ => hthrow _⟩
  | succ nesting ih =>
      exact ⟨fun B hctx => ih.called_succ h hctx B, ih.node_succ h, ih.tree_succ h⟩

theorem exchanges_run (h : Exchangeable names k z) (hctx : Renamed names k z ctx ctx')
    (hx : Scoped (bindsOnly names k) ctx.bound x) :
    Exchanges names k z ctx.bound (run ctx x) (run ctx' (x.rename (exchange k z))) := by
  refine exchanges_after (whenBoth.bind ((exchangesWithin h maxNesting).tree hctx x hx) ?_)
  rintro c _ ⟨hc, rfl⟩
  refine exchanges_after ?_
  rw [hctx.settings]
  split
  · rw [beautify_rename]
    exact exchanges_pure (scoped_beautify (namesShown_bindsOnly h.old) hc)
  · exact exchanges_pure hc

end Runs

end Reduction

open PocketAlgebra.Expr Reduction Definitions

/-- Reduction respects the renaming of a bound variable, where definitions do not mention the
variable but as a parameter of their own, and where the new name stands to all other names as the
old one does. -/
theorem reduce_alphaEquivalent (ctx : Reduction.Context) (names : String → Prop) (k z : String)
    (x r r' : Expr) (breaker breaker' : Breaker) (hbound : ctx.bound = [])
    (h : Exchangeable names k z) (hx : x.BindsOnly names k)
    (hdefinitions : ∀ name d, ctx.definitions.get? name = some d → d.Spares names k)
    (hr : x.reduce ctx breaker = .ok r)
    (hr' : (x.rename (exchange k z)).reduce ctx breaker' = .ok r') :
    r.AlphaEquivalent r' := by
  have hctx : Renamed names k z ctx ctx := ⟨rfl, rfl, by rw [hbound, List.map_nil], hdefinitions⟩
  have hscoped : Scoped (bindsOnly names k) ctx.bound x := by
    rw [hbound]
    exact hx
  rw [Expr.reduce] at hr hr'
  cases hrun : run ctx x breaker with
  | error failure =>
      rw [hrun] at hr
      cases hr
  | ok s =>
      cases hrun' : run ctx (x.rename (exchange k z)) breaker' with
      | error failure =>
          rw [hrun'] at hr'
          cases hr'
      | ok s' =>
          rw [hrun] at hr
          rw [hrun'] at hr'
          cases hr
          cases hr'
          have hresult := exchanges_run h hctx hscoped breaker breaker' s s' hrun hrun'
          rw [hbound] at hresult
          rw [hresult.2]
          exact hresult.1.alike_rename h (List.forall_mem_nil _)

/-- A function of which the parameter is called like the variable of a sum. -/
def squareTimes : Definitions :=
  ⟨[("f", .function "k" (.apply .multiplication
    [.symbol "b", .apply .power [.symbol "k", .integer 2]]))]⟩

theorem spares_squareTimes {name : String} {d : Definition}
    (hd : squareTimes.get? name = some d) : d.Spares (· ∈ ["b", "k", "n"]) "k" := by
  have hentry := mem_entries_of_get? hd
  simp only [squareTimes, List.mem_singleton, Prod.mk.injEq] at hentry
  rcases hentry with ⟨-, rfl⟩
  have hb : Scoped (spares (· ∈ ["b", "k", "n"]) "k" (some "k")) [] (.symbol "b") :=
    .symbol ⟨by decide, fun h => absurd h (by decide)⟩ fun _ => trivial
  have hk : Scoped (spares (· ∈ ["b", "k", "n"]) "k" (some "k")) [] (.symbol "k") :=
    .symbol ⟨by decide, fun _ => rfl⟩ fun _ => trivial
  have hsquare : Scoped (spares (· ∈ ["b", "k", "n"]) "k" (some "k")) []
      (.apply .power [.symbol "k", .integer 2]) :=
    .ordinary rfl (forall_mem_pair hk (.literal rfl))
  exact .ordinary rfl (forall_mem_pair hb hsquare)

/-- The sum of the values of this function over a variable. -/
def sumOfCalls (bound : String) : Expr :=
  .apply .sum [.apply (.function "f") [.symbol bound], .symbol bound, .integer 1, .symbol "n"]

theorem bindsOnly_sumOfCalls : (sumOfCalls "k").BindsOnly (· ∈ ["b", "k", "n"]) "k" := by
  have hk : Scoped (bindsOnly (· ∈ ["b", "k", "n"]) "k") ["k"] (.symbol "k") :=
    .symbol (show "k" ∈ ["b", "k", "n"] by decide) fun h => absurd List.mem_cons_self h
  have hn : Scoped (bindsOnly (· ∈ ["b", "k", "n"]) "k") [] (.symbol "n") :=
    .symbol (show "n" ∈ ["b", "k", "n"] by decide) fun _ => show "n" ≠ "k" by decide
  refine .binding rfl ?_ ?_ ?_
  · rintro _ ⟨⟩
    exact ⟨List.forall_mem_singleton.mpr (by decide), .inl rfl⟩
  · rintro _ ⟨⟩
    exact .call trivial (List.forall_mem_singleton.mpr hk)
  · exact forall_mem_pair (.literal rfl) hn

theorem reduce_alphaEquivalent_sumOfCalls : ∃ r r',
    (sumOfCalls "k").reduce ⟨{}, squareTimes, 4096, []⟩ {} = .ok r ∧
    (sumOfCalls "j").reduce ⟨{}, squareTimes, 4096, []⟩ {} = .ok r' ∧
    (r.text, r'.text) = ("sum(b×k^2,k,1,n)", "sum(b×j^2,j,1,n)") ∧ r.AlphaEquivalent r' := by
  have hresults : (((sumOfCalls "k").reduce ⟨{}, squareTimes, 4096, []⟩ {}).toOption.bind fun r =>
      ((sumOfCalls "j").reduce ⟨{}, squareTimes, 4096, []⟩ {}).toOption.map fun r' =>
        (r.text, r'.text)) = some ("sum(b×k^2,k,1,n)", "sum(b×j^2,j,1,n)") := by
    decide +kernel
  rcases exists_ok_bind hresults with ⟨r, r', hr, hr', htexts⟩
  have hexchangeable : Exchangeable (· ∈ ["b", "k", "n"]) "k" "j" :=
    ⟨by decide, by decide, by decide⟩
  exact ⟨r, r', hr, hr', htexts, reduce_alphaEquivalent ⟨{}, squareTimes, 4096, []⟩ _ "k" "j" _ r r'
    {} {} rfl hexchangeable bindsOnly_sumOfCalls (fun _ _ => spares_squareTimes) hr hr'⟩

/-- A definition that mentions a variable. -/
def successor : Definitions :=
  ⟨[("y", .value (.apply .addition [.symbol "k", .integer 1]))]⟩

/-- A sum over a variable. -/
def sumOver (bound : String) (body : Expr) : Expr :=
  .apply .sum [body, .symbol bound, .integer 1, .integer 3]

/-- Both expressions are reduced, and their results are not equal up to the names of variables. -/
def TellsApart (ctx : Reduction.Context) (x y : Expr) : Prop :=
  ∃ r s, x.reduce ctx {} = .ok r ∧ y.reduce ctx {} = .ok s ∧ ¬ r.AlphaEquivalent s

theorem tellsApart_of_results {ctx : Reduction.Context} {x y : Expr}
    (h : ((x.reduce ctx {}).toOption.bind fun r => (y.reduce ctx {}).toOption.map (r.alike [])) =
      some false) : TellsApart ctx x y := by
  rcases exists_ok_bind h with ⟨r, s, hr, hs, halike⟩
  refine ⟨r, s, hr, hs, ?_⟩
  rw [AlphaEquivalent, halike]
  exact Bool.false_ne_true

/-- A variable captures the symbols of definitions. Two sums that are equal no longer are so where
the variable of one is renamed, and factors are put in the order of their names. -/
theorem reduce_tellsApart :
    TellsApart ⟨{}, successor, 4096, []⟩ (sumOver "k" (.symbol "y")) (sumOver "j" (.symbol "y")) ∧
    TellsApart ⟨{}, {}, 4096, []⟩
      (.apply .subtraction [sumOver "k" (.symbol "k"), sumOver "k" (.symbol "k")])
      (.apply .subtraction [sumOver "z" (.symbol "z"), sumOver "k" (.symbol "k")]) ∧
    TellsApart ⟨{}, {}, 4096, []⟩
      (sumOver "k" (.apply .multiplication [.symbol "b", .symbol "k"]))
      (sumOver "a" (.apply .multiplication [.symbol "b", .symbol "a"])) := by
  refine ⟨tellsApart_of_results ?_, tellsApart_of_results ?_, tellsApart_of_results ?_⟩
  · decide +kernel
  · decide +kernel
  · decide +kernel

end PocketAlgebra
