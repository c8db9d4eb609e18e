import PocketAlgebra.Pool.Handle
import PocketAlgebra.Proofs.Parallel.Engine

/-!
# Interrupted reductions

A breaker ends a reduction or lets it go on, and has no other part in it. So what is reduced under
one breaker is reduced to the same tree under any breaker that lasts longer, and in particular
where nothing stops it.
-/

namespace PocketAlgebra

/-- One breaker lets at least as many steps pass as another one. -/
structure Breaker.Outlasts (b' b : Breaker) : Prop where
  tripped : b'.tripped = true → b.tripped = true
  budget : ∀ left' ∈ b'.budget, ∃ left ∈ b.budget, left ≤ left'

namespace Breaker

variable {b b' : Breaker}

theorem Outlasts.poll (h : b'.Outlasts b) (hstop : b.poll.1 = false) :
    b'.poll.1 = false ∧ b'.poll.2.Outlasts b.poll.2 := by
  rcases b with ⟨tripped, budget⟩
  rcases b' with ⟨tripped', budget'⟩
  have huntripped : tripped = false → tripped' = false := by
    intro hfalse
    cases htripped' : tripped' with
    | false => rfl
    | true =>
        have htrue := h.tripped htripped'
        rw [hfalse] at htrue
        cases htrue
  cases budget' with
  | none =>
      cases budget with
      | none => exact ⟨huntripped hstop, h⟩
      | some left =>
          cases left with
          | zero => cases hstop
          | succ left => exact ⟨huntripped hstop, ⟨h.tripped, nofun⟩⟩
  | some left' =>
      rcases h.budget left' rfl with ⟨left, hleft, hle⟩
      cases hleft
      cases left with
      | zero => cases hstop
      | succ left =>
          obtain ⟨rest, rfl⟩ : ∃ rest, left' = rest + 1 := ⟨left' - 1, by omega⟩
          refine ⟨huntripped hstop, ⟨h.tripped, ?_⟩⟩
          rintro _ ⟨⟩
          exact ⟨left, rfl, by omega⟩

/-- Nothing stops a breaker that has no budget and is not tripped. -/
theorem outlasts_default (b : Breaker) : ({} : Breaker).Outlasts b :=
  ⟨nofun, nofun⟩

theorem withBudget_outlasts {n m : Nat} (h : n ≤ m) : (withBudget m).Outlasts (withBudget n) := by
  refine ⟨id, ?_⟩
  rintro _ ⟨⟩
  exact ⟨n, rfl, h⟩

theorem poll_of_tripped (h : b.tripped = true) : b.poll.1 = true := by
  rcases b with ⟨tripped, budget⟩
  cases h
  match budget with
  | none => rfl
  | some 0 => rfl
  | some (_ + 1) => rfl

end Breaker

namespace Reduction

open PocketAlgebra.Expr Comparison

variable {C : Comparison} {ctx : Context} {x r : Expr} {b b' : Breaker}

/-! ## Comparing runs under two breakers -/

/-- Where a computation succeeds, another one does under every breaker that lasts longer, and the
results belong together. -/
def longer : Comparison where
  Holds R m m' := ∀ b b', b'.Outlasts b → ∀ a c, m b = .ok (a, c) →
    ∃ a' c', m' b' = .ok (a', c') ∧ R a a' ∧ c'.Outlasts c
  pure := by
    intro α β R a a' hR b b' hb _ _ h
    cases h
    exact ⟨a', b', rfl, hR, hb⟩
  bind := by
    intro α β γ δ R Q m m' k k' hm hk b b' hb z c h
    change (m b).bind (fun s => k s.1 s.2) = .ok (z, c) at h
    cases hfirst : m b with
    | error failure =>
        rw [hfirst] at h
        cases h
    | ok s =>
        rw [hfirst] at h
        rcases hm b b' hb s.1 s.2 hfirst with ⟨a', c', hfirst', hR, hc⟩
        rcases hk s.1 a' hR s.2 c' hc z c h with ⟨z', d', hsecond', hQ, hd⟩
        refine ⟨z', d', ?_, hQ, hd⟩
        change (m' b').bind (fun s => k' s.1 s.2) = .ok (z', d')
        rw [hfirst']
        exact hsecond'

/-- Another computation has the same result where a computation has one, under every breaker that
lasts longer. -/
def Prolongs {α : Type} (m m' : ReduceM α) : Prop :=
  longer.Holds Eq m m'

theorem Prolongs.pure {α : Type} (a : α) : Prolongs (Pure.pure a) (Pure.pure a) :=
  longer.pure rfl

theorem Prolongs.bind {α β : Type} {m m' : ReduceM α} {k k' : α → ReduceM β}
    (hm : Prolongs m m') (hk : ∀ a, Prolongs (k a) (k' a)) : Prolongs (m >>= k) (m' >>= k') := by
  refine longer.bind hm ?_
  rintro a _ rfl
  exact hk a

theorem prolongs_throw {α : Type} (failure : Failure) (m' : ReduceM α) :
    Prolongs (throw failure) m' := by
  intro b b' _ a c h
  cases h

/-- A computation whose result does not depend on how long the breaker lasts. -/
def Patient {α : Type} (m : ReduceM α) : Prop :=
  Prolongs m m

theorem patient_checkBreaker : Patient checkBreaker := by
  intro b b' hb a c h
  change (if b.poll.1 = true then (throw Failure.interrupted : ReduceM Unit)
    else Pure.pure ()) b.poll.2 = _ at h
  cases hstop : b.poll.1 with
  | true =>
      rw [hstop] at h
      cases h
  | false =>
      rw [hstop] at h
      cases h
      rcases hb.poll hstop with ⟨hstop', houtlasts⟩
      refine ⟨(), b'.poll.2, ?_, rfl, houtlasts⟩
      change (if b'.poll.1 = true then (throw Failure.interrupted : ReduceM Unit)
        else Pure.pure ()) b'.poll.2 = _
      rw [hstop']
      rfl

/-- The same context with another amount of room. -/
def Context.withRoom (ctx : Context) (room : Nat) : Context :=
  { ctx with room := room }

/-- The settings leave symbols without a definition alone, and there are no definitions. -/
structure Context.Nameless (ctx : Context) : Prop where
  definitions : ctx.definitions = {}
  symbolic : ctx.settings.symbolic ≠ .replaceAllSymbolsOrUndefined

/-- A context that treats names alike and has no less room. -/
structure Context.Widens (ctx' ctx : Context) : Prop where
  settings : ctx'.settings = ctx.settings
  definitions : ctx'.definitions = ctx.definitions
  bound : ctx'.bound = ctx.bound ∨ ctx.Nameless
  room : ctx.room ≤ ctx'.room

namespace Context.Widens

variable {ctx' : Context}

theorem withRoom {room : Nat} (h : ctx.room ≤ room) : (ctx.withRoom room).Widens ctx :=
  ⟨rfl, rfl, .inl rfl, h⟩

theorem refl (ctx : Context) : ctx.Widens ctx :=
  withRoom le_rfl

theorem binding (h : ctx'.Widens ctx) (xs : List Expr) :
    (ctx'.binding xs).Widens (ctx.binding xs) where
  settings := h.settings
  definitions := h.definitions
  bound := h.bound.imp (congrArg (List.cons _)) fun h => ⟨h.definitions, h.symbolic⟩
  room := h.room

end Context.Widens

theorem prolongs_checkRoom {ctx' : Context} (hctx : ctx'.Widens ctx) (x : Expr) :
    Prolongs (checkRoom ctx x) (checkRoom ctx' x) := by
  rw [checkRoom]
  split
  case isTrue hfits =>
    rw [checkRoom, if_pos (hfits.trans hctx.room)]
    exact .pure ()
  case isFalse => exact prolongs_throw _ _

theorem patient_checkRoom (ctx : Context) (x : Expr) : Patient (checkRoom ctx x) :=
  prolongs_checkRoom (.refl ctx) x

/-! ## All reductions -/

/-- The same results as images of each other. -/
theorem Prolongs.image {m m' : ReduceM Expr} (hm : Prolongs m m') (B : List String) :
    longer.Image (rename id) (Scoped {} B) m m' := by
  refine longer.mono hm ?_
  rintro a _ rfl
  exact ⟨scoped_default a B, (rename_id a).symm⟩

theorem prolongs_of_image {m m' : ReduceM Expr} {P : Expr → Prop}
    (hm : longer.Image (rename id) P m m') : Prolongs m m' := by
  refine longer.mono hm ?_
  rintro a _ ⟨_, rfl⟩
  exact (rename_id a).symm

theorem prolongs_of_image_map {m m' : ReduceM (List Expr)} {P : List Expr → Prop}
    (hm : longer.Image (List.map (rename id)) P m m') : Prolongs m m' := by
  refine longer.mono hm ?_
  rintro a _ ⟨_, rfl⟩
  exact (map_rename_id a).symm

variable {ctx' : Context} {node node' tree tree' : NodeReducer} {name : String} {xs : List Expr}
  {room : Nat}

/-- Without definitions, a symbol stands for itself. -/
theorem Context.Nameless.symbol (h : ctx.Nameless) (tree : NodeReducer) (name : String) :
    symbol ctx tree name = pure (.symbol name) := by
  have hvalue : ctx.definitions.value? name = none := by
    rw [h.definitions]
    rfl
  rw [Reduction.symbol, hvalue]
  dsimp only
  rw [undefinedName, if_neg h.symbolic]
  split <;> rfl

theorem prolongs_symbol (hctx : ctx'.Widens ctx) (htree : ∀ x, Prolongs (tree x) (tree' x)) :
    Prolongs (symbol ctx tree name) (symbol ctx' tree' name) := by
  rcases hctx.bound with hbound | hnameless
  · simp only [symbol, undefinedName, hctx.settings, hctx.definitions, hbound]
    split
    · exact .pure _
    · split
      · split
        · exact .pure _
        · exact htree _
      · exact .pure _
  · have hnameless' : ctx'.Nameless :=
      ⟨hctx.definitions.trans hnameless.definitions, hctx.settings ▸ hnameless.symbolic⟩
    rw [hnameless.symbol, hnameless'.symbol]
    exact .pure _

theorem prolongs_userFunction (hctx : ctx'.Widens ctx)
    (htree : ∀ x, Prolongs (tree x) (tree' x)) :
    Prolongs (userFunction ctx tree name xs) (userFunction ctx' tree' name xs) := by
  simp only [userFunction, undefinedName, hctx.settings, hctx.definitions]
  split
  · exact .pure _
  · split
    · split
      · exact .pure _
      · split
        · exact htree _
        · exact .pure _
    · exact .pure _

theorem prolongs_reduceNode (hctx : ctx'.Widens ctx) (hnode : ∀ x, Prolongs (node x) (node' x))
    (htree : ∀ x, Prolongs (tree x) (tree' x)) (x : Expr) :
    Prolongs (reduceNode ctx node tree x) (reduceNode ctx' node' tree' x) := by
  by_cases hname : isName x = true
  · match x with
    | .symbol name => exact prolongs_symbol hctx htree
    | .apply (.function name) xs =>
        rw [reduceNode, reduceNode]
        split
        · exact .pure _
        · exact prolongs_userFunction hctx htree
  · have hnodes : ∀ B, Parallel longer id (Scoped {} B) node node' := by
      intro B f xs _ _
      rw [map_rename_id]
      exact (hnode (.apply f xs)).image B
    have htrees : ∀ y, Scoped {} [] y →
        longer.Image (rename id) (Scoped {} []) (tree y) (tree' (y.rename id)) := by
      intro y _
      rw [rename_id]
      exact (htree y).image []
    have hresult : longer.Image (rename id) (Scoped {} []) (reduceNode ctx node tree x)
        (reduceNode ctx' node' tree' (x.rename id)) :=
      reduceNode_image (renames_id fun _ => trivial) hnodes htrees hctx.settings
        (Bool.eq_false_iff.mpr hname) (scoped_default x [])
    rw [rename_id] at hresult
    exact prolongs_of_image hresult

theorem prolongs_reduceOperands {reducer reducer' : Context → NodeReducer}
    (hctx : ctx'.Widens ctx)
    (hreducer : ∀ {ctx ctx' : Context}, ctx'.Widens ctx →
      ∀ x, Prolongs (reducer ctx x) (reducer' ctx' x)) (f : Operator) (xs : List Expr) :
    Prolongs (reduceOperands ctx reducer f xs) (reduceOperands ctx' reducer' f xs) := by
  have himage : ∀ {ctx ctx' : Context}, ctx'.Widens ctx → ∀ B x,
      longer.Image (rename id) (Scoped {} B) (reducer ctx x) (reducer' ctx' (x.rename id)) := by
    intro ctx ctx' hctx B x
    rw [rename_id]
    exact (hreducer hctx x).image B
  by_cases hbinds : f.kind.isParametered = true
  · have hresult : longer.Image (List.map (rename id)) (fun ys => Scoped {} [] (.apply f ys))
        (reduceOperands ctx reducer f xs)
        (reduceOperands ctx' reducer' f (xs.map (rename id))) :=
      reduceOperands_binding hbinds (fun _ _ => trivial)
        (fun x _ => by rw [map_rename_id]; exact himage (hctx.binding xs) _ x)
        fun x _ => himage hctx [] x
    rw [map_rename_id] at hresult
    exact prolongs_of_image_map hresult
  · have hresult : longer.Image (List.map (rename id)) (fun ys => ∀ y ∈ ys, Scoped {} [] y)
        (reduceOperands ctx reducer f xs)
        (reduceOperands ctx' reducer' f (xs.map (rename id))) :=
      reduceOperands_image (Bool.eq_false_iff.mpr hbinds) fun x _ => himage hctx [] x
    rw [map_rename_id] at hresult
    exact prolongs_of_image_map hresult

/-- What calls that are nested so deep give is given by calls that may be nested deeper and have
more room, and does not depend on how long the breaker lasts. -/
theorem Context.Widens.prolongs {nesting nesting' : Nat} (h : nesting ≤ nesting')
    (hctx : ctx'.Widens ctx) (task : Task) :
    Prolongs (reduceWithin nesting ctx task) (reduceWithin nesting' ctx' task) := by
  induction nesting generalizing nesting' ctx ctx' task with
  | zero => exact prolongs_throw _ _
  | succ nesting ih =>
      obtain ⟨rest, rfl⟩ : ∃ rest, nesting' = rest + 1 := ⟨nesting' - 1, by omega⟩
      have hrest : nesting ≤ rest := by omega
      have hnode : ∀ x, Prolongs (reduceWithin nesting ctx (.node x))
          (reduceWithin rest ctx' (.node x)) := fun x => ih hrest hctx (.node x)
      cases task with
      | node x =>
          exact (prolongs_checkRoom hctx x).bind fun _ =>
            prolongs_reduceNode hctx hnode (fun y => ih hrest hctx (.tree y)) x
      | tree x =>
          refine patient_checkBreaker.bind fun _ => ?_
          split
          · split
            · exact hnode _
            · exact ih hrest hctx (.tree _)
          · split
            · exact hnode _
            · have hoperands (f : Operator) (xs : List Expr) : Prolongs
                  (reduceOperands ctx (fun ctx x => reduceWithin nesting ctx (.tree x)) f xs)
                  (reduceOperands ctx' (fun ctx x => reduceWithin rest ctx (.tree x)) f xs) :=
                prolongs_reduceOperands hctx (fun hctx x => ih hrest hctx (.tree x)) f xs
              exact (hoperands _ _).bind fun ys => hnode _
          · exact hnode _

theorem prolongs_withRoom {nesting nesting' : Nat} (h : nesting ≤ nesting') {ctx : Context}
    (hroom : ctx.room ≤ room) (task : Task) :
    Prolongs (reduceWithin nesting ctx task) (reduceWithin nesting' (ctx.withRoom room) task) :=
  (Context.Widens.withRoom hroom).prolongs h task

theorem prolongs_reduceWithin {nesting nesting' : Nat} (h : nesting ≤ nesting') (ctx : Context)
    (task : Task) : Prolongs (reduceWithin nesting ctx task) (reduceWithin nesting' ctx task) :=
  prolongs_withRoom h le_rfl task

/-- No call of a reduction depends on how long the breaker lasts. -/
theorem patient_reduceWithin (nesting : Nat) (ctx : Context) (task : Task) :
    Patient (reduceWithin nesting ctx task) :=
  prolongs_reduceWithin le_rfl ctx task

theorem patient_run (ctx : Context) (x : Expr) : Patient (run ctx x) := by
  refine (patient_checkRoom ctx x).bind fun _ => ?_
  refine (patient_reduceWithin maxNesting ctx (.tree x)).bind fun reduced => ?_
  exact (patient_checkRoom ctx _).bind fun _ => .pure _

/-- A tripped breaker lets nothing be reduced. -/
theorem reduceWithin_of_tripped {nesting : Nat} (hnesting : 0 < nesting)
    (hb : b.tripped = true) : ∀ s, reduceWithin nesting ctx (.tree x) b ≠ .ok s := by
  intro s h
  obtain ⟨rest, rfl⟩ : ∃ rest, nesting = rest + 1 := ⟨nesting - 1, by omega⟩
  have hstop : checkBreaker b = .error .interrupted := by
    change (if b.poll.1 = true then (throw Failure.interrupted : ReduceM Unit)
      else Pure.pure ()) b.poll.2 = _
    rw [Breaker.poll_of_tripped hb]
    rfl
  change (checkBreaker b).bind _ = _ at h
  rw [hstop] at h
  cases h

end Reduction

open Reduction

section Whole

variable {ctx : Context} {x r : Expr} {b b' : Breaker}

theorem Expr.reduce_of_outlasts (hb : b'.Outlasts b) (h : x.reduce ctx b = .ok r) :
    x.reduce ctx b' = .ok r := by
  rw [Expr.reduce] at h ⊢
  cases hrun : run ctx x b with
  | error failure =>
      rw [hrun] at h
      cases h
  | ok s =>
      rw [hrun] at h
      rcases patient_run ctx x b b' hb s.1 s.2 hrun with ⟨a', c', hrun', heq, _⟩
      rw [hrun', ← heq]
      exact h

theorem Expr.reduce_of_tripped (hb : b.tripped = true) : x.reduce ctx b ≠ .ok r := by
  rw [Expr.reduce, run, checkRoom]
  split
  · rw [pure_bind]
    intro h
    change ((reduceWithin maxNesting ctx (.tree x) b).bind _).map _ = _ at h
    cases hrun : reduceWithin maxNesting ctx (.tree x) b with
    | error failure =>
        rw [hrun] at h
        cases h
    | ok s => exact reduceWithin_of_tripped (by decide) hb s hrun
  · intro h
    cases h

theorem Pool.reduce_of_outlasts {p : Pool} {key : Nat} {settings : Settings}
    {definitions : Definitions} {result : Nat × Pool} (hb : b'.Outlasts b)
    (h : p.reduce key settings definitions b = .ok result) :
    p.reduce key settings definitions b' = .ok result := by
  rw [Pool.reduce] at h ⊢
  cases hx : (p.read key).reduce ⟨settings, definitions, p.free, []⟩ b with
  | error failure =>
      rw [hx] at h
      cases h
  | ok x =>
      rw [hx] at h
      rw [Expr.reduce_of_outlasts hb hx]
      exact h

theorem Pool.reduce_of_tripped {p : Pool} {key : Nat} {settings : Settings}
    {definitions : Definitions} {result : Nat × Pool} (hb : b.tripped = true) :
    p.reduce key settings definitions b ≠ .ok result := by
  intro h
  rw [Pool.reduce] at h
  cases hx : (p.read key).reduce ⟨settings, definitions, p.free, []⟩ b with
  | error failure =>
      rw [hx] at h
      cases h
  | ok x => exact Expr.reduce_of_tripped hb hx

end Whole

end PocketAlgebra
