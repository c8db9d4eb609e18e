import PocketAlgebra.Proofs.Closed.Engine
import PocketAlgebra.Proofs.Interruption.Reduction
import PocketAlgebra.Proofs.Stable.Arithmetic
import PocketAlgebra.Proofs.Stable.Root

/-!
# Nodes that reduction keeps

A rule gives a node back, or what it has put together from other results. A node that has been given
back once is given back again, under whatever breaker, in however much room and wherever it stands,
as long as there are no definitions. So a reduced tree is made of nodes that are kept, apart from
those whose shape alone decides: sums, products, matrices, lists and poison.
-/

namespace PocketAlgebra

namespace Reduction

open PocketAlgebra.Expr Shape

variable {settings : Settings} {ctx ctx' : Context} {f : Operator} {x y : Expr} {xs : List Expr}
  {nesting nesting' : Nat}

/-! ## Contexts without definitions -/

/-- A context with given settings, where names stand for nothing. -/
structure Under (settings : Settings) (ctx : Context) : Prop extends ctx.Nameless where
  settings_eq : ctx.settings = settings

/-- Calls have one result in all such contexts. -/
theorem Under.unique (h : Under settings ctx) (h' : Under settings ctx') {task : Task}
    {b c b' c' : Breaker} {r r' : Expr} (hr : reduceWithin nesting ctx task b = .ok (r, c))
    (hr' : reduceWithin nesting' ctx' task b' = .ok (r', c')) : r = r' := by
  let wide : Context := { ctx with room := max ctx.room ctx'.room }
  have hwide : wide.Widens ctx := .withRoom (le_max_left _ _)
  have hwide' : wide.Widens ctx' :=
    ⟨h.settings_eq.trans h'.settings_eq.symm, h.definitions.trans h'.definitions.symm,
      .inr h'.toNameless, le_max_right _ _⟩
  rcases hwide.prolongs (le_max_left nesting nesting') task b {} (Breaker.outlasts_default b) r c hr
    with ⟨_, _, hs, rfl, -⟩
  rcases hwide'.prolongs (le_max_right nesting nesting') task b' {} (Breaker.outlasts_default b') r'
    c' hr' with ⟨_, _, hs', rfl, -⟩
  exact congrArg Prod.fst (Except.ok.inj (hs.symm.trans hs'))

/-! ## Kept nodes -/

/-- A node over reduced operands that is given back in some context. -/
def IsKept (settings : Settings) (x : Expr) : Prop :=
  ∃ nesting ctx b c, Under settings ctx ∧ nodeWithin nesting ctx x b = .ok (x, c)

/-- Then it is given back in all of them. -/
theorem IsKept.yields (h : IsKept settings x) (hctx : Under settings ctx) (nesting : Nat) :
    Yields (nodeWithin nesting ctx x) (· = x) := by
  rcases h with ⟨_, _, _, _, hctx', hx⟩
  intro b r c hr
  exact hctx.unique hctx' hr hx

/-- What matters is the rule; there is a context with room for the node. -/
theorem isKept_of_rule (hctx : Under settings ctx) {b c : Breaker}
    (h : reduceNode ctx (nodeWithin nesting ctx) (treeWithin nesting ctx) x b = .ok (x, c)) :
    IsKept settings x := by
  let wide : Context := ctx.withRoom (max ctx.room x.charge)
  have hwide : wide.Widens ctx := .withRoom (le_max_left _ _)
  rcases prolongs_reduceNode hwide (fun y => hwide.prolongs le_rfl (.node y))
    (fun y => hwide.prolongs le_rfl (.tree y)) x b {} (Breaker.outlasts_default b) x c h
    with ⟨_, c', hx, rfl, -⟩
  refine ⟨nesting + 1, wide, {}, c', ⟨⟨hctx.definitions, hctx.symbolic⟩, hctx.settings_eq⟩, ?_⟩
  have hroom : checkRoom wide x = pure () := if_pos (le_max_right _ _)
  change (checkRoom wide x >>= fun _ => reduceNode wide (nodeWithin nesting wide)
    (treeWithin nesting wide) x) {} = _
  rw [hroom]
  exact hx

/-- Where the rule gives the node back at once, it is kept. -/
theorem isKept_of_pure (hsymbolic : settings.symbolic ≠ .replaceAllSymbolsOrUndefined)
    (h : ∀ ctx : Context, ctx.settings = settings → ∀ node tree,
      reduceNode ctx node tree x = pure x) : IsKept settings x := by
  let ctx : Context := ⟨settings, {}, 0, []⟩
  have hrule : reduceNode ctx (nodeWithin 0 ctx) (treeWithin 0 ctx) x {} = .ok (x, {}) := by
    rw [h ctx rfl]
    rfl
  exact isKept_of_rule ⟨⟨rfl, hsymbolic⟩, rfl⟩ hrule

/-! ## Nodes that rules put together -/

theorem isKept_root (hsymbolic : settings.symbolic ≠ .replaceAllSymbolsOrUndefined) {q : Nat}
    {base : ℚ} (h : Extracted q base) (hq : 1 < q) (hsize : q < UInt32.size) (hone : base ≠ 1) :
    IsKept settings (.apply .power [.rational base, .rational (mkRat 1 q)]) :=
  isKept_of_pure hsymbolic fun _ _ _ _ => h.powerOfScalars hq hsize hone

theorem isKept_surd (hsymbolic : settings.symbolic ≠ .replaceAllSymbolsOrUndefined) {n : Nat}
    (hn : n = 2 ∨ n = 3) :
    IsKept settings (.apply .power [.integer n, .rational (mkRat 1 2)]) := by
  have hextracted : Extracted 2 (n : ℤ) := by
    have hnum : extractRoot n 2 = ⟨1, n⟩ := by rcases hn with rfl | rfl <;> rfl
    refine ⟨by rcases hn with rfl | rfl <;> norm_num, ?_, ?_⟩
    · rwa [Rat.num_intCast, Int.natAbs_natCast]
    · rw [Rat.den_intCast]
      rfl
  refine isKept_root hsymbolic hextracted one_lt_two (by decide) ?_
  rcases hn with rfl | rfl <;> norm_num

theorem isKept_matrixInverse (hsymbolic : settings.symbolic ≠ .replaceAllSymbolsOrUndefined)
    {m : Grid} (hsquare : m.isSquare = true) (hrationals : m.rationals? = none)
    (hrows : m.rows ≠ 1) : IsKept settings (.apply .matrixInverse [m.toExpr]) := by
  refine isKept_of_pure hsymbolic fun ctx _ node tree => ?_
  have hspoiled : spoiled? .matrixInverse [m.toExpr] = none := rfl
  have hgrid : Grid.ofExpr? m.toExpr = some m := rfl
  have hnot : (!m.isSquare) = false := by rw [hsquare]; rfl
  rw [reduceNode, hspoiled]
  change matrixFunction node .matrixInverse [m.toExpr] = _
  rw [matrixFunction, hgrid]
  simp only [hnot, Bool.false_eq_true, if_false]
  rw [Grid.invert, hrationals]
  exact if_neg hrows

/-! ## Trees of kept nodes -/

/-- What is known of a node over reduced operands: of sums and products, how they are put together;
other nodes are kept, apart from matrices. -/
def Stays (settings : Settings) : Operator → List Expr → Prop
  | .addition, xs => Collected xs
  | .multiplication, xs => Gathered xs
  | .matrix _ _, _ => True
  | f, xs => IsKept settings (.apply f xs)

/-- In the real format there is no imaginary unit. -/
def NodeKept (settings : Settings) : Expr → Prop
  | .apply f xs => NamesVariable f xs ∧ Stays settings f xs
  | .constant c => c = .imaginaryUnit → settings.complexFormat ≠ .real
  | .decimal _ => False
  | _ => True

theorem bindsSymbols_of_nodeKept (h : x.Everywhere (NodeKept settings)) : BindsSymbols x := by
  induction h with
  | @node x here _ ih =>
      cases x with
      | apply f xs => exact .apply here.1 ih
      | rational q => exact .rational q
      | decimal d => exact .decimal d
      | infinity negative => exact .infinity negative
      | constant c => exact .constant c
      | symbol name => exact .symbol name

theorem namesVariable_of_eq_false (hf : f.kind.isParametered = false) : NamesVariable f xs := by
  intro hbinds
  rw [hf] at hbinds
  cases hbinds

theorem isParametered_of_mayKeep (h : mayKeep f xs = true) : f.kind.isParametered = false := by
  rw [mayKeep.eq_def] at h
  split at h
  · rfl
  · rfl
  · cases f <;> first | rfl | cases h
  · cases h

theorem stays_of_isKept (hf : f ≠ .addition ∧ f ≠ .multiplication)
    (h : IsKept settings (.apply f xs)) : Stays settings f xs := by
  cases f <;> first | exact h | trivial

theorem nodeKept_apply (hf : f.kind.isParametered = false) (h : Stays settings f xs)
    (hxs : ∀ x ∈ xs, x.Everywhere (NodeKept settings)) :
    Everywhere (NodeKept settings) (.apply f xs) :=
  everywhere_apply.mpr ⟨⟨namesVariable_of_eq_false hf, h⟩, hxs⟩

theorem ne_of_mayKeep (h : mayKeep f xs = true) : f ≠ .addition ∧ f ≠ .multiplication := by
  rw [mayKeep.eq_def] at h
  split at h
  · exact ⟨nofun, nofun⟩
  · exact ⟨nofun, nofun⟩
  · refine ⟨?_, ?_⟩ <;> rintro rfl <;> cases h
  · cases h

theorem ne_of_not_isCalled (h : isCalled f = false) : f ≠ .addition ∧ f ≠ .multiplication := by
  refine ⟨?_, ?_⟩ <;> rintro rfl <;> cases h

theorem nodeKept_rational (q : ℚ) : (Expr.rational q).Everywhere (NodeKept settings) :=
  (everywhere_leaf rfl).mpr trivial

theorem gathered_of_nodeKept (h : x.Everywhere (NodeKept settings)) :
    ∀ ys, x = .apply .multiplication ys → Gathered ys := by
  rintro ys rfl
  exact h.here.2

theorem nodeKept_assemble (neutral : Int) (hf : f = .addition ∨ f = .multiplication)
    (hxs : ∀ x ∈ xs, x.Everywhere (NodeKept settings))
    (h : 2 ≤ xs.length → Stays settings f xs) :
    (assemble f neutral xs).Everywhere (NodeKept settings) := by
  match xs with
  | [] => exact nodeKept_rational _
  | [x] => exact hxs x List.mem_cons_self
  | x :: y :: xs =>
      exact nodeKept_apply (by rcases hf with rfl | rfl <;> rfl) (h (by simp)) hxs

theorem forall_of_assemble {neutral : Int}
    (h : (assemble f neutral xs).Everywhere (NodeKept settings)) :
    ∀ x ∈ xs, x.Everywhere (NodeKept settings) := by
  match xs with
  | [] => exact List.forall_mem_nil _
  | [x] => exact List.forall_mem_singleton.mpr h
  | x :: y :: xs => exact fun _ => h.operand

theorem nodeKept_gathered (c : Rat)
    (hxs : ∀ x ∈ xs, x.Everywhere (NodeKept settings) ∧ x.kind ≠ .rational ∧
      x.kind ≠ .multiplication) :
    (assemble .multiplication 1 (orderedFactors c xs)).Everywhere (NodeKept settings) := by
  refine nodeKept_assemble 1 (.inr rfl) (fun x hx => ?_) (.intro c xs fun x hx => (hxs x hx).2)
  rcases List.mem_append.mp hx with hx | hx
  · split at hx
    · cases hx
    · rw [List.mem_singleton.mp hx]
      exact nodeKept_rational c
  · exact (hxs x ((sort_perm xs).mem_iff.mp hx)).1

/-- What a term is a multiple of is made of kept nodes. -/
theorem nodeKept_rest (hrational : x.kind ≠ .rational) (h : x.Everywhere (NodeKept settings)) :
    (Term.ofExpr x).rest.Everywhere (NodeKept settings) := by
  have hrest := isRest_ofExpr hrational (gathered_of_nodeKept h)
  rw [Term.ofExpr.eq_def] at hrest ⊢
  split at hrest
  · refine nodeKept_assemble 1 (.inr rfl) (fun y hy => h.operand (List.mem_cons_of_mem _ hy)) ?_
    intro hmany
    dsimp only at hrest
    rw [assemble_of_length _ _ hmany] at hrest
    exact hrest.gathered
  · exact h

theorem nodeKept_toExpr {t : Term} (hrest : IsRest t.rest)
    (h : t.rest.Everywhere (NodeKept settings)) : t.toExpr.Everywhere (NodeKept settings) := by
  by_cases hone : t.coefficient = 1
  · rw [Term.toExpr, if_pos hone]
    exact h
  · obtain ⟨ys, hys, hmany, htoExpr, -, hassemble⟩ := toExpr_cases hrest hone
    have hfactors := forall_of_assemble (hassemble ▸ h)
    have hproduct := nodeKept_gathered t.coefficient fun y hy =>
      ⟨hfactors y ((sort_perm ys).mem_iff.mpr hy), hys y hy⟩
    rwa [assemble_of_length _ _ hmany, ← htoExpr] at hproduct

theorem nodeKept_collected (hxs : ∀ x ∈ xs, x.Everywhere (NodeKept settings)) :
    (xs.foldl LinearSum.add {}).toExpr.Everywhere (NodeKept settings) := by
  have hrest : ∀ t ∈ (xs.foldl LinearSum.add {}).terms,
      IsRest t.rest ∧ t.rest.Everywhere (NodeKept settings) := by
    intro t ht
    rcases rest_of_mem_foldl ht with ⟨u, hu, -⟩ | ⟨x, hx, hrational, hrest⟩
    · cases hu
    · rw [hrest]
      exact ⟨isRest_ofExpr hrational (gathered_of_nodeKept (hxs x hx)),
        nodeKept_rest hrational (hxs x hx)⟩
  refine nodeKept_assemble 0 (.inl rfl) (fun x hx => ?_) fun _ =>
    collected_writtenTerms (fun t ht => (hrest t ht).1) (different_foldl .nil)
  rcases List.mem_append.mp ((sort_perm _).mem_iff.mp hx) with hx | hx
  · obtain ⟨t, ht, rfl⟩ := List.mem_map.mp hx
    exact nodeKept_toExpr (hrest t (List.mem_of_mem_filter ht)).1
      (hrest t (List.mem_of_mem_filter ht)).2
  · split at hx
    · cases hx
    · rw [List.mem_singleton.mp hx]
      exact nodeKept_rational _

/-- Reduction without definitions makes trees of kept nodes. -/
theorem transforms_nodeKept (hsymbolic : settings.symbolic ≠ .replaceAllSymbolsOrUndefined) :
    Transforms (Under settings) (fun _ => True) BindsSymbols
      (Everywhere (NodeKept settings)) where
  rational := nodeKept_rational
  infinity _ := (everywhere_leaf rfl).mpr trivial
  constant hc := (everywhere_leaf rfl).mpr fun h => absurd h hc
  undefined := nodeKept_apply rfl (isKept_of_pure hsymbolic fun _ _ _ _ => rfl)
    (List.forall_mem_nil _)
  nonreal := nodeKept_apply rfl (isKept_of_pure hsymbolic fun _ _ _ _ => rfl)
    (List.forall_mem_nil _)
  operand h hx := h.operand hx
  collected := nodeKept_collected
  gathered := nodeKept_gathered
  root {base exponent r} hbase hint hden hr hone := by
    have hindex : r.index = exponent.den := (exact_of_radical? hbase hr).index_eq
    have hq : 1 < exponent.den := by
      have hne : exponent.den ≠ 1 := by simpa [Rat.isInt] using hint
      have := exponent.den_pos
      omega
    exact nodeKept_apply rfl (isKept_root hsymbolic (extracted_of_radical? hbase hr)
      (hindex ▸ hq) (hindex ▸ hden) hone)
      (forall_mem_pair (nodeKept_rational _) (nodeKept_rational _))
  surd hn := nodeKept_apply rfl (isKept_surd hsymbolic hn)
    (forall_mem_pair (nodeKept_rational _) (nodeKept_rational _))
  sides _ := ⟨trivial, trivial⟩
  small := ⟨trivial, trivial⟩
  matrix _ _ _ hxs := nodeKept_apply rfl trivial hxs
  entries _ _ hys := nodeKept_apply rfl trivial hys
  inverse _ _ _ _ := nodeKept_apply rfl trivial fun x hx => by
    rcases List.mem_map.mp hx with ⟨q, _, rfl⟩
    exact nodeKept_rational q
  reciprocal hm hsquare hrationals hrows :=
    nodeKept_apply rfl (isKept_matrixInverse hsymbolic hsquare hrationals hrows)
      (List.forall_mem_singleton.mpr hm)
  binding hctx := ⟨⟨hctx.definitions, hctx.symbolic⟩, hctx.settings_eq⟩
  unit hctx hreal := (everywhere_leaf rfl).mpr fun _ => hctx.settings_eq ▸ hreal
  symbol _ := (everywhere_leaf rfl).mpr trivial
  value hctx hvalue := by
    rw [hctx.definitions] at hvalue
    cases hvalue
  body hctx hfunction _ := by
    rw [hctx.definitions] at hfunction
    cases hfunction
  substitute hpoint hd := bindsSymbols_substitute (bindsSymbols_of_nodeKept hpoint)
    (bindsSymbols_of_nodeKept hd)
  below hx hy := by
    cases hx with
    | apply _ operands => exact operands _ hy
  named {f xs x} hx hf hname := by
    cases hx with
    | apply bound _ =>
        have hkind := bound hf x hname
        cases x with
        | symbol name => exact (everywhere_leaf rfl).mpr trivial
        | apply g _ => cases g <;> cases hkind
        | _ => cases hkind
  reduced hx _ hname hys := by
    cases hx with
    | apply bound _ =>
        exact .apply (fun hf x hx => bound hf x (hname hf ▸ hx)) fun y hy =>
          bindsSymbols_of_nodeKept (hys y hy)
  kept {nesting ctx f xs} hctx hspoiled hnode hxs := by
    rintro b r c hr rfl
    have hrule : reduceNode ctx (nodeWithin nesting ctx) (treeWithin nesting ctx) (.apply f xs) b =
        .ok (.apply f xs, c) := by
      rw [reduceNode, hspoiled]
      exact hr
    have hkept := isKept_of_rule hctx hrule
    refine everywhere_apply.mpr ⟨⟨?_, stays_of_isKept ?_ hkept⟩, hxs⟩
    · rcases hnode with hkeep | ⟨-, hx⟩
      · exact namesVariable_of_eq_false (isParametered_of_mayKeep hkeep)
      · cases hx with
        | apply bound _ => exact bound
    · exact hnode.elim ne_of_mayKeep fun h => ne_of_not_isCalled h.1

end Reduction

end PocketAlgebra
