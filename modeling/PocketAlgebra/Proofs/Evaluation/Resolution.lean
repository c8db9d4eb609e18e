import PocketAlgebra.Proofs.Evaluation.Agreement
import PocketAlgebra.Proofs.Evaluation.Names

/-!
# Reduction and evaluation agree on names

An expression of arithmetic is reduced by putting definitions in the place of names, and evaluated
by binding names to values. The two go along together: the body of a definition, with the argument
put into it, is reduced to what the body is evaluated to where the parameter is bound to the value
of the argument. From this, by induction on how deep definitions are nested, follows that a number
which an expression is reduced to is the number which it is evaluated to, as long as no function
leads to a definition that mentions its parameter.
-/

open Relation

namespace PocketAlgebra

open PocketAlgebra.Expr Reduction Definitions

namespace Approximation

variable {whole : Prop} {ctx : Reduction.Context} {x z : Expr} {xs : List Expr}
  {m : ApproximateM (Evaluation ExactNumber)} {σ : Option (String × Expr)}
  {context : Approximation.Context} {expand : Expr → Evaluator ExactNumber}
  {scope : Scope ExactNumber} {names : String → Prop} {name : String} {levels : Nat}


/-- What a definition is reduced to and evaluated to in its own scope, where its name may be
expanded. -/
structure Expands (whole : Prop) (ctx : Reduction.Context) (names : String → Prop)
    (expand : Expr → Evaluator ExactNumber) (scope : Scope ExactNumber) : Prop where
  value : ∀ name body, Clear ctx.definitions names scope name →
    ctx.definitions.value? name = some body → ctx.definitions.isCircular name = false →
    Agree whole ctx (expand body (scope.expand name)) body
  function : ∀ name parameter body v w, Clear ctx.definitions names scope name →
    ctx.definitions.function? name = some (parameter, body) →
    ctx.definitions.isCircular name = false → Meets whole v w →
    Agree whole ctx (expand body ((scope.expand name).bind parameter (exactly v)))
      (substitute parameter w body)

/-- The parameter of the definition that is being expanded is bound to the value of the argument
that stands in its place. -/
def Filled (whole : Prop) (scope : Scope ExactNumber) (σ : Option (String × Expr)) : Prop :=
  ∀ parameter w, σ = some (parameter, w) →
    ∃ v, scope.bindings.lookup parameter = some (exactly v) ∧ Meets whole v w

theorem agree_rational {q : Rat} (hm : Shows m (some q)) : Agree whole ctx m (.rational q) := by
  refine treeWithin_leaf (by simp) fun _ => ?_
  exact Yields.pure (settles_rational hm rfl)

theorem agree_parameter (hσ : Filled whole scope (some (name, z))) :
    Agree whole ctx (evaluateTree context expand (.symbol name) scope) z := by
  rcases hσ name z rfl with ⟨v, hlookup, hmeets⟩
  have hshows : Shows (evaluateTree context expand (.symbol name) scope) v := by
    rw [evaluateTree]
    refine shows_polled ?_
    rw [Shows, symbol, hlookup]
    exact .pure _
  rcases hmeets with ⟨q, rfl, rfl⟩ | ⟨rfl, hwhole⟩
  · exact agree_rational hshows
  · exact fun nesting => yields_trivial _ (settles_none hshows hwhole)

section Definitions

variable (hdefinitions : context.definitions = ctx.definitions)
  (hpolicy : ctx.settings.symbolic = .replaceAllDefinedSymbols)
  (hchain : Chain ctx.definitions scope.expanding)
  (hexpands : Expands whole ctx names expand scope)

include hdefinitions hpolicy hchain hexpands

theorem agree_symbol (hbound : ctx.bound = []) (hlookup : scope.bindings.lookup name = none)
    (hclear : Clear ctx.definitions names scope name)
    (hsuitable : whole → (ctx.definitions.value? name).isSome = true) :
    Agree whole ctx (evaluateTree context expand (.symbol name) scope) (.symbol name) := by
  have hreplaced :
      ¬ (ctx.bound.contains name || !replacesSymbols ctx.settings.symbolic) = true := by
    simp [hbound, hpolicy, replacesSymbols]
  refine treeWithin_leaf (by simp) fun inner => ?_
  rw [reduceNode, Reduction.symbol, if_neg hreplaced]
  cases hvalue : ctx.definitions.value? name with
  | none =>
      have hshows : Shows (evaluateTree context expand (.symbol name) scope) none := by
        rw [evaluateTree]
        refine shows_polled ?_
        rw [Shows, symbol, hlookup, hdefinitions, hvalue]
        dsimp only
        split <;> exact .pure _
      refine yields_trivial _ (settles_none hshows fun hwhole => ?_)
      have hsome := hsuitable hwhole
      rw [hvalue] at hsome
      cases hsome
  | some body =>
      dsimp only
      cases hcircular : ctx.definitions.isCircular name with
      | true => exact Yields.pure (.inl rfl)
      | false =>
          have hname : name ∉ scope.expanding := hchain.not_mem hclear.follows hcircular
          refine (hexpands.value name body hclear hvalue hcircular inner).mono fun y hy => ?_
          refine hy.congr fun v hv => ?_
          rw [evaluateTree]
          refine shows_polled ?_
          rw [Shows, symbol, hlookup, hdefinitions, hvalue]
          dsimp only
          rw [if_neg (by simpa using hname)]
          exact hv

theorem agree_call (hclear : Clear ctx.definitions names scope name)
    (hsuitable : whole → (ctx.definitions.function? name).isSome = true)
    (hxs : ∀ x ∈ xs, Agree whole ctx (evaluateTree context expand x scope) (fill σ x)) :
    Agree whole ctx (evaluateTree context expand (.apply (.function name) xs) scope)
      (fill σ (.apply (.function name) xs)) := by
  refine agree_operands nofun nofun nofun rfl hxs fun vs ys hshows hmeets n => ?_
  cases hspoiled : spoiled? (.function name) ys with
  | some r =>
      refine nodeWithin_spoiled hspoiled (.inl ?_) n
      rcases eq_of_spoiled? hspoiled with rfl | rfl <;> rfl
  | none =>
      refine nodeWithin_unspoiled hspoiled fun inner _ => ?_
      dsimp only [reduceApply]
      rw [Reduction.userFunction.eq_def, if_neg (by rw [hpolicy]; decide)]
      cases hfunction : ctx.definitions.function? name with
      | none =>
          have hundefined : context.definitions.function? name = none := by
            rw [hdefinitions]
            exact hfunction
          have hnone := shows_userFunction_of_none hundefined hshows
          refine yields_trivial _ (settles_none (shows_apply hnone) fun hwhole => ?_)
          have hsome := hsuitable hwhole
          rw [hfunction] at hsome
          cases hsome
      | some function =>
          rcases function with ⟨parameter, body⟩
          dsimp only
          cases hcircular : ctx.definitions.isCircular name with
          | true => exact Yields.pure (.inl rfl)
          | false =>
              cases hmeets with
              | nil => exact Yields.pure (.inl rfl)
              | cons hw hothers =>
                  cases hothers with
                  | cons => exact Yields.pure (.inl rfl)
                  | nil =>
                      cases hshows with
                      | cons hx hnil =>
                          cases hnil
                          have hname : name ∉ scope.expanding :=
                            hchain.not_mem hclear.follows hcircular
                          refine (hexpands.function name parameter body _ _ hclear hfunction
                            hcircular hw inner).mono fun y hy => ?_
                          refine hy.congr fun v hv => shows_apply ?_
                          rw [← hdefinitions] at hfunction
                          exact shows_userFunction hname hfunction hx hv

/-- An expression that holds clear names is reduced to what it is evaluated to. -/
theorem agree_tree (hbound : ctx.bound = []) (hσ : Filled whole scope σ)
    (hx : Arithmetic (clear ctx.definitions names whole (σ.map Prod.fst) scope) x) :
    Agree whole ctx (evaluateTree context expand x scope) (fill σ x) := by
  induction hx with
  | rational q =>
      have hfill : fill σ (.rational q) = .rational q := by
        cases σ <;> rfl
      rw [hfill]
      exact agree_rational rfl
  | @symbol name hname =>
      by_cases hparameter : σ.map Prod.fst = some name
      · obtain ⟨w, rfl⟩ : ∃ w, σ = some (name, w) := by
          rcases Option.map_eq_some_iff.mp hparameter with ⟨⟨other, w⟩, hpair, hother⟩
          exact ⟨w, by rw [hpair, ← hother]⟩
        have hfill : fill (some (name, w)) (.symbol name) = w := by
          simp [fill, substitute]
        rw [hfill]
        exact agree_parameter hσ
      · rcases hname.resolve_left hparameter with ⟨hlookup, hclear, hsuitable⟩
        have hfill : fill σ (.symbol name) = .symbol name := by
          cases σ with
          | none => rfl
          | some pair =>
              rcases pair with ⟨other, w⟩
              have hne : name ≠ other := fun h => hparameter (congrArg some h.symm)
              simp [fill, substitute, hne]
        rw [hfill]
        exact agree_symbol hdefinitions hpolicy hchain hexpands hbound hlookup hclear hsuitable
  | call hname _ ih =>
      exact agree_call hdefinitions hpolicy hchain hexpands hname.1 hname.2 ih
  | sum hempty _ ih =>
      exact agree_combined (by simp) (fun a b => congrArg Evaluation.scalar (plus_exactly a b)) rfl
        (fun _ => combineKnown_sum) (fun n qs => nodeWithin_sum ctx n qs) hempty ih
  | product hempty _ ih =>
      exact agree_combined (by simp) (fun a b => congrArg Evaluation.scalar (times_exactly a b)) rfl
        (fun _ => combineKnown_product) (fun n qs => nodeWithin_product ctx n qs) hempty ih
  | difference _ _ ihx ihy => exact agree_difference ihx ihy
  | opposite _ ih =>
      exact agree_first (by simp) (fun a => congrArg Evaluation.scalar (neg_exactly a)) rfl
        (nodeWithin_opposite ctx) ih
  | parenthesis _ ih =>
      have hkept : ∀ a, id (Evaluation.scalar (exactly a)) =
          Evaluation.scalar (exactly (a.map id)) := fun a => by rw [Option.map_id]; rfl
      exact agree_first (by simp) hkept rfl (nodeWithin_parenthesis ctx) ih

end Definitions

/-! ## Definitions at any depth -/

/-- Where definitions are expanded so many levels deep, as many as are left of the definitions. -/
def AgreesWithin (whole : Prop) (ctx : Reduction.Context) (context : Approximation.Context)
    (names : String → Prop) (levels : Nat) : Prop :=
  ∀ (scope : Scope ExactNumber) σ x, Chain ctx.definitions scope.expanding →
    levels + scope.expanding.length = ctx.definitions.size → Filled whole scope σ →
    Arithmetic (clear ctx.definitions names whole (σ.map Prod.fst) scope) x →
    Agree whole ctx (evaluate context levels x scope) (fill σ x)

theorem expands_zero {expand : Expr → Evaluator ExactNumber}
    (hchain : Chain ctx.definitions scope.expanding)
    (hlength : scope.expanding.length = ctx.definitions.size) :
    Expands whole ctx names expand scope := by
  -- No name that is left could be expanded: all definitions are being expanded already.
  have hnone : ∀ name, Clear ctx.definitions names scope name →
      (ctx.definitions.get? name).isSome = true → ctx.definitions.isCircular name ≠ false :=
    fun name hclear hdefined hcircular =>
      hchain.admits hclear.follows hdefined hcircular (.inr hlength.ge)
  constructor
  · intro name body hclear hvalue hcircular
    refine absurd hcircular (hnone name hclear ?_)
    rw [get?_of_value? hvalue]
    rfl
  · intro name parameter body v w hclear hfunction hcircular
    refine absurd hcircular (hnone name hclear ?_)
    rw [get?_of_function? hfunction]
    rfl

theorem AgreesWithin.expands (h : AgreesWithin whole ctx context names levels)
    (hapart : Apart ctx.definitions names)
    (hwhole : whole → ∀ name d, names name → ctx.definitions.get? name = some d →
      Arithmetic (suitable ctx.definitions d.parameter?) d.body)
    (hchain : Chain ctx.definitions scope.expanding)
    (hlength : levels + 1 + scope.expanding.length = ctx.definitions.size) :
    Expands whole ctx names (evaluate context levels) scope := by
  have hlonger : ∀ name, levels + (name :: scope.expanding).length = ctx.definitions.size := by
    intro name
    rw [List.length_cons]
    omega
  constructor
  · intro name body hclear hvalue hcircular
    have hd := get?_of_value? hvalue
    have hdefined : (ctx.definitions.get? name).isSome = true := by
      rw [hd]
      rfl
    exact h (scope.expand name) none body (.cons hclear.follows hdefined hcircular hchain)
      (hlonger name) nofun (hapart.body (fun hw => hwhole hw name _ hclear.reached hd) hclear hd rfl
        fun _ _ => rfl)
  · intro name parameter body v w hclear hfunction hcircular hmeets
    have hd := get?_of_function? hfunction
    have hdefined : (ctx.definitions.get? name).isSome = true := by
      rw [hd]
      rfl
    refine h ((scope.expand name).bind parameter (exactly v)) (some (parameter, w)) body
      (.cons hclear.follows hdefined hcircular hchain) (hlonger name) ?_ ?_
    · rintro _ _ ⟨⟩
      exact ⟨v, List.lookup_cons_self, hmeets⟩
    · refine hapart.body (fun hw => hwhole hw name _ hclear.reached hd) hclear hd rfl ?_
      intro symbol hsymbol
      have hne : (symbol == parameter) = false := by
        rw [beq_eq_false_iff_ne]
        rintro rfl
        exact hsymbol rfl
      rw [Scope.bind, List.lookup_cons, hne]
      rfl

theorem agreesWithin (hdefinitions : context.definitions = ctx.definitions)
    (hpolicy : ctx.settings.symbolic = .replaceAllDefinedSymbols) (hbound : ctx.bound = [])
    (hapart : Apart ctx.definitions names)
    (hwhole : whole → ∀ name d, names name → ctx.definitions.get? name = some d →
      Arithmetic (suitable ctx.definitions d.parameter?) d.body) (levels : Nat) :
    AgreesWithin whole ctx context names levels := by
  induction levels with
  | zero =>
      intro scope σ x hchain hlength hσ hx
      rw [Nat.zero_add] at hlength
      exact agree_tree hdefinitions hpolicy hchain (expands_zero hchain hlength) hbound hσ hx
  | succ levels ih =>
      intro scope σ x hchain hlength hσ hx
      exact agree_tree hdefinitions hpolicy hchain (ih.expands hapart hwhole hchain hlength) hbound
        hσ hx

end Approximation

open Approximation

/-- A result that is a number was one before it was brought into the form for the user, and the same
one. -/
theorem eq_rational_of_present {settings : Settings} {y : Expr} {r : Rat}
    (hy : y.kind.isPoison = true ∨ ∃ q, y = .rational q)
    (h : .rational r = if settings.target = .user then beautify y else y) : y = .rational r := by
  by_cases htarget : settings.target = .user
  · rw [if_pos htarget] at h
    rcases hy with hpoison | ⟨q, rfl⟩
    · match y, hpoison with
      | .apply .undefined xs, _ | .apply .nonreal xs, _ =>
          simp only [beautify, standalone, shown, showApply] at h
          cases h
    · exact h.symm
  · rw [if_neg htarget] at h
    exact h.symm

/-- Where no function leads to a definition that mentions its parameter, an expression of arithmetic
that is reduced to a rational number is evaluated to the same number, or to none where it leads to a
name without a suitable definition. -/
theorem evaluate_of_reduce (ctx : Reduction.Context) (context : Approximation.Context) (x : Expr)
    (breaker : Breaker) (r : Rat) (hdefinitions : context.definitions = ctx.definitions)
    (hpolicy : ctx.settings.symbolic = .replaceAllDefinedSymbols) (hbound : ctx.bound = [])
    (harithmetic : ∀ name d, ctx.definitions.get? name = some d → Arithmetic {} d.body)
    (hapart : ∀ name parameter body, x.LeadsTo ctx.definitions name →
      ctx.definitions.function? name = some (parameter, body) →
      ∀ other, TransGen ctx.definitions.Refers name other →
        ¬ ctx.definitions.Mentions other parameter)
    (hx : Arithmetic {} x) (hr : x.reduce ctx breaker = .ok (.rational r)) :
    evaluate context context.definitions.size x {} {} =
        some (.real (ExactNumber.finite r), {}) ∨
      evaluate context context.definitions.size x {} {} =
        some (Evaluation.undefined (F := ExactNumber), {}) ∧ ¬ Suitable ctx.definitions x := by
  have hapart : Apart ctx.definitions (x.LeadsTo ctx.definitions) := {
    arithmetic := harithmetic
    closed := fun name other hname hrefers => by
      rcases hname with ⟨first, hfirst, hleads⟩
      exact ⟨first, hfirst, hleads.tail hrefers⟩
    apart := hapart }
  have hagree := agreesWithin hdefinitions hpolicy hbound hapart
    (fun hsuitable : Suitable ctx.definitions x => hsuitable.2) ctx.definitions.size {} none x .nil
    rfl nofun (arithmetic_clear hx)
  rw [hdefinitions]
  rcases exists_of_reduce (hagree maxNesting) hr with ⟨c, hsettles, hc⟩
  rcases hsettles with hpoison | ⟨v, hshows, ⟨q, rfl, rfl⟩ | ⟨rfl, hsuitable⟩⟩
  · cases eq_rational_of_present (.inl hpoison) hc
    cases hpoison
  · cases eq_rational_of_present (.inr ⟨q, rfl⟩) hc
    exact .inl hshows
  · exact .inr ⟨hshows, hsuitable⟩

/-- A function that calls another one, which leads to a value. -/
def nestedCalls : Definitions :=
  ⟨[("g", .function "u" (.apply .addition [.apply (.function "h") [.symbol "u"], .symbol "u"])),
    ("h", .function "s" (.apply .multiplication [.symbol "s", .symbol "t"])),
    ("t", .value (.integer 5))]⟩

theorem suitable_nestedCalls {name : String} {d : Definition}
    (hd : nestedCalls.get? name = some d) :
    Arithmetic (suitable nestedCalls d.parameter?) d.body := by
  have hentry := mem_entries_of_get? hd
  simp only [nestedCalls, List.mem_cons, List.not_mem_nil, or_false, Prod.mk.injEq] at hentry
  rcases hentry with ⟨-, rfl⟩ | ⟨-, rfl⟩ | ⟨-, rfl⟩
  · have hparameter : Arithmetic (suitable nestedCalls (some "u")) (.symbol "u") :=
      .symbol (.inl rfl)
    have hcall : Arithmetic (suitable nestedCalls (some "u"))
        (.apply (.function "h") [.symbol "u"]) :=
      .call rfl (List.forall_mem_singleton.mpr hparameter)
    exact .sum nofun (forall_mem_pair hcall hparameter)
  · exact .product nofun (forall_mem_pair (.symbol (.inl rfl)) (.symbol (.inr rfl)))
  · exact .rational 5

theorem not_mentions_nestedCalls {name parameter : String} {body : Expr}
    (hfunction : nestedCalls.function? name = some (parameter, body)) (other : String) :
    ¬ nestedCalls.Mentions other parameter := by
  rintro ⟨d, hd, hwithin, hparameter⟩
  have hreferences : parameter ∈ d.body.references d.parameter? :=
    (mem_references d.body).mpr (.inl ⟨hwithin, hparameter⟩)
  have hapart : ∀ entry ∈ nestedCalls.entries, ∀ user ∈ nestedCalls.entries,
      entry.2.parameter?.all (· ∉ user.2.body.references user.2.parameter?) = true := by
    decide
  have hnone := hapart _ (mem_entries_of_get? (get?_of_function? hfunction)) _
    (mem_entries_of_get? hd)
  exact (of_decide_eq_true hnone) hreferences

/-- What nested calls are reduced to is what they are evaluated to. -/
theorem evaluate_of_reduce_nestedCalls :
    ((Expr.apply (.function "g") [.integer 2]).reduce ⟨{}, nestedCalls, 4096, []⟩
      {}).toOption.map Expr.rational? = some (some 12) ∧
    evaluate ⟨{}, nestedCalls⟩ 3 (.apply (.function "g") [.integer 2]) {} {} =
      some (.real (ExactNumber.finite 12), {}) := by
  have hresult : ((Expr.apply (.function "g") [.integer 2]).reduce ⟨{}, nestedCalls, 4096, []⟩
      {}).toOption.map Expr.rational? = some (some 12) := by
    decide +kernel
  refine ⟨hresult, ?_⟩
  rcases exists_ok hresult with ⟨r, hr, hrational⟩
  match r, hrational with
  | .rational 12, rfl =>
    have hsuitable : Suitable nestedCalls (.apply (.function "g") [.integer 2]) :=
      ⟨.call rfl (List.forall_mem_singleton.mpr (.rational 2)), fun _ _ _ => suitable_nestedCalls⟩
    have harithmetic : ∀ {A x}, Arithmetic A x → Arithmetic {} x := fun h =>
      h.refine (fun _ => trivial) (fun _ _ _ => trivial) (fun _ _ _ _ => trivial) .whole
    exact (evaluate_of_reduce ⟨{}, nestedCalls, 4096, []⟩ ⟨{}, nestedCalls⟩ _ {} 12 rfl rfl rfl
      (fun _ _ hd => harithmetic (suitable_nestedCalls hd))
      (fun _ _ _ _ hfunction other _ => not_mentions_nestedCalls hfunction other)
      (harithmetic hsuitable.1) hr).resolve_right fun h => h.2 hsuitable

/-- The function `h` mentions the parameter of `g`, which calls `h`. -/
def sharedName : Definitions :=
  ⟨[("g", .function "t" (.apply (.function "h") [.integer 1])),
    ("h", .function "s" (.apply .addition [.symbol "t", .symbol "s"])),
    ("t", .value (.integer 5))]⟩

/-- A call is evaluated with the parameters that are bound around it. And where nothing stands for a
symbol, a difference of it is reduced to a number, but evaluated to none. -/
theorem reduce_ne_evaluate :
    (((Expr.apply (.function "g") [.integer 2]).reduce ⟨{}, sharedName, 4096, []⟩
      {}).toOption.map Expr.rational? = some (some 6) ∧
    evaluate ⟨{}, sharedName⟩ 3 (.apply (.function "g") [.integer 2]) {} {} =
      some (.real (ExactNumber.finite 3), {})) ∧
    ((Expr.apply .subtraction [.symbol "x", .symbol "x"]).reduce ⟨{}, {}, 4096, []⟩
      {}).toOption.map Expr.rational? = some (some 0) ∧
    evaluate ⟨{}, {}⟩ 0 (.apply .subtraction [.symbol "x", .symbol "x"]) {} {} =
      some (Evaluation.undefined (F := ExactNumber), {}) := by
  refine ⟨⟨by decide +kernel, by with_unfolding_all rfl⟩, by decide +kernel,
    by with_unfolding_all rfl⟩

end PocketAlgebra
