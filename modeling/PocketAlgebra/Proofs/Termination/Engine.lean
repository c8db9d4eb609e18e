import PocketAlgebra.Proofs.Evaluation.Exact
import PocketAlgebra.Proofs.Termination.Runs

/-!
# Approximation ends

Nested calls expand one more definition, or go on with less of the same tree. No name is expanded
inside its own expansion, and there are only so many definitions; so calls cannot be nested
arbitrarily deep, and each of them gives its result and leaves the stacks as they were.
-/

namespace PocketAlgebra

namespace Approximation

open Scalar Definitions Machine

variable {F : Type} [Scalar F] {ι : Type} {ctx : Context} {scope : Scope F}
  {expand : Expr → Evaluator F} {c : ι → Expr → MachineM F (Evaluation F)}
  {g : ι → Stage F → MachineM F (Evaluation F)} {f : Operator} {x : Expr} {xs : List Expr}

/-! ## Nodes -/

theorem runs_apply {e : Expr → Evaluator F}
    (hexpand : ServesDefinitions ctx scope.expanding expand c)
    (hgo : GoesOn e scope g f xs)
    (hxs : ∀ x ∈ xs, Serves scope.expanding (e x) fun i => c i x) :
    Runs scope (evaluateApply ctx expand f (xs.map (operand e)) scope) fun i =>
      Machine.apply (c i) (g i) ctx f xs := by
  cases f with
  | undefined | nonreal | comparison => exact .pure _
  | function name => exact runs_userFunction hexpand name hxs
  | parenthesis | store => exact runs_ofFirst _ hxs
  | matrix rows columns => exact runs_ofCollected rfl (fun _ => rfl) hxs
  | list => exact runs_ofCollected rfl (fun _ => rfl) hxs
  | addition | multiplication => exact runs_ofAll _ hxs
  | subtraction | division => exact runs_ofTwo _ hxs
  | opposite => exact runs_ofFirst _ hxs
  | power => exact runs_powerOperator _ hxs
  | determinant | matrixInverse | trace | transpose | dimension => exact runs_ofFirst _ hxs
  | listSum | listMean => exact runs_ofCollected rfl (fun _ => rfl) hxs
  | derivative => exact runs_derivativeOperator hxs
  | integral => exact runs_integralOperator hgo hxs
  | sum | product => exact runs_seriesOperator hgo hxs
  | _ => exact runs_ofNumbers _ _ hxs

/-- A whole tree, where the calls for its operands, for definitions and for later stages do what
they should. -/
theorem runs_whole (hexpand : ServesDefinitions ctx scope.expanding expand c)
    (hgo : ∀ f xs, x = .apply f xs → GoesOn (evaluateTree ctx expand) scope g f xs)
    (hoperand : ∀ y : Expr, y.size < x.size →
      Serves scope.expanding (evaluateTree ctx expand y) fun i => c i y) :
    Runs scope (evaluateTree ctx expand x scope) fun i =>
      (do if ← Machine.poll then return .undefined else Machine.node (c i) (g i) ctx x) := by
  cases x with
  | symbol name => exact .poll _ (runs_symbol hexpand name)
  | apply f xs =>
      have hxs : ∀ x ∈ xs, Serves scope.expanding (evaluateTree ctx expand x) fun i => c i x :=
        fun x hx => hoperand x (Expr.size_lt_of_mem hx)
      rw [evaluateTree, operandsOf_eq_map]
      exact .poll _ (runs_apply hexpand (hgo f xs rfl) hxs)
  | _ => exact .poll _ (.pure _)

/-! ## Calls -/

/-- The approximation of a tree, where as many levels of expansion are left as there are definitions
that are not being expanded. -/
def evaluateLeft (ctx : Context) (x : Expr) : Evaluator F :=
  fun scope => evaluate ctx (ctx.definitions.size - scope.expanding.length) x scope

/-- What a call is for. -/
def Machine.Call.evaluator (ctx : Context) : Call F → Evaluator F
  | ⟨x, .whole⟩ => evaluateLeft ctx x
  | ⟨.apply f [body, .symbol name, _, _], .terms lower remaining step partialResult⟩ => fun scope =>
    termsLeft (evaluateLeft ctx) scope f name body lower remaining step partialResult
  | ⟨.apply _ [body, .symbol name, _, _], .halving halvings tolerance segment⟩ => fun scope =>
    halvingLeft (evaluateLeft ctx) scope name body halvings tolerance segment
  | _ => fun _ => return .undefined

/-- What definitions are expanded by, where so many levels are left. -/
def expandWithin (ctx : Context) : Nat → Expr → Evaluator F
  | 0 => fun _ _ => return .undefined
  | levels + 1 => evaluate ctx levels

theorem evaluate_eq (ctx : Context) (levels : Nat) :
    evaluate (F := F) ctx levels = evaluateTree ctx (expandWithin ctx levels) := by
  cases levels <;> rfl

/-- The terms of a series that are left are not beyond the limit. -/
def Machine.Call.Bounded : Call F → Prop
  | ⟨_, .terms _ remaining step _⟩ => ((step + remaining : Nat) : Int) ≤ maxSeriesTerms
  | _ => True

/-- The calls that a call may make do what they are for. -/
def ServesAdmitted (ctx : Context) (names : List String) (caller : Call F)
    (make : ι → Call F → MachineM F (Evaluation F)) : Prop :=
  ∀ names' call, Expanding ctx.definitions names' →
    Admits ctx.definitions names caller names' call →
    Serves names' (call.evaluator ctx) fun i => make i call

variable {names : List String} {caller : Call F} {make : ι → Call F → MachineM F (Evaluation F)}
  {m : ι → MachineM F (Evaluation F)} {name : String} {d : Definition}

omit [Scalar F] in
theorem Machine.Expanding.cons (h : Expanding ctx.definitions names)
    (hd : ctx.definitions.get? name = some d) (hname : name ∉ names) :
    Expanding ctx.definitions (name :: names) where
  nodup := List.nodup_cons.mpr ⟨hname, h.nodup⟩
  defined := List.forall_mem_cons.mpr ⟨by rw [hd]; rfl, h.defined⟩

theorem serves_whole_iff : Serves names (Call.evaluator ctx ⟨x, .whole⟩) m ↔
    Serves names
      (evaluateTree ctx (expandWithin ctx (ctx.definitions.size - names.length)) x) m := by
  rw [← evaluate_eq]
  exact Iff.rfl

/-- Definitions are expanded by calls, one level of expansion further down. -/
theorem servesDefinitions_of_admitted (hnames : Expanding ctx.definitions names)
    (hcalls : ServesAdmitted ctx names caller make) : ServesDefinitions ctx names
      (expandWithin ctx (ctx.definitions.size - names.length)) fun i y => make i ⟨y, .whole⟩ := by
  intro name d hd hname
  have hlonger := hnames.cons hd hname
  have hlength := length_le_size hlonger.nodup hlonger.defined
  have hlevels : ctx.definitions.size - names.length =
      ctx.definitions.size - (name :: names).length + 1 := by
    rw [List.length_cons] at hlength ⊢
    omega
  rw [hlevels]
  exact hcalls _ _ hlonger (.expansion hd hname)

theorem goesOn_of_admitted (hnames : Expanding ctx.definitions scope.expanding)
    (hcalls : ServesAdmitted ctx scope.expanding ⟨.apply f xs, .whole⟩ make) :
    GoesOn (evaluateTree ctx (expandWithin ctx (ctx.definitions.size - scope.expanding.length)))
      scope (fun i stage => make i ⟨.apply f xs, stage⟩) f xs := by
  rw [← evaluate_eq]
  constructor
  · rintro body name lower upper rfl a count hcount
    exact hcalls _ _ hnames (.later (.firstTerm hcount)) scope.bindings
  · rintro body name lower upper rfl tolerance segment
    exact hcalls _ _ hnames (.later (.firstHalving (Nat.le_refl _))) scope.bindings

theorem runs_activation (hnames : Expanding ctx.definitions scope.expanding)
    (hbounded : caller.Bounded) (hcalls : ServesAdmitted ctx scope.expanding caller make) :
    Runs scope (caller.evaluator ctx scope) fun i => Machine.activation ctx (make i) caller := by
  rcases caller with ⟨x, stage⟩
  have hoperand : ∀ y : Expr, y.size < x.size →
      Serves scope.expanding (evaluateLeft ctx y) fun i => make i ⟨y, .whole⟩ :=
    fun y hy => hcalls _ _ hnames (.smaller hy)
  cases stage with
  | whole =>
      rw [Call.evaluator, evaluateLeft, evaluate_eq]
      refine runs_whole (servesDefinitions_of_admitted hnames hcalls) ?_
        fun y hy => serves_whole_iff.mp (hoperand y hy)
      rintro f xs rfl
      exact goesOn_of_admitted hnames hcalls
  | terms lower remaining step partialResult =>
      cases x with
      | apply f xs =>
          match xs with
          | [] | [_] => exact .pure _
          | [_, y] | [_, y, _] | _ :: y :: _ :: _ :: _ :: _ => cases y <;> exact .pure _
          | [body, y, low, high] =>
              cases y with
              | symbol name =>
                  refine runs_terms (e := evaluateLeft ctx) (c := fun i y => make i ⟨y, .whole⟩)
                    (g := fun i stage => make i ⟨.apply f [body, .symbol name, low, high], stage⟩)
                    (hoperand body (Expr.size_lt_of_mem List.mem_cons_self)) ?_
                  rintro remaining' result rfl
                  refine hcalls _ _ hnames (.later (.nextTerm (Nat.lt_succ_self step) ?_))
                    scope.bindings
                  rw [Call.Bounded] at hbounded
                  omega
              | _ => exact .pure _
      | _ => exact .pure _
  | halving halvings tolerance segment =>
      cases x with
      | apply f xs =>
          match xs with
          | [] | [_] => exact .pure _
          | [_, y] | [_, y, _] | _ :: y :: _ :: _ :: _ :: _ => cases y <;> exact .pure _
          | [body, y, low, high] =>
              cases y with
              | symbol name =>
                  refine runs_halving (e := evaluateLeft ctx) (c := fun i y => make i ⟨y, .whole⟩)
                    (g := fun i stage => make i ⟨.apply f [body, .symbol name, low, high], stage⟩)
                    (hoperand body (Expr.size_lt_of_mem List.mem_cons_self)) ?_
                  rintro halvings' tolerance' segment' rfl
                  exact hcalls _ _ hnames (.later (.nextHalving (Nat.lt_succ_self halvings')))
                    scope.bindings
              | _ => exact .pure _
      | _ => exact .pure _

/-! ## How deep calls are nested -/

/-- Where a stage stands among all that may follow. -/
def Machine.Stage.rank : Stage F → Nat
  | .whole => maxSeriesTerms.toNat + 1
  | .terms _ _ step _ => maxSeriesTerms.toNat - step
  | .halving halvings _ _ => halvings

theorem toNat_maxSeriesTerms : maxSeriesTerms.toNat = 100000 :=
  rfl

omit [Scalar F] in
theorem Machine.Stage.Follows.rank_lt {stage stage' : Stage F} (h : stage'.Follows stage) :
    stage'.rank < stage.rank := by
  cases h with
  | firstTerm => exact Nat.lt_succ_self _
  | nextTerm hlater hlimit =>
      rw [maxSeriesTerms] at hlimit
      simp only [rank, toNat_maxSeriesTerms]
      omega
  | firstHalving hlimit =>
      rw [maxHalvings] at hlimit
      simp only [rank, toNat_maxSeriesTerms]
      omega
  | nextHalving hless => exact hless

/-- The sizes of all definitions together. -/
def bodySizes (ds : Definitions) : Nat :=
  Expr.sizeAll (ds.entries.map fun entry => entry.2.body)

theorem size_body_le {ds : Definitions} (hd : ds.get? name = some d) :
    d.body.size ≤ bodySizes ds :=
  Nat.le_of_lt_succ (Expr.size_lt_of_mem (List.mem_map.mpr ⟨_, mem_entries_of_get? hd, rfl⟩))

/-- How much there is to do in a call: definitions that may be expanded come first, then the size of
the tree, then what is left of a series or an integral. -/
def Machine.Call.weight (ds : Definitions) (names : List String) (call : Call F) : Nat :=
  ((ds.size - names.length) * (bodySizes ds + 1) + call.tree.size) * (maxSeriesTerms.toNat + 2) +
    call.stage.rank

omit [Scalar F] in
theorem weight_le_of_names {ds : Definitions} {names' : List String}
    (h : names'.length ≤ names.length) : caller.weight ds names ≤ caller.weight ds names' :=
  Nat.add_le_add_right (Nat.mul_le_mul_right _ (Nat.add_le_add_right
    (Nat.mul_le_mul_right _ (Nat.sub_le_sub_left h _)) _)) _

omit [Scalar F] in
/-- There is less to do in each call that may be made. -/
theorem Machine.Admits.weight_lt {ds : Definitions} {names' : List String} {call : Call F}
    (h : Admits ds names caller names' call) (hnames' : Expanding ds names') :
    call.weight ds names' < caller.weight ds names := by
  simp only [Call.weight, toNat_maxSeriesTerms]
  cases h with
  | smaller hsize =>
      simp only [Stage.rank, toNat_maxSeriesTerms]
      omega
  | later hfollows =>
      exact Nat.add_lt_add_left hfollows.rank_lt _
  | @expansion _ name d hd hname =>
      have hlength := length_le_size hnames'.nodup hnames'.defined
      have hbody := size_body_le hd
      have hmore : ds.size - names.length = ds.size - (name :: names).length + 1 := by
        rw [List.length_cons] at hlength ⊢
        omega
      rw [hmore, Nat.succ_mul (ds.size - (name :: names).length) (bodySizes ds + 1)]
      simp only [Stage.rank, toNat_maxSeriesTerms]
      omega

omit [Scalar F] in
theorem Machine.Admits.bounded {ds : Definitions} {names' : List String} {call : Call F}
    (h : Admits ds names caller names' call) : call.Bounded := by
  cases h with
  | smaller | expansion => trivial
  | later hfollows =>
      cases hfollows with
      | firstTerm hlimit => simpa [Call.Bounded] using hlimit
      | nextTerm _ hlimit => exact hlimit
      | firstHalving | nextHalving => trivial

/-- Calls give their results where they may be nested deeper than there is to do, whatever is done
with calls that are refused. -/
theorem serves_run (ctx : Context) (depth : Nat) (hnames : Expanding ctx.definitions names)
    (hbounded : caller.Bounded) (hdepth : caller.weight ctx.definitions names < depth) :
    Serves names (caller.evaluator ctx) fun i : Refusal F × Nat =>
      run ctx i.1 (i.2 + depth) caller := by
  induction depth generalizing names caller with
  | zero => omega
  | succ depth ih =>
      refine fun bindings => .get fun interrupted breaker => ?_
      refine runs_activation hnames hbounded ?_
      intro names' call hnames' hadmits bindings'
      refine .get fun interrupted' breaker' => ?_
      simp only [if_pos (And.intro hnames' hadmits)]
      have hless : call.weight ctx.definitions names' < caller.weight ctx.definitions names :=
        hadmits.weight_lt hnames'
      exact ih hnames' hadmits.bounded (by omega) bindings'

/-- Every approximation ends, whatever the definitions, the values of variables and the breaker
are. There is a bound on how deep calls are nested. In each of them the names that are being
expanded are defined and all different, and each call expands one more definition, is for a smaller
tree, or is for later terms of a series or for fewer halvings: other calls are refused, and the
result does not depend on what is done with those. At the end the stacks are as they were, and the
result is the one that approximations have. -/
theorem evaluate_terminates (F : Type) [Scalar F] (ctx : Context) (x : Expr) :
    ∃ bound, ∀ bindings expanding interrupted breaker, Expanding ctx.definitions expanding →
      ∃ value interrupted' breaker',
        (∀ (refuse : Refusal F) (nesting : Nat), bound ≤ nesting →
          run ctx refuse nesting ⟨x, .whole⟩ ⟨bindings, expanding, interrupted, breaker⟩ =
            some (value, ⟨bindings, expanding, interrupted', breaker'⟩)) ∧
        (interrupted = false →
          evaluate ctx (ctx.definitions.size - expanding.length) x ⟨bindings, expanding⟩ breaker =
            if interrupted' then none else some (value, breaker')) := by
  let bound := Call.weight ctx.definitions [] (⟨x, .whole⟩ : Call F) + 1
  refine ⟨bound, fun bindings expanding interrupted breaker hexpanding => ?_⟩
  have hweight : Call.weight ctx.definitions expanding (⟨x, .whole⟩ : Call F) < bound :=
    Nat.lt_succ_of_le (weight_le_of_names (Nat.zero_le _))
  have hbounded : Call.Bounded (⟨x, .whole⟩ : Call F) := trivial
  rcases serves_run ctx bound hexpanding hbounded hweight bindings interrupted breaker with
    ⟨value, interrupted', breaker', hruns, _, heval⟩
  refine ⟨value, interrupted', breaker', fun refuse nesting hnesting => ?_, heval⟩
  have hrun := hruns (refuse, nesting - bound)
  dsimp only at hrun
  rwa [Nat.sub_add_cancel hnesting] at hrun

/-- A symbol and a function whose definitions lead to each other. -/
def circularPair : Context where
  definitions :=
    ⟨[("x", .value (.apply (.function "f") [.symbol "y"])),
      ("f", .function "t" (.apply .addition [.symbol "x", .symbol "t"]))]⟩

/-- A call of a circular function, from inside the expansion of the symbol that it leads to. It ends
without a value, and `x` is still the only name that is being expanded. -/
theorem evaluate_terminates_circularPair :
    Expanding circularPair.definitions ["x"] ∧ ∃ bound breaker', ∀ nesting, bound ≤ nesting →
      run circularPair (fun _ _ => failure) nesting
          ⟨.apply (.function "f") [.symbol "y"], .whole⟩
          ⟨[("y", .ofReal (ExactNumber.finite 2))], ["x"], false, {}⟩ =
        some (.undefined, ⟨[("y", .ofReal (ExactNumber.finite 2))], ["x"], false, breaker'⟩) := by
  have hexpanding : Expanding circularPair.definitions ["x"] :=
    ⟨by simp, by rintro name hname; rw [List.mem_singleton.mp hname]; rfl⟩
  have hvalue : evaluate circularPair 1 (.apply (.function "f") [.symbol "y"])
      ⟨[("y", .ofReal (ExactNumber.finite 2))], ["x"]⟩ {} = some (.undefined, {}) := rfl
  rcases evaluate_terminates ExactNumber circularPair
    (.apply (.function "f") [.symbol "y"]) with ⟨bound, h⟩
  rcases h [("y", .ofReal (ExactNumber.finite 2))] ["x"] false {} hexpanding with
    ⟨value, stop, breaker', hrun, heval⟩
  have hresult := hvalue.symm.trans (heval rfl)
  cases stop with
  | true => cases hresult
  | false =>
      cases hresult
      exact ⟨hexpanding, bound, {}, hrun _⟩

end Approximation

end PocketAlgebra
