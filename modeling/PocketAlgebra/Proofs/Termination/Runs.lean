import PocketAlgebra.Proofs.Expansion.References
import PocketAlgebra.Proofs.Termination.Machine

/-!
# What a machine does

Each step of a machine has a result and leaves the stacks as they were, and it does what the
corresponding step of an approximation in a scope does. The two differ once they are interrupted:
then the approximation has no result, and the machine goes on to one that does not matter.

The steps are those of a family of machines, which may differ in what they do with calls that are
refused, and in how deep they let calls be nested. All of them have the same result.
-/

namespace PocketAlgebra

namespace Approximation

open Scalar

variable {F : Type} [Scalar F] {ι α β γ : Type}

theorem checkBreaker_bind (p : ApproximateM α) (b : Breaker) :
    (checkBreaker >>= fun _ => p) b = if b.poll.1 then none else p b.poll.2 := by
  change (((if b.poll.1 then failure else return ()) : ApproximateM Unit) b.poll.2).bind
    (fun s => p s.2) = _
  split <;> rfl

/-- In a scope the steps of all machines have the same result, and leave the stacks as they were.
They are not interrupted where the approximation has this result; otherwise it has none. -/
def Runs (scope : Scope F) (p : ApproximateM α) (m : ι → MachineM F α) : Prop :=
  ∀ interrupted breaker, ∃ a interrupted' breaker',
    (∀ i, m i ⟨scope.bindings, scope.expanding, interrupted, breaker⟩ =
      some (a, ⟨scope.bindings, scope.expanding, interrupted', breaker'⟩)) ∧
    (interrupted = true → interrupted' = true) ∧
    (interrupted = false → p breaker = if interrupted' then none else some (a, breaker'))

namespace Runs

variable {scope : Scope F} {p : ApproximateM α} {m : ι → MachineM F α}

omit [Scalar F] in
theorem pure (a : α) : Runs (F := F) scope (Pure.pure a) fun _ : ι => Pure.pure a :=
  fun interrupted breaker => ⟨a, interrupted, breaker, fun _ => rfl, id, by rintro rfl; rfl⟩

omit [Scalar F] in
theorem bind {q : α → ApproximateM β} {k : ι → α → MachineM F β} (h : Runs scope p m)
    (hk : ∀ a, Runs scope (q a) fun i => k i a) :
    Runs scope (p >>= q) fun i => m i >>= k i := by
  intro interrupted breaker
  rcases h interrupted breaker with ⟨a, stop, c, hm, hstop, hp⟩
  rcases hk a stop c with ⟨b, stop', c', hk, hstop', hq⟩
  refine ⟨b, stop', c', fun i => ?_, fun h => hstop' (hstop h), fun h => ?_⟩
  · change (m i _).bind (fun s => k i s.1 s.2) = _
    rw [hm i]
    exact hk i
  · change (p breaker).bind (fun s => q s.1 s.2) = _
    rw [hp h]
    cases stop with
    | true =>
        rw [hstop' rfl]
        rfl
    | false => exact hq rfl

omit [Scalar F] in
theorem map (g : α → β) (h : Runs scope p m) : Runs scope (g <$> p) fun i => g <$> m i := by
  simp only [map_eq_pure_bind]
  exact h.bind fun a => .pure (g a)

omit [Scalar F] in
theorem mapM {q : γ → ApproximateM α} {k : ι → γ → MachineM F α} {xs : List γ}
    (h : ∀ x ∈ xs, Runs scope (q x) fun i => k i x) :
    Runs scope (xs.mapM q) fun i => xs.mapM (k i) := by
  induction xs with
  | nil =>
      simp only [List.mapM_nil]
      exact .pure []
  | cons x xs ih =>
      simp only [List.mapM_cons]
      refine (h x List.mem_cons_self).bind fun y => ?_
      exact (ih fun z hz => h z (List.mem_cons_of_mem x hz)).bind fun ys => .pure (y :: ys)

omit [Scalar F] in
/-- Steps that look at the stacks. -/
theorem get {k : ι → Machine F → MachineM F α} (h : ∀ interrupted breaker,
    Runs scope p fun i => k i ⟨scope.bindings, scope.expanding, interrupted, breaker⟩) :
    Runs scope p fun i => MonadState.get >>= k i :=
  fun interrupted breaker => h interrupted breaker interrupted breaker

omit [Scalar F] in
/-- Steps that are left out once they are interrupted. -/
theorem unlessInterrupted (a : α) (h : Runs scope p m) :
    Runs scope p fun i => (do if (← MonadState.get).interrupted then return a else m i) := by
  intro interrupted breaker
  cases interrupted with
  | true => exact ⟨a, true, breaker, fun _ => rfl, id, nofun⟩
  | false => exact h false breaker

omit [Scalar F] in
/-- Steps before which the breaker is asked. -/
theorem poll (a : α) (h : Runs scope p m) :
    Runs scope (checkBreaker >>= fun _ => p) fun i =>
      (do if ← Machine.poll then return a else m i) := by
  intro interrupted breaker
  cases interrupted with
  | true => exact ⟨a, true, breaker, fun _ => rfl, id, nofun⟩
  | false =>
      have hasked : ∀ i, (do if ← Machine.poll then return a else m i : MachineM F α)
          ⟨scope.bindings, scope.expanding, false, breaker⟩ =
          (if breaker.poll.1 then return a else m i)
            ⟨scope.bindings, scope.expanding, breaker.poll.1, breaker.poll.2⟩ := fun _ => rfl
      rw [checkBreaker_bind]
      cases hstop : breaker.poll.1 with
      | true =>
          refine ⟨a, true, breaker.poll.2, fun i => (hasked i).trans ?_, nofun, fun _ => rfl⟩
          rw [hstop]
          rfl
      | false =>
          rcases h false breaker.poll.2 with ⟨c, stop, b, hm, _, hp⟩
          refine ⟨c, stop, b, fun i => (hasked i).trans ?_, nofun, hp⟩
          rw [hstop]
          exact hm i

omit [Scalar F] in
theorem withBinding {name : String} {value : ComplexNumber F}
    (h : Runs (scope.bind name value) p m) :
    Runs scope p fun i => Machine.withBinding name value (m i) := by
  intro interrupted breaker
  rcases h interrupted breaker with ⟨a, stop, c, hm, hstop, hp⟩
  refine ⟨a, stop, c, fun i => ?_, hstop, hp⟩
  exact congrArg (Option.bind · fun r => some (r.1, { r.2 with bindings := r.2.bindings.tail }))
    (hm i)

omit [Scalar F] in
theorem withName {name : String} (h : Runs (scope.expand name) p m) :
    Runs scope p fun i => Machine.withName name (m i) := by
  intro interrupted breaker
  rcases h interrupted breaker with ⟨a, stop, c, hm, hstop, hp⟩
  refine ⟨a, stop, c, fun i => ?_, hstop, hp⟩
  exact congrArg (Option.bind · fun r => some (r.1, { r.2 with expanding := r.2.expanding.tail }))
    (hm i)

end Runs

end Approximation

/-!
## Operators of a machine

Each operator of a machine does what the operator of an approximation does, as long as the calls for
the operands do.
-/

namespace Approximation

open Scalar Definitions

variable {F : Type} [Scalar F] {ι α : Type}

/-- Machines do what an evaluator does, whatever values variables are bound to. -/
def Serves (expanding : List String) (e : Evaluator F) (m : ι → MachineM F (Evaluation F)) : Prop :=
  ∀ bindings, Runs ⟨bindings, expanding⟩ (e ⟨bindings, expanding⟩) m

variable {scope : Scope F} {e : Expr → Evaluator F} {c : ι → Expr → MachineM F (Evaluation F)}
  {x y body : Expr} {xs : List Expr} {name : String}

/-! ### Operands -/

theorem runs_complex (hx : Serves scope.expanding (e x) fun i => c i x) :
    Runs scope ((operand e x).complex scope) fun i => Machine.complex (c i) x :=
  (hx scope.bindings).map _

theorem runs_real? (hx : Serves scope.expanding (e x) fun i => c i x) :
    Runs scope ((operand e x).real? scope) fun i => Machine.real? (c i) x :=
  (runs_complex hx).bind fun _ => .pure _

theorem runs_sample (hbody : Serves scope.expanding (e body) fun i => c i body) (value : F) :
    Runs scope ((operand e body).sample scope name value) fun i =>
      Machine.sample (c i) name body value :=
  .withBinding (runs_complex hbody)

omit [Scalar F] in
theorem runs_collect? {read : Evaluation F → Option α}
    (hxs : ∀ x ∈ xs, Serves scope.expanding (e x) fun i => c i x) :
    Runs scope (collect? read scope (xs.map (operand e))) fun i =>
      Machine.collect? (c i) read xs := by
  induction xs with
  | nil => exact .pure _
  | cons x xs ih =>
      simp only [List.map_cons, collect?, Machine.collect?]
      refine (hxs x List.mem_cons_self scope.bindings).bind fun value => ?_
      cases read value with
      | some _ => exact (ih fun y hy => hxs y (List.mem_cons_of_mem x hy)).bind fun _ => .pure _
      | none => exact .pure _

/-! ### Operators -/

theorem runs_ofCollected {read : Evaluation F → Option α} {g : List α → Evaluation F}
    {q : Option (List α) → ApproximateM (Evaluation F)} (hnone : q none = pure .undefined)
    (hsome : ∀ values, q (some values) = pure (g values))
    (hxs : ∀ x ∈ xs, Serves scope.expanding (e x) fun i => c i x) :
    Runs scope (collect? read scope (xs.map (operand e)) >>= q) fun i =>
      Machine.ofCollected (c i) read g xs := by
  refine (runs_collect? hxs).bind fun values => ?_
  cases values with
  | none =>
      rw [hnone]
      exact .pure _
  | some values =>
      rw [hsome]
      exact .pure _

theorem runs_ofFirst (g : Evaluation F → Evaluation F)
    (hxs : ∀ x ∈ xs, Serves scope.expanding (e x) fun i => c i x) :
    Runs scope (ofFirst g (xs.map (operand e)) scope) fun i => Machine.ofFirst (c i) g xs := by
  cases xs with
  | nil => exact .pure _
  | cons x xs => exact (hxs x List.mem_cons_self scope.bindings).bind fun _ => .pure _

theorem runs_ofTwo (g : Evaluation F → Evaluation F → Evaluation F)
    (hxs : ∀ x ∈ xs, Serves scope.expanding (e x) fun i => c i x) :
    Runs scope (ofTwo g (xs.map (operand e)) scope) fun i => Machine.ofTwo (c i) g xs := by
  match xs with
  | [] | [_] => exact .pure _
  | x :: y :: _ =>
      exact (hxs x (by simp) scope.bindings).bind fun _ =>
        (hxs y (by simp) scope.bindings).bind fun _ => .pure _

theorem runs_ofAll (g : Evaluation F → Evaluation F → Evaluation F)
    (hxs : ∀ x ∈ xs, Serves scope.expanding (e x) fun i => c i x) :
    Runs scope (ofAll g (xs.map (operand e)) scope) fun i => Machine.ofAll (c i) g xs := by
  rw [ofAll, List.mapM_map]
  refine (Runs.mapM fun x hx => hxs x hx scope.bindings).bind fun values => ?_
  cases values <;> exact .pure _

theorem runs_ofNumbers (format : Format) (f : Operator)
    (hxs : ∀ x ∈ xs, Serves scope.expanding (e x) fun i => c i x) :
    Runs scope (ofNumbers format f (xs.map (operand e)) scope) fun i =>
      Machine.ofNumbers (c i) format f xs := by
  rw [ofNumbers, List.mapM_map]
  exact (Runs.mapM fun x hx => runs_complex (hxs x hx)).bind fun _ => .pure _

theorem runs_powerOperator (format : ComplexFormat)
    (hxs : ∀ x ∈ xs, Serves scope.expanding (e x) fun i => c i x) :
    Runs scope (powerOperator format (xs.map (operand e)) scope) fun i =>
      Machine.powerOperator (c i) format xs := by
  match xs with
  | [] | [_] => exact .pure _
  | x :: y :: _ =>
      exact (hxs x (by simp) scope.bindings).bind fun _ =>
        (runs_complex (hxs y (by simp))).bind fun _ => .pure _

/-! ### Names -/

/-- Definitions that are expanded under one more name are served. -/
def ServesDefinitions (ctx : Context) (expanding : List String) (expand : Expr → Evaluator F)
    (c : ι → Expr → MachineM F (Evaluation F)) : Prop :=
  ∀ name d, ctx.definitions.get? name = some d → name ∉ expanding →
    Serves (name :: expanding) (expand d.body) fun i => c i d.body

variable {ctx : Context} {expand : Expr → Evaluator F}

theorem runs_symbol (hexpand : ServesDefinitions ctx scope.expanding expand c) (name : String) :
    Runs scope (symbol ctx expand name scope) fun i => Machine.symbol (c i) ctx name := by
  refine .get fun interrupted breaker => ?_
  rw [symbol]
  dsimp only
  cases scope.bindings.lookup name with
  | some value => exact .pure _
  | none =>
      dsimp only
      split
      · exact .pure _
      · rename_i hname
        cases hvalue : ctx.definitions.value? name with
        | none => exact .pure _
        | some body =>
            exact .withName (hexpand name _ (get?_of_value? hvalue) (by simpa using hname) _)

theorem runs_userFunction (hexpand : ServesDefinitions ctx scope.expanding expand c) (name : String)
    (hxs : ∀ x ∈ xs, Serves scope.expanding (e x) fun i => c i x) :
    Runs scope (userFunction ctx expand name (xs.map (operand e)) scope) fun i =>
      Machine.userFunction (c i) ctx name xs := by
  cases xs with
  | nil => exact .pure _
  | cons x xs =>
      refine (runs_complex (hxs x List.mem_cons_self)).bind fun argument => ?_
      refine .get fun interrupted breaker => ?_
      dsimp only
      split
      · exact .pure _
      · rename_i hname
        cases hfunction : ctx.definitions.function? name with
        | none => exact .pure _
        | some function =>
            rcases function with ⟨parameter, body⟩
            exact .withName (.withBinding
              (hexpand name _ (get?_of_function? hfunction) (by simpa using hname) _))

end Approximation

/-!
## Series, integrals and derivatives of a machine

A series goes on to its later terms and an integral to its halves by calls. They do what
approximations do, as long as these calls do.
-/

namespace Approximation

open Scalar

variable {F : Type} [Scalar F] {ι : Type} {scope : Scope F} {e : Expr → Evaluator F}
  {c : ι → Expr → MachineM F (Evaluation F)} {g : ι → Machine.Stage F → MachineM F (Evaluation F)}
  {f : Operator} {body : Expr} {xs : List Expr} {name : String}

/-! ### Series -/

/-- The approximation of a term of a series. -/
def term (e : Expr → Evaluator F) (scope : Scope F) (name : String) (body : Expr) (lower : F)
    (step : Nat) : ApproximateM (Evaluation F) :=
  e body (scope.bind name (.ofReal (lower + ofInt step)))

/-- The terms of a series that are left. -/
def termsLeft (e : Expr → Evaluator F) (scope : Scope F) (f : Operator) (name : String)
    (body : Expr) (lower : F) :
    Nat → Nat → Option (Evaluation F) → ApproximateM (Evaluation F) :=
  combineTerms (Machine.combination f) (term e scope name body lower)

theorem runs_terms (hbody : Serves scope.expanding (e body) fun i => c i body) {lower : F}
    {remaining step : Nat} {partialResult : Option (Evaluation F)}
    (hgo : ∀ remaining' result, remaining' + 1 = remaining →
      Runs scope (termsLeft e scope f name body lower remaining' (step + 1) result) fun i =>
        g i (.terms lower remaining' (step + 1) result)) :
    Runs scope (termsLeft e scope f name body lower remaining step partialResult) fun i =>
      Machine.terms (c i) (g i) f name body lower remaining step partialResult := by
  cases remaining with
  | zero => exact .pure _
  | succ remaining =>
      refine .poll _ ((Runs.withBinding (hbody _)).bind fun value => ?_)
      cases partialResult
      all_goals
        dsimp only
        split
        · exact .pure _
        · exact hgo remaining _ rfl

theorem termCount?_le {lower upper : F} {count : Nat} (h : termCount? lower upper = some count) :
    (count : Int) ≤ maxSeriesTerms := by
  rcases Option.map_eq_some_iff.mp h with ⟨n, hn, rfl⟩
  have hlimit := of_decide_eq_true (Option.filter_eq_some_iff.mp hn).2
  rw [maxSeriesTerms] at hlimit ⊢
  omega

theorem runs_series {lower : F} (upper : F)
    (hgo : ∀ count : Nat, (count : Int) ≤ maxSeriesTerms →
      Runs scope (termsLeft e scope f name body lower count 0 none) fun i =>
        g i (.terms lower count 0 none)) :
    Runs scope (series (Machine.combination f) (if f = .sum then zero else one)
      (fun x => e body (scope.bind name (.ofReal x))) lower upper) fun i =>
        Machine.series (g i) f lower upper := by
  simp only [series, Machine.series]
  split
  · exact .pure _
  · cases hcount : termCount? lower upper with
    | none => exact .pure _
    | some count => exact hgo count (termCount?_le hcount)

/-! ### Integrals -/

/-- The function whose values are sampled. -/
def sampled (e : Expr → Evaluator F) (scope : Scope F) (name : String) (body : Expr) (x : F) :
    ApproximateM (ComplexNumber F) :=
  (operand e body).sample scope name x

/-- The integral over a segment that is left, as a result. -/
def halvingLeft (e : Expr → Evaluator F) (scope : Scope F) (name : String) (body : Expr)
    (halvings : Nat) (tolerance : F) (segment : Segment F) : ApproximateM (Evaluation F) :=
  Evaluation.scalar <$> refine (sampled e scope name body) halvings tolerance segment

/-- A number that is passed on as a result. -/
theorem Runs.bind_scalar {α : Type} {p : ApproximateM (ComplexNumber F)}
    {m : ι → MachineM F (Evaluation F)} {q : ComplexNumber F → ApproximateM α}
    {k : ι → Evaluation F → MachineM F α} (h : Runs scope (Evaluation.scalar <$> p) m)
    (hk : ∀ value, Runs scope (q value.toComplex) fun i => k i value) :
    Runs scope (p >>= q) fun i => m i >>= k i := by
  have hpassed : p >>= q = (Evaluation.scalar <$> p) >>= fun value => q value.toComplex := by
    rw [bind_map_left]
    rfl
  rw [hpassed]
  exact h.bind hk

theorem runs_halving (hbody : Serves scope.expanding (e body) fun i => c i body) {halvings : Nat}
    {tolerance : F} {segment : Segment F}
    (hgo : ∀ halvings' tolerance' segment', halvings' + 1 = halvings →
      Runs scope (halvingLeft e scope name body halvings' tolerance' segment') fun i =>
        g i (.halving halvings' tolerance' segment')) :
    Runs scope (halvingLeft e scope name body halvings tolerance segment) fun i =>
      Machine.halving (c i) (g i) name body halvings tolerance segment := by
  cases halvings with
  | zero =>
      rw [halvingLeft, refine]
      simp only [map_bind]
      refine (runs_sample hbody _).bind fun first => (runs_sample hbody _).bind fun second => ?_
      refine .unlessInterrupted _ ?_
      dsimp only
      split
      · exact .pure _
      · exact .pure _
  | succ halvings =>
      rw [halvingLeft, refine]
      simp only [map_bind]
      refine (runs_sample hbody _).bind fun first => (runs_sample hbody _).bind fun second => ?_
      refine .unlessInterrupted _ ?_
      dsimp only
      split
      · exact .pure _
      · split
        · exact .pure _
        · simp only [map_bind]
          exact (hgo halvings _ _ rfl).bind_scalar fun left =>
            (hgo halvings _ _ rfl).bind_scalar fun right => .pure _

theorem runs_integral (hbody : Serves scope.expanding (e body) fun i => c i body) {lower upper : F}
    (hgo : ∀ tolerance segment,
      Runs scope (halvingLeft e scope name body maxHalvings tolerance segment) fun i =>
        g i (.halving maxHalvings tolerance segment)) :
    Runs scope (Evaluation.scalar <$> integral (sampled e scope name body) lower upper) fun i =>
      Machine.integral (c i) (g i) name body lower upper := by
  rw [integral]
  simp only [Machine.integral]
  split
  · exact .pure _
  · simp only [map_bind]
    refine (runs_sample hbody _).bind fun atStart => (runs_sample hbody _).bind fun atMiddle =>
      (runs_sample hbody _).bind fun atStop => ?_
    split
    · exact .pure _
    · rw [map_bind]
      refine (hgo _ _).bind_scalar fun value => ?_
      exact .pure _

/-! ### Derivatives -/

theorem runs_centralDifference (hbody : Serves scope.expanding (e body) fun i => c i body)
    (x width : F) :
    Runs scope (centralDifference (sampled e scope name body) x width) fun i =>
      Machine.centralDifference (c i) name body x width :=
  (runs_sample hbody _).bind fun _ => (runs_sample hbody _).bind fun _ => .pure _

theorem runs_derivative (hbody : Serves scope.expanding (e body) fun i => c i body) (x : F) :
    Runs scope (Evaluation.scalar <$> derivative (sampled e scope name body) x) fun i =>
      Machine.derivative (c i) name body x := by
  simp only [derivative, map_bind]
  exact (runs_centralDifference hbody x _).bind fun _ =>
    (runs_centralDifference hbody x _).bind fun _ => .pure _

/-! ### The operators -/

/-- The stages that follow the beginning of a series or an integral do what is left of it. -/
structure GoesOn (e : Expr → Evaluator F) (scope : Scope F)
    (g : ι → Machine.Stage F → MachineM F (Evaluation F)) (f : Operator) (xs : List Expr) :
    Prop where
  terms : ∀ body name lower upper, xs = [body, .symbol name, lower, upper] →
    ∀ (a : F) (count : Nat), (count : Int) ≤ maxSeriesTerms →
      Runs scope (termsLeft e scope f name body a count 0 none) fun i => g i (.terms a count 0 none)
  halving : ∀ body name lower upper, xs = [body, .symbol name, lower, upper] →
    ∀ tolerance segment, Runs scope (halvingLeft e scope name body maxHalvings tolerance segment)
      fun i => g i (.halving maxHalvings tolerance segment)

theorem runs_seriesOperator (hgo : GoesOn e scope g f xs)
    (hxs : ∀ x ∈ xs, Serves scope.expanding (e x) fun i => c i x) :
    Runs scope (seriesOperator f (xs.map (operand e)) scope) fun i =>
      Machine.betweenBounds (c i) (fun _ _ => Machine.series (g i) f) xs := by
  match xs with
  | [] | [_] => exact .pure _
  | [_, y] | [_, y, _] | _ :: y :: _ :: _ :: _ :: _ => cases y <;> exact .pure _
  | [body, y, lower, upper] =>
      cases y with
      | symbol name =>
          refine (runs_real? (hxs lower (by simp))).bind fun start => ?_
          refine (runs_real? (hxs upper (by simp))).bind fun stop => ?_
          cases start with
          | none => cases stop <;> exact .pure _
          | some a =>
              cases stop with
              | none => exact .pure _
              | some b =>
                  have hseries := runs_series b (hgo.terms body name lower upper rfl a)
                  by_cases hf : f = .sum
                  · simp only [Machine.combination, if_pos hf] at hseries
                    simp only [if_pos hf]
                    exact hseries
                  · simp only [Machine.combination, if_neg hf] at hseries
                    simp only [if_neg hf]
                    exact hseries
      | _ => exact .pure _

theorem runs_integralOperator (hgo : GoesOn e scope g f xs)
    (hxs : ∀ x ∈ xs, Serves scope.expanding (e x) fun i => c i x) :
    Runs scope (integralOperator (xs.map (operand e)) scope) fun i =>
      Machine.betweenBounds (c i) (Machine.integral (c i) (g i)) xs := by
  match xs with
  | [] | [_] => exact .pure _
  | [_, y] | [_, y, _] | _ :: y :: _ :: _ :: _ :: _ => cases y <;> exact .pure _
  | [body, y, lower, upper] =>
      cases y with
      | symbol name =>
          refine (runs_real? (hxs lower (by simp))).bind fun start => ?_
          refine (runs_real? (hxs upper (by simp))).bind fun stop => ?_
          cases start with
          | none => cases stop <;> exact .pure _
          | some a =>
              cases stop with
              | none => exact .pure _
              | some b =>
                  exact runs_integral (hxs body (by simp)) (hgo.halving body name lower upper rfl)
      | _ => exact .pure _

theorem runs_derivativeOperator (hxs : ∀ x ∈ xs, Serves scope.expanding (e x) fun i => c i x) :
    Runs scope (derivativeOperator (xs.map (operand e)) scope) fun i =>
      Machine.derivativeOperator (c i) xs := by
  match xs with
  | [] | [_] => exact .pure _
  | [_, y] | _ :: y :: _ :: _ :: _ => cases y <;> exact .pure _
  | [body, y, point] =>
      cases y with
      | symbol name =>
          refine (runs_real? (hxs point (by simp))).bind fun x => ?_
          cases x with
          | none => exact .pure _
          | some x => exact runs_derivative (hxs body (by simp)) x
      | _ => exact .pure _

end Approximation

end PocketAlgebra
