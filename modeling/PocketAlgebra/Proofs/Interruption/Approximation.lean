import PocketAlgebra.Approximation.Engine
import PocketAlgebra.Proofs.Interruption.Reduction
import PocketAlgebra.Proofs.Reduction.Yields

/-!
# Interrupted approximations

An approximation ends without a result as soon as its breaker stops it. Where it has a result under
some breaker, none of the steps was stopped, and the result is the one that is found where nothing
stops it: a partial series or integral never passes for a complete one.
-/

namespace PocketAlgebra

namespace Approximation

variable {F : Type} [Scalar F]

/-- A second computation has the result of a first one wherever that has one, under every breaker
that lasts as long. -/
def Prolongs {α : Type} (m m' : ApproximateM α) : Prop :=
  ∀ b b', b'.Outlasts b → ∀ a c, m b = some (a, c) → ∃ c', m' b' = some (a, c') ∧ c'.Outlasts c

namespace Prolongs

variable {α β ι : Type} {m m' : ApproximateM α}

theorem pure (a : α) : Prolongs (Pure.pure a) (Pure.pure a) := by
  intro b b' hb _ _ h
  cases h
  exact ⟨b', rfl, hb⟩

theorem failure : Prolongs (α := α) failure m' :=
  fun _ _ _ _ _ h => nomatch h

theorem bind {k k' : α → ApproximateM β} (hm : Prolongs m m') (hk : ∀ a, Prolongs (k a) (k' a)) :
    Prolongs (m >>= k) (m' >>= k') := by
  intro b b' hb z d h
  change (m b).bind (fun s => k s.1 s.2) = some (z, d) at h
  rcases Option.bind_eq_some_iff.mp h with ⟨s, hfirst, hsecond⟩
  rcases hm b b' hb s.1 s.2 hfirst with ⟨c', hfirst', hc⟩
  rcases hk s.1 s.2 c' hc z d hsecond with ⟨d', hsecond', hd⟩
  refine ⟨d', ?_, hd⟩
  change (m' b').bind (fun s => k' s.1 s.2) = some (z, d')
  rw [hfirst']
  exact hsecond'

theorem map (g : α → β) (hm : Prolongs m m') : Prolongs (g <$> m) (g <$> m') := by
  rw [map_eq_pure_bind, map_eq_pure_bind]
  exact hm.bind fun a => .pure (g a)

theorem mapM {f f' : ι → ApproximateM α} {xs : List ι} (hf : ∀ x ∈ xs, Prolongs (f x) (f' x)) :
    Prolongs (xs.mapM f) (xs.mapM f') := by
  induction xs with
  | nil =>
      rw [List.mapM_nil, List.mapM_nil]
      exact .pure []
  | cons x xs ih =>
      rw [List.mapM_cons, List.mapM_cons]
      refine (hf x List.mem_cons_self).bind fun y => ?_
      exact (ih fun z hz => hf z (List.mem_cons_of_mem x hz)).bind fun ys => .pure (y :: ys)

end Prolongs

theorem prolongs_checkBreaker : Prolongs checkBreaker checkBreaker := by
  intro b b' hb a c h
  cases hstop : b.poll.1 with
  | true =>
      change ((if b.poll.1 then failure else return ()) : ApproximateM Unit) b.poll.2 = _ at h
      rw [hstop] at h
      cases h
  | false =>
      rcases hb.poll hstop with ⟨hstop', hafter⟩
      change ((if b.poll.1 then failure else return ()) : ApproximateM Unit) b.poll.2 = _ at h
      rw [hstop] at h
      cases h
      refine ⟨b'.poll.2, ?_, hafter⟩
      change ((if b'.poll.1 then failure else return ()) : ApproximateM Unit) b'.poll.2 = _
      rw [hstop']
      rfl

/-! ## Series, integrals and derivatives -/

theorem prolongs_combineTerms {combine : Evaluation F → Evaluation F → Evaluation F}
    {term term' : Nat → ApproximateM (Evaluation F)}
    (hterm : ∀ step, Prolongs (term step) (term' step)) (remaining step : Nat)
    (partialResult : Option (Evaluation F)) :
    Prolongs (combineTerms combine term remaining step partialResult)
      (combineTerms combine term' remaining step partialResult) := by
  induction remaining generalizing step partialResult with
  | zero => exact .pure _
  | succ remaining ih =>
      rw [combineTerms, combineTerms]
      refine prolongs_checkBreaker.bind fun _ => (hterm step).bind fun value => ?_
      cases partialResult
      all_goals
        dsimp only
        split
        · exact .pure _
        · exact ih _ _

theorem prolongs_series {combine : Evaluation F → Evaluation F → Evaluation F} {neutral : F}
    {term term' : F → ApproximateM (Evaluation F)} (hterm : ∀ x, Prolongs (term x) (term' x))
    (lower upper : F) :
    Prolongs (series combine neutral term lower upper)
      (series combine neutral term' lower upper) := by
  rw [series, series]
  split
  · exact .pure _
  · cases termCount? lower upper with
    | none => exact .pure _
    | some count => exact prolongs_combineTerms (fun step => hterm _) _ _ _

variable {f f' : F → ApproximateM (ComplexNumber F)}

theorem prolongs_refine (hf : ∀ x, Prolongs (f x) (f' x)) (halvings : Nat) (tolerance : F)
    (s : Segment F) : Prolongs (refine f halvings tolerance s) (refine f' halvings tolerance s) := by
  induction halvings generalizing tolerance s with
  | zero =>
      rw [refine, refine]
      refine (hf _).bind fun first => (hf _).bind fun second => ?_
      dsimp only
      split <;> exact .pure _
  | succ halvings ih =>
      rw [refine, refine]
      refine (hf _).bind fun first => (hf _).bind fun second => ?_
      dsimp only
      split
      · exact .pure _
      · split
        · exact .pure _
        · exact (ih _ _).bind fun left => (ih _ _).bind fun right => .pure _

theorem prolongs_integral (hf : ∀ x, Prolongs (f x) (f' x)) (lower upper : F) :
    Prolongs (integral f lower upper) (integral f' lower upper) := by
  rw [integral, integral]
  dsimp only
  split
  · exact .pure _
  · refine (hf _).bind fun atStart => (hf _).bind fun atMiddle => (hf _).bind fun atStop => ?_
    split
    · exact .pure _
    · exact (prolongs_refine hf _ _ _).bind fun value => .pure _

theorem prolongs_centralDifference (hf : ∀ x, Prolongs (f x) (f' x)) (x width : F) :
    Prolongs (centralDifference f x width) (centralDifference f' x width) :=
  (hf _).bind fun _ => (hf _).bind fun _ => .pure _

theorem prolongs_derivative (hf : ∀ x, Prolongs (f x) (f' x)) (x : F) :
    Prolongs (derivative f x) (derivative f' x) :=
  (prolongs_centralDifference hf _ _).bind fun _ =>
    (prolongs_centralDifference hf _ _).bind fun _ => .pure _

/-! ## Operands -/

/-- An evaluator has the results of another one in every scope. -/
def EvaluatorProlongs (e e' : Evaluator F) : Prop :=
  ∀ scope, Prolongs (e scope) (e' scope)

variable {ctx : Context} {expand expand' e e' : Expr → Evaluator F} {x : Expr} {xs : List Expr}

theorem prolongs_complex (hx : EvaluatorProlongs (e x) (e' x)) (scope : Scope F) :
    Prolongs ((operand e x).complex scope) ((operand e' x).complex scope) :=
  (hx scope).map _

theorem prolongs_real? (hx : EvaluatorProlongs (e x) (e' x)) (scope : Scope F) :
    Prolongs ((operand e x).real? scope) ((operand e' x).real? scope) :=
  (prolongs_complex hx scope).bind fun _ => .pure _

theorem prolongs_sample (hx : EvaluatorProlongs (e x) (e' x)) (scope : Scope F) (name : String)
    (value : F) :
    Prolongs ((operand e x).sample scope name value) ((operand e' x).sample scope name value) :=
  prolongs_complex hx _

omit [Scalar F] in
theorem prolongs_collect? {α : Type} {read : Evaluation F → Option α}
    (hxs : ∀ x ∈ xs, EvaluatorProlongs (e x) (e' x)) (scope : Scope F) :
    Prolongs (collect? read scope (xs.map (operand e)))
      (collect? read scope (xs.map (operand e'))) := by
  induction xs with
  | nil => exact .pure _
  | cons x xs ih =>
      simp only [List.map_cons, collect?]
      refine (hxs x List.mem_cons_self scope).bind fun value => ?_
      cases read value with
      | some _ => exact (ih fun y hy => hxs y (List.mem_cons_of_mem x hy)).bind fun _ => .pure _
      | none => exact .pure _

theorem prolongs_numbers (hxs : ∀ x ∈ xs, EvaluatorProlongs (e x) (e' x)) (scope : Scope F) :
    Prolongs ((xs.map (operand e)).mapM fun x => x.complex scope)
      ((xs.map (operand e')).mapM fun x => x.complex scope) := by
  rw [List.mapM_map, List.mapM_map]
  exact .mapM fun x hx => prolongs_complex (hxs x hx) scope

/-! ## Operators -/

theorem prolongs_symbol (hexpand : ∀ x, EvaluatorProlongs (expand x) (expand' x)) (name : String) :
    EvaluatorProlongs (symbol ctx expand name) (symbol ctx expand' name) := by
  intro scope
  rw [symbol, symbol]
  split
  · exact .pure _
  · split
    · exact .pure _
    · split
      · exact hexpand _ _
      · exact .pure _

theorem prolongs_userFunction (hexpand : ∀ x, EvaluatorProlongs (expand x) (expand' x))
    (name : String) (hxs : ∀ x ∈ xs, EvaluatorProlongs (e x) (e' x)) :
    EvaluatorProlongs (userFunction ctx expand name (xs.map (operand e)))
      (userFunction ctx expand' name (xs.map (operand e'))) := by
  intro scope
  cases xs with
  | nil => exact .pure _
  | cons x xs =>
      refine (prolongs_complex (hxs x List.mem_cons_self) scope).bind fun argument => ?_
      split
      · exact .pure _
      · split
        · exact hexpand _ _
        · exact .pure _

theorem prolongs_ofFirst (g : Evaluation F → Evaluation F)
    (hxs : ∀ x ∈ xs, EvaluatorProlongs (e x) (e' x)) :
    EvaluatorProlongs (ofFirst g (xs.map (operand e))) (ofFirst g (xs.map (operand e'))) := by
  intro scope
  cases xs with
  | nil => exact .pure _
  | cons x xs => exact (hxs x List.mem_cons_self scope).bind fun _ => .pure _

theorem prolongs_ofTwo (g : Evaluation F → Evaluation F → Evaluation F)
    (hxs : ∀ x ∈ xs, EvaluatorProlongs (e x) (e' x)) :
    EvaluatorProlongs (ofTwo g (xs.map (operand e))) (ofTwo g (xs.map (operand e'))) := by
  intro scope
  match xs with
  | [] | [_] => exact .pure _
  | x :: y :: _ =>
      exact (hxs x (by simp) scope).bind fun _ => (hxs y (by simp) scope).bind fun _ => .pure _

theorem prolongs_ofAll (g : Evaluation F → Evaluation F → Evaluation F)
    (hxs : ∀ x ∈ xs, EvaluatorProlongs (e x) (e' x)) :
    EvaluatorProlongs (ofAll g (xs.map (operand e))) (ofAll g (xs.map (operand e'))) := by
  intro scope
  rw [ofAll, ofAll, List.mapM_map, List.mapM_map]
  refine (Prolongs.mapM fun x hx => hxs x hx scope).bind fun values => ?_
  cases values <;> exact .pure _

theorem prolongs_ofNumbers (format : Format) (f : Operator)
    (hxs : ∀ x ∈ xs, EvaluatorProlongs (e x) (e' x)) :
    EvaluatorProlongs (ofNumbers format f (xs.map (operand e)))
      (ofNumbers format f (xs.map (operand e'))) :=
  fun scope => (prolongs_numbers hxs scope).bind fun _ => .pure _

theorem prolongs_matrix (rows columns : Nat) (hxs : ∀ x ∈ xs, EvaluatorProlongs (e x) (e' x)) :
    EvaluatorProlongs (matrix rows columns (xs.map (operand e)))
      (matrix rows columns (xs.map (operand e'))) := by
  intro scope
  refine (prolongs_collect? hxs scope).bind fun values => ?_
  cases values <;> exact .pure _

theorem prolongs_list (hxs : ∀ x ∈ xs, EvaluatorProlongs (e x) (e' x)) :
    EvaluatorProlongs (list (xs.map (operand e))) (list (xs.map (operand e'))) := by
  intro scope
  refine (prolongs_collect? hxs scope).bind fun values => ?_
  cases values <;> exact .pure _

theorem prolongs_ofLists (f : Operator) (hxs : ∀ x ∈ xs, EvaluatorProlongs (e x) (e' x)) :
    EvaluatorProlongs (ofLists f (xs.map (operand e))) (ofLists f (xs.map (operand e'))) := by
  intro scope
  refine (prolongs_collect? hxs scope).bind fun values => ?_
  cases values <;> exact .pure _

theorem prolongs_powerOperator (format : ComplexFormat)
    (hxs : ∀ x ∈ xs, EvaluatorProlongs (e x) (e' x)) :
    EvaluatorProlongs (powerOperator format (xs.map (operand e)))
      (powerOperator format (xs.map (operand e'))) := by
  intro scope
  match xs with
  | [] | [_] => exact .pure _
  | x :: y :: _ =>
      exact (hxs x (by simp) scope).bind fun _ =>
        (prolongs_complex (hxs y (by simp)) scope).bind fun _ => .pure _

/-! ## Functions that bind a variable -/

theorem prolongs_seriesOperator (f : Operator) (hxs : ∀ x ∈ xs, EvaluatorProlongs (e x) (e' x)) :
    EvaluatorProlongs (seriesOperator f (xs.map (operand e)))
      (seriesOperator f (xs.map (operand e'))) := by
  intro scope
  match xs with
  | [] | [_] => exact .pure _
  | [_, y] | [_, y, _] | _ :: y :: _ :: _ :: _ :: _ => cases y <;> exact .pure _
  | [body, y, lower, upper] =>
      cases y with
      | symbol name =>
          refine (prolongs_real? (hxs lower (by simp)) scope).bind fun start => ?_
          refine (prolongs_real? (hxs upper (by simp)) scope).bind fun stop => ?_
          split
          · have hterm : ∀ x : F, Prolongs (e body (scope.bind name (.ofReal x)))
                (e' body (scope.bind name (.ofReal x))) :=
              fun x => hxs body (by simp) _
            dsimp only
            split
            · exact prolongs_series hterm _ _
            · exact prolongs_series hterm _ _
          · exact .pure _
      | _ => exact .pure _

theorem prolongs_integralOperator (hxs : ∀ x ∈ xs, EvaluatorProlongs (e x) (e' x)) :
    EvaluatorProlongs (integralOperator (xs.map (operand e)))
      (integralOperator (xs.map (operand e'))) := by
  intro scope
  match xs with
  | [] | [_] => exact .pure _
  | [_, y] | [_, y, _] | _ :: y :: _ :: _ :: _ :: _ => cases y <;> exact .pure _
  | [body, y, lower, upper] =>
      cases y with
      | symbol name =>
          refine (prolongs_real? (hxs lower (by simp)) scope).bind fun start => ?_
          refine (prolongs_real? (hxs upper (by simp)) scope).bind fun stop => ?_
          split
          · exact (prolongs_integral (prolongs_sample (hxs body (by simp)) scope name) _ _).map _
          · exact .pure _
      | _ => exact .pure _

theorem prolongs_derivativeOperator (hxs : ∀ x ∈ xs, EvaluatorProlongs (e x) (e' x)) :
    EvaluatorProlongs (derivativeOperator (xs.map (operand e)))
      (derivativeOperator (xs.map (operand e'))) := by
  intro scope
  match xs with
  | [] | [_] => exact .pure _
  | [_, y] | _ :: y :: _ :: _ :: _ => cases y <;> exact .pure _
  | [body, y, point] =>
      cases y with
      | symbol name =>
          refine (prolongs_real? (hxs point (by simp)) scope).bind fun x => ?_
          split
          · exact (prolongs_derivative (prolongs_sample (hxs body (by simp)) scope name) _).map _
          · exact .pure _
      | _ => exact .pure _

/-! ## All expressions -/

theorem prolongs_evaluateApply (hexpand : ∀ x, EvaluatorProlongs (expand x) (expand' x))
    (f : Operator) (hxs : ∀ x ∈ xs, EvaluatorProlongs (e x) (e' x)) :
    EvaluatorProlongs (evaluateApply ctx expand f (xs.map (operand e)))
      (evaluateApply ctx expand' f (xs.map (operand e'))) := by
  cases f with
  | undefined | nonreal | comparison => exact fun _ => .pure _
  | function name => exact prolongs_userFunction hexpand name hxs
  | parenthesis | store => exact prolongs_ofFirst _ hxs
  | matrix rows columns => exact prolongs_matrix rows columns hxs
  | list => exact prolongs_list hxs
  | addition | multiplication => exact prolongs_ofAll _ hxs
  | subtraction | division => exact prolongs_ofTwo _ hxs
  | opposite => exact prolongs_ofFirst _ hxs
  | power => exact prolongs_powerOperator _ hxs
  | determinant | matrixInverse | trace | transpose | dimension => exact prolongs_ofFirst _ hxs
  | listSum | listMean => exact prolongs_ofLists _ hxs
  | derivative => exact prolongs_derivativeOperator hxs
  | integral => exact prolongs_integralOperator hxs
  | sum | product => exact prolongs_seriesOperator _ hxs
  | _ => exact prolongs_ofNumbers _ _ hxs

mutual

theorem prolongs_evaluateTree (hexpand : ∀ x, EvaluatorProlongs (expand x) (expand' x)) :
    ∀ x, EvaluatorProlongs (evaluateTree ctx expand x) (evaluateTree ctx expand' x)
  | .rational _ | .decimal _ | .infinity _ | .constant _ => fun _ =>
      prolongs_checkBreaker.bind fun _ => .pure _
  | .symbol name => fun scope =>
      prolongs_checkBreaker.bind fun _ => prolongs_symbol hexpand name scope
  | .apply f xs => by
      intro scope
      rw [evaluateTree, evaluateTree, operandsOf_eq_map, operandsOf_eq_map]
      exact prolongs_checkBreaker.bind fun _ =>
        prolongs_evaluateApply hexpand f (prolongs_operands hexpand xs) scope

theorem prolongs_operands (hexpand : ∀ x, EvaluatorProlongs (expand x) (expand' x)) :
    ∀ xs : List Expr, ∀ x ∈ xs,
      EvaluatorProlongs (evaluateTree ctx expand x) (evaluateTree ctx expand' x)
  | [] => List.forall_mem_nil _
  | x :: xs => List.forall_mem_cons.mpr
      ⟨prolongs_evaluateTree hexpand x, prolongs_operands hexpand xs⟩

end

/-- However deep definitions are expanded, no stopped step passes for one that was carried out. -/
theorem prolongs_evaluate (ctx : Context) (levels : Nat) :
    ∀ x, EvaluatorProlongs (F := F) (evaluate ctx levels x) (evaluate ctx levels x) := by
  induction levels with
  | zero => exact prolongs_evaluateTree fun _ _ => .pure _
  | succ levels ih => exact prolongs_evaluateTree ih

end Approximation

/-- Under any breaker an approximation is undefined or what it is without one. -/
theorem Expr.approximate_of_breaker {F : Type} [Scalar F] (x : Expr)
    (ctx : Approximation.Context) (b : Breaker) :
    x.approximate (F := F) ctx b = .undefined ∨
      x.approximate (F := F) ctx b = x.approximate ctx {} := by
  rw [Expr.approximate, Expr.approximate]
  cases h : Approximation.evaluate (F := F) ctx ctx.definitions.size x {} b with
  | none => exact .inl rfl
  | some s =>
      rcases Approximation.prolongs_evaluate ctx _ x {} b {} (Breaker.outlasts_default b) s.1 s.2 h
        with ⟨c, hc, -⟩
      rw [hc]
      exact .inr rfl

/-!
## Answers under a breaker

What a breaker does to an answer: it is given or withheld, but never another one.
-/

open Reduction

/-- A tree that is found within some steps is found within more of them, and without a breaker, also
as the tree of a new handle. Nothing is found once the breaker has been tripped. An approximation is
undefined or the one that is found without a breaker. -/
theorem answers_under_breakers :
    (∀ (x : Expr) (ctx : Context) (n m : Nat) (r : Expr), n ≤ m →
      x.reduce ctx (.withBudget n) = .ok r →
        x.reduce ctx (.withBudget m) = .ok r ∧ x.reduce ctx {} = .ok r) ∧
    (∀ (p : Pool) (key : Nat) (settings : Settings) (definitions : Definitions) (n m : Nat)
      (result : Nat × Pool), n ≤ m →
      p.reduce key settings definitions (.withBudget n) = .ok result →
        p.reduce key settings definitions (.withBudget m) = .ok result ∧
          p.reduce key settings definitions {} = .ok result) ∧
    (∀ (b : Breaker), b.tripped = true →
      (∀ (x : Expr) (ctx : Context) (r : Expr), x.reduce ctx b ≠ .ok r) ∧
      ∀ (p : Pool) (key : Nat) (settings : Settings) (definitions : Definitions)
        (result : Nat × Pool), p.reduce key settings definitions b ≠ .ok result) ∧
    ∀ (F : Type) [Scalar F] (x : Expr) (ctx : Approximation.Context) (b : Breaker),
      x.approximate (F := F) ctx b = .undefined ∨
        x.approximate (F := F) ctx b = x.approximate ctx {} := by
  refine ⟨?_, ?_, ?_, ?_⟩
  · intro x ctx n m r hle h
    exact ⟨Expr.reduce_of_outlasts (Breaker.withBudget_outlasts hle) h,
      Expr.reduce_of_outlasts (Breaker.outlasts_default _) h⟩
  · intro p key settings definitions n m result hle h
    exact ⟨Pool.reduce_of_outlasts (Breaker.withBudget_outlasts hle) h,
      Pool.reduce_of_outlasts (Breaker.outlasts_default _) h⟩
  · intro b hb
    constructor
    · intro x ctx r
      exact Expr.reduce_of_tripped hb
    · intro p key settings definitions result
      exact Pool.reduce_of_tripped hb
  · intro F _ x ctx b
    exact x.approximate_of_breaker ctx b

/-- The sum `x+x` takes three steps. -/
theorem answers_under_breakers_sum : ∃ r,
    (Expr.apply .addition [.symbol "x", .symbol "x"]).reduce ⟨{}, {}, 4096, []⟩
      (.withBudget 3) = .ok r ∧ r.text = "2×x" ∧
    (Expr.apply .addition [.symbol "x", .symbol "x"]).reduce ⟨{}, {}, 4096, []⟩
      (.withBudget 5) = .ok r ∧
    (Expr.apply .addition [.symbol "x", .symbol "x"]).reduce ⟨{}, {}, 4096, []⟩ {} = .ok r ∧
    (Expr.apply .addition [.symbol "x", .symbol "x"]).reduce ⟨{}, {}, 4096, []⟩
      ({} : Breaker).trip ≠ .ok r := by
  have hresult : ((Expr.apply .addition [.symbol "x", .symbol "x"]).reduce ⟨{}, {}, 4096, []⟩
      (.withBudget 3)).toOption.map Expr.text = some "2×x" := by
    decide +kernel
  rcases exists_ok hresult with ⟨r, hr, htext⟩
  have hlonger := answers_under_breakers.1 _ _ 3 5 r (by decide) hr
  exact ⟨r, hr, htext, hlonger.1, hlonger.2, (answers_under_breakers.2.2.1 _ rfl).1 _ _ r⟩

end PocketAlgebra
