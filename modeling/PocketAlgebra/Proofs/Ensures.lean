/-!
# What steps ensure

Steps with a state, each of which may fail: what one that is successful makes of the state and what
it gives, and for which causes it may fail.
-/

namespace PocketAlgebra

/-- A step that is successful ends as described, and one that fails does it for one of the given
causes. -/
def Ensures {σ ε α : Type} (causes : ε → Prop) (step : StateT σ (Except ε) α) (s : σ)
    (post : α → σ → Prop) : Prop :=
  match step s with
  | .ok (x, s') => post x s'
  | .error e => causes e

/-- Any cause at all. -/
def anyCause {ε : Type} : ε → Prop :=
  fun _ => True

namespace Ensures

variable {σ ε α β : Type} {causes : ε → Prop} {step : StateT σ (Except ε) α}
  {next : α → StateT σ (Except ε) β} {s : σ} {post : α → σ → Prop} {after : β → σ → Prop}

theorem of_ok {x : α} {s' : σ} (h : Ensures causes step s post) (hok : step s = .ok (x, s')) :
    post x s' := by
  rwa [Ensures, hok] at h

theorem pure {x : α} (h : post x s) : Ensures causes (Pure.pure x) s post :=
  h

theorem throw {e : ε} (h : causes e) :
    Ensures causes (MonadExcept.throw e : StateT σ (Except ε) α) s post :=
  h

theorem bind (h : Ensures causes step s fun x s' => Ensures causes (next x) s' after) :
    Ensures causes (step >>= next) s after := by
  have hbind : (step >>= next) s = step s >>= fun r => next r.1 r.2 := rfl
  rw [Ensures, hbind]
  cases hstep : step s with
  | error e => rwa [Ensures, hstep] at h
  | ok r => exact h.of_ok hstep

theorem mono {post' : α → σ → Prop} (h : Ensures causes step s post)
    (hpost : ∀ x s', post x s' → post' x s') : Ensures causes step s post' := by
  cases hstep : step s with
  | error e => rwa [Ensures, hstep] at h ⊢
  | ok r =>
      rw [Ensures, hstep]
      exact hpost r.1 r.2 (h.of_ok hstep)

theorem ite {c : Prop} [Decidable c] {other : StateT σ (Except ε) α}
    (h : c → Ensures causes step s post) (h' : ¬ c → Ensures causes other s post) :
    Ensures causes (if c then step else other) s post := by
  split
  · exact h ‹_›
  · exact h' ‹_›

/-- A step may be replaced by one that does the same. -/
theorem of_eq {step' : StateT σ (Except ε) α} (h : step s = step' s)
    (h' : Ensures causes step' s post) : Ensures causes step s post := by
  rwa [Ensures, h]

end Ensures

/-- Where a step is successful, it ends as described. -/
theorem ensures_of_ok {σ ε α : Type} {step : StateT σ (Except ε) α} {s : σ}
    {post : α → σ → Prop} (h : ∀ x s', step s = .ok (x, s') → post x s') :
    Ensures anyCause step s post := by
  cases hstep : step s with
  | error e =>
      rw [Ensures, hstep]
      trivial
  | ok r =>
      rw [Ensures, hstep]
      exact h r.1 r.2 hstep

end PocketAlgebra
