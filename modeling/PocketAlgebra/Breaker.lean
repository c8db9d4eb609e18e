/-!
# Circuit breakers

A breaker stops a computation that asks it before every step. It stops once it has been tripped,
and it trips by itself when its budget of steps, if it has one, is used up.
-/

namespace PocketAlgebra

/-- A breaker: whether it has been tripped, and how many steps are left. -/
structure Breaker where
  tripped : Bool := false
  budget : Option Nat := none
  deriving DecidableEq, Repr

namespace Breaker

/-- A breaker that lets so many steps pass. -/
def withBudget (steps : Nat) : Breaker :=
  ⟨false, some steps⟩

/-- Stops the computation. -/
def trip (b : Breaker) : Breaker :=
  { b with tripped := true }

/-- Lets the computation go on. The budget is not restored. -/
def reset (b : Breaker) : Breaker :=
  { b with tripped := false }

/-- Takes a step off the budget. The answer tells whether the computation must stop. -/
def poll (b : Breaker) : Bool × Breaker :=
  match b.budget with
  | none => (b.tripped, b)
  | some 0 => (true, b.trip)
  | some (steps + 1) => (b.tripped, { b with budget := some steps })

end Breaker

end PocketAlgebra
