import PocketAlgebra.Breaker
import PocketAlgebra.Definitions
import PocketAlgebra.Expr.Sign
import PocketAlgebra.Settings

/-!
# Reduction: what its rules share

Reduction brings an expression into canonical form. Its rules simplify one node whose operands are
reduced already, and build other nodes that are reduced in turn; so every rule takes the reduction
of a node as a parameter, here always called `node`. The recursion is closed in
`PocketAlgebra.Reduction.Engine`.

Canonical expressions use only sums, products and powers for arithmetic: `a - b` becomes
`a + (-1)·b`, `a / b` becomes `a·b^-1`, roots become powers and every logarithm has a base.
-/

namespace PocketAlgebra

namespace Reduction

/-- Why a reduction ends without a result. -/
inductive Failure where
  | interrupted
  | outOfMemory
  deriving DecidableEq, Repr

/-- The text that reports an interrupted reduction. -/
def interruptedMessage : String :=
  "reduction was interrupted"

/-- What a reduction depends on: settings, definitions, the bytes that are free, and the variables
bound around the expression at hand. -/
structure Context where
  settings : Settings := {}
  definitions : Definitions := {}
  room : Nat
  bound : List String := []

/-- Steps of a reduction. They share a breaker, and can fail. -/
abbrev ReduceM :=
  StateT Breaker (Except Failure)

/-- The reduction of a node whose operands are reduced. -/
abbrev NodeReducer :=
  Expr → ReduceM Expr

/-- A reduced sum. -/
def add (node : NodeReducer) (terms : List Expr) : ReduceM Expr :=
  node (.apply .addition terms)

/-- A reduced product. -/
def multiply (node : NodeReducer) (factors : List Expr) : ReduceM Expr :=
  node (.apply .multiplication factors)

/-- A reduced power. -/
def power (node : NodeReducer) (base exponent : Expr) : ReduceM Expr :=
  node (.apply .power [base, exponent])

/-- A reduced opposite. -/
def negate (node : NodeReducer) (x : Expr) : ReduceM Expr :=
  multiply node [.integer (-1), x]

/-- A reduced reciprocal. -/
def invert (node : NodeReducer) (x : Expr) : ReduceM Expr :=
  power node x (.integer (-1))

/-- A poisoned operand, where there is one, spreads to the whole expression; an undefined one goes
before one that is not real. -/
def poison? (operands : List Expr) : Option Expr :=
  if operands.any (·.kind == .undefined) then
    some .undefined
  else if operands.any (·.kind == .nonreal) then
    some .nonreal
  else
    none

mutual

/-- The operands of an expression under an operator and all such operators nested in it; any other
expression is its own only operand. -/
def flatten (f : Operator) : Expr → List Expr
  | .apply g xs => if g = f then flattenAll f xs else [.apply g xs]
  | x => [x]

/-- The same for several expressions, in order. -/
def flattenAll (f : Operator) : List Expr → List Expr
  | [] => []
  | x :: xs => flatten f x ++ flattenAll f xs

end

/-- An operator over operands, where one operand stands for itself and none for the neutral
element. -/
def assemble (f : Operator) (neutral : Int) : List Expr → Expr
  | [] => .integer neutral
  | [x] => x
  | xs => .apply f xs

theorem assemble_of_length (f : Operator) (neutral : Int) {xs : List Expr} (h : 2 ≤ xs.length) :
    assemble f neutral xs = .apply f xs := by
  rcases xs with _ | ⟨x, _ | ⟨y, ys⟩⟩
  · simp at h
  · simp at h
  · rfl

/-! ## Terms of sums and factors of products -/

section Flatten

variable {f : Operator} {x y : Expr} {xs : List Expr}

theorem mem_flattenAll : y ∈ flattenAll f xs ↔ ∃ x ∈ xs, y ∈ flatten f x := by
  induction xs with
  | nil => simp [flattenAll]
  | cons x xs ih => simp [flattenAll, ih]

theorem flatten_of_ne (h : x.kind ≠ f.kind) : flatten f x = [x] := by
  cases x with
  | apply g xs =>
      rw [flatten, if_neg]
      rintro rfl
      exact h rfl
  | _ =>
      rw [flatten]
      intro g xs happly
      cases happly

/-! ## Properties of terms and factors -/

mutual

theorem flatten_forall {f : Operator} {P : Expr → Prop}
    (hP : ∀ xs, P (.apply f xs) → ∀ x ∈ xs, P x) :
    ∀ x, P x → ∀ y ∈ flatten f x, P y
  | .apply g xs, h => by
      rw [flatten]
      split
      · rename_i hg
        exact flattenAll_forall hP xs (hP xs (hg ▸ h))
      · simpa using h
  | .rational _, h | .decimal _, h | .infinity _, h => by simpa [flatten] using h
  | .constant _, h | .symbol _, h => by simpa [flatten] using h

theorem flattenAll_forall {f : Operator} {P : Expr → Prop}
    (hP : ∀ xs, P (.apply f xs) → ∀ x ∈ xs, P x) :
    ∀ xs : List Expr, (∀ x ∈ xs, P x) → ∀ y ∈ flattenAll f xs, P y
  | [], _ => by simp [flattenAll]
  | x :: xs, h => by
      intro y hy
      rw [flattenAll, List.mem_append] at hy
      rcases hy with hy | hy
      · exact flatten_forall hP x (h x List.mem_cons_self) y hy
      · exact flattenAll_forall hP xs
          (fun z hz => h z (List.mem_cons_of_mem x hz)) y hy

end

end Flatten

end Reduction

end PocketAlgebra
