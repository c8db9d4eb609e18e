import Mathlib.Data.List.Basic
import Mathlib.Logic.Relation
import PocketAlgebra.Pool.Handle

/-!
# Work within a pool

Work that makes an expression node by node within a pool. It holds handles while it goes on, which
are those of a world of its own: what others hold on the pool is not among them. Every step can find
that the pool has no room left. Where work fails it leaves the pool as it is at that moment, and the
handles that it holds are dropped.
-/

namespace PocketAlgebra

/-!
## Programs that use a pool

What a program can do with a pool: make expressions over handles, clone and drop handles, take
expressions apart, and go back to checkpoints. A program and its pool make up a world.
-/

/-- A pool, the keys of the handles that are held on it, and the checkpoints taken of it. A key is
listed once for each handle. -/
structure World where
  pool : Pool
  handles : List Nat := []
  checkpoints : List Pool.Checkpoint := []

/-- What is done with a pool. Handles are given by their keys. -/
inductive Operation where
  | build (head : Expr) (keys : List Nat)
  | clone (key : Nat)
  | drop (key : Nat)
  | child (key index : Nat)
  | children (key : Nat)
  | intoChildren (key : Nat)
  | deepClone (key : Nat)
  | checkpoint
  | rollback (checkpoint : Pool.Checkpoint)

/-- The handle that an operation gives, if it succeeds. -/
def granted : Except Shortage Nat → List Nat
  | .ok key => [key]
  | .error _ => []

namespace World

/-- A world at its beginning. -/
def start (capacity identity : Nat) : World :=
  { pool := Pool.empty capacity identity }

/-- Whether an operation uses only handles that are held, and checkpoints that have been taken. -/
def Permits (w : World) : Operation → Prop
  | .build _ keys => List.Subperm keys w.handles
  | .clone key | .drop key | .child key _ | .children key | .intoChildren key | .deepClone key =>
    key ∈ w.handles
  | .checkpoint => True
  | .rollback checkpoint => checkpoint ∈ w.checkpoints

/-- The world after an operation. -/
def perform (w : World) : Operation → World
  | .build head keys =>
    let (outcome, q) := w.pool.building head keys
    { w with pool := q, handles := granted outcome ++ w.handles.diff keys }
  | .clone key => { w with pool := w.pool.retain key, handles := key :: w.handles }
  | .drop key => { w with pool := w.pool.release key, handles := w.handles.erase key }
  | .child key index =>
    match w.pool.child? key index with
    | some (child, q) => { w with pool := q, handles := child :: w.handles }
    | none => w
  | .children key =>
    let (keys, q) := w.pool.children key
    { w with pool := q, handles := keys ++ w.handles }
  | .intoChildren key =>
    let (keys, q) := w.pool.intoChildren key
    { w with pool := q, handles := keys ++ w.handles.erase key }
  | .deepClone key =>
    let (outcome, q) := w.pool.copying key
    { w with pool := q, handles := granted outcome ++ w.handles }
  | .checkpoint => { w with checkpoints := w.pool.checkpoint :: w.checkpoints }
  | .rollback checkpoint => { w with pool := w.pool.rollback checkpoint }

/-- One permitted operation leads from a world to another one. -/
def Step (w w' : World) : Prop :=
  ∃ operation, w.Permits operation ∧ w' = w.perform operation

/-- Any number of permitted operations lead from a world to another one. -/
def Run : World → World → Prop :=
  Relation.ReflTransGen Step

end World

/-! ## Steps of work -/

/-- Steps of work on a pool, each of which may fail. What they have done to the pool stays done. -/
abbrev Working (σ ε : Type) :=
  StateT σ (ExceptT ε (StateM World))

/-- What is reported, in a state, where a pool has no room for a node. -/
class Refusing (σ : Type) (ε : outParam Type) where
  refuse : σ → Shortage → ε

namespace Working

section Sequence

variable {σ ε α β : Type} {work : Working σ ε α} {f : α → Working σ ε β} {s s' : σ} {w w' : World}

/-- What a step does after another one. -/
theorem bind_apply (work : Working σ ε α) (f : α → Working σ ε β) (s : σ) (w : World) :
    (work >>= f) s w =
      (ExceptT.bindCont (fun result => f result.1 result.2) (work s w).1 :
        StateM World (Except ε (β × σ))) (work s w).2 :=
  rfl

theorem bind_ok {a : α} (h : work s w = (.ok (a, s'), w')) : (work >>= f) s w = f a s' w' := by
  rw [bind_apply, h]
  rfl

theorem bind_error {e : ε} (h : work s w = (.error e, w')) :
    (work >>= f) s w = (.error e, w') := by
  rw [bind_apply, h]
  rfl

end Sequence

variable {σ ε : Type}

/-- A step that has nothing to do with the pool. -/
def lift {α : Type} (m : StateT σ (Except ε) α) : Working σ ε α :=
  fun s w => (m s, w)

instance : MonadLift (StateT σ (Except ε)) (Working σ ε) :=
  ⟨lift⟩

/-- The expression that a handle stands for. -/
def look (key : Nat) : Working σ ε Expr :=
  fun s w => (.ok (w.pool.read key, s), w)

/-- The expressions that handles stand for. -/
def lookAll (keys : List Nat) : Working σ ε (List Expr) :=
  fun s w => (.ok (keys.map w.pool.read, s), w)

/-- Drops a handle. -/
def drop (key : Nat) : Working σ ε Unit :=
  fun s w => (.ok ((), s), w.perform (.drop key))

/-- Handles to the operands of a node, in exchange for the handle to the node. -/
def intoChildren (key : Nat) : Working σ ε (List Nat) :=
  fun s w => (.ok ((w.pool.intoChildren key).1, s), w.perform (.intoChildren key))

/-- What is left when work is over: all handles are dropped but the one to the result. -/
def close : Except ε (Nat × σ) × World → Except ε Nat × Pool
  | (.ok (key, _), w) => (.ok key, w.pool.releaseAll (w.handles.erase key))
  | (.error e, w) => (.error e, w.pool.releaseAll w.handles)

/-- Does work on a pool. -/
def run (work : Working σ ε Nat) (start : σ) (p : Pool) : Except ε Nat × Pool :=
  close (work start { pool := p })

variable [Refusing σ ε]

/-- The outcome of an allocation, as that of a step. -/
def settle (s : σ) : Except Shortage Nat → Except ε (Nat × σ)
  | .ok key => .ok (key, s)
  | .error shortage => .error (Refusing.refuse s shortage)

/-- Makes a node over operands whose handles it takes over. -/
def make (head : Expr) (keys : List Nat) : Working σ ε Nat :=
  fun s w => (settle s (w.pool.building head keys).1, w.perform (.build head keys))

/-- Copies the tree of a handle. -/
def copy (key : Nat) : Working σ ε Nat :=
  fun s w => (settle s (w.pool.copying key).1, w.perform (.deepClone key))

mutual

/-- Makes the nodes of an expression, operands first. -/
def plant : Expr → Working σ ε Nat
  | .apply f xs => do make (.apply f []) (← plantAll xs)
  | x => make x []

/-- Makes the nodes of several expressions. -/
def plantAll : List Expr → Working σ ε (List Nat)
  | [] => return []
  | x :: xs => do
    let key ← plant x
    return key :: (← plantAll xs)

end

end Working

end PocketAlgebra
