import PocketAlgebra.Pool.Basic

/-!
# Trees in a pool

The expression that a key stands for, and the nodes of an expression that is put into a pool.
-/

namespace PocketAlgebra

namespace Pool

/-- The expression of a key, down to so many levels. -/
def readWithin (p : Pool) : Nat → Nat → Expr
  | 0, _ => .undefined
  | levels + 1, key =>
    match p.node? key with
    | some node => node.head.withOperands (node.children.map (p.readWithin levels))
    | none => .undefined

/-- The expression of a key. A stale key stands for the undefined expression. Operands are
allocated before the nodes over them and have lesser keys, so there are no more levels than keys. -/
def read (p : Pool) (key : Nat) : Expr :=
  p.readWithin (key + 1) key

mutual

/-- Allocates the nodes of an expression, with one reference to the topmost. -/
def insert (p : Pool) : Expr → Except Shortage (Nat × Pool)
  | .apply f xs => do
    let (keys, p) ← p.insertAll xs
    let (key, p) ← p.allocate (.apply f []) keys
    return (key, p.releaseAll keys)
  | x => p.allocate x []

/-- Allocates the nodes of several expressions. -/
def insertAll (p : Pool) : List Expr → Except Shortage (List Nat × Pool)
  | [] => .ok ([], p)
  | x :: xs => do
    let (key, p) ← p.insert x
    let (keys, p) ← p.insertAll xs
    return (key :: keys, p)

end

/-! ## Copies -/

/-- The outcome of an operation that makes something, and the pool it leaves if it succeeds. -/
def commit {α : Type} : Except Shortage α × Pool → Except Shortage (α × Pool)
  | (.ok made, p) => .ok (made, p)
  | (.error shortage, _) => .error shortage

/-- Allocates a node over operands whose handles it takes over. -/
def allocateOver (p : Pool) (head : Expr) (keys : List Nat) : Except Shortage Nat × Pool :=
  match p.allocate head keys with
  | .ok (key, q) => (.ok key, q.releaseAll keys)
  | .error shortage => (.error shortage, p.releaseAll keys)

/-- Copies trees one after the other. Where one of them cannot be copied, those that were made are
dropped again. -/
def copyAll (copyOne : Pool → Nat → Except Shortage Nat × Pool) (p : Pool) (made : List Nat) :
    List Nat → Except Shortage (List Nat) × Pool
  | [] => (.ok made, p)
  | key :: keys =>
    match copyOne p key with
    | (.ok fresh, q) => copyAll copyOne q (made ++ [fresh]) keys
    | (.error shortage, q) => (.error shortage, q.releaseAll made)

/-- Copies the tree below a key, down to so many levels. -/
def copyWithin : Nat → Pool → Nat → Except Shortage Nat × Pool
  | 0, p, _ => p.allocateOver .undefined []
  | levels + 1, p, key =>
    match p.node? key with
    | some node =>
      match copyAll (copyWithin levels) p [] node.children with
      | (.ok keys, q) => q.allocateOver node.head keys
      | (.error shortage, q) => (.error shortage, q)
    | none => p.allocateOver .undefined []

/-- Copies the tree below a key. A stale key is copied as the undefined expression, and there are no
more levels than keys, as in reading. -/
def copying (p : Pool) (key : Nat) : Except Shortage Nat × Pool :=
  copyWithin (key + 1) p key

/-- Allocates a copy of the tree below a key. -/
def copy (p : Pool) (key : Nat) : Except Shortage (Nat × Pool) :=
  commit (p.copying key)

end Pool

end PocketAlgebra
