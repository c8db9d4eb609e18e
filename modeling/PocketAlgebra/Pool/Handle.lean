import PocketAlgebra.Codec.Tree
import PocketAlgebra.Expr.Order
import PocketAlgebra.Pool.Tree
import PocketAlgebra.Reduction.Engine
import PocketAlgebra.Text.Parser
import PocketAlgebra.Text.Printer

/-!
# Handles

Outside of a pool, expressions are held by handles, each of which is a reference to a node. A node
becomes an operand of one node at most: where it is one already, a copy of it is made. Operations
that take handles over use them up.
-/

namespace PocketAlgebra

/-- Why a pool refuses to make an expression. -/
inductive PoolError where
  | outOfMemory (shortage : Shortage)
  | foreignNode
  | matrixShape (rows columns entries : Nat)
  deriving DecidableEq, Repr

namespace PoolError

/-- The text that reports a refusal. -/
def message : PoolError → String
  | outOfMemory shortage => shortage.message
  | foreignNode => "expression belongs to another pool"
  | matrixShape rows columns entries =>
    s!"a {rows}x{columns} matrix cannot hold {entries} entries"

/-- The outcome of an allocation. -/
def ofShortage {α : Type} (outcome : Except Shortage α) : Except PoolError α :=
  outcome.mapError outOfMemory

end PoolError

namespace Pool

/-! ## Building -/

/-- Readies handles for being operands of one node: those that are operands already, and those that
have been met before, are replaced by copies. Where there is no room for a copy, all the handles are
dropped. -/
def preparing (p : Pool) (ready : List Nat) : List Nat → Except Shortage (List Nat) × Pool
  | [] => (.ok ready, p)
  | key :: keys =>
    if p.hasParent key || ready.contains key then
      match p.copying key with
      | (.ok fresh, q) => preparing (q.release key) (ready ++ [fresh]) keys
      | (.error shortage, q) => (.error shortage, q.releaseAll (ready ++ key :: keys))
    else
      preparing p (ready ++ [key]) keys

/-- Makes a node over operands whose handles it takes over, also when it fails. -/
def building (p : Pool) (head : Expr) (keys : List Nat) : Except Shortage Nat × Pool :=
  match p.preparing [] keys with
  | (.ok ready, q) => q.allocateOver head ready
  | (.error shortage, q) => (.error shortage, q)

/-- Readied handles, and the pool they are in. -/
def prepare (p : Pool) (ready keys : List Nat) : Except Shortage (List Nat × Pool) :=
  commit (p.preparing ready keys)

/-- A node over operands whose handles it takes over, and the pool it is in. -/
def build (p : Pool) (head : Expr) (keys : List Nat) : Except Shortage (Nat × Pool) :=
  commit (p.building head keys)

/-- A handle: a reference to a node of some pool. -/
structure Handle where
  pool : Nat
  key : Nat
  deriving DecidableEq, Repr

/-- Makes a node over operands whose handles it takes over. The handles must be of this pool; they
are readied one after the other, up to the first one that is not. -/
def make (p : Pool) (head : Expr) (children : List Handle) : Except PoolError (Nat × Pool) :=
  let own := children.takeWhile fun child => child.pool == p.identity
  if own.length = children.length then
    PoolError.ofShortage (p.build head (own.map Handle.key))
  else
    match p.prepare [] (own.map Handle.key) with
    | .ok _ => .error .foreignNode
    | .error shortage => .error (.outOfMemory shortage)

/-- The greatest number of rows and of columns. -/
def maxMatrixSide : Nat :=
  UInt32.size - 1

/-- Makes a matrix, which has as many entries as fit its shape. -/
def matrix (p : Pool) (rows columns : Nat) (entries : List Handle) :
    Except PoolError (Nat × Pool) :=
  if rows ≤ maxMatrixSide && columns ≤ maxMatrixSide && rows * columns = entries.length then
    p.make (.apply (.matrix rows columns) []) entries
  else
    .error (.matrixShape rows columns entries.length)

/-! ## Taking apart -/

/-- A handle to the operand at a position. -/
def child? (p : Pool) (key index : Nat) : Option (Nat × Pool) :=
  (p.childrenOf key)[index]?.map fun child => (child, p.retain child)

/-- Handles to all operands. -/
def children (p : Pool) (key : Nat) : List Nat × Pool :=
  let keys := p.childrenOf key
  (keys, keys.foldl retain p)

/-- Handles to all operands, in exchange for the handle to their node, which is freed if that was
the only reference to it. -/
def intoChildren (p : Pool) (key : Nat) : List Nat × Pool :=
  match p.dismantle? key with
  | some result => result
  | none =>
    let (keys, p) := p.children key
    (keys, p.release key)

/-! ## Substitution -/

mutual

/-- Replaces a symbol in the tree of a handle, which is given as an expression as well, and takes
the handle over. Subtrees without the symbol are left where they are, unless they have to be
copied. -/
def substituteIn (name : String) (value : Nat) (p : Pool) :
    Expr → Nat → Except Shortage (Nat × Pool)
  | .symbol x, key => if x = name then .ok (value, (p.retain value).release key) else .ok (key, p)
  | .apply f xs, key =>
    if Expr.mentionsAny name xs then do
      let (keys, p) := p.intoChildren key
      let (keys, p) ← substituteInAll name value p xs (Expr.sheltered name f xs) keys
      p.build (.apply f []) keys
    else
      .ok (key, p)
  | _, key => .ok (key, p)

/-- The same for several trees, except for those that are sheltered. -/
def substituteInAll (name : String) (value : Nat) (p : Pool) :
    List Expr → List Bool → List Nat → Except Shortage (List Nat × Pool)
  | x :: xs, shelters, key :: keys => do
    let (key, p) ←
      if shelters.headD false then .ok (key, p) else substituteIn name value p x key
    let (keys, p) ← substituteInAll name value p xs shelters.tail keys
    return (key :: keys, p)
  | _, _, keys => .ok (keys, p)

end

/-- Replaces a symbol in the tree of a handle, which is taken over, by the tree of another one. -/
def substitute (p : Pool) (key : Nat) (name : String) (value : Handle) :
    Except PoolError (Nat × Pool) :=
  let x := p.read key
  if value.pool = p.identity || !x.mentions name then
    PoolError.ofShortage (substituteIn name value.key p x key)
  else
    .error .foreignNode

/-! ## Expressions from text, from bytes, and by reduction -/

/-- Reads an expression from text. -/
def parse (p : Pool) (text : String) : Except ParseError (Nat × Pool) := do
  let x ← Expr.parse p.free text
  match p.insert x with
  | .ok result => return result
  | .error shortage => throw ⟨.allocationFailure shortage, ⟨0, 0⟩⟩

/-- Reads an expression from bytes. -/
def decode (p : Pool) (bytes : List UInt8) : Except DecodeError (Nat × Pool) := do
  let x ← Expr.decode p.free bytes
  match p.insert x with
  | .ok result => return result
  | .error shortage => throw (.allocationFailure shortage)

/-- Copies an expression from another pool, by its bytes. Trees that cannot be read back from them
are refused. -/
def importTree (p : Pool) (x : Expr) : Except PoolError (Nat × Pool) :=
  match p.decode x.encode with
  | .ok result => .ok result
  | .error (.allocationFailure shortage) => .error (.outOfMemory shortage)
  | .error _ => .error .foreignNode

/-- Reduces the tree of a handle in the bytes that are free, and puts the result into the pool. -/
def reduce (p : Pool) (key : Nat) (settings : Settings) (definitions : Definitions)
    (breaker : Breaker) : Except Reduction.Failure (Nat × Pool) := do
  let x ← (p.read key).reduce ⟨settings, definitions, p.free, []⟩ breaker
  match p.insert x with
  | .ok result => return result
  | .error _ => throw .outOfMemory

end Pool

/-- An expression, described by its kind and its text. -/
def Expr.describe (x : Expr) : String :=
  "Expression(" ++ x.kind.name ++ ": " ++ x.text ++ ")"

end PocketAlgebra
