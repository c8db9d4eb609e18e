import PocketAlgebra.Expr.Charge

/-!
# Pools of nodes

A pool holds the nodes of expressions within a budget of bytes. Every node has a key, which is
never given to another node, and counts who refers to it: the nodes that have it among their
operands, and the handles that are held from outside. A node that nobody refers to any more is
freed, and so are the operands that only it referred to.

A key whose node has been freed is *stale*. All operations admit stale keys.
-/

namespace PocketAlgebra

namespace Expr

/-- An expression without its operands. -/
def head : Expr → Expr
  | apply f _ => apply f []
  | x => x

/-- An expression with other operands, where it is one that has operands. -/
def withOperands (x : Expr) (operands : List Expr) : Expr :=
  match x with
  | apply f _ => apply f operands
  | x => x

end Expr

/-- A node: an expression whose operands are nodes, given by their keys. -/
structure Node where
  key : Nat
  head : Expr
  children : List Nat
  /-- How many operands and handles this node is. -/
  references : Nat
  /-- Whether this node is an operand of another one. -/
  hasParent : Bool

/-- Bytes charged for a node with so many operands. -/
def Node.chargeOf (head : Expr) (count : Nat) : Nat :=
  Charge.header + Charge.reference * count + head.payloadCharge

/-- Bytes charged for a node. -/
def Node.charge (node : Node) : Nat :=
  Node.chargeOf node.head node.children.length

/-- A pool. Its nodes are kept in the order in which they were allocated, the latest one first. -/
structure Pool where
  capacity : Nat
  /-- The number that tells this pool from others. -/
  identity : Nat := 0
  nodes : List Node := []
  used : Nat := 0
  /-- The key of the node that is allocated next. -/
  nextKey : Nat := 0

namespace Pool

/-! ## Looking at a pool -/

/-- A pool without nodes. -/
def empty (capacity identity : Nat) : Pool :=
  { capacity, identity }

/-- The bytes that are left. -/
def free (p : Pool) : Nat :=
  p.capacity - p.used

/-- The number of nodes. -/
def size (p : Pool) : Nat :=
  p.nodes.length

/-- The node with a key, unless the key is stale. -/
def node? (p : Pool) (key : Nat) : Option Node :=
  p.nodes.find? fun node => node.key == key

/-- Whether there is a node with a key. -/
def contains (p : Pool) (key : Nat) : Bool :=
  (p.node? key).isSome

/-- Whether a key is that of an operand of a node. -/
def hasParent (p : Pool) (key : Nat) : Bool :=
  (p.node? key).any Node.hasParent

/-- The keys of the operands of a node. -/
def childrenOf (p : Pool) (key : Nat) : List Nat :=
  ((p.node? key).map Node.children).getD []

/-- A pool, described by its numbers. -/
def describe (p : Pool) : String :=
  "TreePool \x7b nodes: " ++ Nat.repr p.size ++ ", used: " ++ Nat.repr p.used ++ ", capacity: " ++
    Nat.repr p.capacity ++ " \x7d"

/-! ## Changing nodes -/

/-- A pool whose node with a key is replaced by a function of it, which leaves its key alone. -/
def update (p : Pool) (key : Nat) (f : Node → Node) : Pool :=
  { p with nodes := p.nodes.map fun node => if node.key == key then f node else node }

/-- A pool without a node. -/
def remove (p : Pool) (node : Node) : Pool :=
  { p with
    nodes := p.nodes.eraseP fun other => other.key == node.key
    used := p.used - node.charge }

/-- Adds a reference to a node. -/
def retain (p : Pool) (key : Nat) : Pool :=
  p.update key fun node => { node with references := node.references + 1 }

/-- Makes a node an operand of another one. -/
def attach (p : Pool) (key : Nat) : Pool :=
  p.update key fun node => { node with references := node.references + 1, hasParent := true }

/-- Makes a node no operand any more. -/
def detach (p : Pool) (key : Nat) : Pool :=
  p.update key fun node => { node with hasParent := false }

/-- Takes a reference off a node. -/
def decrement (p : Pool) (key : Nat) : Pool :=
  p.update key fun node => { node with references := node.references - 1 }

/-! ## Allocating and freeing -/

/-- Allocates a node over operands, with one reference to it. -/
def allocate (p : Pool) (head : Expr) (children : List Nat) : Except Shortage (Nat × Pool) :=
  let charge := Node.chargeOf head children.length
  if p.free < charge then
    .error ⟨charge, p.free⟩
  else
    let attached := children.foldl attach p
    let node : Node := ⟨p.nextKey, head, children, 1, false⟩
    .ok (p.nextKey, { attached with
      nodes := node :: attached.nodes
      used := p.used + charge
      nextKey := p.nextKey + 1 })

/-- The number of operands of several nodes. -/
def countOperands (nodes : List Node) : Nat :=
  (nodes.flatMap Node.children).length

/-- The number of operands of the nodes of a pool. -/
def operandCount (p : Pool) : Nat :=
  countOperands p.nodes

theorem countOperands_eraseP {nodes : List Node} {key : Nat} {node : Node}
    (h : nodes.find? (fun other => other.key == key) = some node) :
    countOperands (nodes.eraseP fun other => other.key == key) + node.children.length =
      countOperands nodes := by
  unfold countOperands
  induction nodes with
  | nil => simp at h
  | cons other nodes ih =>
      rw [List.find?_cons] at h
      rw [List.eraseP_cons]
      cases hkey : other.key == key with
      | true =>
          rw [hkey] at h
          cases h
          simp only [cond_true, List.flatMap_cons, List.length_append]
          omega
      | false =>
          rw [hkey] at h
          have hrest := ih h
          simp only [cond_false, List.flatMap_cons, List.length_append]
          omega

theorem operandCount_update (p : Pool) (key : Nat) {f : Node → Node}
    (hchildren : ∀ node, (f node).children = node.children) :
    (p.update key f).operandCount = p.operandCount := by
  unfold operandCount countOperands update
  rw [List.flatMap_map]
  congr 2
  funext node
  split
  · rw [hchildren]
  · rfl

theorem operandCount_decrement (p : Pool) (key : Nat) :
    (p.decrement key).operandCount = p.operandCount := by
  apply operandCount_update
  intro _
  rfl

theorem operandCount_foldl_detach (keys : List Nat) (p : Pool) :
    (keys.foldl detach p).operandCount = p.operandCount := by
  induction keys generalizing p with
  | nil => rfl
  | cons key keys ih => exact (ih _).trans (operandCount_update p key fun _ => rfl)

theorem operandCount_remove {p : Pool} {key : Nat} {node : Node}
    (h : p.node? key = some node) :
    (p.remove node).operandCount + node.children.length = p.operandCount := by
  have hkey : node.key = key := by simpa using List.find?_some h
  subst hkey
  exact countOperands_eraseP h

/-- Takes a reference off each of several nodes, and frees nodes that have lost their last one. -/
def releaseAll (p : Pool) (keys : List Nat) : Pool :=
  match keys with
  | [] => p
  | key :: rest =>
    match _h : p.node? key with
    | none => releaseAll p rest
    | some node =>
      if 1 < node.references then
        releaseAll (p.decrement key) rest
      else
        releaseAll (node.children.foldl detach (p.remove node)) (node.children.reverse ++ rest)
termination_by p.operandCount + keys.length
decreasing_by
  · simp
  · rw [operandCount_decrement]
    simp
  · have hcount := operandCount_remove _h
    rw [operandCount_foldl_detach]
    simp only [List.length_append, List.length_reverse, List.length_cons]
    omega

/-- Takes a reference off a node. -/
def release (p : Pool) (key : Nat) : Pool :=
  p.releaseAll [key]

/-- Frees a node that has a single reference, and hands over those to its operands. -/
def dismantle? (p : Pool) (key : Nat) : Option (List Nat × Pool) :=
  match p.node? key with
  | none => none
  | some node =>
    if node.references = 1 then
      some (node.children, node.children.foldl detach (p.remove node))
    else
      none

/-! ## Going back -/

/-- What a pool can be taken back to: the nodes that were there when the next key was this one. -/
structure Checkpoint where
  nextKey : Nat
  deriving DecidableEq, Repr

/-- The present state of a pool, to go back to. -/
def checkpoint (p : Pool) : Checkpoint :=
  ⟨p.nextKey⟩

/-- Takes off the reference that a freed node had to an operand. -/
def orphan (p : Pool) (key : Nat) : Pool :=
  if p.contains key then (p.detach key).release key else p

/-- Frees all nodes that were allocated after a checkpoint. -/
def rollback (p : Pool) (checkpoint : Checkpoint) : Pool :=
  let (later, earlier) := p.nodes.span fun node => checkpoint.nextKey ≤ node.key
  let kept : Pool := { p with
    nodes := earlier
    used := p.used - later.foldr (fun node total => node.charge + total) 0 }
  (later.reverse.flatMap Node.children).foldl orphan kept

end Pool

end PocketAlgebra
