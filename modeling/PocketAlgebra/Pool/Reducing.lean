import PocketAlgebra.Pool.Work

/-!
# Reduction within a pool

A reduction works on a copy of the tree. It takes nodes apart into their operands, reduces those one
after the other while it holds the others, and makes the node over them that the rule for it is
applied to. Where it fails, the pool is taken back to what it was before.

How a rule works within the pool is a parameter. Here the nodes of what the rule gives are made
beside the node that it is applied to, which is dropped then.
-/

namespace PocketAlgebra

namespace Reduction

instance : Refusing Breaker Failure where
  refuse _ _ := .outOfMemory

namespace Pooled

open Working

/-- Steps of a reduction within a pool. -/
abbrev PoolM :=
  Working Breaker Failure

/-- Makes an expression in exchange for a handle. -/
def exchange (key : Nat) (x : Expr) : PoolM Nat := do
  let made ← plant x
  drop key
  return made

/-- The rule for a node whose operands are reduced. -/
def rule (nesting : Nat) (ctx : Context) (key : Nat) : PoolM Nat := do
  let x ← look key
  exchange key (← reduceWithin nesting ctx (.node x))

/-- Reduces the operands of an expression. Of a function that binds a variable, the first operand
is in its scope, and the second one, which names it, is left alone. -/
def reduceOperands (ctx : Context) (tree : Context → Nat → PoolM Nat) (f : Operator)
    (keys : List Nat) : PoolM (List Nat) := do
  if f.kind.isParametered then
    match keys with
    | [] => return []
    | body :: others =>
      let xs ← lookAll keys
      let body ← tree (ctx.binding xs) body
      let rest ← (others.drop 1).mapM (tree ctx)
      return body :: others.take 1 ++ rest
  else
    keys.mapM (tree ctx)

/-- Reduces the tree of a handle by calls that are nested at most so deep. -/
def reduceWithin (rule : Nat → Context → Nat → PoolM Nat) : Nat → Context → Nat → PoolM Nat
  | 0, _, _ => throw .interrupted
  | nesting + 1, ctx, key => do
    checkBreaker
    let x ← look key
    match x with
    | .apply f xs =>
      if xs.isEmpty then
        rule nesting ctx key
      else
        let keys ← intoChildren key
        if f = .store then
          match keys with
          | [] => make .undefined []
          | value :: others =>
            others.forM drop
            reduceWithin rule nesting ctx value
        else
          let reduced ← reduceOperands ctx (reduceWithin rule nesting) f keys
          rule nesting ctx (← make (.apply f []) reduced)
    | _ => rule nesting ctx key

/-- Reduces the tree of a handle, and brings the result into the form that a user expects if it is
for one. -/
def polished (rule : Nat → Context → Nat → PoolM Nat) (ctx : Context) (key : Nat) : PoolM Nat := do
  let reduced ← reduceWithin rule maxNesting ctx key
  if ctx.settings.target = .user then
    exchange reduced (beautify (← look reduced))
  else
    return reduced

/-- Reduces a copy of the tree of a handle. -/
def whole (rule : Nat → Context → Nat → PoolM Nat) (ctx : Context) (key : Nat) : PoolM Nat := do
  polished rule ctx (← copy key)

end Pooled

end Reduction

end PocketAlgebra
