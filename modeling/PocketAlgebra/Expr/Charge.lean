import PocketAlgebra.Expr.Basic

/-!
# Memory charged for expressions

Expressions live in a memory of fixed size. Every node is charged a constant number of bytes, a
constant number for each operand, and the bytes of its own data; a tree is charged the sum over its
nodes. `Shortage` is what is reported when a node does not fit.
-/

namespace PocketAlgebra

/-- A node of so many bytes did not fit into the bytes that were left. -/
structure Shortage where
  requested : Nat
  available : Nat
  deriving DecidableEq, Repr

/-- The text that reports a shortage of memory. -/
def Shortage.message (s : Shortage) : String :=
  s!"tree pool exhausted: {s.requested} bytes requested, {s.available} available"

namespace Charge

/-- Bytes charged for every node. -/
def header : Nat :=
  16

/-- Bytes charged for every operand of a node, besides the operand's own charge. -/
def reference : Nat :=
  4

/-- The number of binary digits of a number; zero has none. -/
def bitLength (n : Nat) : Nat :=
  if n = 0 then 0 else n.log2 + 1

/-- Bytes charged for an integer: those of its magnitude, at least one, and one more. -/
def integer (n : Int) : Nat :=
  max 1 ((bitLength n.natAbs + 7) / 8) + 1

/-- Bytes charged for a name: its encoded length and one more. -/
def name (text : String) : Nat :=
  text.utf8ByteSize + 1

/-- Bytes charged for the data that an operator carries. -/
def operator : Operator → Nat
  | .function text => name text
  | .comparison _ => 1
  | .matrix _ _ => 8
  | _ => 0

end Charge

namespace Expr

/-- Bytes charged for the data of the topmost node. -/
def payloadCharge : Expr → Nat
  | rational q => Charge.integer q.num + Charge.integer q.den
  | decimal d => Charge.integer d.mantissa + 8
  | infinity _ => 1
  | constant _ => 1
  | symbol name => Charge.name name
  | apply f _ => Charge.operator f

/-- Bytes charged for the topmost node. -/
def nodeCharge (x : Expr) : Nat :=
  Charge.header + Charge.reference * x.operands.length + x.payloadCharge

mutual

/-- Bytes charged for a tree. -/
def charge : Expr → Nat
  | apply f xs =>
    Charge.header + Charge.reference * xs.length + Charge.operator f + chargeAll xs
  | x => Charge.header + x.payloadCharge

/-- Bytes charged for several trees together. -/
def chargeAll : List Expr → Nat
  | [] => 0
  | x :: xs => x.charge + chargeAll xs

end

theorem charge_eq (x : Expr) : x.charge = chargeAll x.operands + x.nodeCharge := by
  cases x with
  | apply f xs =>
      rw [charge, Nat.add_comm]
      rfl
  | _ => simp [charge, nodeCharge, operands, chargeAll]

theorem charge_pos (x : Expr) : 0 < x.charge := by
  rw [charge_eq, nodeCharge, Charge.header]
  omega

theorem chargeAll_append (xs ys : List Expr) :
    chargeAll (xs ++ ys) = chargeAll xs + chargeAll ys := by
  induction xs with
  | nil => simp [chargeAll]
  | cons x xs ih => simp only [List.cons_append, chargeAll, ih, Nat.add_assoc]

theorem charge_le_chargeAll {x : Expr} {xs : List Expr} (h : x ∈ xs) :
    x.charge ≤ chargeAll xs := by
  induction xs with
  | nil => simp at h
  | cons y ys ih =>
      rw [chargeAll]
      rcases List.mem_cons.mp h with rfl | h
      · omega
      · have hrest := ih h
        omega

end Expr

end PocketAlgebra
