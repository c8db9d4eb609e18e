import PocketAlgebra.Codec.Varint
import PocketAlgebra.Expr.Charge

/-!
# Expressions as bytes

A tree is written operands first. Behind the operands of a node stand its data, the number of its
operands, and a byte for its kind. It is read from the end: the kind, the number of operands, the
data, and then the operands from the last one to the first. Nodes are charged to the memory in the
order in which they are completed.
-/

namespace PocketAlgebra

/-- Why bytes do not make an expression. -/
inductive DecodeError where
  | truncated
  | unknownOpcode (opcode : UInt8)
  | invalidPayload (kind : Kind)
  | arityMismatch (kind : Kind) (found : Nat)
  | trailingBytes (count : Nat)
  | invalidUtf8
  | tooDeep
  | allocationFailure (shortage : Shortage)
  deriving DecidableEq, Repr

namespace Codec

/-- The most levels of a tree that is read. -/
def maxLevels : Nat :=
  513

/-- A digit of a number in base sixteen. -/
def hexDigit (n : Nat) : Char :=
  ("0123456789abcdef".toList)[n]?.getD '0'

end Codec

/-- The text that reports an error. -/
def DecodeError.message : DecodeError → String
  | truncated => "input ends in the middle of a node"
  | unknownOpcode opcode =>
    let n := opcode.toNat
    "unknown opcode 0x" ++ String.ofList [Codec.hexDigit (n / 16), Codec.hexDigit (n % 16)]
  | invalidPayload kind => s!"malformed payload for {kind.name}"
  | arityMismatch kind found => s!"{kind.name} cannot have {found} children"
  | trailingBytes count => s!"{count} bytes left after the root node"
  | invalidUtf8 => "name is not valid UTF-8"
  | tooDeep => s!"tree is deeper than {Codec.maxLevels - 1} levels"
  | allocationFailure shortage => shortage.message

namespace Expr

/-! ## Writing -/

/-- The bytes of a name. -/
def nameBytes (name : String) : List UInt8 :=
  name.toUTF8.data.toList

/-- A name as bytes. -/
def encodeName (name : String) : List UInt8 :=
  Codec.encodeBytes (nameBytes name)

/-- The data of an operator as bytes. -/
def encodeOperator : Operator → List UInt8
  | .function name => encodeName name
  | .comparison relation => Codec.encodeNat relation.rank
  | .matrix rows columns => Codec.encodeNat rows ++ Codec.encodeNat columns
  | _ => []

/-- The data of the topmost node as bytes. -/
def encodePayload : Expr → List UInt8
  | rational q =>
    Codec.encodeBytes (Codec.signedBytes q.num) ++ Codec.encodeBytes (Codec.signedBytes q.den)
  | decimal d => Codec.encodeBytes (Codec.signedBytes d.mantissa) ++ Codec.encodeInt d.scale
  | infinity negative => Codec.encodeNat negative.toNat
  | constant c => Codec.encodeNat c.rank
  | symbol name => encodeName name
  | apply f _ => encodeOperator f

mutual

/-- A tree as bytes. -/
def encode : Expr → List UInt8
  | apply f xs =>
    encodeAll xs ++ encodeOperator f ++ Codec.encodeNat xs.length ++ [UInt8.ofNat f.kind.rank]
  | x => x.encodePayload ++ Codec.encodeNat 0 ++ [UInt8.ofNat x.kind.rank]

/-- Several trees as bytes, one behind the other. -/
def encodeAll : List Expr → List UInt8
  | [] => []
  | x :: xs => x.encode ++ encodeAll xs

end

/-! ## Counting -/

/-- The number of bytes that the data of an operator take. -/
def operatorSize : Operator → Nat
  | .function name => Codec.countBytes (nameBytes name)
  | .comparison relation => Codec.countNat relation.rank
  | .matrix rows columns => Codec.countNat rows + Codec.countNat columns
  | _ => 0

/-- The number of bytes that the data of the topmost node take. -/
def payloadSize : Expr → Nat
  | rational q =>
    Codec.countBytes (Codec.signedBytes q.num) + Codec.countBytes (Codec.signedBytes q.den)
  | decimal d =>
    Codec.countBytes (Codec.signedBytes d.mantissa) + Codec.countNat (Codec.zigzag d.scale)
  | infinity negative => Codec.countNat negative.toNat
  | constant c => Codec.countNat c.rank
  | symbol name => Codec.countBytes (nameBytes name)
  | apply f _ => operatorSize f

mutual

/-- The number of bytes that a tree takes, counted without writing it. -/
def byteSize : Expr → Nat
  | apply f xs => byteSizeAll xs + operatorSize f + Codec.countNat xs.length + 1
  | x => x.payloadSize + Codec.countNat 0 + 1

/-- The number of bytes that several trees take. -/
def byteSizeAll : List Expr → Nat
  | [] => 0
  | x :: xs => x.byteSize + byteSizeAll xs

end

end Expr

/-! ## Reading -/

namespace Codec

/-- What is left of a buffer, and the room that is left for nodes. -/
structure State where
  stack : List UInt8
  free : Nat

/-- Steps of reading. -/
abbrev DecodeM :=
  StateT State (Except DecodeError)

/-- Reads a value, which has to be there. -/
def take {α : Type} (reader : Reader α) : DecodeM α := do
  let s ← get
  match reader s.stack with
  | (some value, rest) =>
    set { s with stack := rest }
    return value
  | (none, _) => throw .truncated

/-- Reads an integer of any size. -/
def takeInteger (kind : Kind) : DecodeM Int := do
  let bytes ← take readBytes
  if bytes.isEmpty then throw (.invalidPayload kind) else return signedOfBytes bytes

/-- Reads a name, which may not be empty. -/
def takeName (kind : Kind) : DecodeM String := do
  let bytes ← take readBytes
  match String.fromUTF8? ⟨bytes.toArray⟩ with
  | none => throw .invalidUtf8
  | some name => if name.isEmpty then throw (.invalidPayload kind) else return name

/-- Reads a number of rows or columns. -/
def takeDimension : DecodeM Nat := do
  let n ← take readNat
  if n < UInt32.size then return n else throw (.invalidPayload .matrix)

/-- A value that the data of a node must have. -/
def valid {α : Type} (kind : Kind) : Option α → DecodeM α
  | some value => return value
  | none => throw (.invalidPayload kind)

/-- Reads the data of a node of the given kind, and returns the node as a function of its
operands; leaves take none. -/
def takePayload (kind : Kind) : DecodeM (List Expr → Expr) := do
  match kind with
  | .rational =>
    let denominator ← takeInteger kind
    let numerator ← takeInteger kind
    if denominator = 0 then
      throw (.invalidPayload kind)
    else
      return fun _ => .rational (Rat.divInt numerator denominator)
  | .decimal =>
    let scale ← take readInt
    let mantissa ← takeInteger kind
    return fun _ => .decimal ⟨mantissa, scale⟩
  | .symbol =>
    let name ← takeName kind
    return fun _ => .symbol name
  | .function => return .apply (.function (← takeName kind))
  | .constant =>
    let constant ← valid kind (Constant.all[← take readNat]?)
    return fun _ => .constant constant
  | .infinity =>
    let negative ← valid kind ([false, true][← take readNat]?)
    return fun _ => .infinity negative
  | .matrix =>
    let columns ← takeDimension
    let rows ← takeDimension
    if rows = 0 || columns = 0 then
      throw (.invalidPayload kind)
    else
      return .apply (.matrix rows columns)
  | .comparison => return .apply (.comparison (← valid kind (Relation.all[← take readNat]?)))
  | _ => return .apply ((Operator.ofKind? kind).getD .undefined)

/-- Whether a node may have so many operands. A matrix has as many as its shape says. -/
def acceptsCount (node : Expr) (count : Nat) : Bool :=
  match node with
  | .apply (.matrix rows columns) _ => count = rows * columns
  | node => node.kind.arity.accepts count

/-- Takes up a node. -/
def store (x : Expr) : DecodeM Expr := do
  let s ← get
  if s.free < x.nodeCharge then
    throw (.allocationFailure ⟨x.nodeCharge, s.free⟩)
  else
    set { s with free := s.free - x.nodeCharge }
    return x

/-- Reads so many operands, last one first, and returns them in order behind those given. -/
def takeOperands (operand : DecodeM Expr) : Nat → List Expr → DecodeM (List Expr)
  | 0, read => return read
  | count + 1, read => do
    let x ← operand
    takeOperands operand count (x :: read)

/-- Reads a tree of at most so many levels. -/
def takeNode : Nat → DecodeM Expr
  | 0 => throw .tooDeep
  | levels + 1 => do
    let opcode ← take fun
      | b :: rest => (some b, rest)
      | [] => (none, [])
    match Kind.ofRank? opcode.toNat with
    | none => throw (.unknownOpcode opcode)
    | some kind =>
      let count ← take readNat
      let node ← takePayload kind
      if acceptsCount (node []) count then
        store (node (← takeOperands (takeNode levels) count []))
      else
        throw (.arityMismatch kind count)

end Codec

/-- The tree that bytes write, built where so many bytes of memory are free. -/
def Expr.decode (free : Nat) (bytes : List UInt8) : Except DecodeError Expr := do
  let (x, s) ← Codec.takeNode Codec.maxLevels ⟨bytes.reverse, free⟩
  if s.stack.isEmpty then return x else throw (.trailingBytes s.stack.length)

end PocketAlgebra
