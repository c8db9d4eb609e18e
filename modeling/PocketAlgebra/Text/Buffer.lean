import PocketAlgebra.Text.Printer

/-!
# Text in bounded buffers

A text is copied into a buffer of bytes as far as it fits, with a zero byte behind it. Characters
are copied whole or not at all: the place where the text is cut is found by walking back from the
last byte that fits to the start of a character.
-/

namespace PocketAlgebra

/-- A text and its zero byte did not fit into a buffer. -/
structure BufferOverflow where
  required : Nat
  available : Nat
  deriving DecidableEq, Repr

/-- The text that reports an overflow. -/
def BufferOverflow.message (o : BufferOverflow) : String :=
  s!"serialization needs {o.required} bytes, buffer holds {o.available}"

namespace Buffer

/-- The bytes of a text. -/
def bytes (text : String) : List UInt8 :=
  text.toUTF8.data.toList

/-- Whether a byte goes on with a character that began before it. -/
def goesOn (byte : UInt8) : Bool :=
  0x80 ≤ byte && byte < 0xC0

/-- Whether a text may be cut in front of one of its bytes, or behind the last of them. -/
def isBoundary (bytes : List UInt8) (position : Nat) : Bool :=
  position == 0 ||
    match bytes[position]? with
    | some byte => !goesOn byte
    | none => position == bytes.length

/-- The last place at or before a position where a text may be cut. -/
def boundaryUpTo (bytes : List UInt8) : Nat → Nat
  | 0 => 0
  | position + 1 =>
    if isBoundary bytes (position + 1) then position + 1 else boundaryUpTo bytes position

/-- A buffer after a text has been written into it. An empty buffer has no room even for the zero
byte; the bytes behind the zero byte stay as they were. -/
def fill (buffer : List UInt8) (text : String) : List UInt8 :=
  match buffer.length with
  | 0 => buffer
  | room + 1 =>
    let stop := boundaryUpTo (bytes text) (min (bytes text).length room)
    (bytes text).take stop ++ 0 :: buffer.drop (stop + 1)

end Buffer

namespace Expr

/-- An expression is written into a buffer. What comes back is the length of its whole text in
bytes and the buffer as it is then. -/
def serializeInto (x : Expr) (style : NumberStyle) (buffer : List UInt8) : Nat × List UInt8 :=
  let text := x.toText style
  (text.utf8ByteSize, Buffer.fill buffer text)

/-- An expression is written into a buffer, where text that had to be cut counts as an error. -/
def serializeChecked (x : Expr) (style : NumberStyle) (buffer : List UInt8) :
    Except BufferOverflow Nat × List UInt8 :=
  let (length, filled) := x.serializeInto style buffer
  if length < buffer.length then
    (.ok length, filled)
  else
    (.error ⟨length + 1, buffer.length⟩, filled)

end Expr

end PocketAlgebra
