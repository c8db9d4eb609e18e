/-!
# Numbers and byte strings as bytes

Values are written one behind the other and read back from the end, the last one first. A natural
number is written in base 128, least significant digit first, where every digit but the first has
its top bit set; so a reader that comes from the end meets the most significant digit first and
stops at the byte with a clear top bit. A byte string is followed by its length.

A buffer is handed to a reader as a *stack*: the list of its bytes from the last one to the first.
A reader returns what is left of the stack even when it fails.
-/

namespace PocketAlgebra

namespace Codec

/-- A reader takes a value off a stack, where it can. -/
abbrev Reader (α : Type) :=
  List UInt8 → Option α × List UInt8

/-! ## Natural numbers -/

/-- The digits after the first one, least significant first, each with its top bit set. -/
def higherDigits (n : Nat) : List UInt8 :=
  if n = 0 then [] else UInt8.ofNat (n % 128 + 128) :: higherDigits (n / 128)

/-- A natural number as bytes. -/
def encodeNat (n : Nat) : List UInt8 :=
  UInt8.ofNat (n % 128) :: higherDigits (n / 128)

/-- The number of bytes that a natural number takes: one for each seven binary digits, and one
for zero. -/
def natSize (n : Nat) : Nat :=
  if n = 0 then 1 else n.log2 / 7 + 1

/-- The number of digits after the first one, counted as they are written. -/
def countHigher (n : Nat) : Nat :=
  if n = 0 then 0 else countHigher (n / 128) + 1

/-- The number of bytes that a natural number takes, counted as they are written. -/
def countNat (n : Nat) : Nat :=
  countHigher (n / 128) + 1

/-- The most digits of a number below `2 ^ 64`. -/
def maxDigits : Nat :=
  10

/-- Reads digits behind those that have been read, most significant first, up to one with a clear
top bit. Numbers of `2 ^ 64` and more are refused before their last digit is read. -/
def readDigits (value digits : Nat) : Reader Nat
  | [] => (none, [])
  | b :: rest =>
    if maxDigits ≤ digits || (digits + 1 = maxDigits && 1 <<< 57 ≤ value) then
      (none, rest)
    else
      let value := value * 128 + b.toNat % 128
      if b.toNat < 128 then (some value, rest) else readDigits value (digits + 1) rest

/-- Reads a natural number below `2 ^ 64`. -/
def readNat : Reader Nat :=
  readDigits 0 0

/-! ## Integers -/

/-- Integers numbered from zero outwards, so that small magnitudes stay short. -/
def zigzag (n : Int) : Nat :=
  if 0 ≤ n then 2 * n.toNat else 2 * (-n).toNat - 1

/-- The integer with a given number. -/
def unzigzag (n : Nat) : Int :=
  if n % 2 = 0 then (n / 2 : Nat) else -((n / 2 : Nat) : Int) - 1

/-- A 64-bit integer as bytes. -/
def encodeInt (n : Int) : List UInt8 :=
  encodeNat (zigzag n)

/-- Reads a 64-bit integer. -/
def readInt : Reader Int := fun stack =>
  let (n, rest) := readNat stack
  (n.map unzigzag, rest)

/-! ## Byte strings -/

/-- A byte string, followed by its length. -/
def encodeBytes (bytes : List UInt8) : List UInt8 :=
  bytes ++ encodeNat bytes.length

/-- The number of bytes that a byte string takes with its length. -/
def countBytes (bytes : List UInt8) : Nat :=
  bytes.length + countNat bytes.length

/-- Reads a byte string. -/
def readBytes : Reader (List UInt8) := fun stack =>
  match readNat stack with
  | (none, rest) => (none, rest)
  | (some length, rest) =>
    if rest.length < length then
      (none, rest)
    else
      (some (rest.take length).reverse, rest.drop length)

/-! ## Integers of any size -/

/-- The number of bytes of the shortest two's complement form of an integer. -/
def signedLength (n : Int) : Nat :=
  let magnitude := if 0 ≤ n then n.toNat else (-n).toNat - 1
  if magnitude = 0 then 1 else (magnitude.log2 + 9) / 8

/-- So many bytes of a natural number, least significant first. -/
def littleEndian : Nat → Nat → List UInt8
  | 0, _ => []
  | length + 1, n => UInt8.ofNat (n % 256) :: littleEndian length (n / 256)

/-- The shortest two's complement form of an integer, least significant byte first. -/
def signedBytes (n : Int) : List UInt8 :=
  let length := signedLength n
  littleEndian length (n % (1 <<< (8 * length) : Nat)).toNat

/-- The natural number that bytes write, least significant first. -/
def unsignedOfBytes : List UInt8 → Nat
  | [] => 0
  | b :: bytes => b.toNat + 256 * unsignedOfBytes bytes

/-- The integer that bytes write in two's complement, of whatever length. -/
def signedOfBytes (bytes : List UInt8) : Int :=
  let n := unsignedOfBytes bytes
  if bytes.getLast?.any (128 ≤ ·.toNat) then (n : Int) - (1 <<< (8 * bytes.length) : Nat) else n

/-! ## Words of 64 bits

Numbers that fill a word are written and read with masks and shifts. What is shifted out of a word
is lost, so a reader has to know before it takes in a digit whether there is room for it. An integer
is turned into a word in which its sign is the lowest bit.
-/

theorem toNat_shiftRight_seven (w : UInt64) : (w >>> 7).toNat = w.toNat / 128 := by
  rw [UInt64.toNat_shiftRight]
  exact Nat.shiftRight_eq_div_pow w.toNat 7

/-- The lowest seven bits of a word, as a byte with a clear top bit. -/
def lowDigit (w : UInt64) : UInt8 :=
  (w &&& 0x7F).toUInt8

/-- The digits of a word after the first one, least significant first, each with its top bit set. -/
def higherDigitsOfWord (w : UInt64) : List UInt8 :=
  if w = 0 then [] else (lowDigit w ||| 0x80) :: higherDigitsOfWord (w >>> 7)
termination_by w.toNat
decreasing_by
  rename_i h
  have hpos : w.toNat ≠ 0 := fun hzero => h (UInt64.toNat_inj.mp hzero)
  rw [toNat_shiftRight_seven]
  omega

/-- A word as bytes. -/
def encodeWord (w : UInt64) : List UInt8 :=
  lowDigit w :: higherDigitsOfWord (w >>> 7)

/-- Reads digits behind those that have been read into a word, most significant first, up to one
with a clear top bit. There is no room for an eleventh digit, nor for a tenth one if one of the
seven highest bits is taken. -/
def readWordDigits (value : UInt64) (digits : Nat) : Reader UInt64
  | [] => (none, [])
  | b :: rest =>
    if maxDigits < digits + 1 || (digits + 1 = maxDigits && value >>> 57 ≠ 0) then
      (none, rest)
    else
      let value := value <<< 7 ||| (b.toUInt64 &&& 0x7F)
      if b &&& 0x80 = 0 then (some value, rest) else readWordDigits value (digits + 1) rest

/-- Reads a word. -/
def readWord : Reader UInt64 :=
  readWordDigits 0 0

/-- An integer as a word: the bits of its double, inverted below zero. -/
def zigzagWord (n : Int64) : UInt64 :=
  ((n <<< 1) ^^^ (n >>> 63)).toUInt64

/-- The integer that a word stands for. -/
def unzigzagWord (w : UInt64) : Int64 :=
  (w >>> 1).toInt64 ^^^ -(w &&& 1).toInt64

/-- An integer of 64 bits as bytes. -/
def encodeSigned (n : Int64) : List UInt8 :=
  encodeWord (zigzagWord n)

/-- Reads an integer of 64 bits. -/
def readSigned : Reader Int64 := fun stack =>
  let (w, rest) := readWord stack
  (w.map unzigzagWord, rest)

end Codec

end PocketAlgebra
