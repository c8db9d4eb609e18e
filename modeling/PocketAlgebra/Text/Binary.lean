import PocketAlgebra.Text.Scientific

/-!
# Floating-point numbers as text

A finite floating-point number is `m · 2 ^ q` for whole numbers `m` and `q`. It is first rounded,
exactly, to seventeen significant digits, with ties to the even digit, and then to the number of
digits that is asked for, with ties away from zero.
-/

namespace PocketAlgebra

/-- The number `mantissa · 2 ^ exponent` with a sign. -/
structure Binary where
  negative : Bool
  mantissa : Nat
  exponent : Int
  deriving DecidableEq, Repr

namespace Binary

/-- The value of the bit pattern of a finite double-precision number. -/
def ofBits (bits : UInt64) : Binary :=
  let n : Nat := bits.toNat
  let biased : Nat := (n >>> 52) % 2048
  let fraction : Nat := n % 0x10000000000000
  let negative := n >>> 63 == 1
  if biased = 0 then
    ⟨negative, fraction, -1074⟩
  else
    ⟨negative, 0x10000000000000 + fraction, (biased : Int) - 1075⟩

/-- A quotient rounded to the nearest whole number, and to the even one of two. -/
def divideToEven (n d : Nat) : Nat :=
  let q := n / d
  let r := n % d
  if 2 * r < d || (2 * r = d && q % 2 = 0) then q else q + 1

/-- The magnitude as a fraction. -/
def fraction (x : Binary) : Nat × Nat :=
  (x.mantissa <<< x.exponent.toNat, 1 <<< (-x.exponent).toNat)

/-- Whether `10 ^ e ≤ n / d`. -/
def reaches (n d : Nat) (e : Int) : Bool :=
  Decimal.powerOfTen e.toNat * d ≤ n * Decimal.powerOfTen (-e).toNat

/-- The greatest power of ten at or below `n / d`, sought upwards from one that is. -/
def leadingPower (n d : Nat) : Nat → Int → Int
  | 0, e => e
  | steps + 1, e => if reaches n d (e + 1) then leadingPower n d steps (e + 1) else e

/-- A power of ten close below `n / d`: the binary length of a number gives its decimal length up
to one. -/
def lowerPower (n d : Nat) : Int :=
  ((n.log2 : Int) - d.log2 - 1) * 30103 / 100000 - 1

/-- The number of digits that are taken exactly. -/
def exactDigits : Nat :=
  17

/-- The first seventeen significant digits of a number other than zero. -/
def toScientific (x : Binary) : Scientific :=
  let (n, d) := x.fraction
  let power := leadingPower n d 8 (lowerPower n d)
  let shift : Int := exactDigits - 1 - power
  let rounded :=
    divideToEven (n * Decimal.powerOfTen shift.toNat) (d * Decimal.powerOfTen (-shift).toNat)
  ⟨Nat.toDigits 10 rounded,
    if rounded = Decimal.powerOfTen exactDigits then power + 1 else power⟩

end Binary

/-- A floating-point number as text. At most `limit` digits are written, and one at least. -/
def formatFloat (x : Float) (mode : FloatMode) (significant limit : Nat) : String :=
  if x.isNaN then
    "undef"
  else if x.isInf then
    if x < 0 then "-inf" else "inf"
  else if x == 0 then
    "0"
  else
    let binary := Binary.ofBits x.toBits
    Scientific.format binary.negative binary.toScientific mode (min (max significant 1) limit)

end PocketAlgebra
