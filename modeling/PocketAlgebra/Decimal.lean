/-!
# Decimal literals

A decimal literal is kept as it was written: a whole number of units of some power of ten. Its
exact value is a rational number, unless the literal is so large or so small that it is taken for
an infinity or for zero.
-/

namespace PocketAlgebra

/-- The number `mantissa · 10 ^ (-scale)`. -/
structure Decimal where
  mantissa : Int
  scale : Int
  deriving DecidableEq, Repr

namespace Decimal

/-- What a decimal literal stands for in exact arithmetic. -/
inductive Value where
  | overflow (negative : Bool)
  | underflow
  | finite (value : Rat)

/-- Literals whose leading digit stands at a power of ten beyond this one, on either side, have no
exact value. -/
def maxExponent : Int :=
  1000

/-- A power of ten. -/
def powerOfTen (exponent : Nat) : Nat :=
  Nat.pow 10 exponent

/-- The decimal digits of the mantissa without its sign. -/
def digits (d : Decimal) : List Char :=
  Nat.toDigits 10 d.mantissa.natAbs

/-- The power of ten at which the leading digit stands; that of zero is 0. -/
def exponent (d : Decimal) : Int :=
  if d.mantissa = 0 then 0 else d.digits.length - 1 - d.scale

/-- The rational number that the literal denotes. -/
def toRat (d : Decimal) : Rat :=
  if 0 ≤ d.scale then
    mkRat d.mantissa (powerOfTen d.scale.toNat)
  else
    (d.mantissa * powerOfTen (-d.scale).toNat : Int)

/-- The exact value of a literal, where it has one. -/
def value (d : Decimal) : Value :=
  if d.mantissa = 0 then
    .finite 0
  else if maxExponent < d.exponent then
    .overflow (d.mantissa < 0)
  else if d.exponent < -maxExponent then
    .underflow
  else
    .finite d.toRat

/-- Whether two literals denote the same number, however many trailing zeros they are written
with. Numbers with leading digits at different places differ, so the powers of ten that are
compared never exceed the length of the mantissas. -/
def same (a b : Decimal) : Bool :=
  if a.mantissa = 0 || b.mantissa = 0 then
    a.mantissa = b.mantissa
  else
    a.exponent == b.exponent &&
      a.mantissa * powerOfTen (b.scale - a.scale).toNat ==
        b.mantissa * powerOfTen (a.scale - b.scale).toNat

end Decimal

end PocketAlgebra
