import PocketAlgebra.Decimal
import PocketAlgebra.Settings
import PocketAlgebra.Text.Token

/-!
# Decimal notation

Numbers given by their significant digits and the power of ten of the first one, how they are
rounded to fewer digits, and how they are written. Rounding goes to the nearest, and away from zero
where two are equally near. Zeros at the end of the digits are dropped.
-/

namespace PocketAlgebra

/-- The positive number `d₁.d₂d₃… · 10 ^ exponent`. -/
structure Scientific where
  digits : List Char
  exponent : Int
  deriving DecidableEq, Repr

namespace Scientific

/-- Digits without the zeros at their end. -/
def dropZeros (digits : List Char) : List Char :=
  (digits.reverse.dropWhile (· = '0')).reverse

/-- The number that digits write, rounded to its leading ones. -/
def leading (digits : List Char) (count : Nat) : Nat :=
  let kept := (digits.take count).foldl (fun n c => 10 * n + (c.toNat - '0'.toNat)) 0
  if digits[count]?.any ('5' ≤ ·) then kept + 1 else kept

/-- A number rounded to so many significant digits, and to one if there are to be none. A carry out
of the leading digit moves it to the next power of ten. -/
def round (x : Scientific) (significant : Nat) : Scientific :=
  let count := max significant 1
  if x.digits.length ≤ count then
    ⟨dropZeros x.digits, x.exponent⟩
  else
    let n := leading x.digits count
    ⟨dropZeros (Nat.toDigits 10 n),
      if n = Decimal.powerOfTen count then x.exponent + 1 else x.exponent⟩

/-- Digits with a point after so many of them, and with zeros where digits are missing. -/
def placePoint (digits : List Char) (whole : Int) : List Char :=
  if whole ≤ 0 then
    '0' :: '.' :: List.replicate (-whole).toNat '0' ++ digits
  else
    let count := whole.toNat
    if digits.length ≤ count then
      digits ++ List.replicate (count - digits.length) '0'
    else
      digits.take count ++ '.' :: digits.drop count

/-- Digits with a point, and an exponent behind the marker. -/
def withExponent (digits : List Char) (whole exponent : Int) : List Char :=
  placePoint digits whole ++ exponentMarker :: s!"{exponent}".toList

/-- The least power of ten that is written as zeros behind the point in decimal mode. -/
def leastPositional : Int :=
  -4

/-- A number as it is written in some mode, after it has been rounded to the given number of
digits. Decimal mode writes an exponent only where the leading digit is far from the point;
engineering mode writes exponents that are multiples of three. -/
def write (x : Scientific) (mode : FloatMode) (significant : Nat) : List Char :=
  match mode with
  | .decimal =>
    if leastPositional ≤ x.exponent && x.exponent < max significant 1 then
      placePoint x.digits (x.exponent + 1)
    else
      withExponent x.digits 1 x.exponent
  | .scientific => withExponent x.digits 1 x.exponent
  | .engineering =>
    let multiple := 3 * (x.exponent / 3)
    withExponent x.digits (x.exponent - multiple + 1) multiple

/-- A number with its sign, rounded and written. -/
def format (negative : Bool) (x : Scientific) (mode : FloatMode) (significant : Nat) : String :=
  let rounded := x.round significant
  if rounded.digits.isEmpty then
    "0"
  else
    let body := rounded.write mode significant
    String.ofList (if negative then '-' :: body else body)

end Scientific

/-- A decimal literal, rounded to so many significant digits and written. -/
def Decimal.format (d : Decimal) (mode : FloatMode) (significant : Nat) : String :=
  if d.mantissa = 0 then
    "0"
  else
    Scientific.format (d.mantissa < 0) ⟨d.digits, d.exponent⟩ mode significant

end PocketAlgebra
