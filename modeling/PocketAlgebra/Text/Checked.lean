import PocketAlgebra.Bounds
import PocketAlgebra.Text.Printer

/-!
# Decimals whose place has no form of 64 bits

The powers of ten at which the digits of a decimal literal stand are computed with signed integers
of 64 bits. Where one of them has no such form, the computation breaks off: a literal that has been
read from bytes may have any scale of 64 bits, and its leading digit stands elsewhere. The rules for
values and for printing are stated with integers of any size; here they are followed up to the point
where they break off.
-/

namespace PocketAlgebra

namespace Decimal

/-- The power of ten at which the leading digit stands. -/
def checkedExponent? (d : Decimal) : Option Int :=
  if d.mantissa = 0 then
    some 0
  else do
    let length ← int64? d.digits.length
    let above ← int64? (length - 1)
    int64? (above - d.scale)

/-- The exact value of a literal, where it has one. -/
def checkedValue? (d : Decimal) : Option Value :=
  if d.mantissa = 0 then
    some (.finite 0)
  else
    d.checkedExponent?.map fun exponent =>
      if maxExponent < exponent then .overflow (d.mantissa < 0)
      else if exponent < -maxExponent then .underflow
      else .finite d.toRat

end Decimal

namespace Scientific

/-- A number rounded to so many significant digits. A carry out of the leading digit adds one to the
exponent. -/
def checkedRound? (x : Scientific) (significant : Nat) : Option Scientific :=
  let rounded := x.round significant
  if rounded.exponent = x.exponent then
    some rounded
  else
    (int64? (x.exponent + 1)).map fun exponent => { rounded with exponent }

/-- A number as it is written in some mode. Engineering mode computes the multiple of three below
the exponent. -/
def checkedWrite? (x : Scientific) (mode : FloatMode) (significant : Nat) : Option (List Char) :=
  match mode with
  | .decimal | .scientific => some (x.write mode significant)
  | .engineering =>
    (int64? (3 * (x.exponent / 3))).map fun multiple =>
      withExponent x.digits (x.exponent - multiple + 1) multiple

/-- A number with its sign, rounded and written. -/
def checkedFormat? (negative : Bool) (x : Scientific) (mode : FloatMode) (significant : Nat) :
    Option String :=
  (x.checkedRound? significant).bind fun rounded =>
    if rounded.digits.isEmpty then
      some "0"
    else
      (rounded.checkedWrite? mode significant).map fun body =>
        String.ofList (if negative then '-' :: body else body)

end Scientific

/-- A decimal literal, rounded to so many significant digits and written. -/
def Decimal.checkedFormat? (d : Decimal) (mode : FloatMode) (significant : Nat) : Option String :=
  if d.mantissa = 0 then
    some "0"
  else
    d.checkedExponent?.bind fun exponent =>
      Scientific.checkedFormat? (d.mantissa < 0) ⟨d.digits, exponent⟩ mode significant

namespace Expr

mutual

/-- The decimal literals of an expression, from left to right. -/
def decimals : Expr → List Decimal
  | decimal d => [d]
  | apply _ xs => decimalsAll xs
  | _ => []

/-- The decimal literals of several expressions. -/
def decimalsAll : List Expr → List Decimal
  | [] => []
  | x :: xs => x.decimals ++ decimalsAll xs

end

/-- The text of an expression, unless one of its decimals cannot be written. -/
def checkedText? (x : Expr) (style : NumberStyle) : Option String :=
  if x.decimals.all fun d => (d.checkedFormat? style.mode style.significant).isSome then
    some (x.toText style)
  else
    none

/-- Whether all decimals of an expression have a value or are known to be beyond those that have
one, as comparing and reducing the expression finds out. -/
def decimalsHaveValues (x : Expr) : Bool :=
  x.decimals.all fun d => d.checkedValue?.isSome

end Expr

end PocketAlgebra
