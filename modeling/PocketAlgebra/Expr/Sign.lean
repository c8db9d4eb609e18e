import PocketAlgebra.Expr.Basic

/-!
# Signs

The sign of an expression, as far as its structure tells. An answer other than *unknown* says that
the value is a real number of that sign.
-/

namespace PocketAlgebra

/-- What is known about the sign of a value. -/
inductive Sign where
  | negative
  | null
  | positive
  | unknown
  deriving DecidableEq, Repr

namespace Sign

/-- The sign of an integer. -/
def ofInt (n : Int) : Sign :=
  if n = 0 then null else if n < 0 then negative else positive

/-- The sign of a rational number is that of its numerator. -/
def ofRat (q : Rat) : Sign :=
  ofInt q.num

/-- Whether something is known. -/
def isKnown (s : Sign) : Bool :=
  s != unknown

/-- Known to be other than zero. -/
def isStrict : Sign → Bool
  | negative | positive => true
  | _ => false

/-- The sign of the opposite value. -/
def negate : Sign → Sign
  | negative => positive
  | positive => negative
  | s => s

/-- The sign of a product. -/
def multiply : Sign → Sign → Sign
  | null, _ => null
  | _, null => null
  | unknown, _ => unknown
  | _, unknown => unknown
  | s, t => if s = t then positive else negative

/-- The sign of a product of several factors. -/
def product (signs : List Sign) : Sign :=
  signs.foldl multiply positive

/-- The sign of a sum: known only where no two terms pull apart. -/
def sum (signs : List Sign) : Sign :=
  if signs.all fun s => s == positive || s == null then
    if signs.contains positive then positive else null
  else if signs.all fun s => s == negative || s == null then
    if signs.contains negative then negative else null
  else
    unknown

/-- The sign of an absolute value. -/
def absolute : Sign → Sign
  | null => null
  | negative | positive => positive
  | unknown => unknown

/-- The sign of a square root; the root of a negative number is not real. -/
def squareRoot : Sign → Sign
  | positive => positive
  | null => null
  | _ => unknown

/-- The sign of a power. A positive base stays positive under any real exponent; otherwise the
exponent has to be a rational literal. -/
def power (base exponent : Sign) (literal : Option Rat) : Sign :=
  match base with
  | positive => if exponent.isKnown then positive else unknown
  | null =>
    match literal with
    | some q => if 0 < q then null else unknown
    | none => unknown
  | negative =>
    match literal with
    | some q => if q.isInt then if q.num % 2 = 0 then positive else negative else unknown
    | none => unknown
  | unknown => unknown

end Sign

namespace Expr

mutual

/-- The sign of an expression, read off its structure. -/
def sign : Expr → Sign
  | rational q => Sign.ofRat q
  | decimal d => Sign.ofInt d.mantissa
  | infinity negative => if negative then .negative else .positive
  | constant c => if c.isReal then .positive else .unknown
  | symbol _ => .unknown
  | apply .multiplication xs => Sign.product (signs xs)
  | apply .division xs => Sign.product (signs xs)
  | apply .addition xs => Sign.sum (signs xs)
  | apply .power (b :: p :: _) => Sign.power b.sign p.sign p.rational?
  | apply .opposite (x :: _) => x.sign.negate
  | apply .parenthesis (x :: _) => x.sign
  | apply .absoluteValue (x :: _) => x.sign.absolute
  | apply .squareRoot (x :: _) => x.sign.squareRoot
  | apply .factorial _ => .positive
  | apply _ _ => .unknown

/-- The signs of several expressions. -/
def signs : List Expr → List Sign
  | [] => []
  | x :: xs => x.sign :: signs xs

end

end Expr

end PocketAlgebra
