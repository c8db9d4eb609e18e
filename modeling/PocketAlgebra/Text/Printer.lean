import PocketAlgebra.Chunks
import PocketAlgebra.Expr.Basic
import PocketAlgebra.Text.Scientific

/-!
# Writing expressions

An expression is written in the form in which it can be read again. Operands are put in parentheses
wherever they would otherwise be read as part of something else; a negative number counts as a
subtraction and a fraction as a division.
-/

namespace PocketAlgebra

/-- How numbers are written. -/
structure NumberStyle where
  mode : FloatMode := .decimal
  significant : Nat := defaultSignificantDigits
  deriving DecidableEq, Repr

namespace Expr

/-- How strongly numbers, names and calls bind, which is more than any operator. -/
def atomPrecedence : Nat :=
  10

/-- How strongly the operator of a compound expression binds. -/
def operatorPrecedence : Operator → Nat
  | .store => 1
  | .comparison _ => 2
  | .addition => 3
  | .subtraction => 4
  | .opposite => 4
  | .multiplication => 5
  | .division => 6
  | .power => 8
  | .factorial => 9
  | _ => atomPrecedence

/-- How strongly the operator binds that an expression shows at its top. -/
def precedence : Expr → Nat
  | apply f _ => operatorPrecedence f
  | rational q => if q < 0 then 4 else if q.isInt then atomPrecedence else 6
  | decimal d => if d.mantissa < 0 then 4 else atomPrecedence
  | infinity negative => if negative then 4 else atomPrecedence
  | _ => atomPrecedence

/-- Whether an operand that binds as given must stand in parentheses at a position of an
operator. -/
def needsParentheses (f : Operator) (index precedence : Nat) : Bool :=
  match f with
  | .addition => precedence < 3
  | .subtraction => if index = 0 then precedence < 3 else precedence ≤ 4
  | .multiplication => precedence < 5
  | .division => if index = 0 then precedence < 5 else precedence ≤ 6
  | .power => if index = 0 then precedence < 9 else precedence < 8
  | .factorial => precedence < atomPrecedence
  | .opposite => precedence ≤ 4
  | .comparison _ => precedence ≤ 2
  | .store => index = 0 && precedence ≤ 2
  | _ => false

/-- The sign that stands between the operands of an operator. -/
def infixSign? : Operator → Option String
  | .addition => some "+"
  | .subtraction => some "-"
  | .multiplication => some "×"
  | .division => some "/"
  | .power => some "^"
  | .store => some "→"
  | .comparison relation => some relation.symbol
  | _ => none

/-- The name that a call is written with. -/
def callName : Operator → String
  | .function name => name
  | f => f.kind.functionName?.getD "undef"

/-- A rational number, with its denominator where it has one. -/
def writeRational (q : Rat) : String :=
  if q.isInt then s!"{q.num}" else s!"{q.num}/{q.den}"

/-- An infinity. -/
def writeInfinity (negative : Bool) : String :=
  if negative then "-inf" else "inf"

/-- Operands that have been written, each with how strongly it binds, in parentheses where an
operator calls for them. -/
def parenthesize (f : Operator) (operands : List (Nat × List Char)) : List (List Char) :=
  operands.mapIdx fun index (precedence, text) =>
    if needsParentheses f index precedence then '(' :: text ++ [')'] else text

/-- Pieces of text with a separator between them. -/
def joined (separator : List Char) (pieces : List (List Char)) : List Char :=
  (pieces.intersperse separator).flatten

/-- Arguments in parentheses. -/
def writeArguments (arguments : List (List Char)) : List Char :=
  '(' :: joined [','] arguments ++ [')']

/-- An expression, put together from its operands that have been written. -/
def assemble (f : Operator) (operands : List (Nat × List Char)) : List Char :=
  let texts := operands.map Prod.snd
  match f with
  | .undefined => "undef".toList
  | .nonreal => "nonreal".toList
  | .opposite => '-' :: ((parenthesize f operands).headD [])
  | .factorial => (parenthesize f operands).headD [] ++ ['!']
  | .parenthesis => writeArguments texts
  | .matrix _ columns =>
    let rows := (chunks columns texts).map fun row => '[' :: joined [','] row ++ [']']
    '[' :: rows.flatten ++ [']']
  | .list => '{' :: joined [','] texts ++ ['}']
  | _ =>
    match infixSign? f with
    | some sign => joined sign.toList (parenthesize f operands)
    | none => (callName f).toList ++ writeArguments texts

mutual

/-- The characters that an expression is written with. -/
def write (style : NumberStyle) : Expr → List Char
  | rational q => (writeRational q).toList
  | decimal d => (d.format style.mode style.significant).toList
  | infinity negative => (writeInfinity negative).toList
  | constant c => c.symbol.toList
  | symbol name => name.toList
  | apply f xs => assemble f (writeAll style xs)

/-- Several expressions, each with how strongly it binds and how it is written. -/
def writeAll (style : NumberStyle) : List Expr → List (Nat × List Char)
  | [] => []
  | x :: xs => (x.precedence, write style x) :: writeAll style xs

end

/-- An expression as text. -/
def toText (x : Expr) (style : NumberStyle) : String :=
  String.ofList (x.write style)

/-- An expression as text, with numbers in the usual style. -/
def text (x : Expr) : String :=
  x.toText {}

end Expr

end PocketAlgebra
