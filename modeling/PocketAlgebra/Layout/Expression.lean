import PocketAlgebra.Layout.Document
import PocketAlgebra.Text.Printer

/-!
# Layout of expressions

The document of an expression has the same text as the expression has where it is written on one
line. Lines can be broken in front of the signs of sums and differences, behind the commas between
arguments and between elements of lists, and between the rows of matrices.
-/

namespace PocketAlgebra

namespace Layout

/-- A sign between or beside operands. -/
def sign (text : String) : Document :=
  .text .operator text.toList

/-- A mark that holds parts together or apart. -/
def mark (c : Char) : Document :=
  .text .punctuation [c]

/-- A comma behind which the line can be broken. -/
def comma : Document :=
  mark ',' ++ .softBreak

/-- A document in parentheses that are themselves inside so many others. -/
def inParentheses (depth : Nat) (body : Document) : Document :=
  .group (.text (.parenthesis depth) ['('] ++ body ++ .text (.parenthesis depth) [')'])

/-- Arguments in parentheses. -/
def arguments (depth : Nat) (xs : List Document) : Document :=
  inParentheses depth (.nest 2 (.separate comma xs))

/-- Rows of entries in brackets. -/
def matrix (columns : Nat) (xs : List Document) : Document :=
  let rows := (chunks columns xs).map fun row => mark '[' ++ .separate (mark ',') row ++ mark ']'
  .group (mark '[' ++ .nest 1 (.separate .softBreak rows) ++ mark ']')

/-- Elements in braces. -/
def list (xs : List Document) : Document :=
  .group (mark '{' ++ .nest 1 (.separate comma xs) ++ mark '}')

/-- An operand: how strongly it binds, and its document, which depends on the number of parentheses
around it. -/
structure Operand where
  precedence : Nat
  document : Nat → Document

/-- An operand at a position of an operator, in parentheses where they are called for. -/
def operand (f : Operator) (depth index : Nat) (x : Operand) : Document :=
  if Expr.needsParentheses f index x.precedence then
    inParentheses depth (x.document (depth + 1))
  else
    x.document depth

/-- Whether lines can be broken in front of the sign of an operator. -/
def breaksBeforeSign : Operator → Bool
  | .addition | .subtraction => true
  | _ => false

/-- Operands with a sign between them. -/
def infixOperands (f : Operator) (text : String) (depth : Nat) (xs : List Operand) : Document :=
  let lead := if breaksBeforeSign f then .softBreak ++ sign text else sign text
  let parts := xs.mapIdx fun index x =>
    let document := operand f depth index x
    if index = 0 then document else lead ++ document
  .group (.nest 2 (.concat parts))

/-- The operand of an operator that stands beside it. -/
def onlyOperand (f : Operator) (depth : Nat) : List Operand → Document
  | [] => .empty
  | x :: _ => operand f depth 0 x

/-- An operator over operands, with so many parentheses around it. -/
def assemble (f : Operator) (xs : List Operand) (depth : Nat) : Document :=
  match f with
  | .undefined => .text .poison "undef".toList
  | .nonreal => .text .poison "nonreal".toList
  | .opposite => sign "-" ++ onlyOperand f depth xs
  | .factorial => onlyOperand f depth xs ++ sign "!"
  | .parenthesis => arguments depth (xs.map fun x => x.document (depth + 1))
  | .matrix _ columns => matrix columns (xs.map fun x => x.document depth)
  | .list => list (xs.map fun x => x.document depth)
  | _ =>
    match Expr.infixSign? f with
    | some text => infixOperands f text depth xs
    | none =>
      .text .function (Expr.callName f).toList ++
        arguments depth (xs.map fun x => x.document (depth + 1))

end Layout

namespace Expr

mutual

/-- The document of an expression with so many parentheses around it. -/
def layOut (style : NumberStyle) : Expr → Nat → Document
  | rational q => fun _ => .text .number (writeRational q).toList
  | decimal d => fun _ => .text .number (d.format style.mode style.significant).toList
  | infinity negative => fun _ => .text .number (writeInfinity negative).toList
  | constant c => fun _ => .text .symbol c.symbol.toList
  | symbol name => fun _ => .text .symbol name.toList
  | apply f xs => Layout.assemble f (layOutAll style xs)

/-- Several expressions as operands. -/
def layOutAll (style : NumberStyle) : List Expr → List Layout.Operand
  | [] => []
  | x :: xs => ⟨x.precedence, layOut style x⟩ :: layOutAll style xs

end

/-- The document of an expression. -/
def document (x : Expr) (style : NumberStyle) : Document :=
  x.layOut style 0

end Expr

end PocketAlgebra
