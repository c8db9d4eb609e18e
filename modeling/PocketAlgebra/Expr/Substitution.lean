import PocketAlgebra.Expr.Basic

/-!
# Substitution

Replacing a symbol by an expression. The functions that bind a variable shadow it inside their
first operand, and the operand that names the variable is left alone; their other operands are
outside its scope.
-/

namespace PocketAlgebra

namespace Expr

/-- Whether an operator with these operands binds the given name in its first operand. -/
def binds (name : String) (f : Operator) (operands : List Expr) : Bool :=
  f.kind.isParametered && (operands[1]?.bind name?) == some name

/-- Which of the leading operands a substitution leaves alone. -/
def sheltered (name : String) (f : Operator) (operands : List Expr) : List Bool :=
  if f.kind.isParametered then [binds name f operands, true] else []

mutual

/-- An expression with every free occurrence of a symbol replaced by a value. -/
def substitute (name : String) (value : Expr) : Expr → Expr
  | symbol x => if x = name then value else symbol x
  | apply f xs => apply f (substituteAll name value (sheltered name f xs) xs)
  | x => x

/-- Substitution in several expressions, except for those that are sheltered. -/
def substituteAll (name : String) (value : Expr) : List Bool → List Expr → List Expr
  | _, [] => []
  | shelters, x :: xs =>
    (if shelters.headD false then x else substitute name value x) ::
      substituteAll name value shelters.tail xs

end

end Expr

end PocketAlgebra
