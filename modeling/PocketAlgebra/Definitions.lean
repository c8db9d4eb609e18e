import PocketAlgebra.Expr.Charge

/-!
# Definitions

What the names of a calculation stand for: values, and functions of one parameter. Definitions are
copies of the expressions they were made from, and are charged to the memory until they are removed
or replaced.
-/

namespace PocketAlgebra

/-- What a name stands for. -/
inductive Definition where
  | value (body : Expr)
  | function (parameter : String) (body : Expr)

namespace Definition

/-- The expression that a definition expands to. -/
def body : Definition → Expr
  | value body => body
  | function _ body => body

/-- The parameter of a function. -/
def parameter? : Definition → Option String
  | value _ => none
  | function parameter _ => some parameter

/-- The value, where the name stands for one. -/
def value? : Definition → Option Expr
  | value body => some body
  | function _ _ => none

/-- The parameter and the body, where the name stands for a function. -/
def function? : Definition → Option (String × Expr)
  | value _ => none
  | function parameter body => some (parameter, body)

end Definition

/-- Why an assignment is refused. -/
inductive StoreError where
  | notAStore (kind : Kind)
  | invalidTarget (name : String)
  | allocation (shortage : Shortage)
  deriving DecidableEq, Repr

/-- The text that reports a refused assignment. -/
def StoreError.message : StoreError → String
  | notAStore kind => s!"expected a store expression, found {kind.name}"
  | invalidTarget name => s!"`{name}` cannot be assigned"
  | allocation shortage => shortage.message

/-- The definitions of a calculation: each name at most once. -/
structure Definitions where
  entries : List (String × Definition) := []

namespace Definitions

/-- No definitions. -/
def empty : Definitions :=
  {}

/-- What a name stands for. -/
def get? (ds : Definitions) (name : String) : Option Definition :=
  ds.entries.lookup name

/-- The value that a name stands for. -/
def value? (ds : Definitions) (name : String) : Option Expr :=
  (ds.get? name).bind Definition.value?

/-- The function that a name stands for. -/
def function? (ds : Definitions) (name : String) : Option (String × Expr) :=
  (ds.get? name).bind Definition.function?

/-- The names that are defined. -/
def names (ds : Definitions) : List String :=
  ds.entries.map Prod.fst

/-- The number of definitions. -/
def size (ds : Definitions) : Nat :=
  ds.entries.length

/-- The definitions without that of a name. -/
def erase (ds : Definitions) (name : String) : Definitions :=
  ⟨ds.entries.filter fun entry => entry.1 ≠ name⟩

/-- The definitions with a new one for a name. -/
def insert (ds : Definitions) (name : String) (definition : Definition) : Definitions :=
  ⟨(name, definition) :: (ds.erase name).entries⟩

/-- Bytes charged for all definitions. -/
def charge (ds : Definitions) : Nat :=
  ds.entries.foldr (fun entry total => entry.2.body.charge + total) 0

end Definitions

namespace Charge

mutual

/-- The shortage met when a tree is copied, operands first, into so many free bytes. -/
def copyInto (free : Nat) : Expr → Except Shortage Nat
  | .apply f xs => do
    let free ← copyAllInto free xs
    let requested := (Expr.apply f xs).nodeCharge
    if free < requested then .error ⟨requested, free⟩ else .ok (free - requested)
  | x => if free < x.nodeCharge then .error ⟨x.nodeCharge, free⟩ else .ok (free - x.nodeCharge)

/-- The same for several trees, one after the other. -/
def copyAllInto (free : Nat) : List Expr → Except Shortage Nat
  | [] => .ok free
  | x :: xs => do copyAllInto (← copyInto free x) xs

end

end Charge

namespace Definitions

/-- Defines a name, where the copy fits into the free bytes. An old definition of the name is
dropped after the new one has been made. -/
def define (ds : Definitions) (free : Nat) (name : String) (definition : Definition) :
    Except StoreError Definitions :=
  match Charge.copyInto free definition.body with
  | .ok _ => .ok (ds.insert name definition)
  | .error shortage => .error (.allocation shortage)

/-- Carries out an assignment, and tells the name that was defined. -/
def store (ds : Definitions) (free : Nat) (assignment : Expr) :
    Except StoreError (String × Definitions) :=
  match assignment with
  | .apply .store (value :: target :: _) =>
    let name := target.name?.getD ""
    if name.isEmpty || isReservedName name then
      .error (.invalidTarget name)
    else
      match target with
      | .symbol _ => (ds.define free name (.value value)).map (name, ·)
      | .apply (.function _) (.symbol parameter :: _) =>
        (ds.define free name (.function parameter value)).map (name, ·)
      | _ => .error (.invalidTarget name)
  | x => .error (.notAStore x.kind)

end Definitions

end PocketAlgebra
