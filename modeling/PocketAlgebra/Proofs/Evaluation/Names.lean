import PocketAlgebra.Proofs.Evaluation.Exact
import PocketAlgebra.Proofs.Expansion.Chain

/-!
# Arithmetic with names

Expressions of rational numbers, sums, products, differences, opposites and parentheses, with
symbols and with calls of functions. `Expr.Arithmetic` says this of a tree, together with what is
asked of the names in it.
-/

open Relation

namespace PocketAlgebra

namespace Expr

/-- What an expression of arithmetic may hold. -/
structure Admits where
  /-- Symbols. -/
  symbol : String → Prop := fun _ => True
  /-- Functions that are called. -/
  called : String → Prop := fun _ => True
  /-- Sums and products without operands. -/
  empty : Prop := True

/-- An expression of arithmetic, with names. -/
inductive Arithmetic (A : Admits) : Expr → Prop
  | rational (q) : Arithmetic A (rational q)
  | symbol {name} : A.symbol name → Arithmetic A (symbol name)
  | call {name xs} : A.called name → (∀ x ∈ xs, Arithmetic A x) →
      Arithmetic A (apply (.function name) xs)
  | sum {xs} : (xs = [] → A.empty) → (∀ x ∈ xs, Arithmetic A x) → Arithmetic A (apply .addition xs)
  | product {xs} : (xs = [] → A.empty) → (∀ x ∈ xs, Arithmetic A x) →
      Arithmetic A (apply .multiplication xs)
  | difference {x y} : Arithmetic A x → Arithmetic A y → Arithmetic A (apply .subtraction [x, y])
  | opposite {x} : Arithmetic A x → Arithmetic A (apply .opposite [x])
  | parenthesis {x} : Arithmetic A x → Arithmetic A (apply .parenthesis [x])

variable {A A' : Admits} {f : Operator} {x y z : Expr} {xs : List Expr}

theorem Within.inner (h : Within y z) : y = apply f xs → ∀ x ∈ xs, Within x z := by
  induction h with
  | whole =>
      rintro rfl x hx
      exact .operand hx .whole
  | operand hz _ ih => exact fun heq x hx => .operand hz (ih heq x hx)

/-- What is admitted may be told from where in a tree the names stand. -/
theorem Arithmetic.refine (hempty : A.empty → A'.empty)
    (hsymbol : ∀ name, Within (.symbol name) z → A.symbol name → A'.symbol name)
    (hcalled : ∀ name xs, Within (.apply (.function name) xs) z → A.called name → A'.called name)
    (h : Arithmetic A x) : Within x z → Arithmetic A' x := by
  induction h with
  | rational q => exact fun _ => .rational q
  | symbol hname => exact fun hz => .symbol (hsymbol _ hz hname)
  | call hname _ ih =>
      exact fun hz => .call (hcalled _ _ hz hname) fun x hx => ih x hx (hz.inner rfl x hx)
  | sum hnil _ ih =>
      exact fun hz => .sum (fun h => hempty (hnil h)) fun x hx => ih x hx (hz.inner rfl x hx)
  | product hnil _ ih =>
      exact fun hz => .product (fun h => hempty (hnil h)) fun x hx => ih x hx (hz.inner rfl x hx)
  | difference _ _ ihx ihy =>
      exact fun hz => .difference (ihx (hz.inner rfl _ (by simp))) (ihy (hz.inner rfl _ (by simp)))
  | opposite _ ih => exact fun hz => .opposite (ih (hz.inner rfl _ (by simp)))
  | parenthesis _ ih => exact fun hz => .parenthesis (ih (hz.inner rfl _ (by simp)))

/-- Where a symbol may be replaced. -/
def fill : Option (String × Expr) → Expr → Expr
  | none, x => x
  | some (name, value), x => substitute name value x

theorem fill_apply (σ : Option (String × Expr)) (hf : f.kind.isParametered = false) :
    fill σ (apply f xs) = apply f (xs.map (fill σ)) := by
  match σ with
  | none => exact congrArg (apply f) (List.map_id xs).symm
  | some (name, value) => exact substitute_apply hf

end Expr

/-!
## What names stand for

Reduction puts the argument of a call into the body of the function; approximation binds the
parameter, and looks names up among all bindings around the call. The two find the same for a name
as long as no definition that a function leads to mentions the parameter of this function, other
than as a parameter of its own. Here this condition is stated, and what it keeps clear in the scopes
that an approximation goes through.
-/

open PocketAlgebra.Expr

namespace Definitions

/-- The definition of a name mentions a symbol that is not its parameter. -/
def Mentions (ds : Definitions) (name symbol : String) : Prop :=
  ∃ d, ds.get? name = some d ∧ Within (.symbol symbol) d.body ∧ d.parameter? ≠ some symbol

variable {ds : Definitions} {name other : String}

theorem Mentions.refers (h : ds.Mentions name other) : ds.Refers name other := by
  rcases h with ⟨d, hd, hwithin, hparameter⟩
  exact ⟨d, hd, .inl ⟨hwithin, hparameter⟩⟩

end Definitions

namespace Expr

/-- An expression leads to the names in it and to all that the definitions of these refer to. -/
def LeadsTo (x : Expr) (ds : Definitions) (name : String) : Prop :=
  ∃ first ∈ x.references none, ReflTransGen ds.Refers first name

/-- Names that are defined as what they are used for, and no sums or products without operands. -/
def suitable (ds : Definitions) (parameter : Option String) : Admits where
  symbol name := parameter = some name ∨ (ds.value? name).isSome = true
  called name := (ds.function? name).isSome = true
  empty := False

/-- All that an expression leads to has a suitable definition. -/
def Suitable (ds : Definitions) (x : Expr) : Prop :=
  Arithmetic (suitable ds none) x ∧ ∀ name d, x.LeadsTo ds name → ds.get? name = some d →
    Arithmetic (suitable ds d.parameter?) d.body

end Expr

namespace Approximation

/-- The names that an expression leads to, where no function leads to a definition that mentions its
parameter. -/
structure Apart (ds : Definitions) (names : String → Prop) : Prop where
  arithmetic : ∀ name d, ds.get? name = some d → Arithmetic {} d.body
  closed : ∀ name other, names name → ds.Refers name other → names other
  apart : ∀ name parameter body, names name → ds.function? name = some (parameter, body) →
    ∀ other, TransGen ds.Refers name other → ¬ ds.Mentions other parameter

/-- A name that may be expanded in a scope: nothing that it leads to is bound there. -/
structure Clear (ds : Definitions) (names : String → Prop) (scope : Scope ExactNumber)
    (name : String) : Prop where
  reached : names name
  follows : ds.Follows scope.expanding name
  unbound : ∀ other, ReflTransGen ds.Refers name other → ∀ symbol, ds.Mentions other symbol →
    scope.bindings.lookup symbol = none

/-- The names that an expression may hold in a scope where its parameter is bound. Where all
definitions are to be suitable, these are as well. -/
def clear (ds : Definitions) (names : String → Prop) (whole : Prop) (parameter : Option String)
    (scope : Scope ExactNumber) : Admits where
  symbol name := parameter = some name ∨ (scope.bindings.lookup name = none ∧
    Clear ds names scope name ∧ (whole → (ds.value? name).isSome = true))
  called name := Clear ds names scope name ∧ (whole → (ds.function? name).isSome = true)
  empty := ¬ whole

variable {ds : Definitions} {names : String → Prop} {whole : Prop} {scope inner : Scope ExactNumber}
  {name : String} {d : Definition}

/-- The parameter of a definition is not mentioned by what the definition leads to. -/
theorem Apart.lookup_eq (h : Apart ds names) (hname : Clear ds names scope name)
    (hd : ds.get? name = some d)
    (hinner : ∀ symbol, d.parameter? ≠ some symbol →
      inner.bindings.lookup symbol = scope.bindings.lookup symbol) {other symbol : String}
    (hother : TransGen ds.Refers name other) (hmentions : ds.Mentions other symbol) :
    inner.bindings.lookup symbol = none := by
  have hparameter : d.parameter? ≠ some symbol := by
    intro heq
    cases d with
    | value body => cases heq
    | function parameter body =>
        cases heq
        have hfunction : ds.function? name = some (symbol, body) := by
          rw [Definitions.function?, hd]
          rfl
        exact h.apart name symbol body hname.reached hfunction other hother hmentions
  rw [hinner symbol hparameter]
  exact hname.unbound other hother.to_reflTransGen symbol hmentions

/-- In the scope of a definition, its body holds nothing but clear names. -/
theorem Apart.body (h : Apart ds names)
    (hwhole : whole → Arithmetic (suitable ds d.parameter?) d.body)
    (hname : Clear ds names scope name) (hd : ds.get? name = some d)
    (hexpanding : inner.expanding = name :: scope.expanding)
    (hinner : ∀ symbol, d.parameter? ≠ some symbol →
      inner.bindings.lookup symbol = scope.bindings.lookup symbol) :
    Arithmetic (clear ds names whole d.parameter? inner) d.body := by
  have hclear : ∀ other, ds.Refers name other → Clear ds names inner other := by
    intro other hrefers
    refine ⟨h.closed name other hname.reached hrefers, ?_, ?_⟩
    · rw [hexpanding]
      exact hrefers
    · intro last hlast symbol hmentions
      exact h.lookup_eq hname hd hinner (.head' hrefers hlast) hmentions
  have hsymbol : ∀ symbol, Within (.symbol symbol) d.body → d.parameter? ≠ some symbol →
      inner.bindings.lookup symbol = none ∧ Clear ds names inner symbol := by
    intro symbol hwithin hparameter
    have hmentions : ds.Mentions name symbol := ⟨d, hd, hwithin, hparameter⟩
    refine ⟨?_, hclear symbol hmentions.refers⟩
    rw [hinner symbol hparameter]
    exact hname.unbound name .refl symbol hmentions
  have hcalled : ∀ other xs, Within (.apply (.function other) xs) d.body →
      Clear ds names inner other := fun other xs hwithin => hclear other ⟨d, hd, .inr ⟨xs, hwithin⟩⟩
  by_cases hdefined : whole
  · refine (hwhole hdefined).refine False.elim (fun symbol hwithin hvalue => ?_) ?_ .whole
    · rcases hvalue with hparameter | hvalue
      · exact .inl hparameter
      · by_cases hparameter : d.parameter? = some symbol
        · exact .inl hparameter
        · rcases hsymbol symbol hwithin hparameter with ⟨hlookup, hclear⟩
          exact .inr ⟨hlookup, hclear, fun _ => hvalue⟩
    · exact fun other xs hwithin hfunction => ⟨hcalled other xs hwithin, fun _ => hfunction⟩
  · refine (h.arithmetic name d hd).refine (fun _ => hdefined) (fun symbol hwithin _ => ?_) ?_
      .whole
    · by_cases hparameter : d.parameter? = some symbol
      · exact .inl hparameter
      · rcases hsymbol symbol hwithin hparameter with ⟨hlookup, hclear⟩
        exact .inr ⟨hlookup, hclear, fun h => absurd h hdefined⟩
    · exact fun other xs hwithin _ => ⟨hcalled other xs hwithin, fun h => absurd h hdefined⟩

/-- In the scope that an approximation starts from, all that an expression leads to is clear. -/
theorem arithmetic_clear {x : Expr} (hx : Arithmetic {} x) :
    Arithmetic (clear ds (x.LeadsTo ds) (Suitable ds x) none {}) x := by
  have hclear : ∀ name, name ∈ x.references none → Clear ds (x.LeadsTo ds) {} name :=
    fun name hname => ⟨⟨name, hname, .refl⟩, trivial, fun _ _ _ _ => rfl⟩
  have hsymbol : ∀ name, Within (.symbol name) x → Clear ds (x.LeadsTo ds) {} name :=
    fun name hwithin => hclear name ((mem_references x).mpr (.inl ⟨hwithin, nofun⟩))
  have hcalled : ∀ name xs, Within (.apply (.function name) xs) x →
      Clear ds (x.LeadsTo ds) {} name :=
    fun name xs hwithin => hclear name ((mem_references x).mpr (.inr ⟨xs, hwithin⟩))
  by_cases hsuitable : Suitable ds x
  · refine hsuitable.1.refine False.elim (fun name hwithin hvalue => ?_) ?_ .whole
    · exact .inr ⟨rfl, hsymbol name hwithin, fun _ => hvalue.resolve_left nofun⟩
    · exact fun name xs hwithin hfunction => ⟨hcalled name xs hwithin, fun _ => hfunction⟩
  · refine hx.refine (fun _ => hsuitable) (fun name hwithin _ => ?_) ?_ .whole
    · exact .inr ⟨rfl, hsymbol name hwithin, fun h => absurd h hsuitable⟩
    · exact fun name xs hwithin _ => ⟨hcalled name xs hwithin, fun h => absurd h hsuitable⟩

end Approximation

end PocketAlgebra
