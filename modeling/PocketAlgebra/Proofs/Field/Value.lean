import Mathlib.Algebra.BigOperators.Group.List.Lemmas
import Mathlib.Algebra.Field.Basic
import Mathlib.Data.Rat.Cast.CharZero
import PocketAlgebra.Expr.Basic
import PocketAlgebra.Proofs.Expr.Everywhere
import PocketAlgebra.Proofs.Reduction.Yields

/-!
# Values of field expressions

Sums, products, differences, quotients, opposites and powers with whole
exponents have a meaning in every field, once the symbols and the constants are
given values in it.  The value is total, as division is in the library; which
expressions really have it is told by `Expr.Defined`.

Reduction turns such expressions into sums, products and powers of literals and
names.  `Expr.Normal` describes these: it is the invariant of reduction.  They
are scalars without poison, identical ones are equal, and flattening and
assembling sums and products keeps their values.
-/

namespace PocketAlgebra

/-- Values in a field for what field arithmetic leaves open. -/
structure Valuation (K : Type*) [Field K] where
  symbol : String → K
  pi : K
  e : K
  unit : K
  unit_sq : unit ^ 2 = -1

variable {K : Type*} [Field K]

namespace Valuation

/-- The value of a constant. -/
def constant (ρ : Valuation K) : Constant → K
  | .pi => ρ.pi
  | .e => ρ.e
  | .imaginaryUnit => ρ.unit

theorem unit_ne_zero (ρ : Valuation K) : ρ.unit ≠ 0 := by
  intro h
  have hsq := ρ.unit_sq
  rw [h] at hsq
  simp at hsq

end Valuation

namespace Expr

/-!
## Whole literals

An exponent may stand under signs and in parentheses.
-/

/-- The integer that a literal writes, under any signs and parentheses. -/
def wholeLiteral? : Expr → Option Int
  | rational q => if q.isInt then some q.num else none
  | apply .opposite [x] => x.wholeLiteral?.map Neg.neg
  | apply .parenthesis [x] => x.wholeLiteral?
  | _ => none

@[simp] theorem wholeLiteral?_integer (n : Int) :
    (integer n).wholeLiteral? = some n := by
  simp [integer, wholeLiteral?, Rat.isInt]

/-!
## Values
-/

mutual

/-- The value of a field expression under a valuation. -/
def value (ρ : Valuation K) : Expr → K
  | rational q => q
  | decimal d =>
    match d.value with
    | .finite q => q
    | _ => 0
  | constant c => ρ.constant c
  | symbol name => ρ.symbol name
  | apply .addition xs => (values ρ xs).sum
  | apply .multiplication xs => (values ρ xs).prod
  | apply .subtraction [x, y] => x.value ρ - y.value ρ
  | apply .division [x, y] => x.value ρ / y.value ρ
  | apply .opposite [x] => -x.value ρ
  | apply .parenthesis [x] => x.value ρ
  | apply .power [x, p] => x.value ρ ^ p.wholeLiteral?.getD 0
  | _ => 0

/-- The values of several field expressions. -/
def values (ρ : Valuation K) : List Expr → List K
  | [] => []
  | x :: xs => x.value ρ :: values ρ xs

end

theorem values_eq_map (ρ : Valuation K) (xs : List Expr) :
    values ρ xs = xs.map (value ρ) := by
  induction xs with
  | nil => rfl
  | cons x xs ih => simp [values, ih]

@[simp] theorem value_rational (ρ : Valuation K) (q : Rat) :
    (rational q).value ρ = q := rfl

@[simp] theorem value_addition (ρ : Valuation K) (xs : List Expr) :
    (apply .addition xs).value ρ = (xs.map (value ρ)).sum := by
  rw [value, values_eq_map]

@[simp] theorem value_multiplication (ρ : Valuation K) (xs : List Expr) :
    (apply .multiplication xs).value ρ = (xs.map (value ρ)).prod := by
  rw [value, values_eq_map]

@[simp] theorem value_power_integer (ρ : Valuation K) (x : Expr) (n : Int) :
    (apply .power [x, integer n]).value ρ = x.value ρ ^ n := by
  simp [value]

@[simp] theorem value_integer [CharZero K] (ρ : Valuation K) (n : Int) :
    (integer n).value ρ = n := by
  simp [integer]

/-!
## Expressions that have a value
-/

/--
The field expressions that have a value: no divisor is zero, and no power with
an exponent that is not positive has a base of zero.
-/
inductive Defined (ρ : Valuation K) : Expr → Prop
  | rational (q : Rat) : Defined ρ (.rational q)
  | decimal {d : Decimal} {q : Rat} (h : d.value = .finite q) :
      Defined ρ (.decimal d)
  | constant (c : Constant) : Defined ρ (.constant c)
  | symbol (name : String) : Defined ρ (.symbol name)
  | addition {xs : List Expr} (h : ∀ x ∈ xs, Defined ρ x) :
      Defined ρ (.apply .addition xs)
  | multiplication {xs : List Expr} (h : ∀ x ∈ xs, Defined ρ x) :
      Defined ρ (.apply .multiplication xs)
  | subtraction {x y : Expr} (hx : Defined ρ x) (hy : Defined ρ y) :
      Defined ρ (.apply .subtraction [x, y])
  | division {x y : Expr} (hx : Defined ρ x) (hy : Defined ρ y)
      (hne : y.value ρ ≠ 0) : Defined ρ (.apply .division [x, y])
  | opposite {x : Expr} (hx : Defined ρ x) : Defined ρ (.apply .opposite [x])
  | parenthesis {x : Expr} (hx : Defined ρ x) :
      Defined ρ (.apply .parenthesis [x])
  | power {x p : Expr} {n : Int} (hx : Defined ρ x)
      (hp : p.wholeLiteral? = some n) (h : 0 < n ∨ x.value ρ ≠ 0) :
      Defined ρ (.apply .power [x, p])

/-- The reduced field expressions that have a value. -/
inductive Normal (ρ : Valuation K) : Expr → Prop
  | rational (q : Rat) : Normal ρ (.rational q)
  | constant (c : Constant) : Normal ρ (.constant c)
  | symbol (name : String) : Normal ρ (.symbol name)
  | addition {xs : List Expr} (h : ∀ x ∈ xs, Normal ρ x) :
      Normal ρ (.apply .addition xs)
  | multiplication {xs : List Expr} (h : ∀ x ∈ xs, Normal ρ x) :
      Normal ρ (.apply .multiplication xs)
  | power {x : Expr} {n : Int} (hx : Normal ρ x)
      (h : 0 < n ∨ x.value ρ ≠ 0) : Normal ρ (.apply .power [x, .integer n])

theorem Normal.defined {ρ : Valuation K} {x : Expr} (h : Normal ρ x) :
    Defined ρ x := by
  induction h with
  | rational q => exact .rational q
  | constant c => exact .constant c
  | symbol name => exact .symbol name
  | addition _ ih => exact .addition ih
  | multiplication _ ih => exact .multiplication ih
  | power _ h ih => exact .power ih (wholeLiteral?_integer _) h

theorem isRational_iff {x : Expr} {q : Rat} :
    x.isRational q = true ↔ x = .rational q := by
  cases x <;> simp [isRational, rational?]

theorem normal_integer (ρ : Valuation K) (n : Int) : Normal ρ (integer n) :=
  .rational n

/-- A reduced expression that has a given value. -/
structure Represents (ρ : Valuation K) (v : K) (x : Expr) : Prop where
  normal : Normal ρ x
  value_eq : x.value ρ = v

end Expr

variable {ρ : Valuation K}

namespace Expr

/-- Neither a list nor a matrix, and not poisoned. -/
def IsPlain (x : Expr) : Prop :=
  x.isList = false ∧ x.isMatrix = false ∧ x.kind.isPoison = false

namespace Normal

/-!
## Kinds
-/

theorem plain {x : Expr} (h : Normal ρ x) : IsPlain x := by
  cases h <;> exact ⟨rfl, rfl, rfl⟩

theorem infinity?_eq_none {x : Expr} (h : Normal ρ x) : x.infinity? = none := by
  cases h <;> rfl

theorem kind_beq_infinity {x : Expr} (h : Normal ρ x) :
    (x.kind == .infinity) = false := by
  cases h <;> rfl

/-!
## Identity
-/

theorem eq_of_same {x : Expr} (h : Normal ρ x) (y : Expr)
    (hsame : x.same y = true) : x = y := by
  induction h generalizing y with
  | rational q =>
      cases y with
      | rational p => rw [eq_of_beq hsame]
      | _ => cases hsame
  | constant c =>
      cases y with
      | constant d => rw [eq_of_beq hsame]
      | _ => cases hsame
  | symbol name =>
      cases y with
      | symbol other => rw [eq_of_beq hsame]
      | _ => cases hsame
  | addition _ ih => exact apply_eq_of_same ih hsame
  | multiplication _ ih => exact apply_eq_of_same ih hsame
  | power _ _ ih =>
      rename_i x n _ _
      refine apply_eq_of_same (fun z hz => ?_) hsame
      rcases List.mem_pair.mp hz with rfl | rfl
      · exact ih
      · intro y hy
        cases y with
        | rational p => rw [Expr.integer, eq_of_beq hy]
        | _ => cases hy

end Normal

end Expr

namespace Reduction

open PocketAlgebra.Expr

/-!
## Flattening
-/

mutual

theorem sum_flatten (ρ : Valuation K) :
    ∀ x, ((flatten .addition x).map (value ρ)).sum = x.value ρ
  | .apply g xs => by
      rw [flatten]
      split
      · rename_i hg
        rw [sum_flattenAll, hg, value_addition]
      · simp
  | .rational _ | .decimal _ | .infinity _ => by simp [flatten]
  | .constant _ | .symbol _ => by simp [flatten]

theorem sum_flattenAll (ρ : Valuation K) : ∀ xs : List Expr,
    ((flattenAll .addition xs).map (value ρ)).sum = (xs.map (value ρ)).sum
  | [] => rfl
  | x :: xs => by
      simp [flattenAll, sum_flatten ρ x, sum_flattenAll ρ xs]

end

mutual

theorem prod_flatten (ρ : Valuation K) :
    ∀ x, ((flatten .multiplication x).map (value ρ)).prod = x.value ρ
  | .apply g xs => by
      rw [flatten]
      split
      · rename_i hg
        rw [prod_flattenAll, hg, value_multiplication]
      · simp
  | .rational _ | .decimal _ | .infinity _ => by simp [flatten]
  | .constant _ | .symbol _ => by simp [flatten]

theorem prod_flattenAll (ρ : Valuation K) : ∀ xs : List Expr,
    ((flattenAll .multiplication xs).map (value ρ)).prod =
      (xs.map (value ρ)).prod
  | [] => rfl
  | x :: xs => by
      simp [flattenAll, prod_flatten ρ x, prod_flattenAll ρ xs]

end

theorem normal_flattenAll_addition {xs : List Expr}
    (h : ∀ x ∈ xs, Normal ρ x) :
    ∀ y ∈ flattenAll .addition xs, Normal ρ y := by
  refine flattenAll_forall (fun ys hys => ?_) xs h
  cases hys with
  | addition hys => exact hys

theorem normal_flattenAll_multiplication {xs : List Expr}
    (h : ∀ x ∈ xs, Normal ρ x) :
    ∀ y ∈ flattenAll .multiplication xs, Normal ρ y := by
  refine flattenAll_forall (fun ys hys => ?_) xs h
  cases hys with
  | multiplication hys => exact hys

/-!
## Poison
-/

theorem poison?_eq_none {xs : List Expr} (h : ∀ x ∈ xs, x.kind.isPoison = false) :
    poison? xs = none := by
  have hany {k : Kind} (hk : k.isPoison = true) : xs.any (·.kind == k) = false := by
    refine List.any_eq_false.mpr fun x hx hkind => ?_
    have hpoison := h x hx
    rw [eq_of_beq hkind, hk] at hpoison
    nomatch hpoison
  rw [poison?, hany rfl, hany rfl]
  rfl

theorem poison?_plain {xs : List Expr} (h : ∀ x ∈ xs, IsPlain x) : poison? xs = none :=
  poison?_eq_none fun x hx => (h x hx).2.2

theorem any_isMatrix_plain {xs : List Expr} (h : ∀ x ∈ xs, IsPlain x) :
    xs.any isMatrix = false :=
  List.any_eq_false.mpr fun x hx => by simp [(h x hx).2.1]

/-!
## Assembling
-/

variable [CharZero K]

theorem represents_assemble_addition {xs : List Expr}
    (h : ∀ x ∈ xs, Normal ρ x) :
    Represents ρ (xs.map (value ρ)).sum (assemble .addition 0 xs) := by
  match xs, h with
  | [], _ => exact ⟨normal_integer ρ 0, by simp [assemble]⟩
  | [x], h => exact ⟨h x List.mem_cons_self, by simp [assemble]⟩
  | x :: y :: xs, h => exact ⟨.addition h, value_addition ρ _⟩

theorem represents_assemble_multiplication {xs : List Expr}
    (h : ∀ x ∈ xs, Normal ρ x) :
    Represents ρ (xs.map (value ρ)).prod (assemble .multiplication 1 xs) := by
  match xs, h with
  | [], _ => exact ⟨normal_integer ρ 1, by simp [assemble]⟩
  | [x], h => exact ⟨h x List.mem_cons_self, by simp [assemble]⟩
  | x :: y :: xs, h => exact ⟨.multiplication h, value_multiplication ρ _⟩

/-!
## Reduction of nodes

The rules call for the reduction of sums, products and powers.  Exponents are
computed by the same rules, so that sums and products of integers have to come
out as integers.
-/

/-- A reduction of nodes that keeps the values of reduced operands. -/
structure KeepsValues (ρ : Valuation K) (node : NodeReducer) : Prop where
  sum {xs : List Expr} (h : ∀ x ∈ xs, Normal ρ x) :
    Yields (add node xs) (Represents ρ (xs.map (value ρ)).sum)
  product {xs : List Expr} (h : ∀ x ∈ xs, Normal ρ x) :
    Yields (multiply node xs) (Represents ρ (xs.map (value ρ)).prod)
  power {x : Expr} {n : Int} (hx : Normal ρ x) (h : 0 < n ∨ x.value ρ ≠ 0) :
    Yields (power node x (.integer n)) (Represents ρ (x.value ρ ^ n))
  rationalSum (qs : List Rat) :
    Yields (add node (qs.map .rational)) (· = .rational qs.sum)
  rationalProduct (qs : List Rat) :
    Yields (multiply node (qs.map .rational)) (· = .rational qs.prod)

theorem map_integer_eq (ns : List Int) :
    ns.map Expr.integer = (ns.map Int.cast).map Expr.rational := by
  rw [List.map_map]
  rfl

omit [CharZero K] in
theorem KeepsValues.integerSum (h : KeepsValues ρ node) (ns : List Int) :
    Yields (add node (ns.map .integer)) (· = .integer ns.sum) := by
  have hsum := h.rationalSum (ns.map Int.cast)
  have hcast : ((ns.sum : Int) : Rat) = (ns.map Int.cast).sum :=
    map_list_sum (Int.castRingHom Rat) ns
  rwa [← map_integer_eq, ← hcast] at hsum

omit [CharZero K] in
theorem KeepsValues.integerProduct (h : KeepsValues ρ node) (ns : List Int) :
    Yields (multiply node (ns.map .integer)) (· = .integer ns.prod) := by
  have hproduct := h.rationalProduct (ns.map Int.cast)
  have hcast : ((ns.prod : Int) : Rat) = (ns.map Int.cast).prod :=
    map_list_prod (Int.castRingHom Rat) ns
  rwa [← map_integer_eq, ← hcast] at hproduct

end Reduction

end PocketAlgebra
