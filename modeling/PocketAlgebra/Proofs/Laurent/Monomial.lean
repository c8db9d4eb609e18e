import Mathlib.Algebra.Order.Ring.Cast
import Mathlib.Algebra.Order.Ring.Rat
import Mathlib.Data.List.Lex
import Mathlib.Data.Prod.Lex
import PocketAlgebra.Proofs.Expr.Order
import PocketAlgebra.Reduction.Basic

/-!
# Monomials and their order

Reduction leaves the values of symbols and of the constants `π` and `ℯ` open:
they are the indeterminates of a Laurent polynomial.  A canonical monomial
lists powers of different indeterminates in ascending order, and a summand is a
rational multiple of one.

The simplification order compares two summands from the last factor on.  So it
is the lexicographic order of the reversed lists of factors: a total order, in
which the rational coefficients do not count.
-/

namespace PocketAlgebra

namespace Laurent

open PocketAlgebra.Expr Reduction

/-!
## Lexicographic comparison
-/

theorem compares_then {α β : Type} [LinearOrder α] [LinearOrder β] {o o' : Ordering} {a b : α}
    {c d : β} (h : o.Compares a b) (h' : a = b → o'.Compares c d) :
    (o.then o').Compares (toLex (a, c)) (toLex (b, d)) := by
  cases o with
  | lt => exact Prod.Lex.toLex_lt_toLex.mpr (.inl h)
  | gt => exact Prod.Lex.toLex_lt_toLex.mpr (.inl h)
  | eq =>
      obtain rfl : a = b := h
      cases o' with
      | lt => exact Prod.Lex.toLex_lt_toLex.mpr (.inr ⟨rfl, h' rfl⟩)
      | gt => exact Prod.Lex.toLex_lt_toLex.mpr (.inr ⟨rfl, h' rfl⟩)
      | eq => exact congrArg (fun c => toLex (a, c)) (h' rfl : c = d)

/-- A comparison by keys, in the order that the keys induce. -/
theorem compares_lift {α β : Type} [LinearOrder β] {f : α → β} (hf : Function.Injective f)
    {o : Ordering} {a b : α} (h : o.Compares (f a) (f b)) :
    @Ordering.Compares α (LinearOrder.lift' f hf).toLT o a b := by
  cases o with
  | lt => exact h
  | gt => exact h
  | eq => exact hf h

/-!
## Indeterminates
-/

/-- A name whose value reduction leaves open. -/
inductive Indeterminate where
  | pi
  | e
  | symbol (name : String)
  deriving DecidableEq

namespace Indeterminate

def toExpr : Indeterminate → Expr
  | pi => .constant .pi
  | e => .constant .e
  | symbol name => .symbol name

/-- The two constants come before all symbols. -/
def rank : Indeterminate → ℕ
  | pi => 0
  | e => 1
  | symbol _ => 2

def name : Indeterminate → String
  | symbol name => name
  | _ => ""

/-- The place of an indeterminate in the simplification order. -/
def key (i : Indeterminate) : ℕ ×ₗ String :=
  toLex (i.rank, i.name)

theorem key_injective : Function.Injective key := by
  intro i j h
  have hpair : (i.rank, i.name) = (j.rank, j.name) := toLex.injective h
  cases i <;> cases j <;> simp_all [rank, name]

noncomputable instance : LinearOrder Indeterminate :=
  LinearOrder.lift' key key_injective

theorem ordinary (i : Indeterminate) : Ordinary i.toExpr := by
  cases i <;> exact ⟨rfl, rfl⟩

theorem order_eq (i j : Indeterminate) : order i.toExpr j.toExpr =
    (compare i.rank j.rank).then (compareNames i.name j.name) := by
  rw [order_of_ordinary i.ordinary j.ordinary]
  cases i <;> cases j <;>
    simp only [toExpr, kind, orderAlike, rank, name, compareNames_eq_eq.mpr rfl] <;> rfl

theorem order_compares (i j : Indeterminate) :
    (order i.toExpr j.toExpr).Compares i j := by
  have hkey : (order i.toExpr j.toExpr).Compares i.key j.key := by
    rw [order_eq]
    have hrank := cmp_compares i.rank j.rank
    rw [cmp_eq_compare] at hrank
    exact compares_then hrank fun _ => compareNames_compares i.name j.name
  exact compares_lift key_injective hkey

end Indeterminate

/-!
## Factors
-/

/-- A power of an indeterminate. -/
structure Factor where
  base : Indeterminate
  exponent : Int
  deriving DecidableEq

namespace Factor

/-- The factor as an expression; an exponent of one is not written. -/
def toExpr (f : Factor) : Expr :=
  if f.exponent = 1 then f.base.toExpr else .apply .power [f.base.toExpr, .integer f.exponent]

def key (f : Factor) : Indeterminate ×ₗ ℤ :=
  toLex (f.base, f.exponent)

theorem key_injective : Function.Injective key := by
  intro f g h
  have hpair : (f.base, f.exponent) = (g.base, g.exponent) := toLex.injective h
  cases f
  cases g
  simp_all

noncomputable instance : LinearOrder Factor :=
  LinearOrder.lift' key key_injective

/-- A factor is a constant, a symbol or a power. -/
theorem toExpr_cases (f : Factor) : (∃ c, f.toExpr = .constant c) ∨
    (∃ name, f.toExpr = .symbol name) ∨ ∃ x n, f.toExpr = .apply .power [x, .integer n] := by
  rw [toExpr]
  split
  · cases f.base with
    | pi => exact .inl ⟨_, rfl⟩
    | e => exact .inl ⟨_, rfl⟩
    | symbol name => exact .inr (.inl ⟨name, rfl⟩)
  · exact .inr (.inr ⟨_, _, rfl⟩)

theorem ordinary (f : Factor) : Ordinary f.toExpr := by
  rcases f.toExpr_cases with ⟨c, h⟩ | ⟨name, h⟩ | ⟨x, n, h⟩ <;> rw [h] <;> exact ⟨rfl, rfl⟩

theorem kind_ne (f : Factor) : f.toExpr.kind ≠ .addition ∧ f.toExpr.kind ≠ .multiplication := by
  rcases f.toExpr_cases with ⟨c, h⟩ | ⟨name, h⟩ | ⟨x, n, h⟩ <;> rw [h] <;> constructor <;>
    intro hkind <;> cases hkind

theorem isMany_eq (f : Factor) : f.toExpr.isMany = false := by
  simp [isMany, f.kind_ne]

theorem order_integer_compares (m n : Int) : (order (.integer m) (.integer n)).Compares m n := by
  have h := order_rational_compares m n
  rw [Expr.integer, Expr.integer]
  generalize order (.rational m) (.rational n) = o at h ⊢
  cases o with
  | lt => exact Int.cast_lt.mp h
  | gt => exact Int.cast_lt.mp h
  | eq => exact Rat.intCast_inj.mp h

theorem order_powers (i j : Indeterminate) (m n : Int) :
    (order (.apply .power [i.toExpr, .integer m])
      (.apply .power [j.toExpr, .integer n])).Compares (toLex (i, m)) (toLex (j, n)) := by
  have horder : order (.apply .power [i.toExpr, .integer m])
      (.apply .power [j.toExpr, .integer n]) =
        (order i.toExpr j.toExpr).then (order (.integer m) (.integer n)) := by
    rw [order_alike ⟨rfl, rfl⟩ ⟨rfl, rfl⟩ (by rfl), orderAlike]
    simp [compareLabels, isMany, kind, Operator.kind, orderAll]
  rw [horder]
  exact compares_then (i.order_compares j) fun _ => order_integer_compares m n

theorem orderBase_power (i j : Indeterminate) {m : Int} (hm : m ≠ 1) :
    (orderBase (.apply .power [i.toExpr, .integer m]) j.toExpr).Compares
      (toLex (i, m)) (toLex (j, 1)) := by
  rw [orderBase]
  refine compares_then (i.order_compares j) fun _ => ?_
  rw [compareExponentWithOne, Expr.integer]
  simp only [number?, ExtendedRat.compare]
  rcases lt_or_gt_of_ne hm with h | h
  · have hlt : (m : Rat) < 1 := by exact_mod_cast h
    simpa [hlt] using h
  · have hgt : (1 : Rat) < m := by exact_mod_cast h
    simpa [hgt.not_gt, hm] using h

/-- The simplification order of factors: by their bases, then by their exponents. -/
theorem order_compares (f g : Factor) : (order f.toExpr g.toExpr).Compares f g := by
  have hbase : ∀ i : Indeterminate, i.toExpr.kind ≠ .power ∧ i.toExpr.isMany = false := by
    intro i
    cases i <;> refine ⟨fun hkind => ?_, rfl⟩ <;> cases hkind
  have hpower : ∀ (i : Indeterminate) (n : Int),
      Ordinary (.apply .power [i.toExpr, .integer n]) := fun _ _ => ⟨rfl, rfl⟩
  rcases f with ⟨i, m⟩
  rcases g with ⟨j, n⟩
  refine compares_lift key_injective ?_
  simp only [toExpr, key]
  -- the exponents may be left out on either side
  by_cases hm : m = 1 <;> by_cases hn : n = 1
  · rw [if_pos hm, if_pos hn, hm, hn]
    have hthen : ((order i.toExpr j.toExpr).then .eq).Compares
        (toLex (i, (1 : Int))) (toLex (j, (1 : Int))) :=
      compares_then (i.order_compares j) fun _ => rfl
    rwa [Ordering.then_eq] at hthen
  · rw [if_pos hm, if_neg hn, hm, order_base_swap i.ordinary (hpower j n) (hbase i).2 rfl
      (hbase i).1 rfl, Ordering.compares_swap]
    exact orderBase_power j i hn
  · rw [if_neg hm, if_pos hn, hn, order_base (hpower i m) j.ordinary rfl (hbase j).2 rfl
      (hbase j).1]
    exact orderBase_power i j hm
  · rw [if_neg hm, if_neg hn]
    exact order_powers i j m n

end Factor

/-!
## Monomials
-/

/-- Powers of different indeterminates, in ascending order. -/
@[ext] structure Monomial where
  factors : List Factor
  ascending : factors.Pairwise (·.base < ·.base)
  exponent_ne_zero : ∀ f ∈ factors, f.exponent ≠ 0

namespace Monomial

def one : Monomial :=
  ⟨[], .nil, nofun⟩

def key (m : Monomial) : List Factor :=
  m.factors.reverse

theorem key_injective : Function.Injective key := fun _ _ h =>
  Monomial.ext (List.reverse_injective h)

noncomputable instance : LinearOrder Monomial :=
  LinearOrder.lift' key key_injective

end Monomial

/-!
## Summands
-/

/-- A rational multiple of a monomial. -/
@[ext] structure Summand where
  coefficient : Rat
  monomial : Monomial

namespace Summand

/-- The coefficient, where it is written. -/
def coefficientOperands (s : Summand) : List Expr :=
  if s.coefficient = 1 then [] else [.rational s.coefficient]

def operands (s : Summand) : List Expr :=
  s.coefficientOperands ++ s.monomial.factors.map Factor.toExpr

def toExpr (s : Summand) : Expr :=
  assemble .multiplication 1 s.operands

end Summand

theorem order_swap (f g : Factor) : order g.toExpr f.toExpr = (order f.toExpr g.toExpr).swap := by
  have h := Ordering.compares_swap.mpr (f.order_compares g)
  exact (g.order_compares f).inj h

theorem orderAll_nil_left {ys : List Expr} (h : ys ≠ []) : orderAll [] ys = .lt := by
  cases ys with
  | nil => exact absurd rfl h
  | cons y ys => rw [orderAll]

theorem orderAll_nil_right {xs : List Expr} (h : xs ≠ []) : orderAll xs [] = .gt := by
  cases xs with
  | nil => exact absurd rfl h
  | cons x xs => rw [orderAll]

theorem orderLast_product (xs : List Expr) (f g : Factor) :
    orderLast (.apply .multiplication (xs ++ [f.toExpr])) g.toExpr =
      (order f.toExpr g.toExpr).then .gt := by
  rw [orderLast]
  split
  · rename_i last hlast
    obtain rfl : f.toExpr = last := by simpa using hlast
    cases order f.toExpr g.toExpr <;> rfl
  · rename_i hnone
    simp at hnone

/-- Products that end in factors are compared from their ends, also where they have one factor
only. -/
theorem order_products (xs ys : List Expr) (f g : Factor) :
    order (assemble .multiplication 1 (xs ++ [f.toExpr]))
        (assemble .multiplication 1 (ys ++ [g.toExpr])) =
      orderAll (xs ++ [f.toExpr]).reverse (ys ++ [g.toExpr]).reverse := by
  have hproduct : ∀ (x : Expr) (xs : List Expr) (f : Factor),
      assemble .multiplication 1 (x :: xs ++ [f.toExpr]) =
        .apply .multiplication (x :: xs ++ [f.toExpr]) := fun x xs f =>
    assemble_of_length .multiplication 1 (by simp)
  have hordinary : ∀ zs, Ordinary (.apply .multiplication zs) := fun _ => ⟨rfl, rfl⟩
  cases xs with
  | nil =>
      cases ys with
      | nil => simp [assemble, orderAll]
      | cons y ys =>
          -- a factor alone precedes a product that ends in it
          rw [hproduct, List.nil_append, assemble, order_last_swap f.ordinary (hordinary _)
            f.kind_ne.2 f.isMany_eq rfl, orderLast_product, order_swap]
          simp only [List.reverse_append, List.reverse_singleton, List.singleton_append,
            orderAll, orderAll_nil_left (List.reverse_ne_nil_iff.mpr (List.cons_ne_nil y ys))]
          cases order f.toExpr g.toExpr <;> rfl
  | cons x xs =>
      cases ys with
      | nil =>
          rw [hproduct, List.nil_append, assemble, order_last (hordinary _) g.ordinary
            g.kind_ne.2.symm rfl, orderLast_product]
          simp only [List.reverse_append, List.reverse_singleton, List.singleton_append,
            orderAll, orderAll_nil_right (List.reverse_ne_nil_iff.mpr (List.cons_ne_nil x xs))]
      | cons y ys =>
          rw [hproduct, hproduct, order_alike (hordinary _) (hordinary _) (by rfl), orderAlike]
          simp [compareLabels, isMany, kind, Operator.kind]

theorem nil_lt {α : Type} [LinearOrder α] {as : List α} (h : as ≠ []) : [] < as := by
  cases as with
  | nil => exact absurd rfl h
  | cons a as => exact List.nil_lt_cons a as

theorem compares_cons {α : Type} [LinearOrder α] (a : α) {as bs : List α} {o : Ordering}
    (h : o.Compares as bs) : o.Compares (a :: as) (a :: bs) := by
  cases o with
  | lt => exact List.cons_lt_cons_iff.mpr (.inr ⟨rfl, h⟩)
  | gt => exact List.cons_lt_cons_iff.mpr (.inr ⟨rfl, h⟩)
  | eq => exact congrArg (a :: ·) (h : as = bs)

/-- Lists of factors that may end in a coefficient are compared by the factors. -/
theorem orderAll_factors {fs gs : List Factor} (hne : fs ≠ gs) {c d : Rat} {xs ys : List Expr}
    (hxs : xs ⊆ [.rational c]) (hys : ys ⊆ [.rational d]) :
    (orderAll (fs.map Factor.toExpr ++ xs) (gs.map Factor.toExpr ++ ys)).Compares fs gs := by
  induction fs generalizing gs with
  | nil =>
      cases gs with
      | nil => exact absurd rfl hne
      | cons g gs =>
          -- what is left on the one side is a coefficient at most, and numbers precede factors
          have horder : orderAll xs (g.toExpr :: (gs.map Factor.toExpr ++ ys)) = .lt := by
            cases xs with
            | nil => rw [orderAll]
            | cons x xs =>
                rw [List.mem_singleton.mp (hxs List.mem_cons_self), orderAll,
                  order_rational_ordinary c g.ordinary]
                rfl
          simp [horder]
  | cons f fs ih =>
      cases gs with
      | nil =>
          have horder : orderAll (f.toExpr :: (fs.map Factor.toExpr ++ xs)) ys = .gt := by
            cases ys with
            | nil => rw [orderAll]
            | cons y ys =>
                rw [List.mem_singleton.mp (hys List.mem_cons_self), orderAll,
                  order_ordinary_rational d f.ordinary]
                rfl
          simp [horder]
      | cons g gs =>
          simp only [List.map_cons, List.cons_append, orderAll]
          have hhead := f.order_compares g
          generalize order f.toExpr g.toExpr = o at hhead ⊢
          cases o with
          | lt => exact List.cons_lt_cons_iff.mpr (.inl hhead)
          | gt => exact List.cons_lt_cons_iff.mpr (.inl hhead)
          | eq =>
              obtain rfl : f = g := hhead
              exact compares_cons f (ih fun h => hne (by rw [h]))

namespace Summand

theorem toExpr_of_factors_nil {s : Summand} (h : s.monomial.factors = []) :
    s.toExpr = .rational s.coefficient := by
  rw [toExpr, operands, coefficientOperands, h]
  split
  · rename_i hone
    rw [hone]
    rfl
  · rfl

theorem coefficientOperands_subset (s : Summand) :
    s.coefficientOperands ⊆ [.rational s.coefficient] := by
  rw [coefficientOperands]
  split
  · exact List.nil_subset _
  · exact List.Subset.refl _

theorem reverse_operands (s : Summand) : s.operands.reverse =
    s.monomial.key.map Factor.toExpr ++ s.coefficientOperands := by
  have hcoefficient : s.coefficientOperands.reverse = s.coefficientOperands := by
    rw [coefficientOperands]
    split <;> rfl
  rw [operands, List.reverse_append, hcoefficient, ← List.map_reverse, Monomial.key]

theorem exists_operands_eq {s : Summand} (h : s.monomial.factors ≠ []) :
    ∃ xs f, s.operands = xs ++ [Factor.toExpr f] := by
  rcases List.eq_nil_or_concat s.monomial.factors with hnil | ⟨fs, f, hfs⟩
  · exact absurd hnil h
  · refine ⟨s.coefficientOperands ++ fs.map Factor.toExpr, f, ?_⟩
    rw [operands, hfs, List.concat_eq_append, List.map_append, List.append_assoc]
    rfl

theorem ordinary {s : Summand} (h : s.monomial.factors ≠ []) : Ordinary s.toExpr := by
  rcases exists_operands_eq h with ⟨xs, f, hoperands⟩
  rw [toExpr, hoperands]
  cases xs with
  | nil => exact f.ordinary
  | cons x xs =>
      rw [assemble_of_length _ _ (by simp)]
      exact ⟨rfl, rfl⟩

/-- The simplification order of summands is that of their monomials. -/
theorem order_compares {s t : Summand} (h : s.monomial ≠ t.monomial) :
    (order s.toExpr t.toExpr).Compares s.monomial t.monomial := by
  refine compares_lift Monomial.key_injective ?_
  by_cases hs : s.monomial.factors = [] <;> by_cases ht : t.monomial.factors = []
  · exact absurd (Monomial.ext (hs.trans ht.symm)) h
  · rw [toExpr_of_factors_nil hs, order_rational_ordinary _ (ordinary ht), Monomial.key,
      Monomial.key, hs]
    exact nil_lt (List.reverse_ne_nil_iff.mpr ht)
  · rw [toExpr_of_factors_nil ht, order_ordinary_rational _ (ordinary hs), Monomial.key,
      Monomial.key, ht]
    exact nil_lt (List.reverse_ne_nil_iff.mpr hs)
  · rcases exists_operands_eq hs with ⟨xs, f, hxs⟩
    rcases exists_operands_eq ht with ⟨ys, g, hys⟩
    rw [toExpr, toExpr, hxs, hys, order_products, ← hxs, ← hys, reverse_operands,
      reverse_operands]
    exact orderAll_factors (fun heq => h (Monomial.key_injective heq))
      s.coefficientOperands_subset t.coefficientOperands_subset

end Summand

end Laurent

end PocketAlgebra
