import Mathlib.Data.Rat.Defs
import PocketAlgebra.Approximation.Engine

/-!
# Exact scalars

The rational numbers as scalars, with infinities, and with what stands for no number. Nothing is
rounded. A function that leaves the rational numbers has no value.
-/

namespace PocketAlgebra

/-- A rational number, an infinity, or no number. -/
inductive ExactNumber where
  | finite (q : Rat)
  | infinite (negative : Bool)
  | nan
  deriving DecidableEq, Repr

namespace ExactNumber

/-- Whether a number is below zero. -/
def negative : ExactNumber → Bool
  | finite q => q < 0
  | infinite negative => negative
  | nan => false

/-- The value of a function of rational numbers. -/
def onFinite (f : Rat → ExactNumber) : ExactNumber → ExactNumber
  | finite q => f q
  | x => x

instance : Add ExactNumber where
  add
    | finite p, finite q => finite (p + q)
    | infinite a, infinite b => if a = b then infinite a else nan
    | infinite a, finite _ | finite _, infinite a => infinite a
    | _, _ => nan

instance : Neg ExactNumber where
  neg
    | finite q => finite (-q)
    | infinite negative => infinite !negative
    | nan => nan

instance : Sub ExactNumber where
  sub x y := x + -y

instance : Mul ExactNumber where
  mul
    | finite p, finite q => finite (p * q)
    | nan, _ | _, nan => nan
    | x, y => if x = finite 0 ∨ y = finite 0 then nan else infinite (x.negative != y.negative)

instance : Div ExactNumber where
  div
    | finite p, finite q =>
      if q ≠ 0 then finite (p / q) else if p = 0 then nan else infinite (p < 0)
    | finite _, infinite _ => finite 0
    | infinite a, finite q => infinite (a != decide (q < 0))
    | _, _ => nan

instance : Scalar ExactNumber where
  ofRat := finite
  ofInt n := finite n
  ofDecimal d := finite d.toRat
  infinity := infinite false
  nan := nan
  pi := nan
  e := nan
  ln10 := nan
  epsilon := finite 0
  less
    | finite p, finite q => p < q
    | infinite a, infinite b => a && !b
    | finite _, infinite b => !b
    | infinite a, finite _ => a
    | _, _ => false
  equal
    | nan, _ => false
    | x, y => x = y
  isNegative := negative
  isNaN x := x = nan
  isInfinite
    | infinite _ => true
    | _ => false
  whole?
    | finite q => if q.den = 1 then some q.num else none
    | _ => none
  floor := onFinite fun q => finite q.floor
  ceil := onFinite fun q => finite q.ceil
  round := onFinite fun q =>
    finite (if q < 0 then (q - 1 / 2).ceil else (q + 1 / 2).floor)
  sqrt _ := nan
  exp _ := nan
  ln _ := nan
  pow
    | finite p, finite q => if q.den = 1 ∧ (p ≠ 0 ∨ 0 ≤ q) then finite (p ^ q.num) else nan
    | _, _ => nan
  sin _ := nan
  cos _ := nan
  asin _ := nan
  acos _ := nan
  atan _ := nan
  atan2 _ _ := nan
  sinh _ := nan
  cosh _ := nan
  tanh _ := nan
  asinh _ := nan
  acosh _ := nan
  atanh _ := nan
  hypot _ _ := nan

end ExactNumber

/-! ## Rational results -/

namespace Approximation

open PocketAlgebra.Expr

/-- The complex number that a rational number is, or the undefined one where there is none. -/
def exactly : Option Rat → ComplexNumber ExactNumber
  | some q => .ofReal (.finite q)
  | none => .undefined

variable {vs : List (Option Rat)}

theorem plus_exactly (a b : Option Rat) : ComplexNumber.plus (exactly a) (exactly b) =
    exactly (a.bind fun p => b.map (p + ·)) := by
  cases a <;> cases b <;> rfl

theorem times_exactly (a b : Option Rat) : ComplexNumber.times (exactly a) (exactly b) =
    exactly (a.bind fun p => b.map (p * ·)) := by
  cases a <;> cases b <;> rfl

theorem neg_exactly (a : Option Rat) : -exactly a = exactly (a.map (- ·)) := by
  cases a <;> rfl

/-! ## Combined numbers -/

theorem combineKnown_of_none (combine : Rat → Rat → Rat) (h : none ∈ vs) :
    combineKnown combine vs = none := by
  have hfold : ∀ (vs : List (Option Rat)) (a : Option Rat), a = none ∨ none ∈ vs → vs.foldl
      (fun total value => total.bind fun p => value.map (combine p)) a = none := by
    intro vs
    induction vs with
    | nil =>
        rintro a (rfl | hmem)
        · rfl
        · cases hmem
    | cons v vs ih =>
        rintro a (rfl | hmem)
        · exact ih _ (.inl rfl)
        · rcases List.mem_cons.mp hmem with rfl | hmem
          · exact ih _ (.inl (by cases a <;> rfl))
          · exact ih _ (.inr hmem)
  cases vs with
  | nil => rfl
  | cons v vs => exact hfold vs v ((List.mem_cons.mp h).imp_left Eq.symm)

theorem combineKnown_map_some (combine : Rat → Rat → Rat) (p : Rat) (qs : List Rat) :
    combineKnown combine ((p :: qs).map some) = some (qs.foldl combine p) := by
  rw [List.map_cons, combineKnown]
  induction qs generalizing p with
  | nil => rfl
  | cons q qs ih => exact ih (combine p q)

/-- Results that are combined one after the other are combined as rational numbers are. -/
theorem foldl_exactly {g : Evaluation ExactNumber → Evaluation ExactNumber → Evaluation ExactNumber}
    {combine : Rat → Rat → Rat} (hg : ∀ a b, g (.scalar (exactly a)) (.scalar (exactly b)) =
      .scalar (exactly (a.bind fun p => b.map (combine p)))) (vs : List (Option Rat))
    (v : Option Rat) :
    (vs.map fun v => Evaluation.scalar (exactly v)).foldl g (.scalar (exactly v)) =
      .scalar (exactly (combineKnown combine (v :: vs))) := by
  rw [combineKnown]
  induction vs generalizing v with
  | nil => rfl
  | cons w vs ih => rw [List.map_cons, List.foldl_cons, List.foldl_cons, hg, ih]

end Approximation

end PocketAlgebra
