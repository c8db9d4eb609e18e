/-!
# Bounded integers

Exponents and numbers of digits are computed with only where they have a signed form of 32 bits;
whole numbers in files must have a form of 64 bits, with or without a sign. Some computations are
carried out with signed integers of 64 bits, and break off where one of the numbers has no such
form.
-/

namespace PocketAlgebra

/-- Whether an integer has a signed form of 32 bits. -/
def fitsInt32 (n : Int) : Bool :=
  -0x80000000 ≤ n && n < 0x80000000

/-- Whether an integer has a form of 64 bits, signed or, where it is not negative, unsigned. -/
def fitsWord64 (n : Int) : Bool :=
  -0x8000000000000000 ≤ n && n < 0x10000000000000000

/-- Whether an integer has a signed form of 64 bits. -/
def fitsInt64 (n : Int) : Bool :=
  -0x8000000000000000 ≤ n && n < 0x8000000000000000

/-- A number that a computation with signed integers of 64 bits arrives at, unless it breaks off
there. -/
def int64? (n : Int) : Option Int :=
  if fitsInt64 n then some n else none

section

variable {n m : Int}

theorem fitsInt64_iff :
    fitsInt64 n = true ↔ -0x8000000000000000 ≤ n ∧ n < 0x8000000000000000 := by
  rw [fitsInt64, Bool.and_eq_true, decide_eq_true_iff, decide_eq_true_iff]

theorem int64?_eq_some_iff :
    int64? n = some m ↔ (-0x8000000000000000 ≤ n ∧ n < 0x8000000000000000) ∧ n = m := by
  rw [int64?, Option.ite_none_right_eq_some, fitsInt64_iff, Option.some.injEq]

theorem int64?_of_fits (hleast : -0x8000000000000000 ≤ n) (hmost : n < 0x8000000000000000) :
    int64? n = some n :=
  int64?_eq_some_iff.mpr ⟨⟨hleast, hmost⟩, rfl⟩

theorem int64?_of_large (h : 0x8000000000000000 ≤ n) : int64? n = none :=
  if_neg fun hfits => Int.not_lt.mpr h (fitsInt64_iff.mp hfits).2

end

end PocketAlgebra
