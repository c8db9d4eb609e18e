import PocketAlgebra.Expr.Basic

/-!
# Simplification order

The order in which the operands of sums and products are written. Numbers come first, by value. A
sum, a product or a power is compared with anything else through its last operand or its base, so
that `x`, `2·x` and `x^2` stand side by side. Everything else goes by kind.
-/

namespace PocketAlgebra

/-- A rational number or one of the two infinities around them. -/
inductive ExtendedRat where
  | negativeInfinity
  | finite (value : Rat)
  | positiveInfinity

namespace ExtendedRat

/-- Comparison by value. -/
def compare : ExtendedRat → ExtendedRat → Ordering
  | negativeInfinity, negativeInfinity => .eq
  | negativeInfinity, _ => .lt
  | _, negativeInfinity => .gt
  | positiveInfinity, positiveInfinity => .eq
  | positiveInfinity, _ => .gt
  | _, positiveInfinity => .lt
  | finite p, finite q => if p < q then .lt else if p = q then .eq else .gt

/-- What a decimal literal amounts to where infinities are admitted. -/
def ofDecimal (d : Decimal) : ExtendedRat :=
  match d.value with
  | .overflow negative => if negative then negativeInfinity else positiveInfinity
  | .underflow => finite 0
  | .finite q => finite q

end ExtendedRat

namespace Expr

/-- The value of a number. -/
def number? : Expr → Option ExtendedRat
  | rational q => some (.finite q)
  | decimal d => some (.ofDecimal d)
  | infinity negative => some (if negative then .negativeInfinity else .positiveInfinity)
  | _ => none

/-- Comparison of names, by their encoded bytes; code points are in the same order. -/
def compareNames (a b : String) : Ordering :=
  if a < b then .lt else if a = b then .eq else .gt

/-- Kinds in sorting order. -/
def compareKinds (x y : Expr) : Ordering :=
  compare x.kind.rank y.kind.rank

/-- Comparison of the data that two operators of one kind carry. -/
def compareLabels : Operator → Operator → Ordering
  | .function f, .function g => compareNames f g
  | .comparison r, .comparison s => compare r.rank s.rank
  | .matrix r c, .matrix r' c' => (compare r r').then (compare c c')
  | _, _ => .eq

/-- Sums and products, which are compared through their last operand. -/
def isMany (x : Expr) : Bool :=
  x.kind == .addition || x.kind == .multiplication

/-- An exponent against the exponent 1 of an expression that is not written as a power. Exponents
without a value come after it. -/
def compareExponentWithOne (exponent : Expr) : Ordering :=
  match exponent.number? with
  | some value => if value.compare (.finite 1) = .lt then .lt else .gt
  | none => .gt

/-- Any answer but *equal*, which becomes *greater*. -/
def greaterIfEqual : Ordering → Ordering
  | .eq => .gt
  | ordering => ordering

theorem size_lt_of_mem {x : Expr} {xs : List Expr} (h : x ∈ xs) : x.size < sizeAll xs + 1 := by
  induction xs with
  | nil => cases h
  | cons y ys ih =>
      rw [sizeAll]
      cases h with
      | head => omega
      | tail _ h =>
          have := ih h
          omega

theorem sizeAll_append (xs ys : List Expr) : sizeAll (xs ++ ys) = sizeAll xs + sizeAll ys := by
  induction xs with
  | nil => simp [sizeAll]
  | cons x xs ih =>
      simp only [List.cons_append, sizeAll, ih]
      omega

theorem sizeAll_reverse (xs : List Expr) : sizeAll xs.reverse = sizeAll xs := by
  induction xs with
  | nil => rfl
  | cons x xs ih =>
      simp only [List.reverse_cons, sizeAll_append, sizeAll, ih]
      omega

theorem size_pos (x : Expr) : 0 < x.size := by
  cases x <;> simp [size]

mutual

/-- The simplification order. -/
def order (a b : Expr) : Ordering :=
  if a.kind.isPoison || b.kind.isPoison then
    compareKinds a b
  else
    match a.number?, b.number? with
    | some p, some q => (p.compare q).then (compareKinds a b)
    | some _, none => .lt
    | none, some _ => .gt
    | none, none =>
      if a.kind = b.kind then
        orderAlike a b
      else if a.isMany then
        orderLast a b
      else if b.isMany then
        (orderLast b a).swap
      else if a.kind = .power then
        orderBase a b
      else if b.kind = .power then
        (orderBase b a).swap
      else
        compareKinds a b
termination_by 3 * (a.size + b.size) + 1
decreasing_by all_goals omega

/-- Two expressions of one kind: the data of their operators first, then their operands, which
sums and products compare from the last one on. -/
def orderAlike (a b : Expr) : Ordering :=
  match a, b with
  | constant c, constant d => compare c.rank d.rank
  | symbol x, symbol y => compareNames x y
  | apply f xs, apply g ys =>
    (compareLabels f g).then <|
      if (apply f xs).isMany then orderAll xs.reverse ys.reverse else orderAll xs ys
  | _, _ => .eq
termination_by 3 * (a.size + b.size)
decreasing_by
  all_goals
    simp only [size, sizeAll_reverse]
    omega

/-- A sum or product against an expression of another kind. -/
def orderLast (a b : Expr) : Ordering :=
  match a with
  | apply f xs =>
    match _h : xs.getLast? with
    | some last => greaterIfEqual (order last b)
    | none => compareKinds (apply f xs) b
  | _ => compareKinds a b
termination_by 3 * (a.size + b.size)
decreasing_by
  have := size_lt_of_mem (List.mem_of_getLast? _h)
  simp only [size]
  omega

/-- A power against an expression of another kind: the base first, then the exponent. -/
def orderBase (a b : Expr) : Ordering :=
  match a with
  | apply _ (base :: exponent :: _) =>
    (order base b).then (compareExponentWithOne exponent)
  | _ => compareKinds a b
termination_by 3 * (a.size + b.size)
decreasing_by
  simp only [size, sizeAll]
  omega

/-- Two lists of operands, position by position; a list comes after those that begin it. -/
def orderAll (xs ys : List Expr) : Ordering :=
  match xs, ys with
  | [], [] => .eq
  | [], _ :: _ => .lt
  | _ :: _, [] => .gt
  | x :: xs, y :: ys => (order x y).then (orderAll xs ys)
termination_by 3 * (sizeAll xs + sizeAll ys) + 2
decreasing_by
  all_goals
    have := size_pos x
    simp only [sizeAll]
    omega

end

/-- Stable insertion of an element into a list: it moves before the elements at the end that come
after it. The list is given from its end. -/
def insertBackwards {α : Type} (compare : α → α → Ordering) (x : α) : List α → List α
  | [] => [x]
  | y :: ys => if compare y x = .gt then y :: insertBackwards compare x ys else x :: y :: ys

/-- Stable insertion sort. It is told apart from other sorts where the comparison is not a total
order. -/
def insertionSort {α : Type} (compare : α → α → Ordering) (items : List α) : List α :=
  (items.foldl (fun sorted x => insertBackwards compare x sorted) []).reverse

/-- The expressions of a list, in simplification order. -/
def sort (xs : List Expr) : List Expr :=
  insertionSort order xs

theorem insertBackwards_perm {α : Type} (compare : α → α → Ordering) (x : α)
    (ys : List α) : (insertBackwards compare x ys).Perm (x :: ys) := by
  induction ys with
  | nil => exact .refl _
  | cons y ys ih =>
      rw [insertBackwards]
      split
      · exact (ih.cons y).trans (.swap x y ys)
      · exact .refl _

theorem insertionSort_perm {α : Type} (compare : α → α → Ordering)
    (items : List α) : (insertionSort compare items).Perm items := by
  have hfold : ∀ sorted : List α,
      (items.foldl (fun sorted x => insertBackwards compare x sorted) sorted).Perm
        (items ++ sorted) := by
    induction items with
    | nil => exact fun sorted => .refl _
    | cons x items ih =>
        intro sorted
        have hinsert := (insertBackwards_perm compare x sorted).append_left items
        exact (ih _).trans (hinsert.trans List.perm_middle)
  have hnil := hfold []
  rw [List.append_nil] at hnil
  exact (List.reverse_perm _).trans hnil

/-- Sorting only rearranges. -/
theorem sort_perm (xs : List Expr) : (sort xs).Perm xs :=
  insertionSort_perm order xs

end Expr

end PocketAlgebra
