import Mathlib.Algebra.Order.Ring.Unbundled.Rat
import Mathlib.Data.String.Basic
import Mathlib.Order.Compare
import PocketAlgebra.Expr.Order

/-!
# Sorting by a comparison

The simplification order is not a total order on all expressions.  Where it
agrees with a total order of keys that tell the members of a list apart, sorting
writes the list by ascending keys, in whatever order it was given.

For such agreements the module also tells how the simplification order looks at
two expressions, by what stands at their tops.
-/

namespace PocketAlgebra

namespace Expr

variable {α β κ : Type} {compare : α → α → Ordering} {key : α → κ}

/-!
## Insertion sort
-/

theorem insertBackwards_map (compare : β → β → Ordering) (f : α → β) (x : α)
    (ys : List α) : insertBackwards compare (f x) (ys.map f) =
      (insertBackwards (fun a b => compare (f a) (f b)) x ys).map f := by
  induction ys with
  | nil => rfl
  | cons y ys ih =>
      rw [List.map_cons, insertBackwards, insertBackwards, ih]
      split <;> rfl

/-- Images are sorted as the elements are by the comparison of their images. -/
theorem insertionSort_map (compare : β → β → Ordering) (f : α → β) (items : List α) :
    insertionSort compare (items.map f) =
      (insertionSort (fun a b => compare (f a) (f b)) items).map f := by
  have hfold : ∀ sorted : List α,
      (items.map f).foldl (fun sorted x => insertBackwards compare x sorted)
          (sorted.map f) =
        (items.foldl (fun sorted x =>
          insertBackwards (fun a b => compare (f a) (f b)) x sorted) sorted).map f := by
    induction items with
    | nil => exact fun sorted => rfl
    | cons x items ih =>
        intro sorted
        rw [List.map_cons, List.foldl_cons, insertBackwards_map, ih, List.foldl_cons]
  rw [insertionSort, insertionSort, List.map_reverse]
  exact congrArg List.reverse (hfold [])

theorem insertBackwards_congr {compare compare' : α → α → Ordering} {x : α} {ys : List α}
    (h : ∀ y ∈ ys, compare y x = compare' y x) :
    insertBackwards compare x ys = insertBackwards compare' x ys := by
  induction ys with
  | nil => rfl
  | cons y ys ih =>
      rw [insertBackwards, insertBackwards, h y List.mem_cons_self,
        ih fun z hz => h z (List.mem_cons_of_mem y hz)]

/-- Sorting depends on the comparison only as far as it concerns the elements. -/
theorem insertionSort_congr {compare compare' : α → α → Ordering} {items : List α}
    (h : ∀ x ∈ items, ∀ y ∈ items, compare x y = compare' x y) :
    insertionSort compare items = insertionSort compare' items := by
  have hfold : ∀ (rest sorted : List α), (∀ x ∈ rest, x ∈ items) → (∀ x ∈ sorted, x ∈ items) →
      rest.foldl (fun sorted x => insertBackwards compare x sorted) sorted =
        rest.foldl (fun sorted x => insertBackwards compare' x sorted) sorted := by
    intro rest
    induction rest with
    | nil => exact fun sorted _ _ => rfl
    | cons x rest ih =>
        intro sorted hrest hsorted
        have hx := hrest x List.mem_cons_self
        have hinsert : insertBackwards compare x sorted = insertBackwards compare' x sorted :=
          insertBackwards_congr fun y hy => h y (hsorted y hy) x hx
        rw [List.foldl_cons, List.foldl_cons, hinsert]
        refine ih _ (fun y hy => hrest y (List.mem_cons_of_mem x hy)) fun y hy => ?_
        rcases List.mem_cons.mp ((insertBackwards_perm compare' x sorted).mem_iff.mp hy) with
          rfl | hy
        · exact hx
        · exact hsorted y hy
  rw [insertionSort, insertionSort, hfold items [] (fun _ hx => hx) nofun]

/-- A comparison agrees on a list with the order of keys. -/
def ComparesBy [LT κ] (compare : α → α → Ordering) (key : α → κ) (items : List α) : Prop :=
  ∀ x ∈ items, ∀ y ∈ items, key x ≠ key y → (compare x y).Compares (key x) (key y)

variable [LinearOrder κ]

/-- The list is kept from its end, so that its keys descend. -/
theorem insertBackwards_pairwise {x : α} {ys : List α}
    (hcompare : ComparesBy compare key (x :: ys)) (hne : ∀ y ∈ ys, key y ≠ key x)
    (hys : ys.Pairwise (key · > key ·)) :
    (insertBackwards compare x ys).Pairwise (key · > key ·) := by
  induction ys with
  | nil => exact List.pairwise_singleton _ x
  | cons y ys ih =>
      rcases List.pairwise_cons.mp hys with ⟨hy, htail⟩
      have hxy := hne y List.mem_cons_self
      have hstep := hcompare y (by simp) x (by simp) hxy
      rw [insertBackwards]
      split
      · -- the element goes further towards the front
        rename_i hgt
        have hsub : ∀ z ∈ x :: ys, z ∈ x :: y :: ys := by
          intro z hz
          rcases List.mem_cons.mp hz with rfl | hz <;> simp_all
        have hrest := ih (fun a ha b hb => hcompare a (hsub a ha) b (hsub b hb))
          (fun z hz => hne z (List.mem_cons_of_mem y hz)) htail
        refine List.pairwise_cons.mpr ⟨fun z hz => ?_, hrest⟩
        rcases List.mem_cons.mp ((insertBackwards_perm compare x ys).mem_iff.mp hz)
          with rfl | hz
        · exact hstep.eq_gt.mp hgt
        · exact hy z hz
      · rename_i hgt
        have hlt : key y < key x := by
          refine lt_of_le_of_ne (not_lt.mp fun h => hgt (hstep.eq_gt.mpr h)) hxy
        refine List.pairwise_cons.mpr ⟨fun z hz => ?_, hys⟩
        rcases List.mem_cons.mp hz with rfl | hz
        · exact hlt
        · exact (hy z hz).trans hlt

/-- A list is sorted by ascending keys where the comparison agrees with them. -/
theorem insertionSort_pairwise {items : List α} (hcompare : ComparesBy compare key items)
    (hne : items.Pairwise (key · ≠ key ·)) :
    (insertionSort compare items).Pairwise (key · < key ·) := by
  have hfold : ∀ sorted : List α, ComparesBy compare key (items ++ sorted) →
      (items ++ sorted).Pairwise (key · ≠ key ·) → sorted.Pairwise (key · > key ·) →
      (items.foldl (fun sorted x => insertBackwards compare x sorted) sorted).Pairwise
        (key · > key ·) := by
    clear hcompare hne
    -- the part that is sorted so far descends, and no key occurs twice in the whole list
    induction items with
    | nil => exact fun sorted _ _ hsorted => hsorted
    | cons x items ih =>
        intro sorted hcompare hne hsorted
        have hperm : (items ++ insertBackwards compare x sorted).Perm
            (x :: items ++ sorted) :=
          ((insertBackwards_perm compare x sorted).append_left items).trans
            List.perm_middle
        refine ih _ (fun a ha b hb => ?_) ?_ ?_
        · exact hcompare a (hperm.mem_iff.mp ha) b (hperm.mem_iff.mp hb)
        · exact hperm.symm.pairwise hne fun h => h.symm
        · refine insertBackwards_pairwise (fun a ha b hb => ?_) (fun y hy => ?_) hsorted
          · exact hcompare a (by aesop) b (by aesop)
          · have hx := (List.pairwise_cons.mp hne).1 y (by simp [hy])
            exact hx.symm
  rw [insertionSort, List.pairwise_reverse]
  exact hfold [] (by simpa using hcompare) (by simpa using hne) .nil

/-!
## The tops of two expressions
-/

/-- An expression that is neither a number nor poisoned. -/
structure Ordinary (x : Expr) : Prop where
  number?_eq : x.number? = none
  isPoison_eq : x.kind.isPoison = false

section

variable {x y : Expr}

theorem order_of_ordinary (hx : Ordinary x) (hy : Ordinary y) :
    order x y =
      if x.kind = y.kind then orderAlike x y
      else if x.isMany then orderLast x y
      else if y.isMany then (orderLast y x).swap
      else if x.kind = .power then orderBase x y
      else if y.kind = .power then (orderBase y x).swap
      else compareKinds x y := by
  rw [order]
  simp only [hx.isPoison_eq, hy.isPoison_eq, hx.number?_eq, hy.number?_eq, Bool.or_self,
    Bool.false_eq_true, if_false]

theorem order_alike (hx : Ordinary x) (hy : Ordinary y) (h : x.kind = y.kind) :
    order x y = orderAlike x y := by
  rw [order_of_ordinary hx hy, if_pos h]

theorem order_last (hx : Ordinary x) (hy : Ordinary y) (h : x.kind ≠ y.kind)
    (hmany : x.isMany = true) : order x y = orderLast x y := by
  rw [order_of_ordinary hx hy, if_neg h, if_pos hmany]

theorem order_last_swap (hx : Ordinary x) (hy : Ordinary y) (h : x.kind ≠ y.kind)
    (hx' : x.isMany = false) (hmany : y.isMany = true) : order x y = (orderLast y x).swap := by
  rw [order_of_ordinary hx hy, if_neg h, hx', if_neg Bool.false_ne_true, if_pos hmany]

theorem order_base (hx : Ordinary x) (hy : Ordinary y) (hx' : x.isMany = false)
    (hy' : y.isMany = false) (hpower : x.kind = .power) (h : y.kind ≠ .power) :
    order x y = orderBase x y := by
  rw [order_of_ordinary hx hy, hpower, if_neg h.symm, hx', hy',
    if_neg Bool.false_ne_true, if_neg Bool.false_ne_true, if_pos rfl]

theorem order_base_swap (hx : Ordinary x) (hy : Ordinary y) (hx' : x.isMany = false)
    (hy' : y.isMany = false) (h : x.kind ≠ .power) (hpower : y.kind = .power) :
    order x y = (orderBase y x).swap := by
  rw [order_of_ordinary hx hy, hpower, if_neg h, hx', hy',
    if_neg Bool.false_ne_true, if_neg Bool.false_ne_true, if_neg h, if_pos rfl]

end

theorem order_rational_ordinary (q : Rat) {x : Expr} (hx : Ordinary x) :
    order (.rational q) x = .lt := by
  have hpoison : (Expr.rational q).kind.isPoison = false := rfl
  have hnumber : (Expr.rational q).number? = some (.finite q) := rfl
  rw [order, hpoison, hx.isPoison_eq, hnumber, hx.number?_eq]
  rfl

theorem order_ordinary_rational (q : Rat) {x : Expr} (hx : Ordinary x) :
    order x (.rational q) = .gt := by
  have hpoison : (Expr.rational q).kind.isPoison = false := rfl
  have hnumber : (Expr.rational q).number? = some (.finite q) := rfl
  rw [order, hpoison, hx.isPoison_eq, hnumber, hx.number?_eq]
  rfl

theorem order_rational_compares (p q : Rat) :
    (order (.rational p) (.rational q)).Compares p q := by
  have hpoison : ∀ q : Rat, (Expr.rational q).kind.isPoison = false := fun _ => rfl
  have hkinds : compareKinds (.rational p) (.rational q) = .eq := by
    simp [compareKinds, kind]
  rw [order, hpoison, hpoison, hkinds]
  simp only [number?, ExtendedRat.compare, Bool.or_self, Bool.false_eq_true, if_false]
  rcases lt_trichotomy p q with h | h | h
  · rw [if_pos h]
    exact h
  · rw [if_neg h.not_lt, if_pos h]
    exact h
  · rw [if_neg h.not_gt, if_neg h.ne']
    exact h

theorem compareNames_compares (a b : String) : (compareNames a b).Compares a b := by
  rw [compareNames]
  rcases lt_trichotomy a b with h | h | h
  · rw [if_pos h]
    exact h
  · rw [if_neg h.not_lt, if_pos h]
    exact h
  · rw [if_neg h.not_gt, if_neg h.ne']
    exact h

theorem compareNames_eq_eq {a b : String} : compareNames a b = .eq ↔ a = b :=
  (compareNames_compares a b).eq_eq

theorem compareNames_swap (a b : String) : (compareNames a b).swap = compareNames b a :=
  (Ordering.compares_swap.mpr (compareNames_compares a b)).inj (compareNames_compares b a)

end Expr

end PocketAlgebra
