import Mathlib.Algebra.Order.Ring.Unbundled.Rat
import PocketAlgebra.Proofs.Expr.Order

/-!
# The layered order

An order of all expressions that looks at sums before products and at products before powers,
whichever of two expressions they stand in. Where one of the two is a sum, both are compared as
lists of terms, from the last one on; else, where one is a product, as lists of factors; else, where
one is a power, by bases and exponents. It is a total order, and the simplification order is to be
measured against it.
-/

namespace PocketAlgebra

/-! ## Comparisons of three things -/

/-- What a total order answers on the pairs out of three things: the first two, the last two, and
the outer ones. -/
structure Coherent (o p q : Ordering) : Prop where
  left : o = .eq → q = p
  right : p = .eq → q = o
  less : o = .lt → p = .lt → q = .lt

namespace Coherent

variable {o p q o' p' q' : Ordering}

theorem of_transCmp {α : Type} (cmp : α → α → Ordering) [Std.TransCmp cmp] (x y z : α) :
    Coherent (cmp x y) (cmp y z) (cmp x z) :=
  ⟨Std.TransCmp.congr_left, fun h => (Std.TransCmp.congr_right h).symm, Std.TransCmp.lt_trans⟩

/-- Comparisons by one thing and then by another. -/
theorem thenBy (h : Coherent o p q) (h' : o = .eq → p = .eq → q = .eq → Coherent o' p' q') :
    Coherent (o.then o') (p.then p') (q.then q') := by
  obtain ⟨hleft, hright, hless⟩ := h
  cases o with
  | eq =>
      cases hleft rfl
      cases p with
      | eq => exact h' rfl rfl rfl
      | lt => exact ⟨fun _ => rfl, nofun, fun _ _ => rfl⟩
      | gt => exact ⟨fun _ => rfl, nofun, nofun⟩
  | lt =>
      cases p with
      | gt => exact ⟨nofun, nofun, nofun⟩
      | eq =>
          cases hright rfl
          exact ⟨nofun, fun _ => rfl, fun _ _ => rfl⟩
      | lt =>
          cases hless rfl rfl
          exact ⟨nofun, nofun, fun _ _ => rfl⟩
  | gt =>
      cases p with
      | eq =>
          cases hright rfl
          exact ⟨nofun, fun _ => rfl, nofun⟩
      | _ => exact ⟨nofun, nofun, nofun⟩

end Coherent

namespace ExtendedRat

theorem compare_swap (x y : ExtendedRat) : y.compare x = (x.compare y).swap := by
  cases x with
  | finite p =>
      cases y with
      | finite q =>
          rcases lt_trichotomy p q with h | rfl | h
          · simp [compare, h, h.not_gt, h.ne']
          · simp [compare]
          · simp [compare, h, h.not_gt, h.ne']
      | _ => rfl
  | _ => cases y <;> rfl

theorem compare_finite_isLE {p q : Rat} : (compare (finite p) (finite q)).isLE = true ↔ p ≤ q := by
  rcases lt_trichotomy p q with h | rfl | h
  · simp [compare, h, h.le]
  · simp [compare]
  · simp [compare, h.not_gt, h.ne', h.not_ge]

instance : Std.TransCmp ExtendedRat.compare where
  eq_swap := compare_swap _ _
  isLE_trans {x y z} hxy hyz := by
    cases x with
    | finite p =>
        cases y with
        | finite q =>
            cases z with
            | finite r =>
                rw [compare_finite_isLE] at hxy hyz ⊢
                exact hxy.trans hyz
            | _ => exact hyz
        | negativeInfinity => cases hxy
        | positiveInfinity =>
            cases z with
            | positiveInfinity => rfl
            | _ => cases hyz
    | negativeInfinity => cases z <;> rfl
    | positiveInfinity =>
        cases y with
        | positiveInfinity => exact hyz
        | _ => cases hxy

end ExtendedRat

namespace Expr

instance : Std.TransCmp compareNames where
  eq_swap {a b} := by
    rcases lt_trichotomy a b with h | rfl | h
    · simp [compareNames, h, h.not_gt, h.ne']
    · rw [compareNames]
      simp
    · simp [compareNames, h, h.not_gt, h.ne']
  isLE_trans {a b c} hab hbc := by
    have hle : ∀ x y, (compareNames x y).isLE = true ↔ x ≤ y := fun x y => by
      have h := compareNames_compares x y
      cases hcase : compareNames x y <;> rw [hcase] at h
      · exact ⟨fun _ => le_of_lt h, fun _ => rfl⟩
      · exact ⟨fun _ => le_of_eq h, fun _ => rfl⟩
      · exact ⟨nofun, fun hle => absurd hle (not_le_of_gt h)⟩
    rw [hle] at hab hbc ⊢
    exact hab.trans hbc

instance : Std.TransCmp compareKinds :=
  inferInstanceAs (Std.TransCmp (compareOn fun x : Expr => x.kind.rank))

/-! ## What a node shows by itself -/

/-- Poison comes before numbers, and numbers before everything else. -/
def tier (x : Expr) : Nat :=
  if x.kind.isPoison then 0 else if x.number?.isSome then 1 else 2

/-- The value of a number, and zero for all that are none. -/
def numericValue (x : Expr) : ExtendedRat :=
  x.number?.getD (.finite 0)

/-- The name of a symbol or a called function. -/
def nameOrEmpty (x : Expr) : String :=
  x.name?.getD ""

/-- What else a node carries: which constant or relation it is, or the shape of a matrix. -/
def marks : Expr → Nat × Nat
  | constant c => (c.rank, 0)
  | apply (.comparison r) _ => (r.rank, 0)
  | apply (.matrix rows columns) _ => (rows, columns)
  | _ => (0, 0)

/-- Comparison of values, which are those of the numbers among the nodes. -/
def compareValues (x y : Expr) : Ordering :=
  x.numericValue.compare y.numericValue

/-- Comparison of the names that nodes have. -/
def compareOwnNames (x y : Expr) : Ordering :=
  compareNames x.nameOrEmpty y.nameOrEmpty

/-- Comparison of all that two nodes show without their operands. -/
def compareHeads : Expr → Expr → Ordering :=
  compareLex compareValues <| compareLex compareKinds <| compareLex compareOwnNames <|
    compareLex (compareOn fun x => x.marks.1) (compareOn fun x => x.marks.2)

instance : Std.TransCmp compareValues where
  eq_swap := ExtendedRat.compare_swap _ _
  isLE_trans hxy hyz := @Std.TransCmp.isLE_trans _ ExtendedRat.compare _ _ _ _ hxy hyz

instance : Std.TransCmp compareOwnNames where
  eq_swap {x y} := @Std.OrientedCmp.eq_swap _ compareNames _ x.nameOrEmpty y.nameOrEmpty
  isLE_trans hxy hyz := @Std.TransCmp.isLE_trans _ compareNames _ _ _ _ hxy hyz

instance : Std.TransCmp compareHeads :=
  inferInstanceAs (Std.TransCmp (compareLex _ _))

/-! ## Layers -/

/-- Whether an expression is an operator over two operands or more. -/
def spans (f : Operator) : Expr → Bool
  | apply g xs => g == f && 2 ≤ xs.length
  | _ => false

/-- The operands of an expression under an operator, last one first; any other expression is its own
only one. -/
def parts (f : Operator) (x : Expr) : List Expr :=
  if spans f x then x.operands.reverse else [x]

/-- The base and the exponent of a power. -/
def power? : Expr → Option (Expr × Expr)
  | apply .power [base, exponent] => some (base, exponent)
  | _ => none

/-- An exponent against the exponent 1 of an expression that is not written as a power; poisoned
exponents come before it. -/
def againstOne (exponent : Expr) : Ordering :=
  if exponent.kind.isPoison then .lt else compareExponentWithOne exponent

theorem sizeAll_operands_lt {x : Expr} : sizeAll x.operands < x.size := by
  cases x <;> simp [size, sizeAll, operands]

theorem sizeAll_parts_le (f : Operator) (x : Expr) : sizeAll (parts f x) ≤ x.size := by
  rw [parts]
  split
  · rw [sizeAll_reverse]
    exact sizeAll_operands_lt.le
  · simp [sizeAll]

theorem sizeAll_parts_lt {f : Operator} {x : Expr} (h : spans f x = true) :
    sizeAll (parts f x) < x.size := by
  rw [parts, if_pos h, sizeAll_reverse]
  exact sizeAll_operands_lt

theorem size_of_power? {x base exponent : Expr} (h : x.power? = some (base, exponent)) :
    base.size + exponent.size < x.size := by
  rw [power?.eq_def] at h
  split at h
  · cases h
    simp [size, sizeAll]
  · cases h

mutual

/-- The layered order. -/
def layered (x y : Expr) : Ordering :=
  (compare x.tier y.tier).then <|
    if _h : spans .addition x || spans .addition y then
      layeredAll (parts .addition x) (parts .addition y)
    else if _h : spans .multiplication x || spans .multiplication y then
      layeredAll (parts .multiplication x) (parts .multiplication y)
    else
      match _hx : x.power?, _hy : y.power? with
      | some (base, exponent), some (base', exponent') =>
        (layered base base').then (layered exponent exponent')
      | some (base, exponent), none => (layered base y).then (againstOne exponent)
      | none, some (base, exponent) => (layered x base).then (againstOne exponent).swap
      | none, none => (compareHeads x y).then (layeredAll x.operands y.operands)
termination_by 2 * (x.size + y.size)
decreasing_by
  · have hx := sizeAll_parts_le .addition x
    have hy := sizeAll_parts_le .addition y
    rcases Bool.or_eq_true_iff.mp _h with h | h
    · have := sizeAll_parts_lt h
      omega
    · have := sizeAll_parts_lt h
      omega
  · have hx := sizeAll_parts_le .multiplication x
    have hy := sizeAll_parts_le .multiplication y
    rcases Bool.or_eq_true_iff.mp _h with h | h
    · have := sizeAll_parts_lt h
      omega
    · have := sizeAll_parts_lt h
      omega
  · have := size_of_power? _hx
    have := size_of_power? _hy
    omega
  · have := size_of_power? _hx
    have := size_of_power? _hy
    omega
  · have := size_of_power? _hx
    omega
  · have := size_of_power? _hy
    omega
  · have := @sizeAll_operands_lt x
    have := @sizeAll_operands_lt y
    omega

/-- Two lists in the layered order, position by position; a list comes after those that begin
it. -/
def layeredAll (xs ys : List Expr) : Ordering :=
  match xs, ys with
  | [], [] => .eq
  | [], _ :: _ => .lt
  | _ :: _, [] => .gt
  | x :: xs, y :: ys => (layered x y).then (layeredAll xs ys)
termination_by 2 * (sizeAll xs + sizeAll ys) + 1
decreasing_by
  all_goals
    have := size_pos x
    simp only [sizeAll]
    omega

end

/-! ## What decides -/

variable {f : Operator} {x y z : Expr}

theorem layered_of_tier_ne (h : x.tier ≠ y.tier) : layered x y = compare x.tier y.tier := by
  have hne : compare x.tier y.tier ≠ .eq := fun heq => h (Nat.compare_eq_eq.mp heq)
  rw [layered]
  cases hcompare : compare x.tier y.tier with
  | eq => exact absurd hcompare hne
  | _ => rfl

/-- The layers that are not below sums, or not below products. -/
def Uncovered (f : Operator) (x : Expr) : Prop :=
  f = .addition ∨ f = .multiplication ∧ spans .addition x = false

/-- Expressions are compared as sums, also where neither is one; and where neither is a sum, they
are compared as products. -/
theorem layered_parts (htier : x.tier = y.tier) (hx : Uncovered f x) (hy : Uncovered f y) :
    layered x y = layeredAll (parts f x) (parts f y) := by
  by_cases hspans : spans f x || spans f y
  · rw [layered, htier, Nat.compare_eq_eq.mpr rfl, Ordering.eq_then]
    rcases hx with rfl | ⟨rfl, hx⟩
    · rw [dif_pos hspans]
    · rcases hy with hf | ⟨_, hy⟩
      · cases hf
      · simp only [hx, hy, Bool.or_self, Bool.false_eq_true, dite_false, hspans, dite_true]
  · rw [Bool.or_eq_true, not_or] at hspans
    rw [parts, parts, if_neg hspans.1, if_neg hspans.2, layeredAll, layeredAll,
      Ordering.then_eq]

/-- The base of a power; any other expression is its own. -/
def base (x : Expr) : Expr :=
  (x.power?.map Prod.fst).getD x

/-- Exponents, where there are any. -/
def compareExponents : Option (Expr × Expr) → Option (Expr × Expr) → Ordering
  | some (_, e), some (_, e') => layered e e'
  | some (_, e), none => againstOne e
  | none, some (_, e) => (againstOne e).swap
  | none, none => .eq

/-- An expression that is neither a sum nor a product. -/
def Single (x : Expr) : Prop :=
  spans .addition x = false ∧ spans .multiplication x = false

theorem layered_single (htier : x.tier = y.tier) (hx : Single x) (hy : Single y) :
    layered x y =
      match x.power?, y.power? with
      | none, none => (compareHeads x y).then (layeredAll x.operands y.operands)
      | _, _ => (layered x.base y.base).then (compareExponents x.power? y.power?) := by
  rw [layered, htier, Nat.compare_eq_eq.mpr rfl, Ordering.eq_then]
  simp only [hx.1, hx.2, hy.1, hy.2, Bool.or_self, Bool.false_eq_true, dite_false]
  cases hpx : x.power? <;> cases hpy : y.power? <;> simp [base, hpx, hpy, compareExponents]

/-- Where one is a power, expressions are compared as powers. -/
theorem layered_base (htier : x.tier = y.tier) (hx : Single x) (hy : Single y) :
    layered x y = (layered x.base y.base).then (compareExponents x.power? y.power?) := by
  cases hpx : x.power? with
  | none =>
      cases hpy : y.power? with
      | none => simp [base, hpx, hpy, compareExponents]
      | some _ => simp only [layered_single htier hx hy, hpx, hpy]
  | some _ => simp only [layered_single htier hx hy, hpx]

theorem layered_plain (htier : x.tier = y.tier) (hx : Single x) (hy : Single y)
    (hpx : x.power? = none) (hpy : y.power? = none) :
    layered x y = (compareHeads x y).then (layeredAll x.operands y.operands) := by
  simp only [layered_single htier hx hy, hpx, hpy]

/-! ## Sizes -/

theorem size_le_sizeAll {xs : List Expr} (h : x ∈ xs) : x.size ≤ sizeAll xs := by
  have := size_lt_of_mem h
  omega

theorem size_le_of_mem_parts (h : x ∈ parts f y) : x.size ≤ y.size :=
  (size_le_sizeAll h).trans (sizeAll_parts_le f y)

theorem size_lt_of_mem_parts (hy : spans f y = true) (h : x ∈ parts f y) : x.size < y.size :=
  (size_le_sizeAll h).trans_lt (sizeAll_parts_lt hy)

theorem size_lt_of_mem_operands (h : x ∈ y.operands) : x.size < y.size :=
  (size_le_sizeAll h).trans_lt sizeAll_operands_lt

theorem size_base_le : x.base.size ≤ x.size ∧ (x.power? ≠ none → x.base.size < x.size) := by
  rw [base]
  cases h : x.power? with
  | none => exact ⟨le_rfl, fun hne => absurd rfl hne⟩
  | some p =>
      have := size_of_power? h
      simp only [Option.map_some, Option.getD_some]
      omega

/-! ## The reverse comparison -/

theorem layeredAll_swap {xs ys : List Expr}
    (h : ∀ x ∈ xs, ∀ y ∈ ys, layered y x = (layered x y).swap) :
    layeredAll ys xs = (layeredAll xs ys).swap := by
  induction xs generalizing ys with
  | nil => cases ys <;> simp [layeredAll]
  | cons x xs ih =>
      cases ys with
      | nil => simp [layeredAll]
      | cons y ys =>
          rw [layeredAll, layeredAll, Ordering.swap_then, h x (by simp) y (by simp),
            ih fun a ha b hb => h a (by simp [ha]) b (by simp [hb])]

theorem layered_swap (x y : Expr) : layered y x = (layered x y).swap := by
  induction hsize : x.size + y.size using Nat.strong_induction_on generalizing x y with
  | _ n ih =>
      subst hsize
      by_cases htier : x.tier = y.tier
      case neg =>
        rw [layered_of_tier_ne htier, layered_of_tier_ne (Ne.symm htier)]
        exact Std.OrientedCmp.eq_swap
      have hparts : ∀ f, Uncovered f x → Uncovered f y → (spans f x || spans f y) = true →
          layered y x = (layered x y).swap := by
        intro f hx hy hspans
        rw [layered_parts htier hx hy, layered_parts htier.symm hy hx]
        refine layeredAll_swap fun a ha b hb => ih _ ?_ a b rfl
        have := size_le_of_mem_parts ha
        have := size_le_of_mem_parts hb
        rcases Bool.or_eq_true_iff.mp hspans with h | h
        · have := size_lt_of_mem_parts h ha
          omega
        · have := size_lt_of_mem_parts h hb
          omega
      by_cases hsum : spans .addition x || spans .addition y
      · exact hparts _ (.inl rfl) (.inl rfl) hsum
      rw [Bool.or_eq_true, not_or, Bool.not_eq_true, Bool.not_eq_true] at hsum
      by_cases hproduct : spans .multiplication x || spans .multiplication y
      · exact hparts _ (.inr ⟨rfl, hsum.1⟩) (.inr ⟨rfl, hsum.2⟩) hproduct
      rw [Bool.or_eq_true, not_or, Bool.not_eq_true, Bool.not_eq_true] at hproduct
      have hx : Single x := ⟨hsum.1, hproduct.1⟩
      have hy : Single y := ⟨hsum.2, hproduct.2⟩
      rw [layered_single htier hx hy, layered_single htier.symm hy hx]
      cases hpx : x.power? with
      | none =>
          cases hpy : y.power? with
          | none =>
              rw [Ordering.swap_then, layeredAll_swap fun a ha b hb => ?_]
              · rw [@Std.OrientedCmp.eq_swap _ compareHeads _ y x]
              · have := size_lt_of_mem_operands ha
                have := size_lt_of_mem_operands hb
                exact ih _ (by omega) a b rfl
          | some q =>
              have := size_of_power? hpy
              simp only [base, hpx, hpy, Option.map_none, Option.map_some, Option.getD_none,
                Option.getD_some, compareExponents, Ordering.swap_then, Ordering.swap_swap]
              rw [ih _ (by omega) x q.1 rfl]
      | some p =>
          have := size_of_power? hpx
          cases hpy : y.power? with
          | none =>
              simp only [base, hpx, hpy, Option.map_none, Option.map_some, Option.getD_none,
                Option.getD_some, compareExponents, Ordering.swap_then]
              rw [ih _ (by omega) p.1 y rfl]
          | some q =>
              have := size_of_power? hpy
              simp only [base, hpx, hpy, Option.map_some, Option.getD_some, compareExponents,
                Ordering.swap_then]
              rw [ih _ (by omega) p.1 q.1 rfl, ih _ (by omega) p.2 q.2 rfl]

theorem layered_gt : layered x y = .gt ↔ layered y x = .lt := by
  rw [layered_swap y x]
  cases layered y x <;> simp

theorem layered_eq_symm (h : layered x y = .eq) : layered y x = .eq := by
  rw [layered_swap x y, h]
  rfl

/-! ## Exponents -/

theorem againstOne_ne_eq (e : Expr) : againstOne e ≠ .eq := by
  rw [againstOne, compareExponentWithOne]
  split
  · nofun
  · split
    · split <;> nofun
    · nofun

/-- The exponents that come before 1 are poison and the numbers below it. -/
theorem againstOne_eq_lt {e : Expr} : againstOne e = .lt ↔
    e.tier = 0 ∨ e.tier = 1 ∧ e.numericValue.compare (.finite 1) = .lt := by
  rw [againstOne, tier, numericValue, compareExponentWithOne]
  cases e.kind.isPoison <;> cases e.number? <;> simp

theorem tier_le_of_layered_ne_gt (h : layered x y ≠ .gt) : x.tier ≤ y.tier := by
  by_contra hlt
  rw [layered_of_tier_ne (by omega)] at h
  exact h (Nat.compare_eq_gt.mpr (by omega))

/-- Poison and numbers are neither sums nor products nor powers. -/
theorem plain_of_tier_ne_two (h : x.tier ≠ 2) : Single x ∧ x.power? = none := by
  cases x with
  | apply g xs =>
      have hpoison : g.kind.isPoison = true := by
        by_contra hpoison
        exact h (by simp [tier, kind, number?, hpoison])
      cases g <;> first | exact ⟨⟨rfl, rfl⟩, rfl⟩ | cases hpoison
  | _ => exact ⟨⟨rfl, rfl⟩, rfl⟩

theorem compareHeads_eq (x y : Expr) : compareHeads x y =
    (compareValues x y).then ((compareKinds x y).then ((compareOwnNames x y).then
      ((compare x.marks.1 y.marks.1).then (compare x.marks.2 y.marks.2)))) :=
  rfl

theorem againstOne_of_layered_ne_gt {e e' : Expr} (h : layered e e' ≠ .gt)
    (h' : againstOne e' = .lt) : againstOne e = .lt := by
  have htier := tier_le_of_layered_ne_gt h
  rw [againstOne_eq_lt] at h' ⊢
  rcases h' with h0 | ⟨h1, hvalue⟩
  · exact .inl (by omega)
  · by_cases h0 : e.tier = 0
    · exact .inl h0
    · have he1 : e.tier = 1 := by omega
      obtain ⟨he, hpe⟩ := plain_of_tier_ne_two (x := e) (by omega)
      obtain ⟨he', hpe'⟩ := plain_of_tier_ne_two (x := e') (by omega)
      rw [layered_plain (by omega) he he' hpe hpe', compareHeads_eq] at h
      refine .inr ⟨he1, ?_⟩
      cases hvalues : compareValues e e' with
      | lt => exact Std.TransCmp.lt_trans hvalues hvalue
      | eq => exact (@Std.TransCmp.congr_left _ ExtendedRat.compare _ _ _ _ hvalues).trans hvalue
      | gt =>
          rw [hvalues] at h
          exact absurd rfl h

theorem againstOne_congr {e e' : Expr} (h : layered e e' = .eq) :
    againstOne e = againstOne e' := by
  have hiff : againstOne e = .lt ↔ againstOne e' = .lt :=
    ⟨againstOne_of_layered_ne_gt (by simp [layered_eq_symm h]),
      againstOne_of_layered_ne_gt (by simp [h])⟩
  have he := againstOne_ne_eq e
  have he' := againstOne_ne_eq e'
  cases hcase : againstOne e <;> cases hcase' : againstOne e' <;> simp_all

theorem layered_of_againstOne {e e' : Expr} (h : againstOne e = .lt) (h' : againstOne e' = .gt) :
    layered e e' = .lt := by
  rw [← layered_gt]
  by_contra hgt
  rw [againstOne_of_layered_ne_gt hgt h] at h'
  cases h'

/-- Three exponents are compared in accord, where some may be missing. -/
theorem coherent_compareExponents {p q r : Option (Expr × Expr)}
    (h : ∀ a ∈ p, ∀ b ∈ q, ∀ c ∈ r,
      Coherent (layered a.2 b.2) (layered b.2 c.2) (layered a.2 c.2)) :
    Coherent (compareExponents p q) (compareExponents q r) (compareExponents p r) := by
  have hne : ∀ {e o}, againstOne e = .eq → o := fun h => absurd h (againstOne_ne_eq _)
  have hswap : ∀ {e o}, (againstOne e).swap = .eq → o := fun h => hne (by simpa using h)
  cases p with
  | none =>
      cases q with
      | none => exact ⟨fun _ => rfl, fun h => h, nofun⟩
      | some b =>
          cases r with
          | none => exact ⟨hswap, hne, fun h h' => by simp_all [compareExponents]⟩
          | some c =>
              refine ⟨hswap, fun h => ?_, fun h h' => ?_⟩
              · exact congrArg Ordering.swap (againstOne_congr h).symm
              · have hb : againstOne b.2 = .gt := Ordering.swap_eq_lt.mp h
                have hbc : layered b.2 c.2 ≠ .gt := ne_of_eq_of_ne h' nofun
                refine Ordering.swap_eq_lt.mpr ?_
                cases hc : againstOne c.2 with
                | gt => rfl
                | eq => exact hne hc
                | lt =>
                    rw [againstOne_of_layered_ne_gt hbc hc] at hb
                    cases hb
  | some a =>
      cases q with
      | none =>
          cases r with
          | none => exact ⟨hne, fun _ => rfl, nofun⟩
          | some c =>
              exact ⟨hne, hswap, fun h h' => layered_of_againstOne h (Ordering.swap_eq_lt.mp h')⟩
      | some b =>
          cases r with
          | none =>
              refine ⟨fun h => againstOne_congr h, hne, fun h h' => ?_⟩
              exact againstOne_of_layered_ne_gt (ne_of_eq_of_ne h nofun) h'
          | some c => exact h a rfl b rfl c rfl

/-! ## Totality -/

theorem coherent_layeredAll {xs ys zs : List Expr}
    (h : ∀ x ∈ xs, ∀ y ∈ ys, ∀ z ∈ zs, Coherent (layered x y) (layered y z) (layered x z)) :
    Coherent (layeredAll xs ys) (layeredAll ys zs) (layeredAll xs zs) := by
  induction xs generalizing ys zs with
  | nil =>
      cases ys <;> cases zs <;> simp only [layeredAll] <;>
        exact ⟨by simp, by simp, by simp⟩
  | cons x xs ih =>
      cases ys with
      | nil => cases zs <;> simp only [layeredAll] <;> exact ⟨by simp, by simp, by simp⟩
      | cons y ys =>
          cases zs with
          | nil => simp only [layeredAll]; exact ⟨by simp, by simp, by simp⟩
          | cons z zs =>
              simp only [layeredAll]
              refine (h x (by simp) y (by simp) z (by simp)).thenBy fun _ _ _ => ih ?_
              exact fun a ha b hb c hc => h a (by simp [ha]) b (by simp [hb]) c (by simp [hc])

theorem tier_then_layered (x y : Expr) :
    (compare x.tier y.tier).then (layered x y) = layered x y := by
  by_cases h : x.tier = y.tier
  · rw [h, Nat.compare_eq_eq.mpr rfl, Ordering.eq_then]
  · rw [layered_of_tier_ne h]
    cases compare x.tier y.tier <;> rfl

theorem coherent_layered (x y z : Expr) :
    Coherent (layered x y) (layered y z) (layered x z) := by
  induction hsize : x.size + y.size + z.size using Nat.strong_induction_on generalizing x y z with
  | _ n ih =>
      subst hsize
      rw [← tier_then_layered x y, ← tier_then_layered y z, ← tier_then_layered x z]
      refine (Coherent.of_transCmp (compareOn tier) x y z).thenBy fun hxy hyz hxz => ?_
      replace hxy : x.tier = y.tier := Nat.compare_eq_eq.mp hxy
      replace hyz : y.tier = z.tier := Nat.compare_eq_eq.mp hyz
      have hxz := hxy.trans hyz
      -- the highest layer that occurs in one of the three is that of all
      have hparts : ∀ f, Uncovered f x → Uncovered f y → Uncovered f z →
          (spans f x || spans f y || spans f z) = true →
          Coherent (layered x y) (layered y z) (layered x z) := by
        intro f hx hy hz hspans
        rw [layered_parts hxy hx hy, layered_parts hyz hy hz, layered_parts hxz hx hz]
        refine coherent_layeredAll fun a ha b hb c hc => ih _ ?_ a b c rfl
        have := size_le_of_mem_parts ha
        have := size_le_of_mem_parts hb
        have := size_le_of_mem_parts hc
        simp only [Bool.or_eq_true] at hspans
        rcases hspans with (h | h) | h
        · have := size_lt_of_mem_parts h ha
          omega
        · have := size_lt_of_mem_parts h hb
          omega
        · have := size_lt_of_mem_parts h hc
          omega
      by_cases hsum : spans .addition x || spans .addition y || spans .addition z
      · exact hparts _ (.inl rfl) (.inl rfl) (.inl rfl) hsum
      simp only [Bool.or_eq_true, not_or, Bool.not_eq_true] at hsum
      obtain ⟨⟨hx, hy⟩, hz⟩ := hsum
      by_cases hproduct :
          spans .multiplication x || spans .multiplication y || spans .multiplication z
      · exact hparts _ (.inr ⟨rfl, hx⟩) (.inr ⟨rfl, hy⟩) (.inr ⟨rfl, hz⟩) hproduct
      simp only [Bool.or_eq_true, not_or, Bool.not_eq_true] at hproduct
      obtain ⟨⟨hx', hy'⟩, hz'⟩ := hproduct
      have hx : Single x := ⟨hx, hx'⟩
      have hy : Single y := ⟨hy, hy'⟩
      have hz : Single z := ⟨hz, hz'⟩
      by_cases hpower : x.power? = none ∧ y.power? = none ∧ z.power? = none
      · obtain ⟨hpx, hpy, hpz⟩ := hpower
        rw [layered_plain hxy hx hy hpx hpy, layered_plain hyz hy hz hpy hpz,
          layered_plain hxz hx hz hpx hpz]
        refine (Coherent.of_transCmp compareHeads x y z).thenBy fun _ _ _ => ?_
        refine coherent_layeredAll fun a ha b hb c hc => ih _ ?_ a b c rfl
        have := size_lt_of_mem_operands ha
        have := size_lt_of_mem_operands hb
        have := size_lt_of_mem_operands hc
        omega
      · rw [layered_base hxy hx hy, layered_base hyz hy hz, layered_base hxz hx hz]
        refine Coherent.thenBy (ih _ ?_ _ _ _ rfl) fun _ _ _ =>
          coherent_compareExponents fun a ha b hb c hc => ih _ ?_ _ _ _ rfl
        · have := @size_base_le x
          have := @size_base_le y
          have := @size_base_le z
          have hsome : x.power? ≠ none ∨ y.power? ≠ none ∨ z.power? ≠ none := by
            simpa only [not_and_or] using hpower
          rcases hsome with h | h | h <;> simp_all <;> omega
        · have := size_of_power? ha
          have := size_of_power? hb
          have := size_of_power? hc
          omega

instance : Std.TransCmp layered where
  eq_swap := layered_swap _ _
  isLE_trans {x y z} hxy hyz := by
    obtain ⟨hleft, hright, hless⟩ := coherent_layered x y z
    cases hx : layered x y <;> cases hy : layered y z <;> simp_all

end Expr

end PocketAlgebra
