import PocketAlgebra.Proofs.Order.Sortable

/-!
# Which trees the order does not tell in both directions

A sum is compared with a product through the last operand of whichever comes first, and counts as
greater where the rest of the comparison says nothing. So where both end in the same factor, the
product comes before the sum, and the sum before the product if its last term comes before it. All
other answers are reversed with the arguments, unless they come down to that of two such rivals.
-/

namespace PocketAlgebra

namespace Expr

/-! ## Rivals -/

/-- The last factor of a product; any other expression is its own. -/
def lastFactor : Expr → Expr
  | apply .multiplication xs => xs.getLast?.getD (apply .multiplication xs)
  | x => x

/-- Two expressions end in the same factor, or both in numbers. -/
def SameEnd (x y : Expr) : Prop :=
  x.lastFactor = y.lastFactor ∨
    x.lastFactor.number?.isSome = true ∧ y.lastFactor.number?.isSome = true

/-- A sum and a product with the same end, where the last term of the sum comes before the
product. -/
inductive Rivals : Expr → Expr → Prop where
  | intro {terms : List Expr} {last : Expr} {factors : List Expr}
      (hlast : terms.getLast? = some last)
      (hbefore : order last (.apply .multiplication factors) = .lt)
      (hsame : SameEnd last (.apply .multiplication factors)) :
    Rivals (.apply .addition terms) (.apply .multiplication factors)

/-- Two expressions that are rivals, or whose comparison is that of rivals in either direction: a
sum and a product by their last operands, and operands of the same operator at the first position
at which they differ. -/
inductive Opposed : Expr → Expr → Prop where
  | rivals {x y : Expr} (h : Rivals x y) : Opposed x y
  | symm {x y : Expr} (h : Opposed x y) : Opposed y x
  | last {terms factors : List Expr} {t l : Expr} (ht : terms.getLast? = some t)
      (hl : factors.getLast? = some l) (hmany : t.isMany = false) (h : Opposed t l) :
    Opposed (.apply .addition terms) (.apply .multiplication factors)
  | operand {f : Operator} {x y : Expr} {common xs ys : List Expr}
      (hmany : f ≠ .addition ∧ f ≠ .multiplication) (h : Opposed x y) :
    Opposed (.apply f (common ++ x :: xs)) (.apply f (common ++ y :: ys))
  | operandFromLast {f : Operator} {x y : Expr} {common xs ys : List Expr}
      (hmany : f = .addition ∨ f = .multiplication) (h : Opposed x y) :
    Opposed (.apply f (xs ++ x :: common)) (.apply f (ys ++ y :: common))

variable {f g : Operator} {x y t l : Expr} {xs ys : List Expr}

/-! ## Sortable trees by their tops -/

theorem isMany_iff : x.isMany = true ↔ x.kind = .addition ∨ x.kind = .multiplication := by
  simp [isMany]

theorem isMany_eq_false_iff :
    x.isMany = false ↔ x.kind ≠ .addition ∧ x.kind ≠ .multiplication := by
  simp [isMany]

theorem tier_eq_zero_iff : x.tier = 0 ↔ x.kind.isPoison = true := by
  rw [tier]
  split <;> simp_all
  split <;> simp

theorem tier_eq_two_iff : x.tier = 2 ↔ Ordinary x := by
  rw [tier]
  refine ⟨fun h => ?_, fun h => by simp [h.number?_eq, h.isPoison_eq]⟩
  cases hpoison : x.kind.isPoison <;> cases hnumber : x.number? <;> simp_all
  exact ⟨hnumber, hpoison⟩

theorem tier_le_two (x : Expr) : x.tier ≤ 2 := by
  rw [tier]
  split
  · omega
  · split <;> omega

theorem exists_number_of_tier (h : x.tier = 1) :
    x.kind.isPoison = false ∧ ∃ p, x.number? = some p := by
  rw [tier] at h
  cases hpoison : x.kind.isPoison <;> cases hnumber : x.number? <;> simp_all

theorem number?_isSome_of_tier (h : x.tier = 1) : x.number?.isSome = true := by
  obtain ⟨-, p, hp⟩ := exists_number_of_tier h
  rw [hp]
  rfl

theorem exists_apply_of_isMany (h : x.isMany = true) : ∃ f xs, x = .apply f xs ∧
    (f = .addition ∨ f = .multiplication) := by
  cases x with
  | apply f xs =>
      refine ⟨f, xs, rfl, ?_⟩
      rcases isMany_iff.mp h with h | h <;>
        cases f <;> first | exact .inl rfl | exact .inr rfl | cases h
  | _ => cases h

/-- Sums, products and powers are told by their kinds. -/
theorem eq_of_arithmetic (hg : g = .addition ∨ g = .multiplication ∨ g = .power)
    (h : f.kind = g.kind) : f = g := by
  rcases hg with rfl | rfl | rfl <;> cases f <;> first | rfl | cases h

theorem Sortable.length_of_isMany (hx : Sortable (.apply f xs))
    (hf : f = .addition ∨ f = .multiplication) : 2 ≤ xs.length := by
  rcases hf with rfl | rfl
  · exact (hx.node.sum rfl).1
  · exact (hx.node.product rfl).1

theorem compareKinds_poison (hx : x.kind.isPoison = true) (hy : y.kind.isPoison = false) :
    compareKinds x y = .lt := by
  have hlow : x.kind.rank < 2 := by
    cases hkind : x.kind <;> simp_all [Kind.isPoison, Kind.rank, Kind.ctorIdx]
  have hhigh : 2 ≤ y.kind.rank := by
    cases hkind : y.kind <;> simp_all [Kind.isPoison, Kind.rank, Kind.ctorIdx]
  exact Nat.compare_eq_lt.mpr (by omega)

/-- Poison comes before numbers, and numbers before all that is ordinary. -/
theorem order_of_tier_lt (h : x.tier < y.tier) : order x y = .lt ∧ order y x = .gt := by
  have := tier_le_two y
  by_cases hx : x.tier = 0
  · have hpx := tier_eq_zero_iff.mp hx
    have hpy : y.kind.isPoison = false := by
      rw [Bool.eq_false_iff]
      exact fun hpy => by
        rw [tier_eq_zero_iff.mpr hpy] at h
        omega
    have hlt := compareKinds_poison hpx hpy
    rw [order_of_isPoison (.inl hpx), order_of_isPoison (.inr hpx)]
    exact ⟨hlt, Std.OrientedCmp.gt_of_lt hlt⟩
  · obtain ⟨hpoison, p, hp⟩ := exists_number_of_tier (x := x) (by omega)
    have hy : Ordinary y := tier_eq_two_iff.mp (by omega)
    constructor <;> rw [order] <;> simp [hp, hpoison, hy.number?_eq, hy.isPoison_eq]

/-! ## Last operands -/

/-- What is known of the last operand of a sum or product. -/
structure EndsIn (x t : Expr) : Prop where
  last : x.operands.getLast? = some t
  sortable : Sortable t
  size_lt : t.size < x.size
  not_sum : t.kind ≠ .addition
  not_product : x.kind = .multiplication → t.kind ≠ .multiplication
  clean : t.kind.isPoison = false

theorem Sortable.exists_endsIn (hx : Sortable x) (hmany : x.isMany = true) : ∃ t, EndsIn x t := by
  obtain ⟨f, xs, rfl, hf⟩ := exists_apply_of_isMany hmany
  have hlength := hx.length_of_isMany hf
  obtain ⟨t, ht⟩ : ∃ t, xs.getLast? = some t := by
    cases hlast : xs.getLast? with
    | some t => exact ⟨t, rfl⟩
    | none =>
        rw [List.getLast?_eq_none_iff.mp hlast] at hlength
        cases hlength
  have hmem := List.mem_of_getLast? ht
  refine ⟨t, ht, hx.operand hmem, size_lt_of_mem_operands hmem, ?_, ?_, ?_⟩
  · rcases hf with rfl | rfl
    · exact (hx.node.sum rfl).2 t hmem
    · exact ((hx.node.product rfl).2 t hmem).1
  · intro hproduct
    cases eq_of_arithmetic (.inr (.inl rfl)) hproduct
    exact ((hx.node.product rfl).2 t hmem).2
  · exact hx.node.clean (by rcases hf with rfl | rfl <;> simp) t hmem

theorem EndsIn.tier (ht : EndsIn x t) : t.tier = 1 ∨ t.tier = 2 := by
  have hne : t.tier ≠ 0 := by
    rw [Ne, tier_eq_zero_iff, ht.clean]
    nofun
  have := tier_le_two t
  omega

theorem EndsIn.isMany (hl : EndsIn x l) (hx : x.kind = .multiplication) : l.isMany = false :=
  isMany_eq_false_iff.mpr ⟨hl.not_sum, hl.not_product hx⟩

theorem EndsIn.lastFactor_eq (hx : x.kind = .multiplication) (ht : EndsIn x t) :
    x.lastFactor = t := by
  cases x with
  | apply f xs =>
      cases eq_of_arithmetic (.inr (.inl rfl)) hx
      rw [lastFactor, show xs.getLast? = some t from ht.last, Option.getD_some]
  | _ => cases hx

theorem lastFactor_of_ne (h : x.kind ≠ .multiplication) : x.lastFactor = x := by
  rw [lastFactor.eq_def]
  split
  · exact absurd rfl h
  · rfl

theorem reverse_of_getLast? {xs : List Expr} (h : xs.getLast? = some t) :
    xs.reverse = t :: xs.dropLast.reverse := by
  obtain ⟨ys, rfl⟩ := List.getLast?_eq_some_iff.mp h
  simp

/-! ## Comparisons by last operands -/

theorem greaterIfEqual_of_ne {o : Ordering} (h : o ≠ .eq) : greaterIfEqual o = o := by
  cases o <;> first | rfl | exact absurd rfl h

theorem greaterIfEqual_of_ne_lt {o : Ordering} (h : o ≠ .lt) : greaterIfEqual o = .gt := by
  cases o <;> first | rfl | exact absurd rfl h

theorem swap_ne_eq {o : Ordering} (h : o ≠ .eq) : o.swap ≠ .eq := by
  cases o <;> first | exact absurd rfl h | nofun

/-- A sum or product against an expression of another kind. -/
theorem orderLast_eq (hlast : x.operands.getLast? = some t) :
    orderLast x y = greaterIfEqual (order t y) := by
  cases x with
  | apply f xs =>
      have hlast : xs.getLast? = some t := hlast
      rw [orderLast]
      split
      · rename_i last h
        rw [Option.some.inj (hlast.symm.trans h)]
      · rename_i h
        rw [h] at hlast
        cases hlast
  | _ => cases hlast

theorem order_many (hox : Ordinary x) (hoy : Ordinary y) (hkind : x.kind ≠ y.kind)
    (hmany : x.isMany = true) (ht : EndsIn x t) : order x y = greaterIfEqual (order t y) :=
  (order_last hox hoy hkind hmany).trans (orderLast_eq ht.last)

theorem kind_ne_of_isMany (hx : x.isMany = false) (hy : y.isMany = true) : x.kind ≠ y.kind := by
  intro h
  rw [isMany, h, ← isMany, hy] at hx
  cases hx

theorem order_many_swap (hox : Ordinary x) (hoy : Ordinary y) (hx : x.isMany = false)
    (hmany : y.isMany = true) (ht : EndsIn y t) : order x y = (greaterIfEqual (order t x)).swap :=
  (order_last_swap hox hoy (kind_ne_of_isMany hx hmany) hx hmany).trans
    (congrArg _ (orderLast_eq ht.last))

/-- Two products are compared by their last factors first. -/
theorem order_products {k : Expr} (hx : x.kind = .multiplication) (hy : y.kind = .multiplication)
    (hk : EndsIn x k) (hl : EndsIn y l) : ∃ o, order x y = (order k l).then o := by
  obtain ⟨f, xs, rfl, -⟩ := exists_apply_of_isMany (isMany_iff.mpr (.inr hx))
  obtain ⟨g, ys, rfl, -⟩ := exists_apply_of_isMany (isMany_iff.mpr (.inr hy))
  cases eq_of_arithmetic (.inr (.inl rfl)) hx
  cases eq_of_arithmetic (.inr (.inl rfl)) hy
  have hk : xs.getLast? = some k := hk.last
  have hl : ys.getLast? = some l := hl.last
  refine ⟨orderAll xs.dropLast.reverse ys.dropLast.reverse, ?_⟩
  rw [order_applied rfl rfl, compareLabels_self, Ordering.eq_then, if_pos (by rfl),
    reverse_of_getLast? hk, reverse_of_getLast? hl, orderAll]

/-! ## Opposed trees are told alike -/

/-- A sum and a product, and the operands that they end in. -/
structure LastOperands (x y t l : Expr) : Prop where
  sum : x.kind = .addition
  product : y.kind = .multiplication
  ordinary_sum : Ordinary x
  ordinary_product : Ordinary y
  last : EndsIn x t
  lastFactor : EndsIn y l

namespace LastOperands

variable (h : LastOperands x y t l)

include h

theorem order_sum : order x y = greaterIfEqual (order t y) :=
  order_many h.ordinary_sum h.ordinary_product (by rw [h.sum, h.product]; nofun)
    (isMany_iff.mpr (.inl h.sum)) h.last

theorem order_product : order y x = greaterIfEqual (order l x) :=
  order_many h.ordinary_product h.ordinary_sum (by rw [h.sum, h.product]; nofun)
    (isMany_iff.mpr (.inr h.product)) h.lastFactor

/-- A last factor that is no number, against the sum. -/
theorem order_lastFactor (hl : l.tier = 2) : order l x = (greaterIfEqual (order t l)).swap :=
  order_many_swap (tier_eq_two_iff.mp hl) h.ordinary_sum (h.lastFactor.isMany h.product)
    (isMany_iff.mpr (.inl h.sum)) h.last

/-- A last term that is neither a number nor a product, against the product. -/
theorem order_lastTerm (ht : t.tier = 2) (hmany : t.isMany = false) :
    order t y = (greaterIfEqual (order l t)).swap :=
  order_many_swap (tier_eq_two_iff.mp ht) h.ordinary_product hmany
    (isMany_iff.mpr (.inr h.product)) h.lastFactor

end LastOperands

theorem lastOperands_of_getLast? {terms factors : List Expr}
    (hx : Sortable (.apply .addition terms)) (hy : Sortable (.apply .multiplication factors))
    (ht : terms.getLast? = some t) :
    ∃ l, factors.getLast? = some l ∧
      LastOperands (.apply .addition terms) (.apply .multiplication factors) t l := by
  obtain ⟨t', ht'⟩ := hx.exists_endsIn rfl
  obtain ⟨l, hl⟩ := hy.exists_endsIn rfl
  cases Option.some.inj (ht.symm.trans ht'.last)
  exact ⟨l, hl.last, rfl, rfl, ⟨rfl, rfl⟩, ⟨rfl, rfl⟩, ht', hl⟩

/-- The last term of a rival does not come before the last factor of the other one. -/
theorem LastOperands.order_last_ne_lt (h : LastOperands x y t l) (hl : l.tier = 2)
    (hsame : SameEnd t y) : order t l ≠ .lt := by
  rw [SameEnd, h.lastFactor.lastFactor_eq h.product, (tier_eq_two_iff.mp hl).number?_eq] at hsame
  have hend : t.lastFactor = l := hsame.resolve_right fun hnumber => by cases hnumber.2
  by_cases hproduct : t.kind = .multiplication
  · have hmany := isMany_iff.mpr (.inr hproduct)
    obtain ⟨k, hk⟩ := h.last.sortable.exists_endsIn hmany
    rw [hk.lastFactor_eq hproduct] at hend
    subst hend
    have ht : Ordinary t := tier_eq_two_iff.mp <| by
      obtain ⟨f, xs, rfl, hf | hf⟩ := exists_apply_of_isMany hmany <;> subst hf <;> rfl
    rw [order_many ht (tier_eq_two_iff.mp hl) (kind_ne_of_isMany (hk.isMany hproduct) hmany).symm
      hmany hk, order_self]
    nofun
  · rw [lastFactor_of_ne hproduct] at hend
    rw [hend, order_self]
    nofun

/-- Of two rivals, each comes before the other. -/
theorem Rivals.order_eq_lt (h : Rivals x y) (hx : Sortable x) (hy : Sortable y) :
    order x y = .lt ∧ order y x = .lt := by
  obtain ⟨ht, hbefore, hsame⟩ := h
  obtain ⟨l, -, hends⟩ := lastOperands_of_getLast? hx hy ht
  refine ⟨by rw [hends.order_sum, hbefore]; rfl, ?_⟩
  rw [hends.order_product]
  rcases hends.lastFactor.tier with hl | hl
  · rw [(order_of_tier_lt (by rw [hl]; exact Nat.lt_succ_self 1)).1]
    rfl
  · rw [hends.order_lastFactor hl, greaterIfEqual_of_ne_lt (hends.order_last_ne_lt hl hsame)]
    rfl

/-- Behind a common beginning, the first different operands decide. -/
theorem orderAll_of_ne {common : List Expr} (h : order x y ≠ .eq) :
    orderAll (common ++ x :: xs) (common ++ y :: ys) = order x y := by
  induction common with
  | nil =>
      rw [List.nil_append, List.nil_append, orderAll]
      cases hcase : order x y <;> first | rfl | exact absurd hcase h
  | cons z common ih => rw [List.cons_append, List.cons_append, orderAll, order_self, ih]; rfl

/-- Opposed trees are ordinary, and each is told from the other in the same way. -/
theorem Opposed.order_eq (h : Opposed x y) (hx : Sortable x) (hy : Sortable y) :
    (x.tier = 2 ∧ y.tier = 2) ∧ order x y = order y x ∧ order x y ≠ .eq := by
  induction h with
  | rivals h =>
      obtain ⟨hlt, hlt'⟩ := h.order_eq_lt hx hy
      obtain ⟨⟩ := h
      exact ⟨⟨rfl, rfl⟩, hlt.trans hlt'.symm, by rw [hlt]; nofun⟩
  | symm _ ih =>
      obtain ⟨⟨htx, hty⟩, heq, hne⟩ := ih hy hx
      exact ⟨⟨hty, htx⟩, heq.symm, heq ▸ hne⟩
  | last ht hl hmany h ih =>
      obtain ⟨l', hl', hends⟩ := lastOperands_of_getLast? hx hy ht
      cases Option.some.inj (hl.symm.trans hl')
      obtain ⟨⟨htt, htl⟩, heq, hne⟩ := ih hends.last.sortable hends.lastFactor.sortable
      have hswap := swap_ne_eq hne
      refine ⟨⟨rfl, rfl⟩, ?_⟩
      rw [hends.order_sum, hends.order_product, hends.order_lastTerm htt hmany,
        hends.order_lastFactor htl, ← heq, greaterIfEqual_of_ne hne, greaterIfEqual_of_ne hswap]
      exact ⟨rfl, hswap⟩
  | @operand f x y common xs ys hmany h ih =>
      obtain ⟨-, heq, hne⟩ := ih (hx.operand (by simp)) (hy.operand (by simp))
      have hpoison : f.kind.isPoison = false := by
        rw [Bool.eq_false_iff]
        intro hpoison
        simpa using hx.node.poison hpoison
      have hmany : ∀ zs, (apply f zs).isMany = false := fun zs => by
        cases f <;> first | rfl | exact absurd rfl hmany.1 | exact absurd rfl hmany.2
      have hordinary : ∀ zs, (apply f zs).tier = 2 := fun zs =>
        tier_eq_two_iff.mpr (ordinary_apply hpoison)
      refine ⟨⟨hordinary _, hordinary _⟩, ?_⟩
      rw [order_applied hpoison rfl, order_applied hpoison rfl, compareLabels_self,
        Ordering.eq_then, Ordering.eq_then, hmany, hmany, if_neg Bool.false_ne_true,
        if_neg Bool.false_ne_true, orderAll_of_ne hne, orderAll_of_ne (heq ▸ hne)]
      exact ⟨heq, hne⟩
  | @operandFromLast f x y common xs ys hmany h ih =>
      obtain ⟨-, heq, hne⟩ := ih (hx.operand (by simp)) (hy.operand (by simp))
      have hpoison : f.kind.isPoison = false := by rcases hmany with rfl | rfl <;> rfl
      have hmany : ∀ zs, (apply f zs).isMany = true := fun zs => by
        rcases hmany with rfl | rfl <;> rfl
      have hordinary : ∀ zs, (apply f zs).tier = 2 := fun zs =>
        tier_eq_two_iff.mpr (ordinary_apply hpoison)
      refine ⟨⟨hordinary _, hordinary _⟩, ?_⟩
      have hreverse : ∀ zs z, (zs ++ z :: common).reverse = common.reverse ++ z :: zs.reverse := by
        simp
      rw [order_applied hpoison rfl, order_applied hpoison rfl, compareLabels_self,
        Ordering.eq_then, Ordering.eq_then, if_pos (hmany _), if_pos (hmany _), hreverse, hreverse,
        orderAll_of_ne hne, orderAll_of_ne (heq ▸ hne)]
      exact ⟨heq, hne⟩

/-! ## All others are told in both directions -/

/-- The answers for smaller pairs of trees are reversed with the arguments, unless they are
opposed. -/
def SwapsBelow (size : Nat) : Prop :=
  ∀ x y, Sortable x → Sortable y → x.size + y.size < size → ¬ Opposed x y →
    order y x = (order x y).swap

theorem orderAll_swap (hxs : ∀ x ∈ xs, Sortable x) (hys : ∀ y ∈ ys, Sortable y)
    (h : ∀ common x xs' y ys', xs = common ++ x :: xs' → ys = common ++ y :: ys' →
      order y x = (order x y).swap) : orderAll ys xs = (orderAll xs ys).swap := by
  induction xs generalizing ys with
  | nil =>
      cases ys with
      | nil => rw [orderAll]; rfl
      | cons y ys => rw [orderAll, orderAll]; rfl
  | cons x xs ih =>
      cases ys with
      | nil => rw [orderAll, orderAll]; rfl
      | cons y ys =>
          have hhead := h [] x xs y ys rfl rfl
          rw [orderAll, orderAll, hhead]
          cases horder : order x y with
          | eq =>
              have hxy := (hxs x (by simp)).eq_of_order_eq (hys y (by simp)) horder
              subst hxy
              refine ih (fun a ha => hxs a (by simp [ha])) (fun b hb => hys b (by simp [hb])) ?_
              rintro common a xs' b ys' rfl rfl
              exact h (x :: common) a xs' b ys' rfl rfl
          | _ => rfl

/-- Two sums, or two products. -/
theorem order_swap_of_many (hf : f = .addition ∨ f = .multiplication)
    (hx : Sortable (.apply f xs)) (hy : Sortable (.apply f ys))
    (hbelow : SwapsBelow ((apply f xs).size + (apply f ys).size))
    (hclear : ¬ Opposed (.apply f xs) (.apply f ys)) :
    order (.apply f ys) (.apply f xs) = (order (.apply f xs) (.apply f ys)).swap := by
  have hmany : ∀ zs, (apply f zs).isMany = true := fun zs => by rcases hf with rfl | rfl <;> rfl
  have hpoison : f.kind.isPoison = false := by rcases hf with rfl | rfl <;> rfl
  rw [order_applied hpoison rfl, order_applied hpoison rfl, compareLabels_self, Ordering.eq_then,
    Ordering.eq_then, if_pos (hmany _), if_pos (hmany _)]
  refine orderAll_swap (fun x hx' => hx.operand (List.mem_reverse.mp hx'))
    (fun y hy' => hy.operand (List.mem_reverse.mp hy')) fun common x xs' y ys' hxs hys => ?_
  rw [List.reverse_eq_iff, List.reverse_append, List.reverse_cons, List.append_assoc,
    List.singleton_append] at hxs hys
  have hxmem : x ∈ xs := by simp [hxs]
  have hymem : y ∈ ys := by simp [hys]
  refine hbelow x y (hx.operand hxmem) (hy.operand hymem) ?_ fun h => hclear ?_
  · have := size_lt_of_mem hxmem
    have := size_lt_of_mem hymem
    simp only [size]
    omega
  · rw [hxs, hys]
    exact .operandFromLast hf h

/-- Two nodes of the same operator that are neither sums nor products. -/
theorem order_swap_of_few (hf : f ≠ .addition ∧ f ≠ .multiplication)
    (hpoison : f.kind.isPoison = false) (hx : Sortable (.apply f xs)) (hy : Sortable (.apply f ys))
    (hbelow : SwapsBelow ((apply f xs).size + (apply f ys).size))
    (hclear : ¬ Opposed (.apply f xs) (.apply f ys)) :
    order (.apply f ys) (.apply f xs) = (order (.apply f xs) (.apply f ys)).swap := by
  have hmany : ∀ zs, (apply f zs).isMany = false := fun zs => by
    cases f <;> first | rfl | exact absurd rfl hf.1 | exact absurd rfl hf.2
  rw [order_applied hpoison rfl, order_applied hpoison rfl, compareLabels_self, Ordering.eq_then,
    Ordering.eq_then, hmany, hmany, if_neg Bool.false_ne_true, if_neg Bool.false_ne_true]
  refine orderAll_swap (fun _ => hx.operand) (fun _ => hy.operand) ?_
  rintro common x xs' y ys' rfl rfl
  refine hbelow x y (hx.operand (by simp)) (hy.operand (by simp)) ?_ fun h =>
    hclear (.operand hf h)
  have := @size_lt_of_mem x (common ++ x :: xs') (by simp)
  have := @size_lt_of_mem y (common ++ y :: ys') (by simp)
  simp only [size]
  omega

theorem compareLabels_swap (hkind : f.kind = g.kind) :
    compareLabels g f = (compareLabels f g).swap := by
  cases f with
  | function name =>
      cases g with
      | function other =>
          change compareNames other name = (compareNames name other).swap
          exact Std.OrientedCmp.eq_swap
      | _ => cases hkind
  | comparison r =>
      cases g with
      | comparison s => exact (Nat.compare_swap ..).symm
      | _ => cases hkind
  | matrix rows columns =>
      cases g with
      | matrix rows' columns' =>
          change (compare rows' rows).then (compare columns' columns) = Ordering.swap (.then _ _)
          rw [Ordering.swap_then, ← Nat.compare_swap rows, ← Nat.compare_swap columns]
      | _ => cases hkind
  | _ =>
      cases eq_of_compareLabels hkind rfl
      rfl

/-- Two ordinary trees of one kind. -/
theorem order_swap_of_kind (hx : Sortable x) (hy : Sortable y) (hox : Ordinary x)
    (hkind : x.kind = y.kind) (hbelow : SwapsBelow (x.size + y.size)) (hclear : ¬ Opposed x y) :
    order y x = (order x y).swap := by
  cases hx with
  | rational q => cases hox.number?_eq
  | infinity negative => cases hox.number?_eq
  | constant c =>
      cases hy with
      | constant d =>
          rw [order_constants, order_constants]
          exact (Nat.compare_swap ..).symm
      | @apply g _ _ _ => cases g <;> cases hkind
      | _ => cases hkind
  | symbol name =>
      cases hy with
      | symbol other =>
          rw [order_symbols, order_symbols]
          exact Std.OrientedCmp.eq_swap
      | @apply g _ _ _ => cases g <;> cases hkind
      | _ => cases hkind
  | @apply f xs node operands =>
      cases hy with
      | @apply g ys node' operands' =>
          replace hkind : f.kind = g.kind := hkind
          have hpoison : f.kind.isPoison = false := hox.isPoison_eq
          by_cases hlabels : compareLabels f g = .eq
          · cases eq_of_compareLabels hkind hlabels
            by_cases hmany : f = .addition ∨ f = .multiplication
            · exact order_swap_of_many hmany (.apply node operands) (.apply node' operands')
                hbelow hclear
            · exact order_swap_of_few (not_or.mp hmany) hpoison (.apply node operands)
                (.apply node' operands') hbelow hclear
          · rw [order_applied hpoison hkind, order_applied (hkind ▸ hpoison) hkind.symm,
              compareLabels_swap hkind]
            cases hcase : compareLabels f g <;> first | rfl | exact absurd hcase hlabels
      | _ => cases f <;> cases hkind

/-- A last term that comes before a product with a number at its end is itself, or ends in, a
number. -/
theorem LastOperands.sameEnd_of_lt (h : LastOperands x y t l) (hl : l.tier = 1)
    (hlt : order t y = .lt) : SameEnd t y := by
  have hnumber : y.lastFactor.number?.isSome = true := by
    rw [h.lastFactor.lastFactor_eq h.product]
    exact number?_isSome_of_tier hl
  refine .inr ⟨?_, hnumber⟩
  rcases h.last.tier with ht | ht
  · rw [lastFactor_of_ne]
    · exact number?_isSome_of_tier ht
    · intro hproduct
      rw [tier_eq_two_iff.mpr] at ht
      · cases ht
      · obtain ⟨f, xs, rfl, hf | hf⟩ := exists_apply_of_isMany (isMany_iff.mpr (.inr hproduct)) <;>
          subst hf <;> exact ⟨rfl, rfl⟩
  have hgt : ∀ {z : Expr}, z.tier = 2 → order l z = .lt ∧ order z l = .gt := fun hz =>
    order_of_tier_lt (by omega)
  by_cases hproduct : t.kind = .multiplication
  · obtain ⟨k, hk⟩ := h.last.sortable.exists_endsIn (isMany_iff.mpr (.inr hproduct))
    obtain ⟨o, ho⟩ := order_products hproduct h.product hk h.lastFactor
    rw [hk.lastFactor_eq hproduct]
    refine hk.tier.elim number?_isSome_of_tier fun hk2 => ?_
    rw [ho, (hgt hk2).2] at hlt
    cases hlt
  · rw [h.order_lastTerm ht (isMany_eq_false_iff.mpr ⟨h.last.not_sum, hproduct⟩), (hgt ht).1] at hlt
    cases hlt

/-- A sum that is no rival of a product is compared with it as with its last factor. -/
theorem LastOperands.greaterIfEqual_eq (h : LastOperands x y t l) (hl : l.tier = 2)
    (hrivals : order t y = .lt → ¬ SameEnd t y)
    (hswap : t.isMany = false → order l t = (order t l).swap) :
    greaterIfEqual (order t l) = greaterIfEqual (order t y) := by
  have hend : y.lastFactor = l := h.lastFactor.lastFactor_eq h.product
  have hlsortable := h.lastFactor.sortable
  rcases h.last.tier with ht | ht
  · have hlt : ∀ {z : Expr}, z.tier = 2 → order t z = .lt := fun hz =>
      (order_of_tier_lt (by omega)).1
    rw [hlt hl, hlt (tier_eq_two_iff.mpr h.ordinary_product)]
  by_cases hproduct : t.kind = .multiplication
  · have hmany := isMany_iff.mpr (.inr hproduct)
    obtain ⟨k, hk⟩ := h.last.sortable.exists_endsIn hmany
    obtain ⟨o, ho⟩ := order_products hproduct h.product hk h.lastFactor
    rw [order_many (tier_eq_two_iff.mp ht) (tier_eq_two_iff.mp hl)
      (kind_ne_of_isMany (h.lastFactor.isMany h.product) hmany).symm hmany hk, ho]
    cases hcase : order k l with
    | eq =>
        have hsame : SameEnd t y := .inl <| by
          rw [hk.lastFactor_eq hproduct, hend, hk.sortable.eq_of_order_eq hlsortable hcase]
        have hne : o ≠ .lt := fun ho' => hrivals (by rw [ho, hcase, ho']; rfl) hsame
        rw [Ordering.eq_then, greaterIfEqual_of_ne_lt hne]
        rfl
    | _ => rfl
  · have hmany : t.isMany = false := isMany_eq_false_iff.mpr ⟨h.last.not_sum, hproduct⟩
    have hty := h.order_lastTerm ht hmany
    rw [hswap hmany] at hty
    cases hcase : order t l with
    | eq =>
        rw [hcase] at hty
        refine absurd (.inl ?_) (hrivals hty)
        rw [lastFactor_of_ne hproduct, hend, h.last.sortable.eq_of_order_eq hlsortable hcase]
    | _ => rw [hty, hcase]; rfl

/-- A sum and a product. -/
theorem order_swap_of_sum (hx : Sortable x) (hy : Sortable y) (hsum : x.kind = .addition)
    (hproduct : y.kind = .multiplication) (hbelow : SwapsBelow (x.size + y.size))
    (hclear : ¬ Opposed x y) : order y x = (order x y).swap := by
  obtain ⟨f, terms, rfl, -⟩ := exists_apply_of_isMany (isMany_iff.mpr (.inl hsum))
  obtain ⟨g, factors, rfl, -⟩ := exists_apply_of_isMany (isMany_iff.mpr (.inr hproduct))
  cases eq_of_arithmetic (.inl rfl) hsum
  cases eq_of_arithmetic (.inr (.inl rfl)) hproduct
  obtain ⟨t, ht⟩ := hx.exists_endsIn rfl
  obtain ⟨l, hl, hends⟩ := lastOperands_of_getLast? hx hy ht.last
  have hrivals : order t (.apply .multiplication factors) = .lt → ¬ SameEnd t _ := fun hlt hsame =>
    hclear (.rivals (.intro ht.last hlt hsame))
  rw [hends.order_sum, hends.order_product]
  rcases hends.lastFactor.tier with hl1 | hl2
  · have hne : order t (.apply .multiplication factors) ≠ .lt := fun hlt =>
      hrivals hlt (hends.sameEnd_of_lt hl1 hlt)
    rw [(order_of_tier_lt (by rw [hl1]; exact Nat.lt_succ_self 1)).1, greaterIfEqual_of_ne_lt hne]
    rfl
  · rw [hends.order_lastFactor hl2, ← hends.greaterIfEqual_eq hl2 hrivals fun hmany => ?_]
    · cases order t l <;> rfl
    · refine hbelow t l ht.sortable hends.lastFactor.sortable ?_ fun h => hclear ?_
      · exact Nat.add_lt_add ht.size_lt hends.lastFactor.size_lt
      · exact .last ht.last hl hmany h

/-- Trees that are compared by their kinds alone. -/
theorem order_kinds (hox : Ordinary x) (hoy : Ordinary y) (hkind : x.kind ≠ y.kind)
    (hmany : x.isMany = false) (hmany' : y.isMany = false) (hpower : x.kind ≠ .power)
    (hpower' : y.kind ≠ .power) : order x y = compareKinds x y := by
  rw [order_of_ordinary hox hoy, if_neg hkind, hmany, hmany', if_neg Bool.false_ne_true,
    if_neg Bool.false_ne_true, if_neg hpower, if_neg hpower']

/-- Trees of different kinds that are not a sum and a product. -/
theorem order_swap_of_kind_ne (hox : Ordinary x) (hoy : Ordinary y) (hkind : x.kind ≠ y.kind)
    (hmany : x.isMany = false ∨ y.isMany = false) : order y x = (order x y).swap := by
  cases hxmany : x.isMany with
  | true =>
      have hymany := hmany.resolve_left (by rw [hxmany]; nofun)
      rw [order_last hox hoy hkind hxmany, order_last_swap hoy hox hkind.symm hymany hxmany]
  | false =>
      cases hymany : y.isMany with
      | true =>
          rw [order_last hoy hox hkind.symm hymany, order_last_swap hox hoy hkind hxmany hymany,
            Ordering.swap_swap]
      | false =>
          by_cases hpower : x.kind = .power
          · have hother : y.kind ≠ .power := fun h => hkind (hpower.trans h.symm)
            rw [order_base hox hoy hxmany hymany hpower hother,
              order_base_swap hoy hox hymany hxmany hother hpower]
          by_cases hpower' : y.kind = .power
          · rw [order_base hoy hox hymany hxmany hpower' hpower,
              order_base_swap hox hoy hxmany hymany hpower hpower', Ordering.swap_swap]
          · rw [order_kinds hox hoy hkind hxmany hymany hpower hpower',
              order_kinds hoy hox hkind.symm hymany hxmany hpower' hpower]
            exact Std.OrientedCmp.eq_swap

/-- Poison and numbers. -/
theorem order_swap_of_tier (h : x.tier ≠ 2 ∨ y.tier ≠ 2) : order y x = (order x y).swap := by
  rcases lt_trichotomy x.tier y.tier with hlt | htier | hgt
  · rw [(order_of_tier_lt hlt).1, (order_of_tier_lt hlt).2]
    rfl
  · by_cases hpoison : x.kind.isPoison = true
    · rw [order_of_isPoison (.inl hpoison), order_of_isPoison (.inr hpoison)]
      exact Std.OrientedCmp.eq_swap
    · have := tier_le_two x
      have hne : x.tier ≠ 0 := fun h => hpoison (tier_eq_zero_iff.mp h)
      obtain ⟨-, p, hp⟩ := exists_number_of_tier (x := x) (by omega)
      obtain ⟨-, q, hq⟩ := exists_number_of_tier (x := y) (by omega)
      rw [order_numbers hp hq, order_numbers hq hp, Ordering.swap_then, ← ExtendedRat.compare_swap]
      congr 1
      exact Std.OrientedCmp.eq_swap
  · rw [(order_of_tier_lt hgt).1, (order_of_tier_lt hgt).2]
    rfl

theorem Sortable.order_swap (hx : Sortable x) (hy : Sortable y) (hclear : ¬ Opposed x y) :
    order y x = (order x y).swap := by
  induction hsize : x.size + y.size using Nat.strong_induction_on generalizing x y with
  | _ n ih =>
      subst hsize
      have hbelow : SwapsBelow (x.size + y.size) := fun a b ha hb hlt hab => ih _ hlt ha hb hab rfl
      by_cases htier : x.tier ≠ 2 ∨ y.tier ≠ 2
      · exact order_swap_of_tier htier
      rw [not_or, Decidable.not_not, Decidable.not_not] at htier
      have hox := tier_eq_two_iff.mp htier.1
      have hoy := tier_eq_two_iff.mp htier.2
      by_cases hkind : x.kind = y.kind
      · exact order_swap_of_kind hx hy hox hkind hbelow hclear
      by_cases hmany : x.isMany = false ∨ y.isMany = false
      · exact order_swap_of_kind_ne hox hoy hkind hmany
      rw [not_or, Bool.not_eq_false, Bool.not_eq_false, isMany_iff, isMany_iff] at hmany
      rcases hmany with ⟨hsum | hproduct, hsum' | hproduct'⟩
      · exact absurd (hsum.trans hsum'.symm) hkind
      · exact order_swap_of_sum hx hy hsum hproduct' hbelow hclear
      · have hswapped := order_swap_of_sum hy hx hsum' hproduct (Nat.add_comm _ _ ▸ hbelow)
          fun h => hclear h.symm
        rw [hswapped, Ordering.swap_swap]
      · exact absurd (hproduct.trans hproduct'.symm) hkind

/-- The answer for two trees is reversed with them, just where they are not opposed. -/
theorem Sortable.order_swap_iff (hx : Sortable x) (hy : Sortable y) :
    order y x = (order x y).swap ↔ ¬ Opposed x y := by
  refine ⟨fun hswap h => ?_, hx.order_swap hy⟩
  obtain ⟨-, heq, hne⟩ := h.order_eq hx hy
  rw [← heq] at hswap
  cases hcase : order x y with
  | eq => exact hne hcase
  | _ =>
      rw [hcase] at hswap
      cases hswap

end Expr

end PocketAlgebra
