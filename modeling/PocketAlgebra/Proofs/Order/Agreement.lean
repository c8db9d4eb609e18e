import PocketAlgebra.Proofs.Closed.Engine
import PocketAlgebra.Proofs.Grammar.WellFormed
import PocketAlgebra.Proofs.Order.Opposed
import PocketAlgebra.Proofs.Shape.Engine

/-!
# Where the simplification order is total

Unless a comparison comes down to one of rivals, it is that of the layered order, in which sums are
compared as lists of terms, products as lists of factors and powers by base and exponent.

Reduction gives trees that the simplification order tells apart: it is a total order on them, as
far as comparisons do not come down to one of a sum and a product that each come before the other.
-/

namespace PocketAlgebra

namespace Expr

/-- A comparison of two expressions comes down to one of rivals: sums and products against others
by their last operand, powers by their base, and operands of the same operator at the first position
at which they differ. -/
inductive Clashes : Expr → Expr → Prop where
  | rivals {x y : Expr} (h : Rivals x y) : Clashes x y
  | symm {x y : Expr} (h : Clashes x y) : Clashes y x
  | last {x y last : Expr} (hmany : x.isMany = true) (hkind : x.kind ≠ y.kind)
      (hlast : x.operands.getLast? = some last) (h : Clashes last y) : Clashes x y
  | base {y base exponent : Expr} (hpower : y.kind ≠ .power) (hmany : y.isMany = false)
      (h : Clashes base y) : Clashes (.apply .power [base, exponent]) y
  | operand {f : Operator} {x y : Expr} {common xs ys : List Expr}
      (hmany : f ≠ .addition ∧ f ≠ .multiplication) (h : Clashes x y) :
    Clashes (.apply f (common ++ x :: xs)) (.apply f (common ++ y :: ys))
  | operandFromLast {f : Operator} {x y : Expr} {common xs ys : List Expr}
      (hmany : f = .addition ∨ f = .multiplication) (h : Clashes x y) :
    Clashes (.apply f (xs ++ x :: common)) (.apply f (ys ++ y :: common))

variable {f g : Operator} {x y t : Expr} {xs ys : List Expr}

/-- Opposed trees clash. -/
theorem Opposed.clashes (h : Opposed x y) : Clashes x y := by
  induction h with
  | rivals h => exact .rivals h
  | symm _ ih => exact ih.symm
  | @last terms factors t l ht hl hmany _ ih =>
      have hproduct : (apply .multiplication factors).isMany = true := rfl
      have hterm : Clashes (.apply .multiplication factors) t :=
        .last hproduct (kind_ne_of_isMany hmany hproduct).symm hl ih.symm
      exact .last rfl nofun ht hterm.symm
  | operand hmany _ ih => exact .operand hmany ih
  | operandFromLast hmany _ ih => exact .operandFromLast hmany ih

/-! ## Sortable trees by their tops -/

theorem Sortable.spans_iff (hx : Sortable x) (hf : f = .addition ∨ f = .multiplication) :
    spans f x = true ↔ x.kind = f.kind := by
  cases x with
  | apply g xs =>
      refine ⟨fun h => ?_, fun h => ?_⟩
      · rw [spans, Bool.and_eq_true, beq_iff_eq] at h
        exact congrArg Operator.kind h.1
      · have hg : g = f := by
          rcases hf with rfl | rfl <;> cases g <;> first | rfl | cases h
        subst hg
        simp [spans, hx.length_of_isMany hf]
  | _ => rcases hf with rfl | rfl <;> simp [spans, kind, Operator.kind]

/-- A sum or product against an expression that is none, in the layered order. -/
theorem layered_last (hx : Uncovered f x) (hy : Uncovered f y) (htier : x.tier = y.tier)
    (hspans : spans f x = true) (hother : spans f y = false)
    (hlast : x.operands.getLast? = some t) :
    layered x y = greaterIfEqual (layered t y) := by
  have hlength : 2 ≤ x.operands.length := by
    cases x with
    | apply g xs =>
        rw [spans, Bool.and_eq_true, decide_eq_true_iff] at hspans
        exact hspans.2
    | _ => cases hspans
  rw [layered_parts htier hx hy, parts, parts, if_pos hspans, hother, reverse_of_getLast? hlast]
  have hrest : x.operands.dropLast.reverse ≠ [] := by
    rw [Ne, List.reverse_eq_nil_iff, ← List.length_eq_zero_iff, List.length_dropLast]
    omega
  obtain ⟨z, zs, hcons⟩ := List.exists_cons_of_ne_nil hrest
  rw [hcons, if_neg Bool.false_ne_true, layeredAll, layeredAll]
  cases layered t y <;> rfl

/-! ## Poison and numbers -/

/-- Poison and numbers show nothing but their values and kinds. -/
theorem Sortable.bare (hx : Sortable x) (h : x.tier ≠ 2) :
    x.operands = [] ∧ x.nameOrEmpty = "" ∧ x.marks = (0, 0) := by
  cases hx with
  | @apply f xs node _ =>
      have hpoison : f.kind.isPoison = true := by
        by_contra hpoison
        exact h (tier_eq_two_iff.mpr (ordinary_apply (Bool.not_eq_true _ ▸ hpoison)))
      refine ⟨node.poison hpoison, ?_⟩
      cases f <;> first | exact ⟨rfl, rfl⟩ | cases hpoison
  | constant c => exact absurd (tier_eq_two_iff.mpr ⟨rfl, rfl⟩) h
  | symbol name => exact absurd (tier_eq_two_iff.mpr ⟨rfl, rfl⟩) h
  | _ => exact ⟨rfl, rfl, rfl⟩

theorem layered_bare (hx : Sortable x) (hy : Sortable y) (htier : x.tier = y.tier)
    (h : x.tier ≠ 2) : layered x y = (compareValues x y).then (compareKinds x y) := by
  obtain ⟨hsingle, hpower⟩ := plain_of_tier_ne_two h
  obtain ⟨hsingle', hpower'⟩ := plain_of_tier_ne_two (htier ▸ h)
  obtain ⟨hoperands, hname, hmarks⟩ := hx.bare h
  obtain ⟨hoperands', hname', hmarks'⟩ := hy.bare (htier ▸ h)
  have hnames : compareOwnNames x y = .eq := by
    rw [compareOwnNames, hname, hname', compareNames_eq_eq]
  rw [layered_plain htier hsingle hsingle' hpower hpower', compareHeads_eq, hoperands, hoperands',
    hnames, hmarks, hmarks', layeredAll]
  simp

theorem number?_of_isPoison (hx : x.kind.isPoison = true) : x.number? = none := by
  cases x <;> first | rfl | cases hx

theorem order_eq_layered_of_tier (hx : Sortable x) (hy : Sortable y)
    (h : x.tier ≠ 2 ∨ y.tier ≠ 2) : order x y = layered x y := by
  rcases lt_trichotomy x.tier y.tier with hlt | htier | hgt
  · rw [layered_of_tier_ne hlt.ne, (order_of_tier_lt hlt).1, Nat.compare_eq_lt.mpr hlt]
  · rw [layered_bare hx hy htier (by omega)]
    by_cases hpoison : x.kind.isPoison = true
    · have hpoison' := tier_eq_zero_iff.mp (htier ▸ tier_eq_zero_iff.mpr hpoison)
      rw [order_of_isPoison (.inl hpoison), compareValues, numericValue, numericValue,
        number?_of_isPoison hpoison, number?_of_isPoison hpoison',
        extendedRat_compare_eq_eq.mpr rfl, Ordering.eq_then]
    · have := tier_le_two x
      have hne : x.tier ≠ 0 := fun h => hpoison (tier_eq_zero_iff.mp h)
      obtain ⟨-, p, hp⟩ := exists_number_of_tier (x := x) (by omega)
      obtain ⟨-, q, hq⟩ := exists_number_of_tier (x := y) (by omega)
      rw [order_numbers hp hq, compareValues, numericValue, numericValue, hp, hq]
      rfl
  · rw [layered_of_tier_ne hgt.ne', (order_of_tier_lt hgt).2, Nat.compare_eq_gt.mpr hgt]

/-! ## Lists -/

/-- Lists are compared by the first position at which they differ. -/
theorem orderAll_eq_layeredAll (hxs : ∀ x ∈ xs, Sortable x) (hys : ∀ y ∈ ys, Sortable y)
    (h : ∀ common x xs' y ys', xs = common ++ x :: xs' → ys = common ++ y :: ys' →
      order x y = layered x y) : orderAll xs ys = layeredAll xs ys := by
  induction xs generalizing ys with
  | nil => cases ys <;> rw [orderAll, layeredAll]
  | cons x xs ih =>
      cases ys with
      | nil => rw [orderAll, layeredAll]
      | cons y ys =>
          have hhead := h [] x xs y ys rfl rfl
          rw [orderAll, layeredAll, ← hhead]
          cases horder : order x y with
          | eq =>
              have hxy := (hxs x (by simp)).eq_of_order_eq (hys y (by simp)) horder
              subst hxy
              refine ih (fun a ha => hxs a (by simp [ha])) (fun b hb => hys b (by simp [hb])) ?_
              rintro common a xs' b ys' rfl rfl
              exact h (x :: common) a xs' b ys' rfl rfl
          | _ => rfl

/-! ## Two of one kind -/

/-- Smaller pairs of trees are compared as in the layered order, unless they clash. -/
def AgreesBelow (size : Nat) : Prop :=
  ∀ x y, Sortable x → Sortable y → x.size + y.size < size → ¬ Clashes x y → order x y = layered x y

theorem then_congr {o p q : Ordering} (h : o = .eq → p = q) : o.then p = o.then q := by
  cases o with
  | eq => exact h rfl
  | _ => rfl

theorem compareHeads_apply (hkind : f.kind = g.kind) :
    compareHeads (.apply f xs) (.apply g ys) = compareLabels f g := by
  have hkinds : compareKinds (.apply f xs) (.apply g ys) = .eq := compareKinds_eq_eq.mpr hkind
  have hvalues : compareValues (.apply f xs) (.apply g ys) = .eq :=
    extendedRat_compare_eq_eq.mpr rfl
  have hempty : compareNames "" "" = .eq := compareNames_eq_eq.mpr rfl
  rw [compareHeads_eq, hvalues, hkinds, Ordering.eq_then, Ordering.eq_then]
  cases f with
  | function name =>
      cases g with
      | function other => exact Ordering.then_eq
      | _ => cases hkind
  | comparison r =>
      cases g with
      | comparison s =>
          change (compareNames "" "").then ((compare r.rank s.rank).then .eq) = _
          rw [hempty, Ordering.eq_then, Ordering.then_eq]
          rfl
      | _ => cases hkind
  | matrix rows columns =>
      cases g with
      | matrix rows' columns' =>
          change (compareNames "" "").then
            ((compare rows rows').then (compare columns columns')) = _
          rw [hempty, Ordering.eq_then]
          rfl
      | _ => cases hkind
  | _ =>
      cases eq_of_compareLabels hkind rfl
      exact congrArg (fun o => Ordering.then o .eq) hempty

theorem Sortable.single_of_kind (hx : Sortable x) (hsum : x.kind ≠ .addition)
    (hproduct : x.kind ≠ .multiplication) : Single x :=
  ⟨Bool.eq_false_iff.mpr fun h => hsum ((hx.spans_iff (.inl rfl)).mp h),
    Bool.eq_false_iff.mpr fun h => hproduct ((hx.spans_iff (.inr rfl)).mp h)⟩

theorem power?_eq_none (h : x.kind ≠ .power) : x.power? = none := by
  rw [power?.eq_def]
  split
  · exact absurd rfl h
  · rfl

theorem uncovered_of_kind (hf : f = .addition ∨ f = .multiplication) (h : x.kind = f.kind) :
    Uncovered f x := by
  rcases hf with rfl | rfl
  · exact .inl rfl
  · refine .inr ⟨rfl, Bool.eq_false_iff.mpr fun hspans => ?_⟩
    cases x with
    | apply g xs =>
        rw [spans, Bool.and_eq_true, beq_iff_eq] at hspans
        cases hspans.1
        cases h
    | _ => cases hspans

/-- Two sums, or two products. -/
theorem order_eq_layered_of_many (hf : f = .addition ∨ f = .multiplication)
    (hx : Sortable (.apply f xs)) (hy : Sortable (.apply f ys))
    (hbelow : AgreesBelow ((apply f xs).size + (apply f ys).size))
    (hclear : ¬ Clashes (.apply f xs) (.apply f ys)) :
    order (.apply f xs) (.apply f ys) = layered (.apply f xs) (.apply f ys) := by
  have hmany : (apply f xs).isMany = true := by rcases hf with rfl | rfl <;> rfl
  have hpoison : f.kind.isPoison = false := by rcases hf with rfl | rfl <;> rfl
  rw [order_applied hpoison rfl, compareLabels_self, Ordering.eq_then, if_pos hmany,
    layered_parts (by rfl) (uncovered_of_kind hf rfl) (uncovered_of_kind hf rfl), parts, parts,
    if_pos ((hx.spans_iff hf).mpr rfl), if_pos ((hy.spans_iff hf).mpr rfl)]
  refine orderAll_eq_layeredAll (fun x hx' => hx.operand (List.mem_reverse.mp hx'))
    (fun y hy' => hy.operand (List.mem_reverse.mp hy')) fun common x xs' y ys' hxs hys => ?_
  have hxs : xs = xs'.reverse ++ x :: common.reverse := by
    rw [← List.reverse_reverse xs, hxs]
    simp
  have hys : ys = ys'.reverse ++ y :: common.reverse := by
    rw [← List.reverse_reverse ys, hys]
    simp
  have hxmem : x ∈ xs := by simp [hxs]
  have hymem : y ∈ ys := by simp [hys]
  refine hbelow x y (hx.operand hxmem) (hy.operand hymem) ?_ fun h => hclear ?_
  · have := size_lt_of_mem hxmem
    have := size_lt_of_mem hymem
    simp only [size]
    omega
  · rw [hxs, hys]
    exact .operandFromLast hf h

/-- Two powers, or two nodes of the same kind that are neither sums nor products. -/
theorem order_eq_layered_of_few (hf : f ≠ .addition ∧ f ≠ .multiplication)
    (hx : Sortable (.apply f xs)) (hy : Sortable (.apply g ys)) (hkind : f.kind = g.kind)
    (hpoison : f.kind.isPoison = false)
    (hbelow : AgreesBelow ((apply f xs).size + (apply g ys).size))
    (hclear : ¬ Clashes (.apply f xs) (.apply g ys)) :
    order (.apply f xs) (.apply g ys) = layered (.apply f xs) (.apply g ys) := by
  have hlists : compareLabels f g = .eq → orderAll xs ys = layeredAll xs ys := by
    intro hlabels
    cases eq_of_compareLabels hkind hlabels
    refine orderAll_eq_layeredAll (fun _ => hx.operand) (fun _ => hy.operand) ?_
    rintro common x xs' y ys' rfl rfl
    refine hbelow x y (hx.operand (by simp)) (hy.operand (by simp)) ?_ fun h =>
      hclear (.operand hf h)
    have := @size_lt_of_mem x (common ++ x :: xs') (by simp)
    have := @size_lt_of_mem y (common ++ y :: ys') (by simp)
    simp only [size]
    omega
  have hmany : (apply f xs).isMany = false := by
    cases f <;> first | rfl | exact absurd rfl hf.1 | exact absurd rfl hf.2
  have htier : (apply f xs).tier = (apply g ys).tier :=
    (tier_eq_two_iff.mpr (ordinary_apply hpoison)).trans
      (tier_eq_two_iff.mpr (ordinary_apply (hkind ▸ hpoison))).symm
  have hsum : f.kind ≠ .addition := fun h => hf.1 (eq_of_arithmetic (.inl rfl) h)
  have hproduct : f.kind ≠ .multiplication := fun h => hf.2 (eq_of_arithmetic (.inr (.inl rfl)) h)
  have hsx : Single (.apply f xs) := hx.single_of_kind hsum hproduct
  have hsy : Single (.apply g ys) :=
    hy.single_of_kind (ne_of_eq_of_ne hkind.symm hsum) (ne_of_eq_of_ne hkind.symm hproduct)
  rw [order_applied hpoison hkind, hmany, if_neg Bool.false_ne_true, then_congr hlists]
  by_cases hpower : f.kind = .power
  · cases eq_of_arithmetic (.inr (.inr rfl)) hpower
    cases eq_of_arithmetic (.inr (.inr rfl)) hkind.symm
    obtain ⟨b, e, rfl⟩ := List.length_eq_two.mp (hx.node.power rfl)
    obtain ⟨b', e', rfl⟩ := List.length_eq_two.mp (hy.node.power rfl)
    rw [layered_base htier hsx hsy, compareLabels_self, Ordering.eq_then, layeredAll, layeredAll,
      layeredAll, Ordering.then_eq]
    rfl
  · rw [layered_plain htier hsx hsy (power?_eq_none hpower)
      (power?_eq_none (ne_of_eq_of_ne hkind.symm hpower)), compareHeads_apply hkind]
    rfl

/-- Two ordinary trees of one kind, where smaller ones agree. -/
theorem order_eq_layered_of_kind (hx : Sortable x) (hy : Sortable y) (hox : Ordinary x)
    (hoy : Ordinary y) (hkind : x.kind = y.kind) (hbelow : AgreesBelow (x.size + y.size))
    (hclear : ¬ Clashes x y) : order x y = layered x y := by
  have htier : x.tier = y.tier := (tier_eq_two_iff.mpr hox).trans (tier_eq_two_iff.mpr hoy).symm
  have hempty : compareNames "" "" = .eq := compareNames_eq_eq.mpr rfl
  have hnil : layeredAll [] [] = .eq := by rw [layeredAll]
  cases hx with
  | rational q => cases hox.number?_eq
  | infinity negative => cases hox.number?_eq
  | constant c =>
      cases hy with
      | constant d =>
          rw [order_constants, layered_plain htier ⟨rfl, rfl⟩ ⟨rfl, rfl⟩ rfl rfl]
          change _ = ((compareNames "" "").then ((compare c.rank d.rank).then .eq)).then
            (layeredAll [] [])
          rw [hnil, hempty, Ordering.eq_then, Ordering.then_eq, Ordering.then_eq]
      | @apply g _ _ _ => cases g <;> cases hkind
      | _ => cases hkind
  | symbol name =>
      cases hy with
      | symbol other =>
          rw [order_symbols, layered_plain htier ⟨rfl, rfl⟩ ⟨rfl, rfl⟩ rfl rfl]
          change _ = ((compareNames name other).then .eq).then (layeredAll [] [])
          rw [hnil, Ordering.then_eq, Ordering.then_eq]
      | @apply g _ _ _ => cases g <;> cases hkind
      | _ => cases hkind
  | @apply f xs node operands =>
      cases hy with
      | @apply g ys node' operands' =>
          by_cases hmany : f = .addition ∨ f = .multiplication
          · have hfg : f = g := by
              rcases hmany with rfl | rfl <;> cases g <;> first | rfl | cases hkind
            subst hfg
            exact order_eq_layered_of_many hmany (.apply node operands) (.apply node' operands')
              hbelow hclear
          · exact order_eq_layered_of_few (not_or.mp hmany) (.apply node operands)
              (.apply node' operands') hkind hox.isPoison_eq hbelow hclear
      | _ => cases f <;> cases hkind

/-! ## Two of different kinds -/

theorem layered_many (hx : Sortable x) (hy : Sortable y) (htier : x.tier = y.tier)
    (hkind : x.kind ≠ y.kind) (hmany : x.isMany = true)
    (hcovers : x.kind = .addition ∨ y.kind ≠ .addition) (ht : EndsIn x t) :
    layered x y = greaterIfEqual (layered t y) := by
  obtain ⟨f, xs, rfl, hf⟩ := exists_apply_of_isMany hmany
  refine layered_last (uncovered_of_kind hf rfl) ?_ htier ((hx.spans_iff hf).mpr rfl) ?_ ht.last
  · rcases hf with rfl | rfl
    · exact .inl rfl
    · refine .inr ⟨rfl, Bool.eq_false_iff.mpr fun h => ?_⟩
      exact hcovers.resolve_left nofun ((hy.spans_iff (.inl rfl)).mp h)
  · exact Bool.eq_false_iff.mpr fun h => hkind ((hy.spans_iff hf).mp h).symm

/-- A sum against another tree, or a product against a tree that is no sum. -/
theorem order_eq_layered_of_last (hx : Sortable x) (hy : Sortable y) (hox : Ordinary x)
    (hoy : Ordinary y) (hkind : x.kind ≠ y.kind) (hmany : x.isMany = true)
    (hcovers : x.kind = .addition ∨ y.kind ≠ .addition)
    (hbelow : AgreesBelow (x.size + y.size)) (hclear : ¬ Clashes x y) :
    order x y = layered x y := by
  have htier : x.tier = y.tier := (tier_eq_two_iff.mpr hox).trans (tier_eq_two_iff.mpr hoy).symm
  obtain ⟨t, ht⟩ := hx.exists_endsIn hmany
  rw [order_many hox hoy hkind hmany ht, layered_many hx hy htier hkind hmany hcovers ht,
    hbelow t y ht.sortable hy (Nat.add_lt_add_right ht.size_lt _) fun h =>
      hclear (.last hmany hkind ht.last h)]

theorem single_of_isMany (hx : Sortable x) (h : x.isMany = false) : Single x := by
  have hne : ¬ (x.kind = .addition ∨ x.kind = .multiplication) := fun hkind => by
    rw [isMany_iff.mpr hkind] at h
    cases h
  exact hx.single_of_kind (not_or.mp hne).1 (not_or.mp hne).2

/-- A power against a tree that is neither a power nor a sum nor a product. -/
theorem order_eq_layered_of_base (hx : Sortable x) (hy : Sortable y) (hox : Ordinary x)
    (hoy : Ordinary y) (hpower : x.kind = .power) (hother : y.kind ≠ .power)
    (hmany : y.isMany = false) (hbelow : AgreesBelow (x.size + y.size))
    (hclear : ¬ Clashes x y) : order x y = layered x y := by
  have htier : x.tier = y.tier := (tier_eq_two_iff.mpr hox).trans (tier_eq_two_iff.mpr hoy).symm
  have hx' : x.isMany = false := by simp [isMany, hpower]
  cases hx with
  | @apply f xs node operands =>
      cases eq_of_arithmetic (.inr (.inr rfl)) hpower
      obtain ⟨b, e, rfl⟩ := List.length_eq_two.mp (node.power rfl)
      have hb : order b y = layered b y := by
        refine hbelow b y (operands b (by simp)) hy ?_ fun h => hclear (.base hother hmany h)
        simp only [size, sizeAll]
        omega
      have he : againstOne e = compareExponentWithOne e := by
        rw [againstOne, if_neg (Bool.eq_false_iff.mp (node.clean (by simp) e (by simp)))]
      rw [order_base hox hoy hx' hmany hpower hother, orderBase, hb, ← he,
        layered_base htier (single_of_isMany (.apply node operands) hx')
          (single_of_isMany hy hmany), power?_eq_none hother]
      simp only [base, power?_eq_none hother]
      rfl
  | _ => cases hpower

/-- Trees that are compared by their kinds alone. -/
theorem order_eq_layered_of_kinds (hx : Sortable x) (hy : Sortable y) (hox : Ordinary x)
    (hoy : Ordinary y) (hkind : x.kind ≠ y.kind) (hmany : x.isMany = false)
    (hmany' : y.isMany = false) (hpower : x.kind ≠ .power) (hpower' : y.kind ≠ .power) :
    order x y = layered x y := by
  have htier : x.tier = y.tier := (tier_eq_two_iff.mpr hox).trans (tier_eq_two_iff.mpr hoy).symm
  have hvalues : compareValues x y = .eq := by
    rw [compareValues, numericValue, numericValue, hox.number?_eq, hoy.number?_eq,
      extendedRat_compare_eq_eq]
  have hkinds : compareKinds x y ≠ .eq := fun h => hkind (compareKinds_eq_eq.mp h)
  rw [order_kinds hox hoy hkind hmany hmany' hpower hpower',
    layered_plain htier (single_of_isMany hx hmany) (single_of_isMany hy hmany')
      (power?_eq_none hpower) (power?_eq_none hpower'), compareHeads_eq, hvalues]
  cases hcase : compareKinds x y with
  | eq => exact absurd hcase hkinds
  | _ => rfl

/-! ## All trees -/

/-- Trees that do not clash are compared as in the layered order. -/
theorem Sortable.order_eq_layered (hx : Sortable x) (hy : Sortable y) (hclear : ¬ Clashes x y) :
    order x y = layered x y := by
  induction hsize : x.size + y.size using Nat.strong_induction_on generalizing x y with
  | _ n ih =>
      subst hsize
      have hbelow : AgreesBelow (x.size + y.size) := fun a b ha hb hlt hab =>
        ih _ hlt ha hb hab rfl
      by_cases htier : x.tier ≠ 2 ∨ y.tier ≠ 2
      · exact order_eq_layered_of_tier hx hy htier
      rw [not_or, Decidable.not_not, Decidable.not_not] at htier
      have hox := tier_eq_two_iff.mp htier.1
      have hoy := tier_eq_two_iff.mp htier.2
      by_cases hkind : x.kind = y.kind
      · exact order_eq_layered_of_kind hx hy hox hoy hkind hbelow hclear
      -- both orders are reversed with their arguments
      have hclear' : ¬ Clashes y x := fun h => hclear h.symm
      have hreversed : order y x = layered y x → order x y = layered x y := fun h => by
        rw [hy.order_swap hx fun hopposed => hclear' hopposed.clashes, h, ← layered_swap]
      have hbelow' : AgreesBelow (y.size + x.size) := Nat.add_comm _ _ ▸ hbelow
      by_cases hlast : x.isMany = true ∧ (x.kind = .addition ∨ y.kind ≠ .addition)
      · exact order_eq_layered_of_last hx hy hox hoy hkind hlast.1 hlast.2 hbelow hclear
      by_cases hlast' : y.isMany = true ∧ (y.kind = .addition ∨ x.kind ≠ .addition)
      · exact hreversed <| order_eq_layered_of_last hy hx hoy hox (Ne.symm hkind) hlast'.1
          hlast'.2 hbelow' hclear'
      have hmany : x.isMany = false ∧ y.isMany = false := by
        simp only [isMany_iff, isMany_eq_false_iff] at hlast hlast' ⊢
        tauto
      by_cases hpower : x.kind = .power
      · exact order_eq_layered_of_base hx hy hox hoy hpower
          (fun h => hkind (hpower.trans h.symm)) hmany.2 hbelow hclear
      by_cases hpower' : y.kind = .power
      · exact hreversed <| order_eq_layered_of_base hy hx hoy hox hpower' hpower hmany.1 hbelow'
          hclear'
      · exact order_eq_layered_of_kinds hx hy hox hoy hkind hmany.1 hmany.2 hpower hpower'

end Expr

open Reduction Shape

namespace Expr

/-! ## Trees with the operands that their operators take -/

/-- A power has a base and an exponent, and poison has no operands. -/
def NodeRegular : Expr → Prop
  | apply f xs => (f = .power → xs.length = 2) ∧ (f.kind.isPoison = true → xs.length = 0)
  | _ => True

instance : DecidablePred NodeRegular
  | apply f xs => inferInstanceAs
      (Decidable ((f = .power → xs.length = 2) ∧ (f.kind.isPoison = true → xs.length = 0)))
  | rational _ => .isTrue trivial
  | decimal _ => .isTrue trivial
  | infinity _ => .isTrue trivial
  | constant _ => .isTrue trivial
  | symbol _ => .isTrue trivial

/-- A tree whose powers have a base and an exponent, and whose poison has no operands. -/
def Regular (x : Expr) : Prop :=
  x.Everywhere NodeRegular

instance (x : Expr) : Decidable (Regular x) :=
  inferInstanceAs (Decidable (x.Everywhere NodeRegular))

variable {f : Operator} {x y a b c r : Expr} {xs : List Expr}

theorem nodeRegular_of_acceptsCount (h : Codec.acceptsCount x x.operands.length = true) :
    NodeRegular x := by
  cases x with
  | apply f xs =>
      refine ⟨?_, fun hpoison => ?_⟩
      · rintro rfl
        exact of_decide_eq_true h
      · cases f <;> first | exact of_decide_eq_true h | cases hpoison
  | _ => trivial

/-- Trees that can be written as bytes are regular. -/
theorem CodecValid.regular (h : x.CodecValid) : Regular x := by
  induction h with
  | node _ count _ ih => exact .node (nodeRegular_of_acceptsCount count) ih

theorem regular_leaf (hoperands : x.operands = []) (hnode : NodeRegular x) : Regular x :=
  (everywhere_leaf hoperands).mpr hnode

/-- Reduction keeps trees regular. -/
theorem closed_regular : Closed (fun _ => True) Regular := by
  refine closed_everywhere (fun {x} hx => ?_) (fun {f} hf => ?_) (fun h hlength => ?_)
    (fun {f xs} hf => ?_) ⟨fun _ => rfl, nofun⟩
  · cases x with
    | symbol | apply => cases hx
    | _ => trivial
  · refine ⟨?_, fun _ => rfl⟩
    rintro rfl
    cases hf
  · rwa [NodeRegular, hlength]
  · have hpoison : f.kind.isPoison = false := by cases f <;> first | rfl | cases hf
    refine ⟨?_, fun h => ?_⟩
    · rintro rfl
      cases hf
    · rw [hpoison] at h
      cases h

/-- A canonical tree that is regular is told apart from all others. -/
theorem sortable_of_canonical (hx : Canonical x) (hregular : Regular x) : Sortable x := by
  induction hx with
  | rational q => exact .rational q
  | infinity negative => exact .infinity negative
  | constant c => exact .constant c
  | symbol name => exact .symbol name
  | @apply f xs shape _ ih =>
      obtain ⟨hpower, hpoison⟩ := hregular.here
      refine .apply ⟨fun hf => ?_, fun hf => ?_, hpower, fun hf => ?_, fun hf x hx => ?_⟩
        fun x hx => ih x hx (hregular.operand hx)
      · exact ⟨(shape.sum hf).many, (shape.sum hf).flat⟩
      · exact ⟨(shape.product hf).many, (shape.product hf).flat⟩
      · exact List.length_eq_zero_iff.mp (hpoison hf)
      · rw [Bool.eq_false_iff]
        intro hx'
        rcases shape.poison x hx hx' with rfl | hmatrix
        · rcases hf with h | h | h <;> cases h
        · rcases hf with rfl | rfl | rfl <;> cases hmatrix

/-! ## Reduced trees -/

/-- A tree whose nodes have the operands that their operators take, and in which variables that are
bound are symbols. -/
structure Arranged (x : Expr) : Prop where
  bindsSymbols : BindsSymbols x
  regular : Regular x

instance (x : Expr) : Decidable (Arranged x) :=
  decidable_of_iff (BindsSymbols x ∧ Regular x) ⟨fun h => ⟨h.1, h.2⟩, fun h => ⟨h.1, h.2⟩⟩

theorem arranged_apply (hbound : NamesVariable f xs) (hnode : NodeRegular (.apply f xs))
    (hxs : ∀ x ∈ xs, Arranged x) : Arranged (.apply f xs) :=
  ⟨.apply hbound fun x hx => (hxs x hx).bindsSymbols,
    everywhere_apply.mpr ⟨hnode, fun x hx => (hxs x hx).regular⟩⟩

theorem arranged_of_nodeFormed (h : x.Everywhere NodeFormed) : Arranged x := by
  induction h with
  | @node x here _ ih =>
      cases x with
      | apply f xs =>
          refine arranged_apply (fun hbinds y hy => ?_) (nodeRegular_of_acceptsCount here.count) ih
          obtain ⟨name, hname, -⟩ := here.bound hbinds
          rw [Option.some.inj (hy.symm.trans hname)]
          rfl
      | rational q => exact ⟨.rational q, regular_leaf rfl trivial⟩
      | decimal d => exact ⟨.decimal d, regular_leaf rfl trivial⟩
      | infinity negative => exact ⟨.infinity negative, regular_leaf rfl trivial⟩
      | constant c => exact ⟨.constant c, regular_leaf rfl trivial⟩
      | symbol name => exact ⟨.symbol name, regular_leaf rfl trivial⟩

/-- The trees of texts are arranged. -/
theorem arranged_of_parse {free : Nat} {text : String} (h : Expr.parse free text = .ok x) :
    Arranged x := by
  rcases nodeFormed_of_parse h with hx | ⟨y, target, rfl, hy, htarget⟩
  · exact arranged_of_nodeFormed hx
  · exact arranged_apply (fun hbinds => by cases hbinds) (nodeRegular_of_acceptsCount rfl)
      (forall_mem_pair (arranged_of_nodeFormed hy) (arranged_of_nodeFormed htarget))

/-- What reduction gives, unless it is brought into the form that is expected by the user. -/
def Reduced (r : Expr) : Prop :=
  ∃ x ctx breaker, Arranged x ∧ Defines Arranged ctx.definitions ∧ ctx.settings.target ≠ .user ∧
    x.reduce ctx breaker = .ok r

theorem Reduced.sortable (h : Reduced r) : Sortable r := by
  obtain ⟨x, ctx, breaker, hx, hdefinitions, htarget, hr⟩ := h
  have hshaped : Shaped maxNesting ctx :=
    shaped_reduceWithin maxNesting fun entry hentry => (hdefinitions entry hentry).bindsSymbols
  have hregular := closed_regular.reduce hx.regular
    (fun entry hentry => (hdefinitions entry hentry).regular) htarget hr
  exact sortable_of_canonical (of_reduce (hshaped.tree x hx.bindsSymbols) htarget hr) hregular

/-- Trees without sums do not clash, nor do trees without products. -/
theorem not_clashes_of_everywhere {k : Kind} (hk : k = .addition ∨ k = .multiplication)
    (hx : x.Everywhere (·.kind ≠ k)) (hy : y.Everywhere (·.kind ≠ k)) : ¬ Clashes x y := by
  intro h
  induction h with
  | rivals h =>
      obtain ⟨⟩ := h
      rcases hk with rfl | rfl
      · exact hx.here rfl
      · exact hy.here rfl
  | symm _ ih => exact ih hy hx
  | last _ _ hlast _ ih => exact ih (hx.operand (List.mem_of_getLast? hlast)) hy
  | base _ _ _ ih => exact ih (hx.operand List.mem_cons_self) hy
  | operand _ _ ih => exact ih (hx.operand (by simp [operands])) (hy.operand (by simp [operands]))
  | operandFromLast _ _ ih =>
      exact ih (hx.operand (by simp [operands])) (hy.operand (by simp [operands]))

/-- On reduced trees, just identical ones are equal in simplification order; answers are reversed
with the trees just where these are not opposed; and where no two of three trees clash, the first
one does not come after the last one if neither does its neighbour in between. -/
theorem order_reduced (ha : Reduced a) (hb : Reduced b) (hc : Reduced c) :
    (order a b = .eq ↔ a.same b = true) ∧
      (order b a = (order a b).swap ↔ ¬ Opposed a b) ∧
      (¬ Clashes a b → ¬ Clashes b c → ¬ Clashes a c →
        order a b ≠ .gt → order b c ≠ .gt → order a c ≠ .gt) := by
  refine ⟨ha.sortable.order_eq_iff_same hb.sortable, ha.sortable.order_swap_iff hb.sortable, ?_⟩
  intro hab hbc hac
  rw [ha.sortable.order_eq_layered hb.sortable hab, hb.sortable.order_eq_layered hc.sortable hbc,
    ha.sortable.order_eq_layered hc.sortable hac]
  simp only [ne_eq, ← Ordering.isLE_iff_ne_gt]
  exact Std.TransCmp.isLE_trans

/-- A context without definitions, for the analysis of expressions in the cartesian format. -/
def analysis : Context :=
  ⟨{ target := .systemForAnalysis, complexFormat := .cartesian }, {}, 4096, []⟩

theorem reduced_of_analysis (hx : Arranged x) (hr : x.reduce analysis {} = .ok r) : Reduced r :=
  ⟨x, analysis, {}, hx, fun _ h => (by cases h), by decide, hr⟩

def oneAndX : Expr :=
  .apply .addition [.integer 1, .symbol "x"]

def twiceX : Expr :=
  .apply .multiplication [.integer 2, .symbol "x"]

def squareAndY : Expr :=
  .apply .addition [.apply .power [.symbol "x", .integer 2], .symbol "y"]

def sineOfXAndY : Expr :=
  .apply .sine [.apply .addition [.symbol "x", .symbol "y"]]

/-- Two sums and the sine of a sum, none of which contains a product. -/
theorem order_reduced_sums :
    (Reduced oneAndX ∧ Reduced squareAndY ∧ Reduced sineOfXAndY) ∧
      order oneAndX squareAndY ≠ .eq ∧
      order squareAndY oneAndX = (order oneAndX squareAndY).swap ∧
      order oneAndX sineOfXAndY ≠ .gt := by
  have hone : Reduced oneAndX := reduced_of_analysis (x := oneAndX) (by decide)
    (Everywhere.eq_ok (by decide) (by decide +kernel))
  have hsquare : Reduced squareAndY := reduced_of_analysis (x := squareAndY) (by decide)
    (Everywhere.eq_ok (by decide) (by decide +kernel))
  have hsine : Reduced sineOfXAndY := reduced_of_analysis (x := sineOfXAndY) (by decide)
    (Everywhere.eq_ok (by decide) (by decide +kernel))
  have hclear : ∀ {x y : Expr}, x.Everywhere (·.kind ≠ .multiplication) →
      y.Everywhere (·.kind ≠ .multiplication) → ¬ Clashes x y :=
    not_clashes_of_everywhere (.inr rfl)
  obtain ⟨heq, hswap, htrans⟩ := order_reduced hone hsquare hsine
  refine ⟨⟨hone, hsquare, hsine⟩, fun h => ?_, hswap.mpr fun h => ?_, ?_⟩
  · exact absurd (heq.mp h) (by decide +kernel)
  · exact hclear (by decide) (by decide) h.clashes
  · exact htrans (hclear (by decide) (by decide)) (hclear (by decide) (by decide))
      (hclear (by decide) (by decide)) (by decide +kernel) (by decide +kernel)

/-- The sum is compared with the product by its last term and the product with the sum by its last
factor, and both are the same symbol: so each comes before the other. -/
theorem order_reduced_rivals :
    oneAndX.reduce analysis {} = .ok oneAndX ∧ twiceX.reduce analysis {} = .ok twiceX ∧
      order oneAndX twiceX = .lt ∧ order twiceX oneAndX = .lt := by
  refine ⟨Everywhere.eq_ok (by decide) (by decide +kernel),
    Everywhere.eq_ok (by decide) (by decide +kernel), ?_⟩
  decide +kernel

end Expr

end PocketAlgebra
