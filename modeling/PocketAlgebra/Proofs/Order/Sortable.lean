import PocketAlgebra.Proofs.Expr.Everywhere
import PocketAlgebra.Proofs.Order.Layered

/-!
# Trees that the order tells apart

On trees without decimal literals, whose sums and products have at least two operands, whose powers
have a base and an exponent and whose poison has no operands, only identical trees are equal in
simplification order.
-/

namespace PocketAlgebra

namespace Expr

/-- What the simplification order asks of a node. -/
structure NodeSortable (f : Operator) (xs : List Expr) : Prop where
  sum : f = .addition → 2 ≤ xs.length ∧ ∀ x ∈ xs, x.kind ≠ .addition
  product : f = .multiplication →
    2 ≤ xs.length ∧ ∀ x ∈ xs, x.kind ≠ .addition ∧ x.kind ≠ .multiplication
  power : f = .power → xs.length = 2
  poison : f.kind.isPoison = true → xs = []
  clean : f = .addition ∨ f = .multiplication ∨ f = .power → ∀ x ∈ xs, x.kind.isPoison = false

/-- A tree without decimal literals whose nodes are as the order asks. -/
inductive Sortable : Expr → Prop where
  | rational (q : Rat) : Sortable (.rational q)
  | infinity (negative : Bool) : Sortable (.infinity negative)
  | constant (c : Constant) : Sortable (.constant c)
  | symbol (name : String) : Sortable (.symbol name)
  | apply {f : Operator} {xs : List Expr} (node : NodeSortable f xs)
      (operands : ∀ x ∈ xs, Sortable x) : Sortable (.apply f xs)

variable {f g : Operator} {x y : Expr} {xs ys : List Expr}

theorem Sortable.node (h : Sortable (.apply f xs)) : NodeSortable f xs := by
  cases h with
  | apply node _ => exact node

theorem Sortable.operand (h : Sortable (.apply f xs)) (hx : x ∈ xs) : Sortable x := by
  cases h with
  | apply _ operands => exact operands x hx

/-! ## Kinds and data -/

theorem ofRank?_rank (k : Kind) : Kind.ofRank? k.rank = some k := by
  cases k <;> rfl

theorem compareKinds_eq_eq : compareKinds x y = .eq ↔ x.kind = y.kind := by
  refine ⟨fun h => ?_, fun h => by simp [compareKinds, h]⟩
  have hrank : x.kind.rank = y.kind.rank := Nat.compare_eq_eq.mp h
  exact Option.some.inj ((ofRank?_rank _).symm.trans (hrank ▸ ofRank?_rank _))

theorem constant_rank_injective {c d : Constant} (h : c.rank = d.rank) : c = d := by
  cases c <;> cases d <;> first | rfl | cases h

theorem relation_rank_injective {r s : Relation} (h : r.rank = s.rank) : r = s := by
  cases r <;> cases s <;> first | rfl | cases h

/-- Operators are told by their kinds, except for those that carry data. -/
theorem ofKind?_kind (f : Operator) : Operator.ofKind? f.kind = some f ∨
    (∃ name, f = .function name) ∨ (∃ relation, f = .comparison relation) ∨
      ∃ rows columns, f = .matrix rows columns := by
  cases f with
  | function name => exact .inr (.inl ⟨name, rfl⟩)
  | comparison relation => exact .inr (.inr (.inl ⟨relation, rfl⟩))
  | matrix rows columns => exact .inr (.inr (.inr ⟨rows, columns, rfl⟩))
  | _ => exact .inl rfl

theorem eq_of_compareLabels (hkind : f.kind = g.kind) (h : compareLabels f g = .eq) : f = g := by
  have hne : f.kind ≠ .function → f.kind ≠ .comparison → f.kind ≠ .matrix → f = g := by
    intro hfunction hcomparison hmatrix
    have hf : Operator.ofKind? f.kind = some f := by
      rcases ofKind?_kind f with hf | ⟨_, rfl⟩ | ⟨_, rfl⟩ | ⟨_, _, rfl⟩
      exacts [hf, absurd rfl hfunction, absurd rfl hcomparison, absurd rfl hmatrix]
    have hg : Operator.ofKind? g.kind = some g := by
      rw [hkind] at hfunction hcomparison hmatrix
      rcases ofKind?_kind g with hg | ⟨_, rfl⟩ | ⟨_, rfl⟩ | ⟨_, _, rfl⟩
      exacts [hg, absurd rfl hfunction, absurd rfl hcomparison, absurd rfl hmatrix]
    exact Option.some.inj (hf.symm.trans (hkind ▸ hg))
  cases f with
  | function name =>
      cases g with
      | function other => exact congrArg _ (compareNames_eq_eq.mp h)
      | _ => cases hkind
  | comparison r =>
      cases g with
      | comparison s => exact congrArg _ (relation_rank_injective (Nat.compare_eq_eq.mp h))
      | _ => cases hkind
  | matrix rows columns =>
      cases g with
      | matrix rows' columns' =>
          obtain ⟨hrows, hcolumns⟩ := Ordering.then_eq_eq.mp h
          rw [Nat.compare_eq_eq.mp hrows, Nat.compare_eq_eq.mp hcolumns]
      | _ => cases hkind
  | _ => exact hne nofun nofun nofun

theorem compareLabels_self (f : Operator) : compareLabels f f = .eq := by
  cases f with
  | function name => exact compareNames_eq_eq.mpr rfl
  | comparison r => exact Nat.compare_eq_eq.mpr rfl
  | matrix rows columns =>
      exact Ordering.then_eq_eq.mpr ⟨Nat.compare_eq_eq.mpr rfl, Nat.compare_eq_eq.mpr rfl⟩
  | _ => rfl

/-! ## Equality in the order -/

theorem order_of_isPoison (h : x.kind.isPoison = true ∨ y.kind.isPoison = true) :
    order x y = compareKinds x y := by
  rw [order, if_pos (by simpa using h)]

theorem order_numbers {p q : ExtendedRat} (hx : x.number? = some p) (hy : y.number? = some q) :
    order x y = (p.compare q).then (compareKinds x y) := by
  have hpoison : ∀ {z : Expr} {r}, z.number? = some r → z.kind.isPoison = false := by
    intro z r hz
    cases z <;> first | rfl | cases hz
  rw [order]
  simp only [hpoison hx, hpoison hy, hx, hy, Bool.or_self, Bool.false_eq_true, if_false]

theorem greaterIfEqual_ne_eq (o : Ordering) : greaterIfEqual o ≠ .eq := by
  cases o <;> nofun

theorem compareExponentWithOne_ne_eq (e : Expr) : compareExponentWithOne e ≠ .eq := by
  rw [compareExponentWithOne]
  split
  · split <;> decide
  · decide

theorem orderLast_ne_eq (h : x.kind ≠ y.kind) : orderLast x y ≠ .eq := by
  have hkinds : compareKinds x y ≠ .eq := fun heq => h (compareKinds_eq_eq.mp heq)
  cases x with
  | apply f xs =>
      rw [orderLast]
      split
      · exact greaterIfEqual_ne_eq _
      · exact hkinds
  | _ =>
      rw [orderLast.eq_def]
      exact hkinds

theorem orderBase_ne_eq (h : x.kind ≠ y.kind) : orderBase x y ≠ .eq := by
  have hkinds : compareKinds x y ≠ .eq := fun heq => h (compareKinds_eq_eq.mp heq)
  rw [orderBase.eq_def]
  split
  · intro heq
    exact compareExponentWithOne_ne_eq _ (Ordering.then_eq_eq.mp heq).2
  · exact hkinds

/-- Expressions that are equal in the order are of one kind. -/
theorem kind_eq_of_order_eq (h : order x y = .eq) : x.kind = y.kind := by
  by_contra hkind
  have hkinds : compareKinds x y ≠ .eq := fun heq => hkind (compareKinds_eq_eq.mp heq)
  have hswap : ∀ {o : Ordering}, o.swap = .eq → o = .eq := fun h => by simpa using h
  rw [order] at h
  split at h
  · exact hkinds h
  · split at h
    · exact hkinds (Ordering.then_eq_eq.mp h).2
    · cases h
    · cases h
    · split at h
      · exact orderLast_ne_eq hkind h
      · split at h
        · exact orderLast_ne_eq (Ne.symm hkind) (hswap h)
        · split at h
          · exact orderBase_ne_eq hkind h
          · split at h
            · exact orderBase_ne_eq (Ne.symm hkind) (hswap h)
            · exact hkinds h

theorem eq_of_orderAll_eq (h : ∀ x ∈ xs, ∀ y ∈ ys, order x y = .eq → x = y)
    (heq : orderAll xs ys = .eq) : xs = ys := by
  induction xs generalizing ys with
  | nil =>
      cases ys with
      | nil => rfl
      | cons y ys => simp [orderAll] at heq
  | cons x xs ih =>
      cases ys with
      | nil => simp [orderAll] at heq
      | cons y ys =>
          rw [orderAll, Ordering.then_eq_eq] at heq
          have htail := ih (fun a ha b hb => h a (by simp [ha]) b (by simp [hb])) heq.2
          rw [h x (by simp) y (by simp) heq.1, htail]

theorem extendedRat_compare_eq_eq {p q : ExtendedRat} : p.compare q = .eq ↔ p = q := by
  cases p with
  | finite p =>
      cases q with
      | finite q =>
          rcases lt_trichotomy p q with h | rfl | h
          · simp [ExtendedRat.compare, h, h.ne]
          · simp [ExtendedRat.compare]
          · simp [ExtendedRat.compare, h.not_gt, h.ne']
      | _ => simp [ExtendedRat.compare]
  | _ => cases q <;> simp [ExtendedRat.compare]

theorem ordinary_apply (hf : f.kind.isPoison = false) : Ordinary (.apply f xs) :=
  ⟨rfl, hf⟩

theorem order_constants (c d : Constant) :
    order (.constant c) (.constant d) = compare c.rank d.rank := by
  have hordinary : ∀ c, Ordinary (.constant c) := fun _ => ⟨rfl, rfl⟩
  rw [order_alike (hordinary c) (hordinary d) rfl, orderAlike]

theorem order_symbols (a b : String) : order (.symbol a) (.symbol b) = compareNames a b := by
  have hordinary : ∀ a, Ordinary (.symbol a) := fun _ => ⟨rfl, rfl⟩
  rw [order_alike (hordinary a) (hordinary b) rfl, orderAlike]

theorem order_applied (hf : f.kind.isPoison = false) (hkind : f.kind = g.kind) :
    order (.apply f xs) (.apply g ys) = (compareLabels f g).then
      (if (apply f xs).isMany then orderAll xs.reverse ys.reverse else orderAll xs ys) := by
  rw [order_alike (ordinary_apply hf) (ordinary_apply (hkind ▸ hf)) hkind, orderAlike]

/-- Trees that are equal in the order are the same. -/
theorem Sortable.eq_of_order_eq (hx : Sortable x) (hy : Sortable y) (h : order x y = .eq) :
    x = y := by
  have hkind := kind_eq_of_order_eq h
  induction hx generalizing y with
  | rational q =>
      cases hy with
      | rational p =>
          rw [order_numbers rfl rfl] at h
          cases extendedRat_compare_eq_eq.mp (Ordering.then_eq_eq.mp h).1
          rfl
      | @apply g _ _ _ => cases g <;> cases hkind
      | _ => cases hkind
  | infinity negative =>
      cases hy with
      | infinity negative' =>
          rw [order_numbers rfl rfl] at h
          have hvalue := extendedRat_compare_eq_eq.mp (Ordering.then_eq_eq.mp h).1
          cases negative <;> cases negative' <;> first | rfl | cases hvalue
      | @apply g _ _ _ => cases g <;> cases hkind
      | _ => cases hkind
  | constant c =>
      cases hy with
      | constant d =>
          rw [order_constants] at h
          rw [constant_rank_injective (Nat.compare_eq_eq.mp h)]
      | @apply g _ _ _ => cases g <;> cases hkind
      | _ => cases hkind
  | symbol name =>
      cases hy with
      | symbol other =>
          rw [order_symbols] at h
          rw [compareNames_eq_eq.mp h]
      | @apply g _ _ _ => cases g <;> cases hkind
      | _ => cases hkind
  | @apply f xs node _ ih =>
      cases hy with
      | @apply g ys node' operands' =>
          replace hkind : f.kind = g.kind := hkind
          by_cases hpoison : f.kind.isPoison = true
          · have hlabels : compareLabels f g = .eq := by
              cases f <;> first | rfl | cases hpoison
            rw [node.poison hpoison, node'.poison (hkind ▸ hpoison),
              eq_of_compareLabels hkind hlabels]
          · rw [Bool.not_eq_true] at hpoison
            rw [order_applied hpoison hkind, Ordering.then_eq_eq] at h
            have hoperands : ∀ a ∈ xs, ∀ b ∈ ys, order a b = .eq → a = b := fun a ha b hb heq =>
              ih a ha (operands' b hb) heq (kind_eq_of_order_eq heq)
            rw [eq_of_compareLabels hkind h.1]
            obtain ⟨-, h⟩ := h
            split at h
            · refine congrArg _ (List.reverse_injective (eq_of_orderAll_eq ?_ h))
              intro a ha b hb
              exact hoperands a (List.mem_reverse.mp ha) b (List.mem_reverse.mp hb)
            · exact congrArg _ (eq_of_orderAll_eq hoperands h)
      | _ => cases f <;> cases hkind

theorem orderAll_self (h : ∀ x ∈ xs, order x x = .eq) : orderAll xs xs = .eq := by
  induction xs with
  | nil => rw [orderAll]
  | cons x xs ih =>
      rw [orderAll, h x (by simp), ih fun y hy => h y (by simp [hy])]
      rfl

/-- Every tree is equal to itself. -/
theorem order_self (x : Expr) : order x x = .eq := by
  have hkinds : ∀ x, compareKinds x x = .eq := fun x => compareKinds_eq_eq.mpr rfl
  have hnumber : ∀ {x p}, x.number? = some p → order x x = .eq := fun hx => by
    rw [order_numbers hx hx, extendedRat_compare_eq_eq.mpr rfl, hkinds]
    rfl
  cases x with
  | rational q => exact hnumber rfl
  | decimal d => exact hnumber rfl
  | infinity negative => exact hnumber rfl
  | constant c => exact (order_constants c c).trans (Nat.compare_eq_eq.mpr rfl)
  | symbol name => exact (order_symbols name name).trans (compareNames_eq_eq.mpr rfl)
  | apply f xs =>
      by_cases hpoison : (apply f xs).kind.isPoison = true
      · exact (order_of_isPoison (.inl hpoison)).trans (hkinds _)
      · have hoperands : ∀ y ∈ xs, order y y = .eq := fun y hy => order_self y
        rw [order_applied (Bool.not_eq_true _ ▸ hpoison) rfl, compareLabels_self, Ordering.eq_then]
        split
        · exact orderAll_self fun y hy => hoperands y (List.mem_reverse.mp hy)
        · exact orderAll_self hoperands
termination_by x.size
decreasing_by exact size_lt_of_mem hy

/-- There are no decimal literals in such a tree. -/
theorem Sortable.everywhere (hx : Sortable x) : x.Everywhere (·.kind ≠ .decimal) := by
  induction hx with
  | @apply f xs _ _ ih =>
      refine everywhere_apply.mpr ⟨fun hkind => ?_, ih⟩
      cases f <;> cases hkind
  | _ =>
      refine (everywhere_leaf rfl).mpr fun hkind => ?_
      cases hkind

/-- In simplification order, just identical trees are equal. -/
theorem Sortable.order_eq_iff_same (hx : Sortable x) (hy : Sortable y) :
    order x y = .eq ↔ x.same y = true := by
  refine ⟨fun h => ?_, fun h => ?_⟩
  · rw [hx.eq_of_order_eq hy h]
    exact same_self y
  · rw [hx.everywhere.eq_of_same h]
    exact order_self y

end Expr

end PocketAlgebra
