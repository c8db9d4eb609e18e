import PocketAlgebra.Proofs.Expansion.References
import PocketAlgebra.Proofs.Expr.Everywhere
import PocketAlgebra.Proofs.Expr.Scope

/-!
# Equality up to the names of bound variables

Two trees are alike when they differ at most in the names of bound variables. A tree is alike to
what it becomes where one name is exchanged for another one throughout, as long as the tree holds
the old name only where it is bound, and does not hold the new one.
-/

namespace PocketAlgebra

namespace Expr

/-! ## Trees that are alike -/

/-- Two names are bound at the same place, or both free and equal. The variables that are bound
around the two are given in pairs, the innermost ones first. -/
def corresponds : List (String × String) → String → String → Bool
  | [], a, b => a == b
  | (c, d) :: pairs, a, b =>
    if a = c ∨ b = d then a == c && b == d else corresponds pairs a b

/-- Two operands that name variables: two symbols, or the same expression. -/
def nameAlike (x y : Expr) : Bool :=
  (x.kind == .symbol && y.kind == .symbol) || x.same y

mutual

/-- Two trees are equal up to the names of bound variables. -/
def alike (pairs : List (String × String)) : Expr → Expr → Bool
  | symbol a, symbol b => corresponds pairs a b
  | apply f xs, apply g ys =>
    f == g && if f.kind.isParametered then
      alikeBinding pairs (boundName xs, boundName ys) xs ys
    else
      alikeAll pairs xs ys
  | x, y => x.same y
termination_by structural x => x

/-- The operands of a function that binds a variable, where the names of the two variables are
given. -/
def alikeBinding (pairs : List (String × String)) (pair : String × String) :
    List Expr → List Expr → Bool
  | [], [] => true
  | [x], [y] => alike (pair :: pairs) x y
  | x :: a :: xs, y :: b :: ys =>
    alike (pair :: pairs) x y && nameAlike a b && alikeAll pairs xs ys
  | _, _ => false
termination_by structural xs => xs

/-- Several trees, position by position. -/
def alikeAll (pairs : List (String × String)) : List Expr → List Expr → Bool
  | [], [] => true
  | x :: xs, y :: ys => alike pairs x y && alikeAll pairs xs ys
  | _, _ => false
termination_by structural xs => xs

end

/-- Equal up to the names of bound variables, where nothing is bound around the two trees. -/
def AlphaEquivalent (x y : Expr) : Prop :=
  alike [] x y = true

/-! ## Exchanging a bound name -/

/-- One name is exchanged for another one. -/
def exchange (k z name : String) : String :=
  if name = k then z else name

/-- No names but the given ones are in a tree, neither of symbols nor of functions. -/
def Holds (names : String → Prop) (x : Expr) : Prop :=
  ∀ name ∈ x.references none, names name

/-- The given names are admitted. One of them stands only where some function binds it, and is bound
there by a symbol. -/
def bindsOnly (names : String → Prop) (k : String) : NameRules where
  occurs := names
  free name := name ≠ k
  binder y := Holds names y ∧ (y = .symbol k ∨ Holds (· ≠ k) y)

/-- The symbols of a tree are among the given names, and one of these is nowhere free. -/
def BindsOnly (x : Expr) (names : String → Prop) (k : String) : Prop :=
  Scoped (bindsOnly names k) [] x

/-- The new name stands to all the others as the old one does. In particular it is none of them. -/
structure Exchangeable (names : String → Prop) (k z : String) : Prop where
  old : k ≠ ""
  new : z ≠ ""
  order : ∀ name, names name → name ≠ k → compareNames z name = compareNames k name

variable {names : String → Prop} {k z a b name : String} {B : List String} {f : Operator}
  {x y : Expr} {xs : List Expr}

@[simp] theorem exchange_self (k z : String) : exchange k z k = z :=
  if_pos rfl

theorem exchange_of_ne (h : name ≠ k) : exchange k z name = name :=
  if_neg h

namespace Exchangeable

theorem keepsOrder (h : Exchangeable names k z) : KeepsOrder (exchange k z) names := by
  intro a b ha hb
  by_cases hak : a = k
  · by_cases hbk : b = k
    · rw [hak, hbk, compareNames_eq_eq.mpr rfl, compareNames_eq_eq.mpr rfl]
    · rw [hak, exchange_self, exchange_of_ne hbk]
      exact h.order b hb hbk
  · by_cases hbk : b = k
    · rw [hbk, exchange_self, exchange_of_ne hak, ← compareNames_swap z, h.order a ha hak,
        compareNames_swap]
    · rw [exchange_of_ne hak, exchange_of_ne hbk]

theorem exchange_empty (h : Exchangeable names k z) : exchange k z "" = "" :=
  exchange_of_ne h.old.symm

/-- The new name is none of the others. -/
theorem ne_new (h : Exchangeable names k z) (hname : names name) (hk : name ≠ k) : name ≠ z := by
  rintro rfl
  have heq := h.order name hname hk
  rw [compareNames_eq_eq.mpr rfl] at heq
  exact hk (compareNames_eq_eq.mp heq.symm).symm

/-- No two names become one, also where one of them is missing. -/
theorem injective (h : Exchangeable names k z) (ha : names a) (hb : names b ∨ b = "")
    (heq : exchange k z a = exchange k z b) : a = b := by
  rcases hb with hb | rfl
  · exact h.keepsOrder.injective ha hb heq
  · rw [h.exchange_empty] at heq
    by_cases hak : a = k
    · rw [hak, exchange_self] at heq
      exact absurd heq h.new
    · rwa [exchange_of_ne hak] at heq

end Exchangeable

theorem holds_apply : Holds names (apply f xs) ↔
    (∀ name, f = .function name → names name) ∧ ∀ x ∈ xs, Holds names x := by
  simp only [Holds, mem_references_apply]
  constructor
  · intro h
    exact ⟨fun name hf => h name (.inl hf), fun x hx name hname => h name (.inr ⟨x, hx, hname⟩)⟩
  · rintro ⟨hf, hxs⟩ name (hname | ⟨x, hx, hname⟩)
    · exact hf name hname
    · exact hxs x hx name hname

theorem Holds.named : ∀ {x : Expr}, Holds names x → Named names x
  | symbol _, hx => named_symbol.mpr (hx _ (mem_references_symbol.mpr ⟨rfl, nofun⟩))
  | apply _ _, hx => named_apply.mpr fun y hy => Holds.named ((holds_apply.mp hx).2 y hy)
  | rational _, _ | decimal _, _ | infinity _, _ | constant _, _ => named_of_symbol?_eq_none rfl rfl

theorem Holds.name? (hx : Holds names x) : ∀ name ∈ x.name?, names name := by
  cases x with
  | symbol name =>
      rintro _ ⟨⟩
      exact hx name (mem_references_symbol.mpr ⟨rfl, nofun⟩)
  | apply f xs =>
      cases f with
      | function name =>
          rintro _ ⟨⟩
          exact (holds_apply.mp hx).1 name rfl
      | _ => nofun
  | _ => nofun

/-- A tree that does not hold the old name stays as it is. -/
theorem rename_exchange (hx : Named (· ≠ k) x) : x.rename (exchange k z) = x :=
  rename_of_named x (hx.mono fun _ hname => exchange_of_ne hname)

theorem renames_bindsOnly (h : Exchangeable names k z) :
    Renames (exchange k z) (bindsOnly names k) where
  keeps := h.keepsOrder
  named _ hy := hy.1.named
  occurs _ hy := hy.1.name?
  name? := by
    rintro y ⟨-, rfl | hother⟩
    · simp [Expr.name?]
    · rw [rename_exchange hother.named]
      cases hy : y.name? with
      | none => rfl
      | some other => rw [Option.map_some, exchange_of_ne (hother.name? other hy)]

/-- Under the new names a function binds the new name of the variable that it bound. -/
theorem boundName_rename (h : Exchangeable names k z)
    (hbinder : ∀ y ∈ xs[1]?, (bindsOnly names k).binder y) :
    boundName (xs.map (rename (exchange k z))) = exchange k z (boundName xs) := by
  rw [boundName, boundName, List.getElem?_map]
  cases hsecond : xs[1]? with
  | none => exact h.exchange_empty.symm
  | some y =>
      have hname := (renames_bindsOnly h).name? y (hbinder y hsecond)
      rw [Option.map_some, Option.bind_some, Option.bind_some, hname]
      cases y.name? with
      | none => exact h.exchange_empty.symm
      | some name => rfl

theorem names_boundName (hbinder : ∀ y ∈ xs[1]?, (bindsOnly names k).binder y) :
    names (boundName xs) ∨ boundName xs = "" := by
  rw [boundName]
  cases hsecond : xs[1]? with
  | none => exact .inr rfl
  | some y =>
      have hnames := (hbinder y hsecond).1.name?
      rw [Option.bind_some]
      cases hname : y.name? with
      | none => exact .inr rfl
      | some name => exact .inl (hnames name hname)

/-! ## A renamed tree is alike -/

theorem corresponds_rename (h : Exchangeable names k z) (hname : names name)
    (hfree : name ∉ B → name ≠ k) (hB : ∀ b ∈ B, names b ∨ b = "") :
    corresponds (B.map fun b => (b, exchange k z b)) name (exchange k z name) = true := by
  induction B with
  | nil =>
      rw [List.map_nil, corresponds, exchange_of_ne (hfree List.not_mem_nil), beq_self_eq_true]
  | cons b B ih =>
      rcases List.forall_mem_cons.mp hB with ⟨hb, hB⟩
      rw [List.map_cons, corresponds]
      by_cases heq : name = b
      · simp [heq]
      · have hne : exchange k z name ≠ exchange k z b := fun h' => heq (h.injective hname hb h')
        rw [if_neg (by simp [heq, hne])]
        refine ih (fun hmem => hfree ?_) hB
        simp [heq, hmem]

theorem alikeAll_map {pairs : List (String × String)} {g : Expr → Expr}
    (h : ∀ x ∈ xs, alike pairs x (g x) = true) : alikeAll pairs xs (xs.map g) = true := by
  induction xs with
  | nil => rfl
  | cons x xs ih =>
      rcases List.forall_mem_cons.mp h with ⟨hx, hxs⟩
      rw [List.map_cons, alikeAll, hx, ih hxs, Bool.and_self]

theorem nameAlike_rename (hy : (bindsOnly names k).binder y) :
    nameAlike y (y.rename (exchange k z)) = true := by
  rw [nameAlike]
  rcases hy with ⟨-, rfl | hother⟩
  · rfl
  · rw [rename_exchange hother.named, same_self, Bool.or_true]

theorem alikeBinding_map {pairs : List (String × String)} {pair : String × String}
    {g : Expr → Expr} (hbody : ∀ x ∈ xs.head?, alike (pair :: pairs) x (g x) = true)
    (hsecond : ∀ y ∈ xs[1]?, nameAlike y (g y) = true)
    (hrest : ∀ x ∈ xs.drop 2, alike pairs x (g x) = true) :
    alikeBinding pairs pair xs (xs.map g) = true := by
  match xs with
  | [] => rfl
  | [x] => exact hbody x rfl
  | x :: y :: xs =>
      have hothers : alikeAll pairs xs (xs.map g) = true := alikeAll_map hrest
      rw [List.map_cons, List.map_cons, alikeBinding, hbody x rfl, hsecond y rfl, hothers]
      rfl

/-- What a tree becomes under a new name for a variable is the same tree up to the names of bound
variables. -/
theorem Scoped.alike_rename (h : Exchangeable names k z) (hx : Scoped (bindsOnly names k) B x) :
    (∀ b ∈ B, names b ∨ b = "") →
      alike (B.map fun b => (b, exchange k z b)) x (x.rename (exchange k z)) = true := by
  induction hx with
  | @literal B x hx =>
      intro _
      rw [rename_literal _ hx]
      cases x with
      | symbol | apply => cases hx
      | _ => exact same_self _
  | symbol hname hfree => exact corresponds_rename h hname hfree
  | @ordinary B f xs hf _ ih =>
      intro hB
      rw [rename_apply, alike, if_neg (by simp [isParametered_of_ordinary hf]),
        alikeAll_map fun x hx => ih x hx hB]
      simp
  | call _ _ ih =>
      intro hB
      rw [rename_apply, alike, if_neg nofun, alikeAll_map fun x hx => ih x hx hB]
      simp
  | binding hf hbinder _ _ ihbody ihrest =>
      intro hB
      have hbody := fun x hx => ihbody x hx
        (List.forall_mem_cons.mpr ⟨names_boundName hbinder, hB⟩)
      rw [rename_apply, alike, if_pos hf, boundName_rename h hbinder,
        alikeBinding_map hbody (fun y hy => nameAlike_rename (hbinder y hy))
          fun x hx => ihrest x hx hB]
      simp

/-! ## Definitions that leave a name alone -/

/-- The given names are admitted in a definition. One of them stands there at most for the
parameter, and nothing binds it. -/
def spares (names : String → Prop) (k : String) (parameter : Option String) : NameRules where
  occurs name := names name ∧ (name = k → parameter = some k)
  binder y := Holds (fun name => names name ∧ name ≠ k) y

variable {parameter : Option String} {value : Expr}

theorem scoped_of_spares (hx : Scoped (spares names k parameter) B x) :
    ∀ {C : List String}, (∀ p ∈ parameter, p ∈ C) → Scoped (bindsOnly names k) C x := by
  induction hx with
  | literal hx => exact fun _ => .literal hx
  | symbol hname _ =>
      intro C hC
      refine .symbol hname.1 fun hfree => ?_
      rintro rfl
      exact hfree (hC _ (hname.2 rfl))
  | ordinary hf _ ih => exact fun hC => .ordinary hf fun x hx => ih x hx hC
  | call _ _ ih => exact fun hC => .call trivial fun x hx => ih x hx hC
  | binding hf hbinder _ _ ihbody ihrest =>
      intro C hC
      refine .binding hf (fun y hy => ?_) (fun x hx => ihbody x hx ?_) fun x hx => ihrest x hx hC
      · have hnames := hbinder y hy
        exact ⟨fun name h => (hnames name h).1, .inr fun name h => (hnames name h).2⟩
      · exact fun p hp => List.mem_cons_of_mem _ (hC p hp)

theorem named_of_spares (hk : parameter ≠ some k) (hx : Scoped (spares names k parameter) B x) :
    Named (· ≠ k) x := by
  refine (hx.named_of_binder fun y hy => ?_).mono fun name hname heq => hk (hname.2 heq)
  exact (Holds.named hy).mono fun name hname => ⟨hname.1, fun heq => absurd heq hname.2⟩

/-- A definition is expanded to the same body around the new name, whatever its argument is. -/
theorem rename_expansion {p : String} (hx : Scoped (spares names k (some p)) B x) :
    (substitute p value x).rename (exchange k z) =
      substitute p (value.rename (exchange k z)) x := by
  induction hx with
  | literal hx => rw [substitute_literal hx, substitute_literal hx, rename_literal _ hx]
  | @symbol B name hname _ =>
      rw [substitute, substitute]
      by_cases hp : name = p
      · rw [if_pos hp, if_pos hp]
      · have hne : name ≠ k := fun heq => hp (heq.trans (Option.some.inj (hname.2 heq)).symm)
        rw [if_neg hp, if_neg hp, rename_symbol, exchange_of_ne hne]
  | ordinary hf _ ih =>
      have hplain := isParametered_of_ordinary hf
      rw [substitute_apply hplain, substitute_apply hplain, rename_apply, List.map_map]
      exact congrArg (apply _) (List.map_congr_left ih)
  | call _ _ ih =>
      rw [substitute_apply rfl, substitute_apply rfl, rename_apply, List.map_map]
      exact congrArg (apply _) (List.map_congr_left ih)
  | @binding B f xs hf hbinder hbody _ ihbody ihrest =>
      cases xs with
      | nil => rfl
      | cons body others =>
          have hrest : ((others.drop 1).map (substitute p value)).map (rename (exchange k z)) =
              (others.drop 1).map (substitute p (value.rename (exchange k z))) := by
            rw [List.map_map]
            exact List.map_congr_left ihrest
          have hsecond : (others.take 1).map (rename (exchange k z)) = others.take 1 := by
            cases others with
            | nil => rfl
            | cons y others =>
                have hnames := (Holds.named (hbinder y rfl)).mono fun _ hname => hname.2
                rw [List.take_succ_cons, List.take_zero, List.map_singleton,
                  rename_exchange hnames]
          rw [substitute_binding hf, substitute_binding hf, rename_apply, List.map_cons,
            List.map_append, hrest, hsecond]
          by_cases hbinds : binds p f (body :: others) = true
          · -- The function binds the parameter, and so not the name that is exchanged.
            have hp : some p ≠ some k := by
              rintro ⟨⟩
              rw [binds, Bool.and_eq_true, beq_iff_eq] at hbinds
              rcases Option.bind_eq_some_iff.mp hbinds.2 with ⟨y, hy, hname⟩
              exact (Holds.name? (hbinder y hy) _ hname).2 rfl
            rw [if_pos hbinds, if_pos hbinds, rename_exchange (named_of_spares hp (hbody body rfl))]
          · rw [if_neg hbinds, if_neg hbinds, ihbody body rfl]

end Expr

/-- A definition holds no names but the given ones. One of them stands there at most for the
parameter, and nothing binds it. -/
def Definition.Spares (d : Definition) (names : String → Prop) (k : String) : Prop :=
  Expr.Scoped (Expr.spares names k d.parameter?) [] d.body

end PocketAlgebra
