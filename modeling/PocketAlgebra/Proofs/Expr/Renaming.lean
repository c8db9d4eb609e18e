import PocketAlgebra.Expr.Sign
import PocketAlgebra.Expr.Substitution
import PocketAlgebra.Proofs.Expr.Everywhere
import PocketAlgebra.Proofs.Expr.Order

/-!
# Renaming symbols

A renaming replaces the name of every symbol in a tree. What can be told of a tree without looking
at names stays as it was: its kind, its numbers, its sign. Comparisons stay as they were where the
renaming keeps the order of the names that occur.
-/

namespace PocketAlgebra

namespace Expr

mutual

/-- A tree with its symbols renamed. Names of functions stay. -/
def rename (ρ : String → String) : Expr → Expr
  | symbol name => symbol (ρ name)
  | apply f xs => apply f (renameAll ρ xs)
  | x => x

/-- The same for several trees. -/
def renameAll (ρ : String → String) : List Expr → List Expr
  | [] => []
  | x :: xs => x.rename ρ :: renameAll ρ xs

end

variable {ρ : String → String} {S : String → Prop} {name : String} {f : Operator} {x y : Expr}
  {xs ys : List Expr}

theorem renameAll_eq_map (ρ : String → String) (xs : List Expr) :
    renameAll ρ xs = xs.map (rename ρ) := by
  induction xs with
  | nil => rfl
  | cons x xs ih => rw [renameAll, List.map_cons, ih]

@[simp] theorem rename_rational (ρ : String → String) (q : Rat) :
    (rational q).rename ρ = rational q := rfl

@[simp] theorem rename_decimal (ρ : String → String) (d : Decimal) :
    (decimal d).rename ρ = decimal d := rfl

@[simp] theorem rename_infinity (ρ : String → String) (negative : Bool) :
    (infinity negative).rename ρ = infinity negative := rfl

@[simp] theorem rename_constant (ρ : String → String) (c : Constant) :
    (constant c).rename ρ = constant c := rfl

@[simp] theorem rename_symbol (ρ : String → String) (name : String) :
    (symbol name).rename ρ = symbol (ρ name) := rfl

@[simp] theorem rename_apply (ρ : String → String) (f : Operator) (xs : List Expr) :
    (apply f xs).rename ρ = apply f (xs.map (rename ρ)) := by
  rw [rename, renameAll_eq_map]

@[simp] theorem rename_integer (ρ : String → String) (n : Int) :
    (integer n).rename ρ = integer n := rfl

@[simp] theorem rename_undefined (ρ : String → String) : undefined.rename ρ = undefined := rfl

@[simp] theorem rename_nonreal (ρ : String → String) : nonreal.rename ρ = nonreal := rfl

mutual

theorem rename_id : ∀ x : Expr, x.rename id = x
  | apply f xs => by rw [rename, renameAll_id xs]
  | rational _ | decimal _ | infinity _ | constant _ | symbol _ => rfl

theorem renameAll_id : ∀ xs : List Expr, renameAll id xs = xs
  | [] => rfl
  | x :: xs => by rw [renameAll, rename_id x, renameAll_id xs]

end

attribute [simp] rename_id

theorem map_rename_id (xs : List Expr) : xs.map (rename id) = xs := by
  rw [← renameAll_eq_map, renameAll_id]

/-! ## What does not depend on names -/

@[simp] theorem kind_rename (ρ : String → String) (x : Expr) : (x.rename ρ).kind = x.kind := by
  cases x <;> rfl

@[simp] theorem rational?_rename (ρ : String → String) (x : Expr) :
    (x.rename ρ).rational? = x.rational? := by
  cases x <;> rfl

@[simp] theorem integer?_rename (ρ : String → String) (x : Expr) :
    (x.rename ρ).integer? = x.integer? := by
  cases x <;> rfl

@[simp] theorem constant?_rename (ρ : String → String) (x : Expr) :
    (x.rename ρ).constant? = x.constant? := by
  cases x <;> rfl

@[simp] theorem infinity?_rename (ρ : String → String) (x : Expr) :
    (x.rename ρ).infinity? = x.infinity? := by
  cases x <;> rfl

@[simp] theorem number?_rename (ρ : String → String) (x : Expr) :
    (x.rename ρ).number? = x.number? := by
  cases x <;> rfl

@[simp] theorem isRational_rename (ρ : String → String) (x : Expr) (q : Rat) :
    (x.rename ρ).isRational q = x.isRational q := by
  rw [isRational, rational?_rename, isRational]

@[simp] theorem isMatrix_rename (ρ : String → String) (x : Expr) :
    (x.rename ρ).isMatrix = x.isMatrix := by
  rw [isMatrix, kind_rename, isMatrix]

@[simp] theorem isList_rename (ρ : String → String) (x : Expr) :
    (x.rename ρ).isList = x.isList := by
  rw [isList, kind_rename, isList]

@[simp] theorem isMany_rename (ρ : String → String) (x : Expr) :
    (x.rename ρ).isMany = x.isMany := by
  rw [isMany, kind_rename, isMany]

/-- A property that renaming keeps is found in renamed lists as often as before. -/
theorem any_map_rename {p : Expr → Bool} (hp : ∀ x, p (x.rename ρ) = p x) (xs : List Expr) :
    (xs.map (rename ρ)).any p = xs.any p := by
  rw [List.any_map]
  exact congrArg (List.any xs) (funext hp)

theorem all_map_rename {p : Expr → Bool} (hp : ∀ x, p (x.rename ρ) = p x) (xs : List Expr) :
    (xs.map (rename ρ)).all p = xs.all p := by
  rw [List.all_map]
  exact congrArg (List.all xs) (funext hp)

theorem filter_map_rename {p : Expr → Bool} (hp : ∀ x, p (x.rename ρ) = p x) (xs : List Expr) :
    (xs.map (rename ρ)).filter p = (xs.filter p).map (rename ρ) := by
  rw [List.filter_map]
  exact congrArg (fun q => (xs.filter q).map (rename ρ)) (funext hp)

mutual

theorem sign_rename (ρ : String → String) : ∀ x : Expr, (x.rename ρ).sign = x.sign
  | apply f xs => by
      rw [rename]
      have hsigns : signs (renameAll ρ xs) = signs xs := signs_renameAll ρ xs
      cases f with
      | multiplication => rw [sign, sign, hsigns]
      | division => rw [sign, sign, hsigns]
      | addition => rw [sign, sign, hsigns]
      | power =>
          match xs with
          | [] => rfl
          | [x] => rfl
          | x :: y :: xs =>
              simp only [renameAll]
              rw [sign, sign, sign_rename ρ x, sign_rename ρ y, rational?_rename]
      | opposite | parenthesis | absoluteValue | squareRoot =>
          match xs with
          | [] => rfl
          | x :: xs =>
              simp only [renameAll]
              rw [sign, sign, sign_rename ρ x]
      | _ => rfl
  | rational _ | decimal _ | infinity _ | constant _ | symbol _ => rfl

theorem signs_renameAll (ρ : String → String) : ∀ xs : List Expr,
    signs (renameAll ρ xs) = signs xs
  | [] => rfl
  | x :: xs => by rw [renameAll, signs, signs, sign_rename ρ x, signs_renameAll ρ xs]

end

attribute [simp] sign_rename

/-! ## Names that occur -/

/-- All symbols of a tree have admitted names. -/
def Named (S : String → Prop) : Expr → Prop :=
  Everywhere fun x => ∀ name ∈ x.symbol?, S name

theorem named_apply : Named S (apply f xs) ↔ ∀ x ∈ xs, Named S x := by
  rw [Named, everywhere_apply]
  constructor
  · exact And.right
  · intro h
    exact ⟨nofun, h⟩

theorem named_symbol : Named S (symbol name) ↔ S name := by
  rw [Named, everywhere_leaf rfl]
  constructor
  · intro h
    exact h name rfl
  · intro h other hother
    cases hother
    exact h

theorem named_of_symbol?_eq_none (hoperands : x.operands = []) (hsymbol : x.symbol? = none) :
    Named S x := by
  rw [Named, everywhere_leaf hoperands, hsymbol]
  nofun

theorem named_of_forall (h : ∀ name, S name) : ∀ x : Expr, Named S x
  | apply f xs => named_apply.mpr fun y _ => named_of_forall h y
  | symbol name => named_symbol.mpr (h name)
  | rational _ | decimal _ | infinity _ | constant _ => named_of_symbol?_eq_none rfl rfl

theorem Named.mono {S T : String → Prop} (h : Named S x) (hST : ∀ name, S name → T name) :
    Named T x :=
  Everywhere.mono h fun _ hy name hname => hST name (hy name hname)

theorem rename_of_named {ρ : String → String} :
    ∀ x : Expr, Named (fun name => ρ name = name) x → x.rename ρ = x
  | symbol name, hx =>
      congrArg symbol ((named_symbol (S := fun name => ρ name = name)).mp hx)
  | apply f xs, hx => by
      rw [rename_apply]
      have hxs : ∀ y ∈ xs, y.rename ρ = y := fun y hy => rename_of_named y (named_apply.mp hx y hy)
      rw [List.map_congr_left hxs, List.map_id']
  | rational _, _ | decimal _, _ | infinity _, _ | constant _, _ => rfl

/-- The renaming keeps the order of the admitted names. -/
def KeepsOrder (ρ : String → String) (S : String → Prop) : Prop :=
  ∀ a b, S a → S b → compareNames (ρ a) (ρ b) = compareNames a b

theorem KeepsOrder.injective {a b : String} (hρ : KeepsOrder ρ S) (ha : S a) (hb : S b)
    (h : ρ a = ρ b) : a = b := by
  rw [← compareNames_eq_eq, ← hρ a b ha hb]
  exact compareNames_eq_eq.mpr h

theorem keepsOrder_id (S : String → Prop) : KeepsOrder id S :=
  fun _ _ _ _ => rfl

/-! ## Comparisons -/

mutual

theorem mentions_rename (hρ : KeepsOrder ρ S) (hname : S name) : ∀ x : Expr, Named S x →
    (x.rename ρ).mentions (ρ name) = x.mentions name
  | symbol other, hx => by
      have hother : S other := named_symbol.mp hx
      rw [rename, mentions, mentions, Bool.eq_iff_iff, beq_iff_eq, beq_iff_eq]
      constructor
      · exact hρ.injective hother hname
      · exact congrArg ρ
  | apply f xs, hx => by
      rw [rename, mentions, mentions]
      exact mentionsAny_renameAll hρ hname xs (named_apply.mp hx)
  | rational _, _ | decimal _, _ | infinity _, _ | constant _, _ => rfl

theorem mentionsAny_renameAll (hρ : KeepsOrder ρ S) (hname : S name) : ∀ xs : List Expr,
    (∀ x ∈ xs, Named S x) → mentionsAny (ρ name) (renameAll ρ xs) = mentionsAny name xs
  | [], _ => rfl
  | x :: xs, h => by
      have hx := mentions_rename hρ hname x (h x List.mem_cons_self)
      have hxs := mentionsAny_renameAll hρ hname xs fun y hy => h y (List.mem_cons_of_mem x hy)
      rw [renameAll, mentionsAny, mentionsAny, hx, hxs]

end

mutual

theorem same_rename (hρ : KeepsOrder ρ S) : ∀ x y : Expr, Named S x → Named S y →
    (x.rename ρ).same (y.rename ρ) = x.same y
  | symbol a, y, hx, hy => by
      cases y with
      | symbol b =>
          rw [rename, rename, same, same, Bool.eq_iff_iff, beq_iff_eq, beq_iff_eq]
          constructor
          · exact hρ.injective (named_symbol.mp hx) (named_symbol.mp hy)
          · exact congrArg ρ
      | apply g ys => rw [rename_apply]; rfl
      | _ => rfl
  | apply f xs, y, hx, hy => by
      cases y with
      | apply g ys =>
          rw [rename, rename, same, same]
          rw [sameAll_renameAll hρ xs ys (named_apply.mp hx) (named_apply.mp hy)]
      | _ => rw [rename]; rfl
  | rational _, y, _, _ | decimal _, y, _, _ | infinity _, y, _, _ | constant _, y, _, _ => by
      cases y with
      | apply g ys => rw [rename_apply]; rfl
      | _ => rfl

theorem sameAll_renameAll (hρ : KeepsOrder ρ S) : ∀ xs ys : List Expr, (∀ x ∈ xs, Named S x) →
    (∀ y ∈ ys, Named S y) → sameAll (renameAll ρ xs) (renameAll ρ ys) = sameAll xs ys
  | [], [], _, _ | [], _ :: _, _, _ | _ :: _, [], _, _ => rfl
  | x :: xs, y :: ys, hx, hy => by
      have hhead := same_rename hρ x y (hx x List.mem_cons_self) (hy y List.mem_cons_self)
      have htail := sameAll_renameAll hρ xs ys (fun z hz => hx z (List.mem_cons_of_mem x hz))
        fun z hz => hy z (List.mem_cons_of_mem y hz)
      rw [renameAll, renameAll, sameAll, sameAll, hhead, htail]

end

theorem getLast?_map_rename (ρ : String → String) (xs : List Expr) :
    (xs.map (rename ρ)).getLast? = xs.getLast?.map (rename ρ) :=
  List.getLast?_map

theorem compareKinds_rename (ρ : String → String) (x y : Expr) :
    compareKinds (x.rename ρ) (y.rename ρ) = compareKinds x y := by
  rw [compareKinds, kind_rename, kind_rename, compareKinds]

theorem compareExponentWithOne_rename (ρ : String → String) (x : Expr) :
    compareExponentWithOne (x.rename ρ) = compareExponentWithOne x := by
  rw [compareExponentWithOne, number?_rename, compareExponentWithOne]

mutual

theorem order_rename (hρ : KeepsOrder ρ S) (x y : Expr) (hx : Named S x) (hy : Named S y) :
    (x.rename ρ).order (y.rename ρ) = x.order y := by
  rw [order, order]
  simp only [kind_rename, number?_rename, isMany_rename, compareKinds_rename]
  rw [orderAlike_rename hρ x y hx hy, orderLast_rename hρ x y hx hy, orderLast_rename hρ y x hy hx,
    orderBase_rename hρ x y hx hy, orderBase_rename hρ y x hy hx]
termination_by 3 * (x.size + y.size) + 1
decreasing_by all_goals omega

theorem orderAlike_rename (hρ : KeepsOrder ρ S) (x y : Expr) (hx : Named S x) (hy : Named S y) :
    orderAlike (x.rename ρ) (y.rename ρ) = orderAlike x y := by
  match x, y with
  | symbol a, symbol b =>
      rw [rename, rename, orderAlike, orderAlike]
      exact hρ a b (named_symbol.mp hx) (named_symbol.mp hy)
  | apply f xs, apply g ys =>
      have hxs := named_apply.mp hx
      have hys := named_apply.mp hy
      have hforward := orderAll_rename hρ xs ys hxs hys
      have hbackward := orderAll_rename hρ xs.reverse ys.reverse
        (fun z hz => hxs z (List.mem_reverse.mp hz)) fun z hz => hys z (List.mem_reverse.mp hz)
      have hmany : (apply f (xs.map (rename ρ))).isMany = (apply f xs).isMany := by
        rw [← rename_apply, isMany_rename]
      rw [rename_apply, rename_apply, orderAlike, orderAlike, hmany, ← List.map_reverse,
        ← List.map_reverse, hforward, hbackward]
  | rational _, y | decimal _, y | infinity _, y | constant _, y =>
      cases y <;> simp [rename_apply, orderAlike]
  | symbol _, rational _ | symbol _, decimal _ | symbol _, infinity _ | symbol _, constant _
  | symbol _, apply _ _ => simp [rename_apply, orderAlike]
  | apply _ _, rational _ | apply _ _, decimal _ | apply _ _, infinity _ | apply _ _, constant _
  | apply _ _, symbol _ => simp [rename_apply, orderAlike]
termination_by 3 * (x.size + y.size)
decreasing_by
  all_goals
    simp only [size, sizeAll_reverse]
    omega

theorem orderLast_rename (hρ : KeepsOrder ρ S) (x y : Expr) (hx : Named S x) (hy : Named S y) :
    orderLast (x.rename ρ) (y.rename ρ) = orderLast x y := by
  match x with
  | apply f xs =>
      rw [rename_apply, orderLast, orderLast]
      cases hlast : xs.getLast? with
      | none =>
          have hnone : (xs.map (rename ρ)).getLast? = none := by
            rw [getLast?_map_rename, hlast, Option.map_none]
          split
          · rename_i last h
            rw [hnone] at h
            cases h
          · rw [← rename_apply, compareKinds_rename]
      | some last =>
          have hsome : (xs.map (rename ρ)).getLast? = some (last.rename ρ) := by
            rw [getLast?_map_rename, hlast, Option.map_some]
          have hmem := List.mem_of_getLast? hlast
          have horder := order_rename hρ last y (named_apply.mp hx last hmem) hy
          split
          · rename_i other h
            rw [hsome] at h
            cases h
            rw [horder]
          · rename_i h
            rw [hsome] at h
            cases h
  | rational _ | decimal _ | infinity _ | constant _ =>
      simp only [rename, orderLast, compareKinds, kind_rename]
  | symbol _ =>
      simp only [rename, orderLast, compareKinds, kind_rename]
      rfl
termination_by 3 * (x.size + y.size)
decreasing_by
  have := size_lt_of_mem hmem
  simp only [size]
  omega

theorem orderBase_rename (hρ : KeepsOrder ρ S) (x y : Expr) (hx : Named S x) (hy : Named S y) :
    orderBase (x.rename ρ) (y.rename ρ) = orderBase x y := by
  match x with
  | apply f (base :: exponent :: others) =>
      have hbase := named_apply.mp hx base List.mem_cons_self
      rw [rename_apply, List.map_cons, List.map_cons, orderBase, orderBase,
        order_rename hρ base y hbase hy, compareExponentWithOne_rename]
  | apply f [] =>
      simp only [rename_apply, List.map_nil, orderBase, compareKinds, kind_rename]
  | apply f [base] =>
      simp only [rename_apply, List.map_cons, List.map_nil, orderBase, compareKinds, kind_rename]
      rfl
  | rational _ | decimal _ | infinity _ | constant _ =>
      simp only [rename, orderBase, compareKinds, kind_rename]
  | symbol _ =>
      simp only [rename, orderBase, compareKinds, kind_rename]
      rfl
termination_by 3 * (x.size + y.size)
decreasing_by
  simp only [size, sizeAll]
  omega

theorem orderAll_rename (hρ : KeepsOrder ρ S) (xs ys : List Expr) (hxs : ∀ x ∈ xs, Named S x)
    (hys : ∀ y ∈ ys, Named S y) :
    orderAll (xs.map (rename ρ)) (ys.map (rename ρ)) = orderAll xs ys := by
  match xs, ys with
  | [], [] | [], _ :: _ | _ :: _, [] => simp only [List.map_cons, List.map_nil, orderAll]
  | x :: xs, y :: ys =>
      have hhead := order_rename hρ x y (hxs x List.mem_cons_self) (hys y List.mem_cons_self)
      have htail := orderAll_rename hρ xs ys (fun z hz => hxs z (List.mem_cons_of_mem x hz))
        fun z hz => hys z (List.mem_cons_of_mem y hz)
      rw [List.map_cons, List.map_cons, orderAll, orderAll, hhead, htail]
termination_by 3 * (sizeAll xs + sizeAll ys) + 2
decreasing_by
  all_goals
    have := size_pos x
    simp only [sizeAll]
    omega

end

end Expr

end PocketAlgebra
