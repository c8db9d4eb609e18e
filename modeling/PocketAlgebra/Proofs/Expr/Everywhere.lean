import PocketAlgebra.Expr.Order

/-!
# What holds of every node of a tree
-/

namespace PocketAlgebra

namespace Expr

/-- Something holds of every node of a tree. -/
inductive Everywhere (P : Expr → Prop) : Expr → Prop where
  | node {x : Expr} (here : P x) (below : ∀ y ∈ x.operands, Everywhere P y) : Everywhere P x

section

variable {P Q : Expr → Prop} {f : Operator} {x y : Expr} {xs : List Expr}

theorem Everywhere.here (h : x.Everywhere P) : P x := by
  cases h with
  | node here _ => exact here

theorem Everywhere.operand (h : x.Everywhere P) (hy : y ∈ x.operands) : y.Everywhere P := by
  cases h with
  | node _ below => exact below y hy

theorem everywhere_apply :
    Everywhere P (.apply f xs) ↔ P (.apply f xs) ∧ ∀ x ∈ xs, Everywhere P x :=
  ⟨fun ⟨here, below⟩ => ⟨here, below⟩, fun h => .node h.1 h.2⟩

theorem everywhere_leaf (h : x.operands = []) : Everywhere P x ↔ P x := by
  refine ⟨Everywhere.here, fun here => .node here ?_⟩
  rw [h]
  nofun

theorem Everywhere.mono (h : Everywhere P x) (hpq : ∀ y, P y → Q y) : Everywhere Q x := by
  induction h with
  | node here _ ih => exact .node (hpq _ here) ih

theorem Everywhere.and (h : Everywhere P x) (h' : Everywhere Q x) :
    Everywhere (fun y => P y ∧ Q y) x := by
  induction h with
  | node here _ ih => exact .node ⟨here, h'.here⟩ fun y hy => ih y hy (h'.operand hy)

end

/-! ## Trees whose nodes are checked -/

mutual

/-- Whether a check passes at every node of a tree. -/
def passesEverywhere (check : Expr → Bool) : Expr → Bool
  | apply f xs => check (apply f xs) && passEverywhere check xs
  | x => check x

/-- The same for several trees. -/
def passEverywhere (check : Expr → Bool) : List Expr → Bool
  | [] => true
  | x :: xs => passesEverywhere check x && passEverywhere check xs

end

theorem passEverywhere_iff {check : Expr → Bool} {xs : List Expr} :
    passEverywhere check xs = true ↔ ∀ x ∈ xs, passesEverywhere check x = true := by
  induction xs with
  | nil => simp [passEverywhere]
  | cons x xs ih => simp [passEverywhere, ih]

theorem passesEverywhere_iff {check : Expr → Bool} :
    ∀ x, passesEverywhere check x = true ↔ x.Everywhere (check · = true)
  | .apply f xs => by
      rw [passesEverywhere, Bool.and_eq_true, passEverywhere_iff, everywhere_apply]
      refine and_congr_right fun _ => forall_congr' fun y => forall_congr' fun hy => ?_
      exact passesEverywhere_iff y
  | .rational _ => by rw [passesEverywhere, everywhere_leaf rfl]; exact nofun
  | .decimal _ => by rw [passesEverywhere, everywhere_leaf rfl]; exact nofun
  | .infinity _ => by rw [passesEverywhere, everywhere_leaf rfl]; exact nofun
  | .constant _ => by rw [passesEverywhere, everywhere_leaf rfl]; exact nofun
  | .symbol _ => by rw [passesEverywhere, everywhere_leaf rfl]; exact nofun
termination_by x => x.size
decreasing_by exact size_lt_of_mem hy

instance (P : Expr → Prop) [DecidablePred P] (x : Expr) : Decidable (x.Everywhere P) :=
  decidable_of_iff (passesEverywhere (fun y => decide (P y)) x = true) <|
    (passesEverywhere_iff x).trans
      ⟨fun h => h.mono fun _ => of_decide_eq_true, fun h => h.mono fun _ => decide_eq_true⟩

/-!
## Identical trees

Every tree is identical to itself. Decimal literals may be identical and written with different
numbers of zeros; but for them, identical trees are equal.
-/

mutual

theorem same_self : ∀ x : Expr, x.same x = true
  | .rational q => beq_self_eq_true q
  | .decimal d => by
      rw [same, Decimal.same]
      split <;> simp
  | .infinity negative => beq_self_eq_true negative
  | .constant c => beq_self_eq_true c
  | .symbol name => beq_self_eq_true name
  | .apply f xs => by
      rw [same, sameAll_self xs, beq_self_eq_true]
      rfl

theorem sameAll_self : ∀ xs : List Expr, sameAll xs xs = true
  | [] => rfl
  | x :: xs => by
      rw [sameAll, same_self x, sameAll_self xs]
      rfl

end

theorem eq_of_sameAll {xs ys : List Expr} (h : ∀ x ∈ xs, ∀ y, x.same y = true → x = y)
    (hsame : sameAll xs ys = true) : xs = ys := by
  induction xs generalizing ys with
  | nil =>
      cases ys with
      | nil => rfl
      | cons y ys => cases hsame
  | cons x xs ih =>
      cases ys with
      | nil => cases hsame
      | cons y ys =>
          rw [sameAll, Bool.and_eq_true] at hsame
          have hhead := h x List.mem_cons_self y hsame.1
          have htail := ih (fun z hz => h z (List.mem_cons_of_mem x hz)) hsame.2
          rw [hhead, htail]

theorem apply_eq_of_same {f : Operator} {xs : List Expr} {y : Expr}
    (h : ∀ x ∈ xs, ∀ y, x.same y = true → x = y)
    (hsame : (Expr.apply f xs).same y = true) : Expr.apply f xs = y := by
  cases y with
  | apply g ys =>
      rw [same, Bool.and_eq_true, beq_iff_eq] at hsame
      rw [hsame.1, eq_of_sameAll h hsame.2]
  | _ => cases hsame

/-- A tree without decimal literals is identical to itself alone. -/
theorem Everywhere.eq_of_same {x y : Expr} (hx : x.Everywhere (·.kind ≠ .decimal))
    (h : x.same y = true) : x = y := by
  induction hx generalizing y with
  | @node x here _ ih =>
      cases x with
      | rational q =>
          cases y with
          | rational p => rw [eq_of_beq h]
          | _ => cases h
      | decimal d => exact absurd rfl here
      | infinity negative =>
          cases y with
          | infinity negative' => rw [eq_of_beq h]
          | _ => cases h
      | constant c =>
          cases y with
          | constant d => rw [eq_of_beq h]
          | _ => cases h
      | symbol name =>
          cases y with
          | symbol other => rw [eq_of_beq h]
          | _ => cases h
      | apply f xs => exact apply_eq_of_same (fun z hz y => ih z hz) h

/-- A computation that is found to give an identical tree gives the tree itself. -/
theorem Everywhere.eq_ok {ε : Type} {e : Except ε Expr} {x : Expr}
    (hx : x.Everywhere (·.kind ≠ .decimal)) (h : e.toOption.map x.same = some true) :
    e = .ok x := by
  cases e with
  | error failure => cases h
  | ok y => rw [hx.eq_of_same (Option.some.inj h)]

end Expr

end PocketAlgebra
