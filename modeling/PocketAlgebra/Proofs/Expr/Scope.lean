import PocketAlgebra.Expr.Substitution
import PocketAlgebra.Proofs.Expr.Renaming

/-!
# Names in their scopes

The functions that bind a variable bind it in their first operand; the second operand names it, and
belongs to no scope. `Expr.Scoped` says of a tree that the names in it are admitted where they
stand: symbols wherever they occur, symbols that nothing binds, functions that are called, and the
operands that name variables.
-/

namespace PocketAlgebra

/-- The operators that neither call a function of the user nor bind a variable. -/
def Operator.isOrdinary : Operator → Bool
  | .function _ => false
  | f => !f.kind.isParametered

namespace Expr

/-- Which names are admitted in a tree. -/
structure NameRules where
  /-- Symbols, bound or not. -/
  occurs : String → Prop := fun _ => True
  /-- Symbols that no function around them binds. -/
  free : String → Prop := fun _ => True
  /-- Functions of the user that are called. -/
  called : String → Prop := fun _ => True
  /-- Operands that name a variable. -/
  binder : Expr → Prop := fun _ => True

/-- Trees without names and without operands. -/
def isLiteral : Expr → Bool
  | rational _ | decimal _ | infinity _ | constant _ => true
  | symbol _ | apply _ _ => false

/-- The variable that a function with these operands binds. -/
def boundName (xs : List Expr) : String :=
  (xs[1]?.bind name?).getD ""

/-- The names in a tree are admitted, where the given variables are bound around it. -/
inductive Scoped (A : NameRules) : List String → Expr → Prop
  | literal {B x} : x.isLiteral = true → Scoped A B x
  | symbol {B name} : A.occurs name → (name ∉ B → A.free name) → Scoped A B (symbol name)
  | ordinary {B f xs} : f.isOrdinary = true → (∀ x ∈ xs, Scoped A B x) → Scoped A B (apply f xs)
  | call {B name xs} : A.called name → (∀ x ∈ xs, Scoped A B x) →
      Scoped A B (apply (.function name) xs)
  | binding {B f xs} : f.kind.isParametered = true → (∀ y ∈ xs[1]?, A.binder y) →
      (∀ x ∈ xs.head?, Scoped A (boundName xs :: B) x) → (∀ x ∈ xs.drop 2, Scoped A B x) →
      Scoped A B (apply f xs)

variable {A : NameRules} {B C : List String} {name : String} {f : Operator} {x y value : Expr}
  {xs ys : List Expr}

/-! ## Reading a node back -/

theorem isParametered_of_ordinary (hf : f.isOrdinary = true) : f.kind.isParametered = false := by
  cases f <;> first | rfl | cases hf

theorem scoped_symbol : Scoped A B (.symbol name) ↔ A.occurs name ∧ (name ∉ B → A.free name) := by
  constructor
  · intro h
    cases h with
    | literal h => cases h
    | symbol hoccurs hfree => exact ⟨hoccurs, hfree⟩
  · intro h
    exact .symbol h.1 h.2

theorem scoped_ordinary (hf : f.isOrdinary = true) :
    Scoped A B (.apply f xs) ↔ ∀ x ∈ xs, Scoped A B x := by
  constructor
  · intro h
    cases h with
    | literal h => cases h
    | ordinary _ hxs => exact hxs
    | call => cases hf
    | binding hbinds =>
        rw [isParametered_of_ordinary hf] at hbinds
        cases hbinds
  · exact .ordinary hf

theorem scoped_call : Scoped A B (.apply (.function name) xs) ↔
    A.called name ∧ ∀ x ∈ xs, Scoped A B x := by
  constructor
  · intro h
    cases h with
    | literal h => cases h
    | ordinary hf => cases hf
    | call hcalled hxs => exact ⟨hcalled, hxs⟩
    | binding hbinds => cases hbinds
  · intro h
    exact .call h.1 h.2

theorem scoped_binding (hf : f.kind.isParametered = true) :
    Scoped A B (.apply f xs) ↔ (∀ y ∈ xs[1]?, A.binder y) ∧
      (∀ x ∈ xs.head?, Scoped A (boundName xs :: B) x) ∧ ∀ x ∈ xs.drop 2, Scoped A B x := by
  constructor
  · intro h
    cases h with
    | literal h => cases h
    | ordinary hordinary =>
        rw [isParametered_of_ordinary hordinary] at hf
        cases hf
    | call => cases hf
    | binding _ hbinder hbody hrest => exact ⟨hbinder, hbody, hrest⟩
  · intro h
    exact .binding hf h.1 h.2.1 h.2.2

/-- Where no variable is bound, the operands stand in the scope of the whole. -/
theorem Scoped.operand (h : Scoped A B (.apply f xs)) (hf : f.kind.isParametered = false) :
    ∀ x ∈ xs, Scoped A B x := by
  cases h with
  | literal h => cases h
  | ordinary _ hxs | call _ hxs => exact hxs
  | binding hbinds =>
      rw [hf] at hbinds
      cases hbinds

/-- Other variables may be bound around a tree, as long as no symbol needs those that are not. -/
theorem Scoped.rescope (h : Scoped A B x) :
    ∀ {C : List String}, (∀ name ∈ B, A.free name ∨ name ∈ C) → Scoped A C x := by
  induction h with
  | literal h => exact fun _ => .literal h
  | @symbol B name hoccurs hfree =>
      intro C hBC
      refine .symbol hoccurs fun hC => ?_
      by_cases hB : name ∈ B
      · exact (hBC name hB).resolve_right hC
      · exact hfree hB
  | ordinary hf _ ih => exact fun hBC => .ordinary hf fun x hx => ih x hx hBC
  | call hcalled _ ih => exact fun hBC => .call hcalled fun x hx => ih x hx hBC
  | binding hf hbinder _ _ ihbody ihrest =>
      intro C hBC
      refine .binding hf hbinder (fun x hx => ihbody x hx ?_) fun x hx => ihrest x hx hBC
      intro name hname
      rcases List.mem_cons.mp hname with rfl | hname
      · exact .inr List.mem_cons_self
      · exact (hBC name hname).imp_right (List.mem_cons_of_mem _)

/-- More variables may be bound around a tree. -/
theorem Scoped.mono (h : Scoped A B x) {C : List String} (hBC : B ⊆ C) : Scoped A C x :=
  h.rescope fun _ hname => .inr (hBC hname)

/-- Without rules every tree is as it should be. -/
theorem scoped_default (x : Expr) : ∀ B, Scoped {} B x := by
  intro B
  match x with
  | .symbol name => exact .symbol trivial fun _ => trivial
  | .apply f xs =>
      by_cases hbinds : f.kind.isParametered = true
      · refine .binding hbinds (fun _ _ => trivial) (fun y hy => ?_) fun y hy => ?_
        · have hmem := List.mem_of_mem_head? hy
          exact scoped_default y _
        · have hmem := List.mem_of_mem_drop hy
          exact scoped_default y B
      · have hxs : ∀ y ∈ xs, Scoped {} B y := fun y hmem => scoped_default y B
        cases f with
        | function name => exact .call trivial hxs
        | derivative | integral | sum | product => exact absurd rfl hbinds
        | _ => exact .ordinary rfl hxs
  | .rational _ | .decimal _ | .infinity _ | .constant _ => exact .literal rfl
termination_by x.size
decreasing_by all_goals exact size_lt_of_mem hmem

/-- The rules for names may be relaxed. -/
theorem Scoped.weaken {A' : NameRules} (h : Scoped A B x)
    (hoccurs : ∀ name, A.occurs name → A'.occurs name) (hfree : ∀ name, A.free name → A'.free name)
    (hcalled : ∀ name, A.called name → A'.called name)
    (hbinder : ∀ y, A.binder y → A'.binder y) : Scoped A' B x := by
  induction h with
  | literal h => exact .literal h
  | symbol hname hfreeName => exact .symbol (hoccurs _ hname) fun hB => hfree _ (hfreeName hB)
  | ordinary hf _ ih => exact .ordinary hf ih
  | call hname _ ih => exact .call (hcalled _ hname) ih
  | binding hf hvariable _ _ ihbody ihrest =>
      exact .binding hf (fun y hy => hbinder y (hvariable y hy)) ihbody ihrest

/-! ## Substitution -/

theorem substituteAll_eq_map (name : String) (value : Expr) (xs : List Expr) :
    substituteAll name value [] xs = xs.map (substitute name value) := by
  induction xs with
  | nil => rw [substituteAll, List.map_nil]
  | cons x xs ih => rw [substituteAll, List.tail_nil, ih, List.map_cons]; rfl

/-- Substitution in the operands of a function that binds no variable. -/
theorem substitute_apply (hf : f.kind.isParametered = false) :
    substitute name value (.apply f xs) = .apply f (xs.map (substitute name value)) := by
  rw [substitute, sheltered, if_neg (by simp [hf]), substituteAll_eq_map]

/-- Substitution in the operands of a function that binds a variable. -/
theorem substitute_binding (hf : f.kind.isParametered = true) (body : Expr) (others : List Expr) :
    substitute name value (.apply f (body :: others)) =
      .apply f ((if binds name f (body :: others) then body else substitute name value body) ::
        (others.take 1 ++ (others.drop 1).map (substitute name value))) := by
  rw [substitute, sheltered, if_pos hf, substituteAll]
  cases others with
  | nil => simp [substituteAll]
  | cons second rest => simp [substituteAll, substituteAll_eq_map]

theorem substitute_literal (hx : x.isLiteral = true) : substitute name value x = x := by
  cases x <;> first | rfl | cases hx

theorem boundName_eq_of_binds (h : binds name f xs = true) : boundName xs = name := by
  rw [binds, Bool.and_eq_true, beq_iff_eq] at h
  rw [boundName, h.2, Option.getD_some]

/-- A tree that is put in the place of a variable takes the variable out of the scope, however deep
in other scopes this is. -/
theorem Scoped.substitute_of_eq {D : List String} (hvalue : Scoped A B value)
    (hx : Scoped A D x) : ∀ C, D = C ++ name :: B →
    Scoped A (C ++ B) (Expr.substitute name value x) := by
  induction hx with
  | literal h =>
      intro C _
      rw [substitute_literal h]
      exact .literal h
  | @symbol D other hoccurs hfree =>
      rintro C rfl
      rw [Expr.substitute]
      split
      · exact hvalue.mono (List.subset_append_right C B)
      · rename_i hother
        refine .symbol hoccurs fun hnot => hfree fun hmem => hnot ?_
        simp only [List.mem_append, List.mem_cons, hother, false_or] at hmem ⊢
        exact hmem
  | ordinary hf _ ih =>
      intro C hD
      rw [substitute_apply (isParametered_of_ordinary hf)]
      refine .ordinary hf fun z hz => ?_
      rcases List.mem_map.mp hz with ⟨y, hy, rfl⟩
      exact ih y hy C hD
  | call hcalled _ ih =>
      intro C hD
      rw [substitute_apply rfl]
      refine .call hcalled fun z hz => ?_
      rcases List.mem_map.mp hz with ⟨y, hy, rfl⟩
      exact ih y hy C hD
  | @binding D f xs hf hbinder hbody _ ihbody ihrest =>
      rintro C rfl
      cases xs with
      | nil => exact .binding hf nofun nofun nofun
      | cons body others =>
          rw [substitute_binding hf]
          refine .binding hf ?_ ?_ ?_
          · cases others with
            | nil => nofun
            | cons second others => exact hbinder
          · rintro _ ⟨⟩
            -- The operand that names the variable is left alone, so that the scope stays.
            have hscope : boundName ((if binds name f (body :: others) then body else
                Expr.substitute name value body) :: (others.take 1 ++ (others.drop 1).map
                  (Expr.substitute name value))) = boundName (body :: others) := by
              cases others <;> rfl
            rw [hscope]
            split
            · rename_i hbinds
              have hinner := hbody body rfl
              rw [boundName_eq_of_binds hbinds] at hinner ⊢
              refine hinner.mono fun other hother => ?_
              simp only [List.mem_cons, List.mem_append] at hother ⊢
              tauto
            · exact ihbody body rfl (boundName (body :: others) :: C) rfl
          · intro z hz
            have hz : z ∈ (others.drop 1).map (Expr.substitute name value) := by
              cases others with
              | nil => exact hz
              | cons second others => exact hz
            rcases List.mem_map.mp hz with ⟨y, hy, rfl⟩
            exact ihrest y hy C rfl

theorem Scoped.substitute (hvalue : Scoped A B value) (hx : Scoped A (name :: B) x) :
    Scoped A B (Expr.substitute name value x) :=
  hvalue.substitute_of_eq hx [] rfl

/-! ## Renaming -/

/-- A renaming keeps the order of the names that occur, and gives variables the new names of the
symbols that they bind. -/
structure Renames (ρ : String → String) (A : NameRules) : Prop where
  keeps : KeepsOrder ρ A.occurs
  named : ∀ y, A.binder y → Named A.occurs y
  occurs : ∀ y, A.binder y → ∀ name ∈ y.name?, A.occurs name
  name? : ∀ y, A.binder y → (y.rename ρ).name? = y.name?.map ρ

/-- Where every symbol is admitted, names may stay as they are. -/
theorem renames_id (hoccurs : ∀ name, A.occurs name) : Renames id A where
  keeps := keepsOrder_id _
  named y _ := named_of_forall hoccurs y
  occurs _ _ name _ := hoccurs name
  name? y _ := by rw [rename_id, Option.map_id, id]

theorem named_literal {S : String → Prop} (hx : x.isLiteral = true) : Named S x := by
  cases x with
  | symbol | apply => cases hx
  | _ => exact named_of_symbol?_eq_none rfl rfl

theorem rename_literal (ρ : String → String) (hx : x.isLiteral = true) : x.rename ρ = x := by
  cases x <;> first | rfl | cases hx

theorem forall_mem_of_parts {P : Expr → Prop} (hhead : ∀ x ∈ xs.head?, P x)
    (hsecond : ∀ x ∈ xs[1]?, P x) (hrest : ∀ x ∈ xs.drop 2, P x) : ∀ x ∈ xs, P x := by
  match xs with
  | [] => exact nofun
  | [x] => exact List.forall_mem_singleton.mpr (hhead x rfl)
  | x :: y :: xs =>
      exact List.forall_mem_cons.mpr ⟨hhead x rfl, List.forall_mem_cons.mpr ⟨hsecond y rfl, hrest⟩⟩

theorem Scoped.named_of_binder (hbinder : ∀ y, A.binder y → Named A.occurs y)
    (h : Scoped A B x) : Named A.occurs x := by
  induction h with
  | literal h => exact named_literal h
  | symbol hoccurs _ => exact named_symbol.mpr hoccurs
  | ordinary _ _ ih => exact named_apply.mpr ih
  | call _ _ ih => exact named_apply.mpr ih
  | binding _ hvariable _ _ ihbody ihrest =>
      exact named_apply.mpr (forall_mem_of_parts ihbody
        (fun y hy => hbinder y (hvariable y hy)) ihrest)

theorem Scoped.named {ρ : String → String} (hρ : Renames ρ A) (h : Scoped A B x) :
    Named A.occurs x :=
  h.named_of_binder hρ.named

/-- The variable of a function under other names. -/
theorem Renames.binds {ρ : String → String} {target : String} (hρ : Renames ρ A)
    (hname : ∀ other, A.occurs other → (ρ other = target ↔ other = name))
    (hbinder : ∀ y ∈ xs[1]?, A.binder y) :
    Expr.binds target f (xs.map (rename ρ)) = Expr.binds name f xs := by
  rw [Expr.binds, Expr.binds, List.getElem?_map]
  cases hsecond : xs[1]? with
  | none => rfl
  | some y =>
      have hy := hbinder y hsecond
      have hrenamed := hρ.name? y hy
      simp only [Option.map_some, Option.bind_some, hrenamed]
      cases hyname : y.name? with
      | none => rfl
      | some other =>
          have hiff := hname other (hρ.occurs y hy other hyname)
          rw [Option.map_some, Bool.eq_iff_iff]
          simp [hiff]

/-- Substitution under other names, where the name of the variable becomes the target. -/
theorem Scoped.rename_substitute {ρ : String → String} {target : String} (hρ : Renames ρ A)
    (hname : ∀ other, A.occurs other → (ρ other = target ↔ other = name)) (h : Scoped A B x) :
    (Expr.substitute name value x).rename ρ =
      Expr.substitute target (value.rename ρ) (x.rename ρ) := by
  induction h with
  | literal h =>
      rw [substitute_literal h, rename_literal ρ h, substitute_literal h]
  | @symbol D other hoccurs _ =>
      have hiff := hname other hoccurs
      rw [Expr.substitute, rename_symbol, Expr.substitute]
      by_cases heq : other = name
      · rw [if_pos heq, if_pos (hiff.mpr heq)]
      · rw [if_neg heq, if_neg fun h => heq (hiff.mp h), rename_symbol]
  | ordinary hf _ ih =>
      have hplain := isParametered_of_ordinary hf
      rw [substitute_apply hplain, rename_apply, rename_apply, substitute_apply hplain,
        List.map_map, List.map_map]
      exact congrArg (apply _) (List.map_congr_left ih)
  | call _ _ ih =>
      rw [substitute_apply rfl, rename_apply, rename_apply, substitute_apply rfl,
        List.map_map, List.map_map]
      exact congrArg (apply _) (List.map_congr_left ih)
  | @binding D f xs hf hbinder _ _ ihbody ihrest =>
      cases xs with
      | nil =>
          rw [Expr.substitute, rename_apply, rename_apply, Expr.substitute]
          simp [substituteAll]
      | cons body others =>
          have hbinds := hρ.binds (f := f) hname hbinder
          have hbody := ihbody body rfl
          have hrest : ((others.drop 1).map (Expr.substitute name value)).map (rename ρ) =
              ((others.drop 1).map (rename ρ)).map
                (Expr.substitute target (value.rename ρ)) := by
            rw [List.map_map, List.map_map]
            exact List.map_congr_left ihrest
          rw [List.map_cons] at hbinds
          rw [substitute_binding hf, rename_apply, rename_apply, List.map_cons, List.map_cons,
            substitute_binding hf, hbinds, List.map_append, hrest, List.map_take, List.map_drop]
          split
          · rfl
          · rw [hbody]

end Expr

end PocketAlgebra
