import PocketAlgebra.Proofs.Expr.Scope

/-!
# Free occurrences and substitution

A position in a tree is the list of the numbers of the operands on the way to it. A symbol stands
free at a position unless it is the operand that names a variable, or stands in the body of a
function that binds a variable of its name.

Substitution puts the value in the place of exactly the free occurrences of a symbol. It does not
rename variables: the names in the value are captured where a function around the occurrence binds
them.
-/

namespace PocketAlgebra

namespace Expr

/-- The part of a tree at a position. -/
def part? : List Nat → Expr → Option Expr
  | [], x => some x
  | i :: p, x => (x.operand? i).bind (part? p)

/-- Whether an operand is out of the reach of a name: the operand that names a variable is, and the
body where the variable has that name. -/
def Shields (name : String) (f : Operator) (xs : List Expr) (i : Nat) : Prop :=
  f.kind.isParametered = true ∧ (i = 1 ∨ i = 0 ∧ binds name f xs = true)

/-- A symbol of the given name stands at a position of a tree, and no function of the tree binds
it. -/
inductive FreeAt (name : String) : Expr → List Nat → Prop
  | symbol : FreeAt name (symbol name) []
  | operand {f xs i x p} : xs[i]? = some x → ¬ Shields name f xs i → FreeAt name x p →
      FreeAt name (apply f xs) (i :: p)

/-- Some function around a position of a tree binds a variable of the given name there. -/
inductive BoundAt (name : String) : Expr → List Nat → Prop
  | body {f xs p} : binds name f xs = true → BoundAt name (apply f xs) (0 :: p)
  | operand {f xs i x p} : xs[i]? = some x → BoundAt name x p → BoundAt name (apply f xs) (i :: p)

/-- A symbol of the given name is free in a tree. -/
def Free (name : String) (x : Expr) : Prop :=
  ∃ p, FreeAt name x p

variable {name other : String} {f : Operator} {x y z value : Expr} {xs : List Expr} {i : Nat}
  {p q : List Nat}

/-! ## Reading a node back -/

theorem freeAt_symbol : FreeAt name (.symbol other) p ↔ name = other ∧ p = [] := by
  constructor
  · intro h
    cases h with
    | symbol => exact ⟨rfl, rfl⟩
  · rintro ⟨rfl, rfl⟩
    exact .symbol

theorem not_freeAt_literal (hx : x.isLiteral = true) : ¬ FreeAt name x p := by
  intro h
  cases h <;> cases hx

theorem not_freeAt_root : ¬ FreeAt name (.apply f xs) [] := by
  intro h
  cases h

theorem freeAt_apply : FreeAt name (.apply f xs) (i :: p) ↔
    ¬ Shields name f xs i ∧ ∃ x, xs[i]? = some x ∧ FreeAt name x p := by
  constructor
  · intro h
    cases h with
    | operand hx hshields hfree => exact ⟨hshields, _, hx, hfree⟩
  · rintro ⟨hshields, x, hx, hfree⟩
    exact .operand hx hshields hfree

theorem boundAt_apply : BoundAt name (.apply f xs) (i :: p) ↔
    (i = 0 ∧ binds name f xs = true) ∨ ∃ x, xs[i]? = some x ∧ BoundAt name x p := by
  constructor
  · intro h
    cases h with
    | body hbinds => exact .inl ⟨rfl, hbinds⟩
    | operand hx hbound => exact .inr ⟨_, hx, hbound⟩
  · rintro (⟨rfl, hbinds⟩ | ⟨x, hx, hbound⟩)
    · exact .body hbinds
    · exact .operand hx hbound

theorem isParametered_of_binds (h : binds name f xs = true) : f.kind.isParametered = true := by
  rw [binds, Bool.and_eq_true] at h
  exact h.1

/-- A symbol that is free somewhere is not bound there. -/
theorem FreeAt.not_boundAt (h : FreeAt name x p) : ¬ BoundAt name x p := by
  induction h with
  | symbol => nofun
  | @operand f xs i x p hx hshields _ ih =>
      rw [boundAt_apply]
      rintro (⟨hi, hbinds⟩ | ⟨y, hy, hbound⟩)
      · exact hshields ⟨isParametered_of_binds hbinds, .inr ⟨hi, hbinds⟩⟩
      · rw [hx] at hy
        cases hy
        exact ih hbound

/-! ## Substitution, operand by operand -/

theorem getElem?_substituteAll (name : String) (value : Expr) (shelters : List Bool)
    (xs : List Expr) (i : Nat) : (substituteAll name value shelters xs)[i]? =
      xs[i]?.map fun x => if shelters.getD i false then x else substitute name value x := by
  induction xs generalizing shelters i with
  | nil => rfl
  | cons x xs ih =>
      rw [substituteAll]
      cases i with
      | zero => cases shelters <;> rfl
      | succ i =>
          rw [List.getElem?_cons_succ, List.getElem?_cons_succ, ih]
          cases shelters <;> rfl

theorem sheltered_iff : (sheltered name f xs).getD i false = true ↔ Shields name f xs i := by
  rw [sheltered, Shields]
  split
  · rename_i hf
    rcases i with _ | _ | i
    · simp [hf]
    · simp [hf]
    · simp
  · rename_i hf
    simp [hf]

open Classical in
theorem getElem?_substitute (name : String) (value : Expr) (f : Operator) (xs : List Expr)
    (i : Nat) : (substituteAll name value (sheltered name f xs) xs)[i]? =
      xs[i]?.map fun x => if Shields name f xs i then x else substitute name value x := by
  rw [getElem?_substituteAll]
  exact congrArg (xs[i]?.map ·) (funext fun x => if_congr sheltered_iff rfl rfl)

/-- Substitution leaves the operand that names a variable alone. -/
theorem binds_substitute (name other : String) (value : Expr) (f : Operator) (xs : List Expr) :
    binds other f (substituteAll name value (sheltered name f xs) xs) = binds other f xs := by
  classical
  rw [binds, binds]
  by_cases hf : f.kind.isParametered = true
  · have hshields : Shields name f xs 1 := ⟨hf, .inl rfl⟩
    rw [getElem?_substitute, funext fun x => if_pos hshields, Option.map_id']
  · simp [hf]

/-- A node after substitution: each operand that the name does not reach stays, and in the others
the value is put in. -/
theorem freeAt_substitute_apply : FreeAt other (substitute name value (.apply f xs)) (i :: p) ↔
    ¬ Shields other f xs i ∧ ∃ x, xs[i]? = some x ∧
      ((Shields name f xs i ∧ FreeAt other x p) ∨
        (¬ Shields name f xs i ∧ FreeAt other (substitute name value x) p)) := by
  classical
  have hshields : Shields other f (substituteAll name value (sheltered name f xs) xs) i ↔
      Shields other f xs i := by rw [Shields, Shields, binds_substitute]
  rw [substitute, freeAt_apply, hshields, getElem?_substitute]
  refine and_congr_right fun _ => ?_
  cases xs[i]? with
  | none => simp
  | some x => by_cases hname : Shields name f xs i <;> simp [hname]

/-! ## Where symbols are free after substitution -/

/-- Other symbols stay where they are free. -/
theorem FreeAt.kept (h : FreeAt other x p) (hother : other ≠ name) :
    FreeAt other (substitute name value x) p := by
  induction h with
  | symbol =>
      rw [substitute, if_neg hother]
      exact .symbol
  | @operand f xs i x p hx hshields hfree ih =>
      rw [freeAt_substitute_apply]
      by_cases hname : Shields name f xs i
      · exact ⟨hshields, x, hx, .inl ⟨hname, hfree⟩⟩
      · exact ⟨hshields, x, hx, .inr ⟨hname, ih⟩⟩

/-- The symbols of the value are free where it is put in, unless they are bound there. -/
theorem FreeAt.put (h : FreeAt name x q) (hbound : ¬ BoundAt other x q)
    (hvalue : FreeAt other value p) : FreeAt other (substitute name value x) (q ++ p) := by
  induction h with
  | symbol => rwa [substitute, if_pos rfl]
  | @operand f xs i x q hx hshields _ ih =>
      rw [boundAt_apply, not_or] at hbound
      rw [List.cons_append, freeAt_substitute_apply]
      refine ⟨fun hother => ?_, x, hx, .inr ⟨hshields, ih fun h => hbound.2 ⟨x, hx, h⟩⟩⟩
      rcases hother with ⟨hf, rfl | hbody⟩
      · exact hshields ⟨hf, .inl rfl⟩
      · exact hbound.1 hbody

theorem freeAt_of_substitute_symbol {k : String}
    (h : FreeAt other (substitute name value (.symbol k)) p) :
    (other ≠ name ∧ FreeAt other (.symbol k) p) ∨ ∃ q s, p = q ++ s ∧
      FreeAt name (.symbol k) q ∧ ¬ BoundAt other (.symbol k) q ∧ FreeAt other value s := by
  rw [substitute] at h
  split at h
  case isTrue hk =>
    refine .inr ⟨[], p, rfl, hk ▸ .symbol, fun hbound => ?_, h⟩
    cases hbound
  case isFalse hk =>
    refine .inl ⟨?_, h⟩
    rw [(freeAt_symbol.mp h).1]
    exact hk

/-- Nothing else is free after substitution. -/
theorem freeAt_of_substitute (h : FreeAt other (substitute name value x) p) :
    (other ≠ name ∧ FreeAt other x p) ∨ ∃ q s, p = q ++ s ∧ FreeAt name x q ∧
      ¬ BoundAt other x q ∧ FreeAt other value s := by
  induction p generalizing x with
  | nil =>
      cases x with
      | symbol k => exact freeAt_of_substitute_symbol h
      | apply f xs =>
          rw [substitute] at h
          exact absurd h not_freeAt_root
      | _ => cases h
  | cons i p ih =>
      cases x with
      | symbol k => exact freeAt_of_substitute_symbol h
      | apply f xs =>
          rcases freeAt_substitute_apply.mp h with ⟨hshields, y, hy, hrest⟩
          rcases hrest with ⟨hname, hfree⟩ | ⟨hname, hfree⟩
          · exact .inl ⟨fun heq => hshields (heq ▸ hname), .operand hy hshields hfree⟩
          · refine (ih hfree).imp (fun h => ⟨h.1, .operand hy hshields h.2⟩) ?_
            rintro ⟨q, s, rfl, hq, hbound, hs⟩
            refine ⟨i :: q, s, rfl, .operand hy hname hq, ?_, hs⟩
            rw [boundAt_apply]
            rintro (⟨rfl, hbinds⟩ | ⟨z, hz, hz'⟩)
            · exact hshields ⟨isParametered_of_binds hbinds, .inr ⟨rfl, hbinds⟩⟩
            · rw [hy] at hz
              cases hz
              exact hbound hz'
      | _ => cases h

/-! ## The parts of a tree after substitution -/

/-- Where the symbol is free, the value is put. -/
theorem FreeAt.part?_substitute (h : FreeAt name x p) :
    part? p (substitute name value x) = some value := by
  classical
  induction h with
  | symbol => rw [substitute, if_pos rfl, part?]
  | @operand f xs i x p hx hshields _ ih =>
      rw [substitute, part?, operand?, operands, getElem?_substitute, hx, Option.map_some,
        if_neg hshields]
      exact ih

theorem substitute_of_not_free : ∀ x : Expr, (∀ p, ¬ FreeAt name x p) →
    substitute name value x = x
  | .rational _, _ | .decimal _, _ | .infinity _, _ | .constant _, _ => rfl
  | .symbol k, h => by
      rw [substitute, if_neg]
      rintro rfl
      exact h [] .symbol
  | .apply f xs, h => by
      classical
      rw [substitute]
      congr 1
      refine List.ext_getElem? fun i => ?_
      rw [getElem?_substitute]
      cases hy : xs[i]? with
      | none => rfl
      | some y =>
          have hmem : y ∈ xs := List.mem_of_getElem? hy
          rw [Option.map_some]
          split
          · rfl
          · rename_i hshields
            rw [substitute_of_not_free y fun p hfree => h (i :: p) (.operand hy hshields hfree)]
termination_by x => x.size
decreasing_by exact size_lt_of_mem hmem

/-- A part without free occurrences of the symbol stays as it is. -/
theorem part?_substitute_of_not_free (hpart : part? p x = some y)
    (h : ∀ s, ¬ FreeAt name x (p ++ s)) : part? p (substitute name value x) = some y := by
  classical
  induction p generalizing x with
  | nil => rwa [substitute_of_not_free x h]
  | cons i p ih =>
      cases x with
      | apply f xs =>
          rcases Option.bind_eq_some_iff.mp hpart with ⟨z, hz, hpart⟩
          have hz : xs[i]? = some z := hz
          rw [substitute, part?, operand?, operands, getElem?_substitute, hz, Option.map_some,
            Option.bind_some]
          split
          · exact hpart
          · rename_i hshields
            exact ih hpart fun s hfree => h s (.operand hz hshields hfree)
      | _ => cases hpart

/-! ## Substitution as a whole -/

/-- Substitution puts the value in the place of every free occurrence of the symbol, and after it
the symbol is free only inside these values. Free are then the other symbols that were free before,
and those symbols of the value that no function binds around all the places where the value is put
in. Parts of the tree without free occurrences of the symbol stay as they are. -/
theorem substitute_replaces (name : String) (value x : Expr) :
    (∀ q, FreeAt name x q → part? q (substitute name value x) = some value) ∧
    (∀ p, FreeAt name (substitute name value x) p ↔
      ∃ q s, p = q ++ s ∧ FreeAt name x q ∧ FreeAt name value s) ∧
    (∀ other, Free other (substitute name value x) ↔ (other ≠ name ∧ Free other x) ∨
      (Free other value ∧ ∃ q, FreeAt name x q ∧ ¬ BoundAt other x q)) ∧
    (∀ p y, part? p x = some y → (∀ s, ¬ FreeAt name x (p ++ s)) →
      part? p (substitute name value x) = some y) := by
  refine ⟨fun q h => h.part?_substitute, fun p => ⟨fun h => ?_, ?_⟩, fun other => ⟨?_, ?_⟩,
    fun p y => part?_substitute_of_not_free⟩
  · rcases freeAt_of_substitute h with ⟨hne, -⟩ | ⟨q, s, hp, hq, -, hs⟩
    · exact absurd rfl hne
    · exact ⟨q, s, hp, hq, hs⟩
  · rintro ⟨q, s, rfl, hq, hs⟩
    exact hq.put hq.not_boundAt hs
  · rintro ⟨p, h⟩
    rcases freeAt_of_substitute h with ⟨hne, hp⟩ | ⟨q, s, -, hq, hbound, hs⟩
    · exact .inl ⟨hne, p, hp⟩
    · exact .inr ⟨⟨s, hs⟩, q, hq, hbound⟩
  · rintro (⟨hne, p, hp⟩ | ⟨⟨s, hs⟩, q, hq, hbound⟩)
    · exact ⟨p, hp.kept hne⟩
    · exact ⟨q ++ s, hq.put hbound hs⟩

/-- In a sum over `k`, putting `k` in the place of `x` lets the sum bind it. -/
theorem substitute_captures :
    let sum := Expr.apply .sum [.symbol "x", .symbol "k", .integer 1, .integer 3]
    Free "x" sum ∧ Free "k" (.symbol "k") ∧ ¬ Free "k" (substitute "x" (.symbol "k") sum) := by
  intro sum
  have hfree : FreeAt "x" sum [0] := .operand rfl (by simp [Shields, binds, name?]) .symbol
  refine ⟨⟨_, hfree⟩, ⟨_, .symbol⟩, ?_⟩
  rintro ⟨p, hp⟩
  have hsum : substitute "x" (.symbol "k") sum =
      .apply .sum [.symbol "k", .symbol "k", .integer 1, .integer 3] := rfl
  rw [hsum] at hp
  cases p with
  | nil => exact not_freeAt_root hp
  | cons i p =>
      rcases freeAt_apply.mp hp with ⟨hshields, x, hx, hfree⟩
      rcases i with _ | _ | _ | _ | i
      · exact hshields ⟨rfl, .inr ⟨rfl, rfl⟩⟩
      · exact hshields ⟨rfl, .inl rfl⟩
      · cases hx
        exact not_freeAt_literal rfl hfree
      · cases hx
        exact not_freeAt_literal rfl hfree
      · cases hx

end Expr

end PocketAlgebra
