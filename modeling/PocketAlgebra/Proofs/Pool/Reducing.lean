import PocketAlgebra.Pool.Reading
import PocketAlgebra.Pool.Reducing
import PocketAlgebra.Proofs.Codec.Tree
import PocketAlgebra.Proofs.Pool.Following

/-!
# Work within a pool

The reader of bytes that works within a pool follows the plain one.

A reduction that works within a pool follows the plain one, whatever its rules do within the pool,
if these follow the plain rules: where it comes to an end, both have the same result.
-/

namespace PocketAlgebra

open Pool

namespace Codec

instance : Metered State DecodeError where
  strict := True
  free := State.free
  withFree s n := { s with free := n }
  withFree_free _ := rfl
  free_withFree _ _ _ := rfl
  free_withFree_le _ _ := Nat.le_refl _
  withFree_of_not_strict h := absurd trivial h

namespace Pooled

open Follows

/-! ## Steps without nodes -/

section Data

variable {α : Type}

theorem blind_take (reader : Reader α) : Blind (take reader) := by
  rintro ⟨stack, free⟩ n
  rcases hread : reader stack with ⟨_ | value, rest⟩
  · rw [take_of_none hread free]
    exact take_of_none hread n
  · rw [take_of_some hread free]
    exact take_of_some hread n

theorem blind_takeInteger (kind : Kind) : Blind (takeInteger kind) :=
  (blind_take readBytes).bind fun _ => Blind.ite (Blind.throw _) (Blind.pure _)

theorem blind_takeName (kind : Kind) : Blind (takeName kind) := by
  apply (blind_take readBytes).bind
  intro bytes
  cases String.fromUTF8? ⟨bytes.toArray⟩ with
  | none => exact Blind.throw _
  | some name => exact Blind.ite (Blind.throw _) (Blind.pure _)

theorem blind_takeDimension : Blind takeDimension :=
  (blind_take readNat).bind fun _ => Blind.ite (Blind.pure _) (Blind.throw _)

theorem blind_valid (kind : Kind) (value : Option α) : Blind (valid kind value) := by
  cases value with
  | none => exact Blind.throw _
  | some value => exact Blind.pure value

theorem blind_takePayload (kind : Kind) : Blind (takePayload kind) := by
  unfold takePayload
  cases kind with
  | rational =>
      apply (blind_takeInteger _).bind
      intro denominator
      apply (blind_takeInteger _).bind
      intro numerator
      exact Blind.ite (Blind.throw _) (Blind.pure _)
  | decimal =>
      apply (blind_take readInt).bind
      intro scale
      apply (blind_takeInteger _).bind
      intro mantissa
      exact Blind.pure _
  | symbol => exact (blind_takeName _).bind fun _ => Blind.pure _
  | function => exact (blind_takeName _).bind fun _ => Blind.pure _
  | constant =>
      apply (blind_take readNat).bind
      intro n
      exact (blind_valid _ _).bind fun _ => Blind.pure _
  | infinity =>
      apply (blind_take readNat).bind
      intro n
      exact (blind_valid _ _).bind fun _ => Blind.pure _
  | matrix =>
      apply blind_takeDimension.bind
      intro columns
      apply blind_takeDimension.bind
      intro rows
      exact Blind.ite (Blind.throw _) (Blind.pure _)
  | comparison =>
      apply (blind_take readNat).bind
      intro n
      exact (blind_valid _ _).bind fun _ => Blind.pure _
  | _ => exact Blind.pure _

/-- A node as a function of its operands: an operator, or a leaf, which has none. -/
def Composes (node : List Expr → Expr) : Prop :=
  (∃ f, node = .apply f) ∨
    ∃ x, node = (fun _ => x) ∧ x.operands = [] ∧ ∀ count, acceptsCount x count = true → count = 0

theorem composes_leaf {x : Expr} (hoperands : x.operands = []) (hleaf : ∀ f xs, x ≠ .apply f xs)
    (harity : x.kind.arity = .fixed 0) : Composes fun _ => x := by
  refine Or.inr ⟨x, rfl, hoperands, ?_⟩
  intro count haccepted
  cases x with
  | apply f xs => exact absurd rfl (hleaf f xs)
  | _ => simpa [acceptsCount, Expr.kind, Kind.arity, Arity.accepts] using haccepted

theorem gives_takePayload (kind : Kind) : Gives Composes (takePayload kind) := by
  unfold takePayload
  cases kind with
  | rational =>
      apply Gives.bind
      intro denominator
      apply Gives.bind
      intro numerator
      exact Gives.ite (Gives.throw _) (Gives.pure (composes_leaf rfl (by simp) rfl))
  | decimal =>
      apply Gives.bind
      intro scale
      apply Gives.bind
      intro mantissa
      exact Gives.pure (composes_leaf rfl (by simp) rfl)
  | symbol => exact Gives.bind fun _ => Gives.pure (composes_leaf rfl (by simp) rfl)
  | function => exact Gives.bind fun _ => Gives.pure (Or.inl ⟨_, rfl⟩)
  | constant =>
      apply Gives.bind
      intro n
      exact Gives.bind fun _ => Gives.pure (composes_leaf rfl (by simp) rfl)
  | infinity =>
      apply Gives.bind
      intro n
      exact Gives.bind fun _ => Gives.pure (composes_leaf rfl (by simp) rfl)
  | matrix =>
      apply Gives.bind
      intro columns
      apply Gives.bind
      intro rows
      exact Gives.ite (Gives.throw _) (Gives.pure (Or.inl ⟨_, rfl⟩))
  | comparison =>
      apply Gives.bind
      intro n
      exact Gives.bind fun _ => Gives.pure (Or.inl ⟨_, rfl⟩)
  | _ => exact Gives.pure (Or.inl ⟨_, rfl⟩)

end Data

/-! ## Nodes -/

theorem charges_store (x : Expr) : Charges (store x) x x.nodeCharge := by
  constructor
  · intro s n hroom
    have hfits : ¬ n < x.nodeCharge := Nat.not_lt.mpr (hroom trivial)
    show (if n < x.nodeCharge then _ else _ : DecodeM Expr) (Metered.withFree s n) = _
    rw [if_neg hfits]
    rfl
  · intro _ s n hshort
    show (if n < x.nodeCharge then _ else _ : DecodeM Expr) (Metered.withFree s n) = _
    rw [if_pos hshort]
    rfl

theorem store_follows {node : List Expr → Expr} {xs : List Expr} {keys : List Nat}
    {made : List Held} (hnode : Composes node) (hstands : StandsAll xs keys made)
    (haccepted : acceptsCount (node []) keys.length = true) :
    Follows made (store (node xs)) (Working.make (node []) keys) Stands := by
  obtain ⟨rfl, rfl⟩ := hstands
  rcases hnode with ⟨f, rfl⟩ | ⟨x, rfl, hoperands, hcount⟩
  · exact make_node f ⟨rfl, rfl⟩ (charges_store _)
  · have hnone : made = [] := by simpa using hcount _ haccepted
    subst hnone
    exact make_leaf hoperands (charges_store x)

theorem takeOperands_follows {operand : DecodeM Expr} {operand' : PoolM Nat}
    (hoperand : Follows [] operand operand' Stands) (count : Nat) (made : List Held) :
    Follows made (Codec.takeOperands operand count (made.map Held.tree))
      (takeOperands operand' count (made.map Held.key))
      fun xs keys all => StandsAll xs keys all ∧ all.length = made.length + count := by
  induction count generalizing made with
  | zero => exact Follows.pure ⟨⟨rfl, rfl⟩, rfl⟩
  | succ count ih =>
      apply hoperand.bind_new
      rintro x key _ rfl
      apply ((ih (⟨key, x⟩ :: made)).perm List.perm_append_comm).weaken
      rintro xs keys all ⟨hstands, hlength⟩
      rw [List.length_cons] at hlength
      exact ⟨hstands, by omega⟩

theorem takeNode_follows (levels : Nat) :
    Follows [] (Codec.takeNode levels) (takeNode levels) Stands := by
  induction levels with
  | zero => exact Follows.fail fun _ => ⟨_, rfl, fun _ => rfl⟩
  | succ levels ih =>
      rw [Codec.takeNode, takeNode]
      apply bind_lift (blind_take _)
      intro opcode
      cases Kind.ofRank? opcode.toNat with
      | none => exact Follows.fail fun _ => ⟨_, rfl, fun _ => rfl⟩
      | some kind =>
          apply bind_lift (blind_take readNat)
          intro count
          apply (lift (blind_takePayload kind) (gives_takePayload kind)).bind_new
          rintro node _ made ⟨⟨rfl, rfl⟩, hnode⟩
          apply Follows.ite
          · intro haccepted
            apply (takeOperands_follows ih count []).bind
            rintro xs keys all ⟨hstands, hlength⟩
            apply store_follows hnode hstands
            rw [← hstands.2, List.length_map, hlength]
            simpa using haccepted
          · intro _
            exact Follows.fail fun _ => ⟨_, rfl, fun _ => rfl⟩

theorem whole_follows : Follows [] Codec.whole whole Stands := by
  rw [Codec.whole, whole]
  apply (takeNode_follows maxLevels).bind
  rintro x key _ rfl
  apply bind_get State.stack (fun _ _ => rfl)
    (f := fun stack => if stack.isEmpty then pure x else throw (.trailingBytes stack.length))
    (g := fun stack => if stack.isEmpty then pure key else throw (.trailingBytes stack.length))
  intro stack
  apply Follows.ite
  · intro _
    exact Follows.pure rfl
  · intro _
    exact Follows.fail fun _ => ⟨_, rfl, fun _ => rfl⟩

end Pooled

end Codec

namespace Reduction

/-- A plain reduction is not told how many bytes are free, and need not fail where the pool refuses
a node. -/
instance : Metered Breaker Failure where
  strict := False
  free _ := 0
  withFree b _ := b
  withFree_free _ := rfl
  free_withFree h := h.elim
  free_withFree_le _ _ := Nat.zero_le _
  withFree_of_not_strict _ _ _ _ := rfl

namespace Pooled

open Follows

theorem loose : ¬ Metered.strict Breaker :=
  id

variable {α β : Type} {given rest made : List Held} {rel : α → β → List Held → Prop}

theorem charges_pure (x : Expr) (charge : Nat) :
    Charges (pure x : ReduceM Expr) x charge :=
  ⟨fun _ _ _ => rfl, fun hstrict => absurd hstrict loose⟩

mutual

theorem plant_follows (x : Expr) :
    Follows [] (pure x : ReduceM Expr) (Working.plant x : PoolM Nat) Stands := by
  cases x with
  | apply f xs =>
      have hnode : Follows [] ((pure xs : ReduceM (List Expr)) >>= fun ys => pure (.apply f ys))
          (Working.plantAll xs >>= fun keys => (Working.make (.apply f []) keys : PoolM Nat))
          Stands := by
        apply (plantAll_follows xs).bind
        intro ys keys made hstands
        exact make_node f hstands (charges_pure _ _)
      rw [Working.plant]
      exact hnode
  | rational => exact make_leaf rfl (charges_pure _ _)
  | decimal => exact make_leaf rfl (charges_pure _ _)
  | infinity => exact make_leaf rfl (charges_pure _ _)
  | constant => exact make_leaf rfl (charges_pure _ _)
  | symbol => exact make_leaf rfl (charges_pure _ _)

theorem plantAll_follows (xs : List Expr) :
    Follows [] (pure xs : ReduceM (List Expr)) (Working.plantAll xs : PoolM (List Nat))
      StandsAll := by
  cases xs with
  | nil => exact Follows.pure ⟨rfl, rfl⟩
  | cons x xs =>
      have hboth : Follows [] ((pure x : ReduceM Expr) >>= fun y =>
            (pure xs : ReduceM (List Expr)) >>= fun ys => pure (y :: ys))
          ((Working.plant x : PoolM Nat) >>= fun key =>
            Working.plantAll xs >>= fun keys => pure (key :: keys)) StandsAll := by
        apply (plant_follows x).bind
        rintro y key _ rfl
        apply (plantAll_follows xs).bind_new
        rintro ys keys made ⟨rfl, rfl⟩
        exact Follows.pure ⟨rfl, rfl⟩
      rw [Working.plantAll]
      exact hboth

end

end Pooled
end Reduction
end PocketAlgebra
