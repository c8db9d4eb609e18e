import PocketAlgebra.Pool.Reading
import PocketAlgebra.Proofs.Pool.Following

/-!
# Reading into a pool

The reader that works within a pool follows the plain one, which is charged for nodes as the pool
is: both read the same, and find the same fault at the same place.
-/

namespace PocketAlgebra

open Pool

namespace Parser

instance : Metered State ParseError where
  strict := True
  free := State.free
  withFree s n := { s with free := n }
  withFree_free _ := rfl
  free_withFree _ _ _ := rfl
  free_withFree_le _ _ := Nat.le_refl _
  withFree_of_not_strict h := absurd trivial h

namespace Pooled

open Follows

/-! ## Steps without nodes -/

theorem blind_current : Blind current :=
  fun _ _ => rfl

theorem blind_advance : Blind advance :=
  fun _ _ => rfl

theorem blind_spanFrom (token : Token) : Blind (spanFrom token) :=
  fun _ _ => rfl

variable {α β : Type}

theorem blind_unexpected : Blind (unexpected : ParseM α) := by
  intro s n
  rcases s with ⟨_ | ⟨⟨kind, text, span⟩, rest⟩, ⟨kind', text', span'⟩, previous, stop, free⟩
  · cases kind' <;> rfl
  · cases kind <;> rfl

theorem blind_expect (kind : TokenKind) : Blind (expect kind) := by
  intro s n
  show (if (s.tokens.headD s.last).kind = kind then advance else unexpected : ParseM Token)
      (Metered.withFree s n) =
    ((if (s.tokens.headD s.last).kind = kind then advance else unexpected : ParseM Token) s).map _
  split
  · exact blind_advance s n
  · exact blind_unexpected s n

variable {given made : List Held} {rel : α → β → List Held → Prop}

/-- A step that is told how many tokens are left. -/
theorem bind_remaining {γ δ : Type} {F : Nat → ParseM α} {G : Nat → PoolM β} {f : α → ParseM γ}
    {g : β → PoolM δ} {next : γ → δ → List Held → Prop} (h : ∀ n, Follows [] (F n) (G n) rel)
    (hnext : ∀ a b made, rel a b made → Follows (given ++ made) (f a) (g b) next) :
    Follows given (get >>= fun s => F s.tokens.length >>= f)
      (get >>= fun s => G s.tokens.length >>= g) next :=
  bind_get (fun s => s.tokens.length) (fun _ _ => rfl) (f := fun n => F n >>= f)
    (g := fun n => G n >>= g) fun n => (h n).bind_new hnext

theorem unexpected_follows :
    Follows given (unexpected : ParseM α) (liftM (unexpected : ParseM β) : PoolM β) rel := by
  apply Follows.fail
  intro s
  rcases s with ⟨_ | ⟨⟨kind, text, span⟩, rest⟩, ⟨kind', text', span'⟩, previous, stop, free⟩
  · cases kind' <;> exact ⟨_, rfl, fun _ => rfl⟩
  · cases kind <;> exact ⟨_, rfl, fun _ => rfl⟩

theorem reject_follows (cause : ParseError.Cause) (span : Span) :
    Follows given (reject cause span : ParseM α) (liftM (reject cause span : ParseM β) : PoolM β)
      rel :=
  Follows.fail fun _ => ⟨_, rfl, fun _ => rfl⟩

/-! ## Nodes -/

theorem charges_build (x : Expr) : Charges (build x) x x.nodeCharge := by
  constructor
  · intro s n hroom
    have hfits : ¬ n < x.nodeCharge := Nat.not_lt.mpr (hroom trivial)
    show (if n < x.nodeCharge then _ else _ : ParseM Expr) (Metered.withFree s n) = _
    rw [if_neg hfits]
    rfl
  · intro _ s n hshort
    show (if n < x.nodeCharge then _ else _ : ParseM Expr) (Metered.withFree s n) = _
    rw [if_pos hshort]
    rfl

theorem leaf_follows {x : Expr} (h : x.operands = []) :
    Follows [] (build x) (Working.make x []) Stands :=
  make_leaf h (charges_build x)

theorem node_follows (f : Operator) {xs : List Expr} {keys : List Nat}
    (h : StandsAll xs keys made) :
    Follows made (build (.apply f xs)) (Working.make (.apply f []) keys) Stands :=
  make_node f h (charges_build _)

/-! ## Operands -/

section Operands

variable {operand : Precedence → ParseM Expr} {operand' : Precedence → PoolM Nat}

theorem separated_follows (hoperand : ∀ stop, Follows [] (operand stop) (operand' stop) Stands)
    (close : TokenKind) (rounds : Nat) :
    Follows [] (Parser.separated operand close rounds) (separated operand' close rounds)
      StandsAll := by
  induction rounds with
  | zero => exact unexpected_follows
  | succ rounds ih =>
      rw [Parser.separated, separated]
      apply (hoperand .store).bind_new
      rintro x key _ rfl
      apply bind_lift blind_current
      intro token
      rcases token with ⟨kind, text, span⟩
      cases kind with
      | comma =>
          apply bind_lift blind_advance
          intro _
          apply ih.bind_new
          rintro xs keys made ⟨rfl, rfl⟩
          exact Follows.pure ⟨rfl, rfl⟩
      | _ =>
          apply Follows.ite
          · intro _
            apply bind_lift blind_advance
            intro _
            exact Follows.pure ⟨rfl, rfl⟩
          · intro _
            exact unexpected_follows

theorem sequence_follows (hoperand : ∀ stop, Follows [] (operand stop) (operand' stop) Stands)
    (close : TokenKind) :
    Follows [] (Parser.sequence operand close) (sequence operand' close) StandsAll := by
  rw [Parser.sequence, sequence]
  apply bind_lift blind_current
  intro token
  apply Follows.ite
  · intro _
    apply bind_lift blind_advance
    intro _
    exact Follows.pure ⟨rfl, rfl⟩
  · intro _
    exact bind_get (fun s => s.tokens.length) (fun _ _ => rfl)
      (f := fun n => Parser.separated operand close (n + 1))
      (g := fun n => separated operand' close (n + 1))
      fun n => separated_follows hoperand close (n + 1)

theorem userFunction_follows (hoperand : ∀ stop, Follows [] (operand stop) (operand' stop) Stands)
    (name : Token) :
    Follows [] (Parser.userFunction operand name) (userFunction operand' name) Stands := by
  rw [Parser.userFunction, userFunction]
  apply bind_lift blind_advance
  intro _
  apply (sequence_follows hoperand .rightParenthesis).bind_new
  rintro xs keys made ⟨rfl, rfl⟩
  apply bind_lift (blind_spanFrom name)
  intro span
  rcases made with - | ⟨argument, - | ⟨second, others⟩⟩
  · exact reject_follows _ span
  · apply bind_look (x := argument.tree) (List.mem_singleton_self argument)
    apply Follows.ite
    · intro _
      exact reject_follows _ span
    · intro _
      exact node_follows _ ⟨rfl, rfl⟩
  · simp only [List.map_cons, List.length_cons, List.length_map]
    exact reject_follows _ span

theorem identifier_follows (hoperand : ∀ stop, Follows [] (operand stop) (operand' stop) Stands) :
    Follows [] (Parser.identifier operand) (identifier operand') Stands := by
  rw [Parser.identifier, identifier]
  apply bind_lift blind_advance
  intro token
  simp only
  cases Constant.ofSymbol? token.text with
  | some constant => exact leaf_follows rfl
  | none =>
      simp only
      split
      · rename_i htext
        rw [htext, if_pos rfl]
        exact leaf_follows rfl
      · rename_i htext
        rw [htext, if_neg (by decide), if_pos rfl]
        exact leaf_follows rfl
      · rename_i htext
        rw [htext, if_neg (by decide), if_neg (by decide), if_pos rfl]
        exact leaf_follows rfl
      · rename_i hinf hundef hnonreal
        rw [if_neg hinf, if_neg hundef, if_neg hnonreal]
        apply Follows.ite
        · intro _
          exact reject_follows _ token.span
        intro _
        apply Follows.ite
        · intro _
          exact reject_follows _ token.span
        intro _
        apply bind_lift blind_current
        intro next
        apply Follows.ite
        · intro _
          exact userFunction_follows hoperand token
        · intro _
          exact leaf_follows rfl

theorem logarithmWithSubscript_follows
    (hoperand : ∀ stop, Follows [] (operand stop) (operand' stop) Stands) (token : Token) :
    Follows [] (Parser.logarithmWithSubscript operand token) (logarithmWithSubscript operand' token)
      Stands := by
  rw [Parser.logarithmWithSubscript, logarithmWithSubscript]
  apply bind_lift blind_advance
  intro _
  apply bind_lift (blind_expect .leftBrace)
  intro _
  apply (hoperand .store).bind_new
  rintro base key _ rfl
  apply bind_lift (blind_expect .rightBrace)
  intro _
  apply bind_lift blind_current
  intro next
  apply Follows.ite
  · intro _
    exact reject_follows _ token.span
  intro _
  apply bind_lift blind_advance
  intro _
  apply (sequence_follows hoperand .rightParenthesis).bind_new
  rintro xs keys made ⟨rfl, rfl⟩
  rcases made with - | ⟨argument, - | ⟨second, others⟩⟩
  · apply bind_lift (blind_spanFrom token)
    exact reject_follows _
  · -- The base has been read before the argument, and stands behind it.
    have hstands : StandsAll [argument.tree, base] [argument.key, key]
        [argument, ⟨key, base⟩] := ⟨rfl, rfl⟩
    exact (node_follows .logarithm hstands).perm (List.Perm.swap _ _ _)
  · simp only [List.map_cons, List.length_cons, List.length_map]
    apply bind_lift (blind_spanFrom token)
    exact reject_follows _

theorem reservedCall_follows
    (hoperand : ∀ stop, Follows [] (operand stop) (operand' stop) Stands) :
    Follows [] (Parser.reservedCall operand) (reservedCall operand') Stands := by
  rw [Parser.reservedCall, reservedCall]
  apply bind_lift blind_advance
  intro token
  cases reservedFunction? token.text with
  | none => exact reject_follows _ token.span
  | some entry =>
      apply bind_lift blind_current
      intro next
      apply Follows.ite
      · intro _
        exact logarithmWithSubscript_follows hoperand token
      intro _
      apply Follows.ite
      · intro _
        exact reject_follows _ token.span
      intro _
      apply bind_lift blind_advance
      intro _
      apply (sequence_follows hoperand .rightParenthesis).bind_new
      rintro xs keys made ⟨rfl, rfl⟩
      apply bind_lift (blind_spanFrom token)
      intro span
      simp only [List.length_map]
      apply Follows.ite
      · intro _
        exact reject_follows _ span
      intro _
      apply bind_lookAll ⟨rfl, rfl⟩
      apply Follows.ite
      · intro _
        exact reject_follows _ span
      · intro _
        exact node_follows _ ⟨rfl, rfl⟩

/-- Rows of handles stand for rows of expressions. -/
def StandsInRows (rows : List (List Expr)) (keys : List (List Nat)) (made : List Held) : Prop :=
  ∃ held : List (List Held), held.map (List.map Held.tree) = rows ∧
    held.map (List.map Held.key) = keys ∧ made = held.flatten

theorem matrixRows_follows (hoperand : ∀ stop, Follows [] (operand stop) (operand' stop) Stands)
    (opening : Token) (columns : Option Nat) (rounds : Nat) :
    Follows [] (Parser.matrixRows operand opening columns rounds)
      (matrixRows operand' opening columns rounds) StandsInRows := by
  induction rounds generalizing columns with
  | zero => exact unexpected_follows
  | succ rounds ih =>
      rw [Parser.matrixRows, matrixRows]
      apply bind_lift blind_current
      intro next
      apply Follows.ite
      · intro _
        apply Follows.ite
        · intro _
          exact reject_follows _ _
        · intro _
          exact unexpected_follows
      intro _
      apply bind_lift blind_advance
      intro rowOpening
      apply bind_lift blind_current
      intro next
      apply Follows.ite
      · intro _
        exact reject_follows _ _
      intro _
      apply bind_remaining (F := fun n => Parser.separated operand .rightBracket (n + 1))
        (G := fun n => separated operand' .rightBracket (n + 1))
        fun n => separated_follows hoperand .rightBracket (n + 1)
      rintro row keys made ⟨rfl, rfl⟩
      simp only [List.length_map]
      apply Follows.ite
      · intro _
        apply bind_lift (blind_spanFrom rowOpening)
        exact reject_follows _
      intro _
      have hmore : Follows made
          (Parser.matrixRows operand opening (some (columns.getD made.length)) rounds >>=
            fun rows => Pure.pure (made.map Held.tree :: rows))
          (matrixRows operand' opening (some (columns.getD made.length)) rounds >>=
            fun rows => Pure.pure (made.map Held.key :: rows)) StandsInRows := by
        apply (ih _).bind_new
        rintro _ _ _ ⟨held, rfl, rfl, rfl⟩
        exact Follows.pure ⟨made :: held, rfl, rfl, rfl⟩
      apply bind_lift blind_current
      rintro ⟨kind, text, span⟩
      cases kind with
      | comma =>
          apply bind_lift blind_advance
          intro _
          exact hmore
      | rightBracket =>
          apply bind_lift blind_advance
          intro _
          exact Follows.pure ⟨[made], rfl, rfl, by simp⟩
      | _ => exact hmore

theorem matrix_follows (hoperand : ∀ stop, Follows [] (operand stop) (operand' stop) Stands) :
    Follows [] (Parser.matrix operand) (matrix operand') Stands := by
  rw [Parser.matrix, matrix]
  apply bind_lift blind_advance
  intro opening
  apply bind_remaining (F := fun n => Parser.matrixRows operand opening none (n + 1))
    (G := fun n => matrixRows operand' opening none (n + 1))
    fun n => matrixRows_follows hoperand opening none (n + 1)
  rintro _ _ _ ⟨held, rfl, rfl, rfl⟩
  have hcolumns : ((held.map (List.map Held.key)).headD []).length =
      ((held.map (List.map Held.tree)).headD []).length := by
    cases held with
    | nil => rfl
    | cons row rows => simp
  simp only [List.length_map, hcolumns]
  exact node_follows _ ⟨List.map_flatten, List.map_flatten⟩

theorem operands_read (literal : List Char) : (Numeral.read literal).operands = [] := by
  unfold Numeral.read
  split
  · rfl
  · simp only
    split <;> rfl

theorem leading_follows (hoperand : ∀ stop, Follows [] (operand stop) (operand' stop) Stands)
    (stop : Precedence) :
    Follows [] (Parser.leading operand stop) (leading operand' stop) Stands := by
  rw [Parser.leading, leading]
  apply bind_lift blind_current
  rintro ⟨kind, text, span⟩
  cases kind with
  | minus =>
      apply bind_lift blind_advance
      intro _
      apply (hoperand _).bind_new
      rintro x key _ rfl
      exact node_follows .opposite ⟨rfl, rfl⟩
  | number =>
      apply bind_lift blind_advance
      intro token
      exact leaf_follows (operands_read _)
  | identifier => exact identifier_follows hoperand
  | reservedFunction => exact reservedCall_follows hoperand
  | leftParenthesis =>
      apply bind_lift blind_advance
      intro _
      apply (hoperand .store).bind_new
      rintro x key _ rfl
      apply bind_lift (blind_expect .rightParenthesis)
      intro _
      exact node_follows .parenthesis ⟨rfl, rfl⟩
  | leftBracket => exact matrix_follows hoperand
  | leftBrace =>
      apply bind_lift blind_advance
      intro _
      apply (sequence_follows hoperand .rightBrace).bind_new
      rintro xs keys made hstands
      exact node_follows .list hstands
  | _ => exact unexpected_follows

/-! ## Operators -/

theorem infixOperator_follows
    (hoperand : ∀ stop, Follows [] (operand stop) (operand' stop) Stands) (x : Expr) (key : Nat)
    (operator : Operator) (stop : Precedence) :
    Follows [⟨key, x⟩] (Parser.infixOperator operand x operator stop)
      (infixOperator operand' key operator stop) Stands := by
  rw [Parser.infixOperator, infixOperator]
  apply bind_lift blind_advance
  intro _
  apply (hoperand stop).bind_new
  rintro y right _ rfl
  exact node_follows operator ⟨rfl, rfl⟩

/-- An operand behind another one is a factor, unless both are numbers. -/
theorem factor_follows (hoperand : ∀ stop, Follows [] (operand stop) (operand' stop) Stands)
    (x : Expr) (key : Nat) (both : TokenKind → Bool) :
    Follows [⟨key, x⟩]
      (get >>= fun s => if both s.previous then unexpected else
        operand .implicitTimes >>= fun y => build (.apply .multiplication [x, y]) : ParseM Expr)
      (get >>= fun s => if both s.previous then liftM (unexpected : ParseM Nat) else
        operand' .implicitTimes >>= fun right =>
          Working.make (.apply .multiplication []) [key, right] : PoolM Nat) Stands := by
  apply bind_get State.previous (fun _ _ => rfl)
    (f := fun previous => if both previous then unexpected else
      operand .implicitTimes >>= fun y => build (.apply .multiplication [x, y]))
    (g := fun previous => if both previous then liftM (unexpected : ParseM Nat) else
      operand' .implicitTimes >>= fun right =>
        Working.make (.apply .multiplication []) [key, right])
  intro previous
  apply Follows.ite
  · intro _
    exact unexpected_follows
  · intro _
    apply (hoperand .implicitTimes).bind_new
    rintro y right _ rfl
    exact node_follows .multiplication ⟨rfl, rfl⟩

theorem operation_follows (hoperand : ∀ stop, Follows [] (operand stop) (operand' stop) Stands)
    (x : Expr) (key : Nat) :
    Follows [⟨key, x⟩] (Parser.operation operand x) (operation operand' key) Stands := by
  rw [Parser.operation, operation]
  apply bind_lift blind_current
  rintro ⟨kind, text, span⟩
  cases kind with
  | plus => exact infixOperator_follows hoperand x key _ _
  | minus => exact infixOperator_follows hoperand x key _ _
  | times => exact infixOperator_follows hoperand x key _ _
  | slash => exact infixOperator_follows hoperand x key _ _
  | caret => exact infixOperator_follows hoperand x key _ _
  | bang =>
      apply bind_lift blind_advance
      intro _
      exact node_follows .factorial ⟨rfl, rfl⟩
  | comparison relation =>
      apply bind_look (List.mem_singleton_self _)
      apply Follows.ite
      · intro _
        exact reject_follows _ span
      · intro _
        exact infixOperator_follows hoperand x key _ _
  | number => exact factor_follows hoperand x key fun previous => previous = .number
  | _ => exact factor_follows hoperand x key fun _ => false

theorem operations_follows (hoperand : ∀ stop, Follows [] (operand stop) (operand' stop) Stands)
    (stop : Precedence) (rounds : Nat) (x : Expr) (key : Nat) :
    Follows [⟨key, x⟩] (Parser.operations operand stop rounds x)
      (operations operand' stop rounds key) Stands := by
  induction rounds generalizing x key with
  | zero => exact Follows.pure rfl
  | succ rounds ih =>
      rw [Parser.operations, operations]
      apply bind_lift blind_current
      intro token
      cases Precedence.ofToken? token.kind with
      | none => exact Follows.pure rfl
      | some precedence =>
          apply Follows.ite
          · intro _
            exact Follows.pure rfl
          · intro _
            apply (operation_follows hoperand x key).bind
            rintro y result _ rfl
            exact ih y result

end Operands

theorem expression_follows (nesting : Nat) (stop : Precedence) :
    Follows [] (Parser.expression nesting stop) (expression nesting stop) Stands := by
  induction nesting generalizing stop with
  | zero =>
      apply bind_lift blind_current
      intro token
      exact reject_follows _ token.span
  | succ nesting ih =>
      rw [Parser.expression, expression]
      apply (leading_follows ih stop).bind
      rintro x key _ rfl
      exact bind_get (fun s => s.tokens.length) (fun _ _ => rfl)
        (f := fun n => Parser.operations (Parser.expression nesting) stop (n + 1) x)
        (g := fun n => operations (expression nesting) stop (n + 1) key)
        fun n => operations_follows ih stop (n + 1) x key

/-! ## Whole texts -/

theorem storeTarget_follows : Follows [] Parser.storeTarget storeTarget Stands := by
  rw [Parser.storeTarget, storeTarget]
  apply bind_lift blind_current
  intro token
  apply Follows.ite
  · intro _
    exact reject_follows _ token.span
  intro _
  apply bind_lift blind_advance
  intro _
  apply Follows.ite
  · intro _
    exact reject_follows _ token.span
  intro _
  apply Follows.ite
  · intro _
    exact reject_follows _ token.span
  intro _
  apply bind_lift blind_current
  intro next
  apply Follows.ite
  · intro _
    exact leaf_follows rfl
  intro _
  apply bind_lift blind_advance
  intro _
  apply bind_lift blind_current
  intro parameter
  apply Follows.ite
  · intro _
    apply bind_lift blind_advance
    intro _
    apply bind_lift (blind_expect .rightParenthesis)
    intro _
    apply (leaf_follows (x := .symbol parameter.text) rfl).bind
    rintro x key _ rfl
    exact node_follows _ ⟨rfl, rfl⟩
  · intro _
    exact reject_follows _ parameter.span

theorem statement_follows : Follows [] Parser.statement statement Stands := by
  rw [Parser.statement, statement]
  apply (expression_follows maxNesting .store).bind
  rintro value key _ rfl
  apply bind_lift blind_current
  intro token
  apply Follows.ite
  · intro _
    apply bind_lift blind_advance
    intro arrow
    apply bind_look (List.mem_singleton_self _)
    apply Follows.ite
    · intro _
      exact reject_follows _ arrow.span
    · intro _
      apply storeTarget_follows.bind_new
      rintro target key' _ rfl
      exact node_follows .store ⟨rfl, rfl⟩
  · intro _
    exact Follows.pure rfl

theorem whole_follows (textEnd : Nat) :
    Follows [] (Parser.whole textEnd) (whole textEnd) Stands := by
  rw [Parser.whole, whole]
  apply statement_follows.bind
  rintro x key _ rfl
  apply bind_lift blind_current
  intro token
  apply Follows.ite
  · intro _
    exact unexpected_follows
  · intro _
    apply bind_look (List.mem_singleton_self _)
    apply Follows.ite
    · intro _
      exact reject_follows _ _
    · intro _
      exact Follows.pure rfl

end Pooled
end Parser
end PocketAlgebra
