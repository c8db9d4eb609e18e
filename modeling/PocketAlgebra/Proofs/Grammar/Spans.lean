import PocketAlgebra.Proofs.Grammar.Steps
import PocketAlgebra.Proofs.Text.Tiling

/-!
# The spans of rejections

A text that is rejected is rejected for some part of it. The part is a token, the end of the text,
or what reaches from the start of a token that has been read to the end of a later one; so it lies
within the text and begins and ends at character boundaries, wherever the reader stops.
-/

namespace PocketAlgebra

namespace Grammar

open PocketAlgebra.Parser PocketAlgebra.Token
open String (utf8Len)

/-- A reader that has come to some place of a text: it has read what stands before its tokens, and
these are laid out in the rest of the text. -/
structure Placed (text : String) (s : State) : Prop where
  last : s.last = Token.atEnd text
  laid : ∃ before rest, text.toList = before ++ rest ∧ s.previousStop = utf8Len before ∧
    Laid s.previousStop rest s.tokens

/-- The rejections for a part of a text. -/
def RefersTo (text : String) (e : ParseError) : Prop :=
  e.span.Within text

/-- A reader has gone on in its text, or has stayed where it was. -/
structure GoesOn (text : String) (s s' : State) : Prop where
  placed : Placed text s'
  ordered : s.previousStop ≤ s'.previousStop

/-- A token of a text that has been read. -/
structure Behind (text : String) (s : State) (token : Token) : Prop where
  within : token.span.Within text
  ordered : token.span.stop ≤ s.previousStop

/-- A token of a text that has not been read yet. -/
structure Ahead (text : String) (s : State) (token : Token) : Prop where
  within : token.span.Within text
  ordered : s.previousStop ≤ token.span.start

variable {text : String} {s s' s'' : State} {token next : Token}

theorem GoesOn.refl (h : Placed text s) : GoesOn text s s :=
  ⟨h, Nat.le_refl _⟩

theorem GoesOn.trans (h : GoesOn text s s') (h' : GoesOn text s' s'') : GoesOn text s s'' :=
  ⟨h'.placed, Nat.le_trans h.ordered h'.ordered⟩

theorem Behind.later (h : Behind text s token) (h' : GoesOn text s s') : Behind text s' token :=
  ⟨h.within, Nat.le_trans h.ordered h'.ordered⟩

/-- From the start of a token that has been read to the end of one that has not. -/
theorem Behind.within_ahead (h : Behind text s token) (h' : Ahead text s next) :
    Span.Within ⟨token.span.start, next.span.stop⟩ text := by
  apply h.within.start.within h'.within.stop
  exact Nat.le_trans (Nat.le_trans h.within.ordered h.ordered)
    (Nat.le_trans h'.ordered h'.within.ordered)

namespace Placed

theorem boundary (h : Placed text s) : IsBoundary text s.previousStop := by
  rcases h.laid with ⟨before, rest, htext, hstop, -⟩
  rw [hstop]
  exact isBoundary_of_append htext

/-- From the start of a token that has been read to where the reader has come. -/
theorem within_behind (h : Placed text s) (h' : Behind text s token) :
    Span.Within ⟨token.span.start, s.previousStop⟩ text :=
  h'.within.start.within h.boundary (Nat.le_trans h'.within.ordered h'.ordered)

theorem ahead (h : Placed text s) : Ahead text s (s.tokens.headD s.last) := by
  rcases s with ⟨_ | ⟨token, tokens⟩, last, previous, stop, free⟩
  · have hlast : last = Token.atEnd text := h.last
    rw [List.headD_nil, hlast]
    constructor
    · exact (isBoundary_end text).within (isBoundary_end text) (Nat.le_refl _)
    · exact h.boundary.le
  · rcases h.laid with ⟨before, rest, htext, hstop, hlaid⟩
    rcases hlaid.mem htext hstop (List.mem_cons_self) with ⟨-, hwithin, -, hordered⟩
    exact ⟨hwithin, hordered⟩

/-- What a reader has come to behind its next token. -/
theorem tail (h : Placed text s) : Placed text { s with
    tokens := s.tokens.tail, previous := (s.tokens.headD s.last).kind,
    previousStop := (s.tokens.headD s.last).span.stop } := by
  rcases s with ⟨tokens, last, previous, stop, free⟩
  refine ⟨h.last, ?_⟩
  rcases h.laid with ⟨before, rest, htext, hstop, hlaid⟩
  dsimp only at htext hstop hlaid ⊢
  cases hlaid with
  | done =>
      have hlast : last = Token.atEnd text := h.last
      rw [List.headD_nil, hlast]
      refine ⟨text.toList, [], (List.append_nil _).symm, ?_, .done (by simp)⟩
      exact (String.utf8Len_toList text).symm
  | @token _ gap lexeme rest kind tokens _ _ hrest =>
      refine ⟨before ++ gap ++ lexeme, rest, ?_, ?_, hrest⟩
      · rw [htext, List.append_assoc, List.append_assoc, List.append_assoc]
      · rw [List.headD_cons, hstop, String.utf8Len_append, String.utf8Len_append]

end Placed

/-! ## Steps -/

/-- A step that goes on in a text or rejects it for a part of it. -/
abbrev Stays {α : Type} (text : String) (s : State) (step : ParseM α) : Prop :=
  Ensures (RefersTo text) step s fun _ s' => GoesOn text s s'

/-- A step that does so wherever it begins. -/
abbrev StaysPlaced {α : Type} (text : String) (step : ParseM α) : Prop :=
  ∀ s, Placed text s → Stays text s step

namespace Stays

variable {α β : Type} {step : ParseM α} {f : α → ParseM β}

theorem pure {x : α} (h : Placed text s) : Stays text s (Pure.pure x) :=
  Ensures.pure (.refl h)

theorem bind (h : Stays text s step) (hnext : ∀ x s', GoesOn text s s' → Stays text s' (f x)) :
    Stays text s (step >>= f) := by
  apply Ensures.bind
  apply h.mono
  intro x s' hs'
  exact (hnext x s' hs').mono fun _ _ hs'' => hs'.trans hs''

theorem get {f : State → ParseM α} (h : Stays text s (f s)) : Stays text s (MonadState.get >>= f) :=
  Ensures.bind (Ensures.get h)

theorem current {f : Token → ParseM α} (h : Placed text s)
    (hnext : ∀ token, Ahead text s token → Stays text s (f token)) :
    Stays text s (Parser.current >>= f) := by
  apply Ensures.bind
  apply Ensures.current_next
  exact hnext _ h.ahead

theorem advance {f : Token → ParseM α} (h : Placed text s)
    (hnext : ∀ token s', GoesOn text s s' → Behind text s' token → Stays text s' (f token)) :
    Stays text s (Parser.advance >>= f) := by
  have hgoes : GoesOn text s { s with
      tokens := s.tokens.tail, previous := (s.tokens.headD s.last).kind,
      previousStop := (s.tokens.headD s.last).span.stop } :=
    ⟨h.tail, Nat.le_trans h.ahead.ordered h.ahead.within.ordered⟩
  apply Ensures.bind
  have hstays := hnext (s.tokens.headD s.last) _ hgoes ⟨h.ahead.within, Nat.le_refl _⟩
  exact hstays.mono fun _ _ hs'' => hgoes.trans hs''

theorem reject {cause : ParseError.Cause} {span : Span} (h : span.Within text) :
    Stays text s (reject cause span : ParseM α) :=
  Ensures.reject h

theorem unexpected (h : Placed text s) : Stays text s (unexpected : ParseM α) := by
  unfold Parser.unexpected
  apply Stays.current h
  intro token hahead
  split <;> exact Stays.reject hahead.within

theorem expect {f : Token → ParseM α} {kind : TokenKind} (h : Placed text s)
    (hnext : ∀ token s', GoesOn text s s' → Stays text s' (f token)) :
    Stays text s (Parser.expect kind >>= f) := by
  refine Stays.bind ?_ hnext
  unfold Parser.expect
  apply Stays.current h
  intro token _
  apply Ensures.ite
  · intro _
    have hadvance := Stays.advance (f := Pure.pure) h fun token s' hs' _ => Stays.pure hs'.placed
    rwa [bind_pure] at hadvance
  · intro _
    exact Stays.unexpected h

theorem build {x : Expr} (h : Placed text s) : Stays text s (build x) := by
  unfold Parser.build
  apply Stays.get
  apply Ensures.ite
  · intro _
    apply Stays.current h
    intro token hahead
    exact Stays.reject hahead.within
  · intro _
    exact ⟨⟨h.last, h.laid⟩, Nat.le_refl _⟩

theorem spanFrom {f : Span → ParseM α} (h : Placed text s) (h' : Behind text s token)
    (hnext : ∀ span, span.Within text → Stays text s (f span)) :
    Stays text s (spanFrom token >>= f) := by
  apply Ensures.bind
  exact hnext _ (h.within_behind h')

end Stays

/-! ## Readers -/

section Readers

variable {operand : Precedence → ParseM Expr}

theorem separated_stays (h : ∀ stop, StaysPlaced text (operand stop)) (close : TokenKind)
    (rounds : Nat) : StaysPlaced text (separated operand close rounds) := by
  induction rounds with
  | zero => exact fun s hs => Stays.unexpected hs
  | succ rounds ih =>
      intro s hs
      unfold separated
      apply (h .store s hs).bind
      intro x s₁ hs₁
      apply Stays.current hs₁.placed
      intro token _
      split
      · apply Stays.advance hs₁.placed
        intro _ s₂ hs₂ _
        apply (ih s₂ hs₂.placed).bind
        intro xs s₃ hs₃
        exact Stays.pure hs₃.placed
      · apply Ensures.ite
        · intro _
          apply Stays.advance hs₁.placed
          intro _ s₂ hs₂ _
          exact Stays.pure hs₂.placed
        · intro _
          exact Stays.unexpected hs₁.placed

theorem sequence_stays (h : ∀ stop, StaysPlaced text (operand stop)) (close : TokenKind) :
    StaysPlaced text (sequence operand close) := by
  intro s hs
  unfold Parser.sequence
  apply Stays.current hs
  intro token _
  apply Ensures.ite
  · intro _
    apply Stays.advance hs
    intro _ s₁ hs₁ _
    exact Stays.pure hs₁.placed
  · intro _
    apply Stays.get
    exact separated_stays h close _ s hs

theorem userFunction_stays (h : ∀ stop, StaysPlaced text (operand stop)) (hs : Placed text s)
    (hname : Behind text s token) : Stays text s (userFunction operand token) := by
  unfold userFunction
  apply Stays.advance hs
  intro _ s₁ hs₁ _
  apply (sequence_stays h .rightParenthesis s₁ hs₁.placed).bind
  intro arguments s₂ hs₂
  apply Stays.spanFrom hs₂.placed (hname.later (hs₁.trans hs₂))
  intro span hspan
  split
  · apply Ensures.ite
    · intro _
      exact Stays.reject hspan
    · intro _
      exact Stays.build hs₂.placed
  · exact Stays.reject hspan

theorem identifier_stays (h : ∀ stop, StaysPlaced text (operand stop)) :
    StaysPlaced text (identifier operand) := by
  intro s hs
  unfold identifier
  apply Stays.advance hs
  intro token s₁ hs₁ hbehind
  dsimp only
  split
  · exact Stays.build hs₁.placed
  · split
    · exact Stays.build hs₁.placed
    · exact Stays.build hs₁.placed
    · exact Stays.build hs₁.placed
    · apply Ensures.ite
      · intro _
        exact Stays.reject hbehind.within
      intro _
      apply Ensures.ite
      · intro _
        exact Stays.reject hbehind.within
      intro _
      apply Stays.current hs₁.placed
      intro next _
      apply Ensures.ite
      · intro _
        exact userFunction_stays h hs₁.placed hbehind
      · intro _
        exact Stays.build hs₁.placed

theorem logarithmWithSubscript_stays (h : ∀ stop, StaysPlaced text (operand stop))
    (hs : Placed text s) (hname : Behind text s token) :
    Stays text s (logarithmWithSubscript operand token) := by
  unfold logarithmWithSubscript
  apply Stays.advance hs
  intro _ s₁ hs₁ _
  apply Stays.expect hs₁.placed
  intro _ s₂ hs₂
  apply (h .store s₂ hs₂.placed).bind
  intro base s₃ hs₃
  apply Stays.expect hs₃.placed
  intro _ s₄ hs₄
  apply Stays.current hs₄.placed
  intro next _
  apply Ensures.ite
  · intro _
    exact Stays.reject hname.within
  intro _
  apply Stays.advance hs₄.placed
  intro _ s₅ hs₅ _
  apply (sequence_stays h .rightParenthesis s₅ hs₅.placed).bind
  intro arguments s₆ hs₆
  have hread := ((((hs₁.trans hs₂).trans hs₃).trans hs₄).trans hs₅).trans hs₆
  split
  · exact Stays.build hs₆.placed
  · apply Stays.spanFrom hs₆.placed (hname.later hread)
    intro span hspan
    exact Stays.reject hspan

theorem reservedCall_stays (h : ∀ stop, StaysPlaced text (operand stop)) :
    StaysPlaced text (reservedCall operand) := by
  intro s hs
  unfold reservedCall
  apply Stays.advance hs
  intro token s₁ hs₁ hbehind
  split
  · exact Stays.reject hbehind.within
  · apply Stays.current hs₁.placed
    intro next _
    apply Ensures.ite
    · intro _
      exact logarithmWithSubscript_stays h hs₁.placed hbehind
    intro _
    apply Ensures.ite
    · intro _
      exact Stays.reject hbehind.within
    intro _
    apply Stays.advance hs₁.placed
    intro _ s₂ hs₂ _
    apply (sequence_stays h .rightParenthesis s₂ hs₂.placed).bind
    intro arguments s₃ hs₃
    apply Stays.spanFrom hs₃.placed (hbehind.later (hs₂.trans hs₃))
    intro span hspan
    apply Ensures.ite
    · intro _
      exact Stays.reject hspan
    intro _
    apply Ensures.ite
    · intro _
      exact Stays.reject hspan
    · intro _
      exact Stays.build hs₃.placed

theorem matrixRows_stays (h : ∀ stop, StaysPlaced text (operand stop)) (columns : Option Nat)
    (rounds : Nat) (hs : Placed text s) (hopening : Behind text s token) :
    Stays text s (matrixRows operand token columns rounds) := by
  induction rounds generalizing s columns with
  | zero => exact Stays.unexpected hs
  | succ rounds ih =>
      unfold matrixRows
      apply Stays.current hs
      intro next hahead
      apply Ensures.ite
      · intro _
        apply Ensures.ite
        · intro _
          exact Stays.reject (hopening.within_ahead hahead)
        · intro _
          exact Stays.unexpected hs
      intro _
      apply Stays.advance hs
      intro rowOpening s₁ hs₁ hrow
      apply Stays.current hs₁.placed
      intro next hahead
      apply Ensures.ite
      · intro _
        exact Stays.reject (hrow.within_ahead hahead)
      intro _
      apply Stays.get
      apply (separated_stays h .rightBracket _ s₁ hs₁.placed).bind
      intro row s₂ hs₂
      apply Ensures.ite
      · intro _
        apply Stays.spanFrom hs₂.placed (hrow.later hs₂)
        intro span hspan
        exact Stays.reject hspan
      intro _
      have hread := hs₁.trans hs₂
      apply Stays.current hs₂.placed
      intro next _
      split
      · apply Stays.advance hs₂.placed
        intro _ s₃ hs₃ _
        apply (ih _ hs₃.placed (hopening.later (hread.trans hs₃))).bind
        intro rows s₄ hs₄
        exact Stays.pure hs₄.placed
      · apply Stays.advance hs₂.placed
        intro _ s₃ hs₃ _
        exact Stays.pure hs₃.placed
      · apply (ih _ hs₂.placed (hopening.later hread)).bind
        intro rows s₃ hs₃
        exact Stays.pure hs₃.placed

theorem matrix_stays (h : ∀ stop, StaysPlaced text (operand stop)) :
    StaysPlaced text (matrix operand) := by
  intro s hs
  unfold matrix
  apply Stays.advance hs
  intro opening s₁ hs₁ hopening
  apply Stays.get
  apply (matrixRows_stays h none _ hs₁.placed hopening).bind
  intro rows s₂ hs₂
  exact Stays.build hs₂.placed

theorem leading_stays (h : ∀ stop, StaysPlaced text (operand stop)) (stop : Precedence) :
    StaysPlaced text (leading operand stop) := by
  intro s hs
  unfold leading
  apply Stays.current hs
  intro token _
  split
  · apply Stays.advance hs
    intro _ s₁ hs₁ _
    apply (h _ s₁ hs₁.placed).bind
    intro x s₂ hs₂
    exact Stays.build hs₂.placed
  · apply Stays.advance hs
    intro number s₁ hs₁ _
    exact Stays.build hs₁.placed
  · exact identifier_stays h s hs
  · exact reservedCall_stays h s hs
  · apply Stays.advance hs
    intro _ s₁ hs₁ _
    apply (h .store s₁ hs₁.placed).bind
    intro x s₂ hs₂
    apply Stays.expect hs₂.placed
    intro _ s₃ hs₃
    exact Stays.build hs₃.placed
  · exact matrix_stays h s hs
  · apply Stays.advance hs
    intro _ s₁ hs₁ _
    apply (sequence_stays h .rightBrace s₁ hs₁.placed).bind
    intro elements s₂ hs₂
    exact Stays.build hs₂.placed
  · exact Stays.unexpected hs

theorem infixOperator_stays (h : ∀ stop, StaysPlaced text (operand stop)) (left : Expr)
    (f : Operator) (stop : Precedence) : StaysPlaced text (infixOperator operand left f stop) := by
  intro s hs
  unfold infixOperator
  apply Stays.advance hs
  intro _ s₁ hs₁ _
  apply (h stop s₁ hs₁.placed).bind
  intro right s₂ hs₂
  exact Stays.build hs₂.placed

theorem operation_stays (h : ∀ stop, StaysPlaced text (operand stop)) (left : Expr) :
    StaysPlaced text (operation operand left) := by
  intro s hs
  unfold operation
  apply Stays.current hs
  intro token hahead
  split
  · exact infixOperator_stays h left _ _ s hs
  · exact infixOperator_stays h left _ _ s hs
  · exact infixOperator_stays h left _ _ s hs
  · exact infixOperator_stays h left _ _ s hs
  · exact infixOperator_stays h left _ _ s hs
  · apply Stays.advance hs
    intro _ s₁ hs₁ _
    exact Stays.build hs₁.placed
  · apply Ensures.ite
    · intro _
      exact Stays.reject hahead.within
    · intro _
      exact infixOperator_stays h left _ _ s hs
  · apply Stays.get
    apply Ensures.ite
    · intro _
      exact Stays.unexpected hs
    · intro _
      apply (h .implicitTimes s hs).bind
      intro right s₁ hs₁
      exact Stays.build hs₁.placed

theorem operations_stays (h : ∀ stop, StaysPlaced text (operand stop)) (stop : Precedence)
    (rounds : Nat) (left : Expr) : StaysPlaced text (operations operand stop rounds left) := by
  induction rounds generalizing left with
  | zero => exact fun s hs => Stays.pure hs
  | succ rounds ih =>
      intro s hs
      unfold operations
      apply Stays.current hs
      intro token _
      split
      · exact Stays.pure hs
      · apply Ensures.ite
        · intro _
          exact Stays.pure hs
        · intro _
          apply (operation_stays h left s hs).bind
          intro x s₁ hs₁
          exact ih x s₁ hs₁.placed

end Readers

theorem expression_stays (nesting : Nat) (stop : Precedence) :
    StaysPlaced text (expression nesting stop) := by
  induction nesting generalizing stop with
  | zero =>
      intro s hs
      unfold expression
      apply Stays.current hs
      intro token hahead
      exact Stays.reject hahead.within
  | succ nesting ih =>
      intro s hs
      unfold expression
      apply (leading_stays ih stop s hs).bind
      intro first s₁ hs₁
      apply Stays.get
      exact operations_stays ih stop _ first s₁ hs₁.placed

theorem storeTarget_stays : StaysPlaced text storeTarget := by
  intro s hs
  unfold storeTarget
  apply Stays.current hs
  intro token hahead
  apply Ensures.ite
  · intro _
    exact Stays.reject hahead.within
  intro _
  apply Stays.advance hs
  intro _ s₁ hs₁ _
  apply Ensures.ite
  · intro _
    exact Stays.reject hahead.within
  intro _
  apply Ensures.ite
  · intro _
    exact Stays.reject hahead.within
  intro _
  apply Stays.current hs₁.placed
  intro next _
  apply Ensures.ite
  · intro _
    exact Stays.build hs₁.placed
  intro _
  apply Stays.advance hs₁.placed
  intro _ s₂ hs₂ _
  apply Stays.current hs₂.placed
  intro parameter hparameter
  apply Ensures.ite
  · intro _
    apply Stays.advance hs₂.placed
    intro _ s₃ hs₃ _
    apply Stays.expect hs₃.placed
    intro _ s₄ hs₄
    apply (Stays.build hs₄.placed).bind
    intro argument s₅ hs₅
    exact Stays.build hs₅.placed
  · intro _
    exact Stays.reject hparameter.within

theorem statement_stays : StaysPlaced text statement := by
  intro s hs
  unfold statement
  apply (expression_stays _ _ s hs).bind
  intro value s₁ hs₁
  apply Stays.current hs₁.placed
  intro next _
  apply Ensures.ite
  · intro _
    apply Stays.advance hs₁.placed
    intro arrow s₂ hs₂ harrow
    apply Ensures.ite
    · intro _
      exact Stays.reject harrow.within
    · intro _
      apply (storeTarget_stays s₂ hs₂.placed).bind
      intro target s₃ hs₃
      exact Stays.build hs₃.placed
  · intro _
    exact Stays.pure hs₁.placed

theorem whole_stays : StaysPlaced text (whole text.utf8ByteSize) := by
  intro s hs
  unfold whole
  apply (statement_stays s hs).bind
  intro x s₁ hs₁
  apply Stays.current hs₁.placed
  intro next _
  apply Ensures.ite
  · intro _
    exact Stays.unexpected hs₁.placed
  intro _
  apply Ensures.ite
  · intro _
    apply Stays.reject
    exact (isBoundary_of_append (List.nil_append _).symm).within (isBoundary_end text)
      (Nat.zero_le _)
  · intro _
    exact Stays.pure hs₁.placed

theorem placed_start (text : String) (free : Nat) :
    Placed text ⟨Token.scan text, Token.atEnd text, .endOfStream, 0, free⟩ :=
  ⟨rfl, [], text.toList, rfl, rfl, laid_scanAt 0 text.toList⟩

/-- A text is rejected for a part of it. -/
theorem within_of_parse {free : Nat} {e : ParseError} (h : Expr.parse free text = .error e) :
    e.span.Within text := by
  have hstays := whole_stays _ (placed_start text free)
  rw [Expr.parse] at h
  cases hwhole : whole text.utf8ByteSize
      ⟨Token.scan text, Token.atEnd text, .endOfStream, 0, free⟩ with
  | ok r =>
      rw [hwhole] at h
      cases h
  | error e' =>
      rw [hwhole] at h
      cases h
      rw [Stays, Ensures, hwhole] at hstays
      exact hstays

end Grammar

namespace Token

/-- Tokens tile their text. Taken one by one, they are those of the text, and then its end for ever;
none is empty, each is the part of the text at its span, and they stand one behind the other with
nothing but blanks between them. Where a text is rejected, it is for a part of it. -/
theorem scan_tiles (text : String) :
    (∀ n, (Cursor.ofText text).nth n = (scan text).getD n (atEnd text)) ∧
    (∀ token ∈ scan text, token.kind ≠ .endOfStream ∧ token.text ≠ "" ∧
      token.span.Within text ∧ token.span.slice text = token.text) ∧
    (scan text).Pairwise (fun first second => first.span.stop ≤ second.span.start) ∧
    (∀ gap ∈ gaps 0 text.utf8ByteSize (scan text),
      gap.Within text ∧ ∀ c ∈ (gap.slice text).toList, isBlank c = true) ∧
    ∀ free e, Expr.parse free text = .error e → e.span.Within text := by
  have hlaid : Laid 0 text.toList (scan text) := laid_scanAt 0 text.toList
  have hwhole : text.toList = [] ++ text.toList := rfl
  refine ⟨?_, ?_, ?_, ?_, ?_⟩
  · intro n
    rw [Cursor.nth_eq, Cursor.ending_ofText]
    rfl
  · intro token htoken
    rcases hlaid.mem hwhole rfl htoken with ⟨hne, hwithin, hslice, -⟩
    exact ⟨Grammar.scan_kind_ne htoken, hne, hwithin, hslice⟩
  · exact hlaid.pairwise hwhole rfl
  · intro gap hgap
    exact hlaid.gaps hwhole rfl hgap
  · intro free e h
    exact Grammar.within_of_parse h

end Token

end PocketAlgebra
