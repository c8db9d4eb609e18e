import PocketAlgebra.Proofs.Text.Lexing
import PocketAlgebra.Text.Parser
import PocketAlgebra.Text.Printer

/-!
# Reading operands and operators

The steps of the reader reject a text whose first tokens are known for its depth, or they take what
they are to take and leave what follows it. So where a text begins with what an expression is
written with, and what follows does not break the expression up, it is this expression that is read.
-/

namespace PocketAlgebra
namespace Parser

open PocketAlgebra.Token

/-! ## Steps of reading -/

/-- A step rejects the text for its depth, and only where the text is deep, or ends as described. -/
def Settles {α : Type} (deep : Prop) (step : ParseM α) (s : State)
    (post : α → State → Prop) : Prop :=
  (deep ∧ ∃ span, step s = .error ⟨.nestingTooDeep, span⟩) ∨
    ∃ x s', step s = .ok (x, s') ∧ post x s'

/-- The text that is to be read. -/
structure At (s : State) (cs : List Char) : Prop where
  tokens : s.tokens.map Token.lexeme = lexemes cs
  last : s.last.kind = .endOfStream

/-- The state `s'` is reached from `s` with the text `cs` left, by charging so many bytes. -/
structure Reached (s : State) (cs : List Char) (charge : Nat) (s' : State) : Prop where
  at_rest : At s' cs
  charged : s'.free + charge = s.free
  shorter : s'.tokens.length ≤ s.tokens.length

theorem Reached.trans {s s' s'' : State} {cs cs' : List Char} {charge charge' : Nat}
    (h : Reached s cs charge s') (h' : Reached s' cs' charge' s'') :
    Reached s cs' (charge + charge') s'' := by
  have hfirst := h.charged
  have hsecond := h'.charged
  exact ⟨h'.at_rest, by omega, Nat.le_trans h'.shorter h.shorter⟩

namespace Settles

variable {α β : Type} {deep : Prop} {step : ParseM α} {next : α → ParseM β} {s : State}
  {post : α → State → Prop} {after : β → State → Prop} {cs rest : List Char}

theorem pure {x : α} (h : post x s) : Settles deep (Pure.pure x) s post :=
  Or.inr ⟨x, s, rfl, h⟩

theorem bind (h : Settles deep step s fun x s' => Settles deep (next x) s' after) :
    Settles deep (step >>= next) s after := by
  rcases h with ⟨hdeep, span, herror⟩ | ⟨x, s', hok, hnext⟩
  · apply Or.inl
    refine ⟨hdeep, span, ?_⟩
    show (step s >>= fun r => next r.1 r.2) = _
    rw [herror]
    rfl
  · have hbind : (step >>= next) s = next x s' := by
      show (step s >>= fun r => next r.1 r.2) = _
      rw [hok]
      rfl
    unfold Settles
    rw [hbind]
    exact hnext

theorem get {post : State → State → Prop} (h : post s s) :
    Settles deep (MonadState.get : ParseM State) s post :=
  Or.inr ⟨s, s, rfl, h⟩

theorem current_lexeme {post : Token → State → Prop} {kind : TokenKind} {text : String}
    (hat : At s cs) (hlexemes : (lexemes cs).head? = some (kind, text))
    (h : ∀ token, token.kind = kind → token.text = text → post token s) :
    Settles deep Parser.current s post := by
  refine Or.inr ⟨s.tokens.headD s.last, s, rfl, ?_⟩
  rw [← hat.tokens, List.head?_map, Option.map_eq_some_iff] at hlexemes
  rcases hlexemes with ⟨token, htoken, hlexeme⟩
  have hboth : token.kind = kind ∧ token.text = text := by
    simpa [Token.lexeme] using hlexeme
  rw [List.headD_eq_head?_getD, htoken, Option.getD_some]
  exact h token hboth.1 hboth.2

theorem current {post : Token → State → Prop} (hat : At s cs)
    (h : ∀ token, token.kind = firstKind cs → post token s) :
    Settles deep Parser.current s post := by
  refine Or.inr ⟨s.tokens.headD s.last, s, rfl, h _ ?_⟩
  have htokens := hat.tokens
  cases hs : s.tokens with
  | nil =>
      rw [hs, List.map_nil] at htokens
      rw [firstKind, ← htokens]
      exact hat.last
  | cons token tokens =>
      rw [hs, List.map_cons] at htokens
      rw [firstKind, ← htokens]
      rfl

theorem current_plain {post : Token → State → Prop} {c : Char} (kind : TokenKind)
    (hat : At s (c :: rest)) (hplain : (c, kind) ∈ plainSigns)
    (h : ∀ token, token.kind = kind → post token s) : Settles deep Parser.current s post := by
  apply current hat
  intro token hkind
  rw [firstKind_plain rest hplain] at hkind
  exact h token hkind

theorem advance {post : Token → State → Prop} {kind : TokenKind} {text : String}
    (hat : At s cs) (hlexemes : lexemes cs = (kind, text) :: lexemes rest)
    (h : ∀ token s', token.kind = kind → token.text = text → Reached s rest 0 s' →
      s'.tokens.length < s.tokens.length → post token s') :
    Settles deep Parser.advance s post := by
  have htokens := hat.tokens
  rw [hlexemes] at htokens
  rcases List.map_eq_cons_iff.mp htokens with ⟨token, tokens, hs, htoken, hrest⟩
  have hkind : token.kind = kind ∧ token.text = text := by
    simpa [Token.lexeme] using htoken
  have hlength : s.tokens.tail.length < s.tokens.length := by
    rw [hs]
    simp
  let s' : State :=
    { s with tokens := s.tokens.tail, previous := token.kind, previousStop := token.span.stop }
  have hadvance : Parser.advance s = .ok (token, s') := by
    show Except.ok (s.tokens.headD s.last,
      ({ s with
        tokens := s.tokens.tail
        previous := (s.tokens.headD s.last).kind
        previousStop := (s.tokens.headD s.last).span.stop } : State)) = _
    simp only [hs, List.headD_cons, s', List.tail_cons]
  refine Or.inr ⟨token, s', hadvance, h token s' hkind.1 hkind.2 ⟨⟨?_, hat.last⟩, ?_, ?_⟩ hlength⟩
  · show s.tokens.tail.map Token.lexeme = lexemes rest
    rw [hs]
    exact hrest
  · rfl
  · exact Nat.le_of_lt hlength

theorem advance_plain {post : Token → State → Prop} {c : Char} (kind : TokenKind)
    (hat : At s (c :: rest)) (hplain : (c, kind) ∈ plainSigns)
    (h : ∀ token s', Reached s rest 0 s' → s'.tokens.length < s.tokens.length → post token s') :
    Settles deep Parser.advance s post := by
  apply advance hat (lexemes_plain rest hplain)
  intro token s' _ _
  exact h token s'

theorem expect {post : Token → State → Prop} {kind : TokenKind} {text : String}
    (hat : At s cs) (hlexemes : lexemes cs = (kind, text) :: lexemes rest)
    (h : ∀ token s', Reached s rest 0 s' → s'.tokens.length < s.tokens.length → post token s') :
    Settles deep (Parser.expect kind) s post := by
  apply bind
  apply current hat
  intro token hkind
  have hfirst : token.kind = kind := by
    rw [hkind, firstKind, hlexemes]
    rfl
  simp only [hfirst, if_true]
  apply advance hat hlexemes
  intro token s' _ _ hreached hlength
  exact h token s' hreached hlength

theorem build {post : Expr → State → Prop} {x : Expr} (hat : At s cs)
    (hroom : x.nodeCharge ≤ s.free)
    (h : ∀ s', Reached s cs x.nodeCharge s' → post x s') :
    Settles deep (Parser.build x) s post := by
  have hfits : ¬ s.free < x.nodeCharge := by omega
  refine Or.inr ⟨x, { s with free := s.free - x.nodeCharge }, ?_, h _ ⟨⟨?_, hat.last⟩, ?_, ?_⟩⟩
  · show (if s.free < x.nodeCharge then _ else _ : ParseM Expr) s = _
    rw [if_neg hfits]
    rfl
  · exact hat.tokens
  · show s.free - x.nodeCharge + x.nodeCharge = s.free
    omega
  · exact Nat.le_refl _

/-- The last step of reading an expression charges its topmost node. -/
theorem finish {post : Expr → State → Prop} {x : Expr} {s₁ : State} {charge : Nat}
    (hreached : Reached s cs charge s₁) (hcharge : x.charge = charge + x.nodeCharge)
    (hroom : x.charge ≤ s.free)
    (h : ∀ s', Reached s cs x.charge s' → s'.tokens.length ≤ s₁.tokens.length → post x s') :
    Settles deep (Parser.build x) s₁ post := by
  have hfree := hreached.charged
  apply build hreached.at_rest (by omega)
  intro s' hreached'
  apply h s' _ hreached'.shorter
  rw [hcharge]
  exact hreached.trans hreached'

end Settles

/-! ## What follows an expression -/

/-- What follows an expression neither goes on with its last token nor is a factor without a sign
before it, and an operator binds no more strongly than given. -/
structure Ends (cs : List Char) (rank : Nat) : Prop where
  breaks : Breaks cs
  stops : ∀ p, Precedence.ofToken? (firstKind cs) = some p → p.rank ≤ rank ∧ p ≠ .implicitTimes

namespace Ends

variable {cs : List Char} {c : Char} {rank rank' : Nat}

theorem mono (h : Ends cs rank) (hrank : rank ≤ rank') : Ends cs rank' := by
  refine ⟨h.breaks, fun p hp => ?_⟩
  exact ⟨Nat.le_trans (h.stops p hp).1 hrank, (h.stops p hp).2⟩

theorem nil (rank : Nat) : Ends [] rank := by
  refine ⟨breaks_nil, fun p hp => ?_⟩
  rw [firstKind, lexemes_nil] at hp
  cases hp

theorem plain (kind : TokenKind) (cs : List Char) (hbreaks : c ∈ breakingSigns)
    (hplain : (c, kind) ∈ plainSigns)
    (hkind : ∀ p, Precedence.ofToken? kind = some p → p.rank ≤ rank ∧ p ≠ .implicitTimes) :
    Ends (c :: cs) rank := by
  refine ⟨breaks_cons hbreaks, ?_⟩
  rw [firstKind_plain cs hplain]
  exact hkind

theorem close (cs : List Char) (rank : Nat) (h : c ∈ [')', ']', '}', ',', '→']) :
    Ends (c :: cs) rank := by
  simp only [List.mem_cons, List.not_mem_nil, or_false] at h
  rcases h with rfl | rfl | rfl | rfl | rfl
  · exact plain .rightParenthesis cs (by decide) (by decide) nofun
  · exact plain .rightBracket cs (by decide) (by decide) nofun
  · exact plain .rightBrace cs (by decide) (by decide) nofun
  · exact plain .comma cs (by decide) (by decide) nofun
  · exact plain .store cs (by decide) (by decide) nofun

end Ends

/-- The strongest operator that does not break an expression up which binds as given. -/
def lastRank (precedence : Nat) : Nat :=
  if 9 ≤ precedence then 8 else if precedence = 8 then 6 else precedence - 1

theorem lastRank_of_add_two_le {rank precedence : Nat} (h : rank + 2 ≤ precedence)
    (hrank : rank ≤ 8) : rank ≤ lastRank precedence := by
  unfold lastRank
  split_ifs <;> omega

theorem lastRank_mono {p q : Nat} (h : p ≤ q) : lastRank p ≤ lastRank q := by
  unfold lastRank
  split_ifs <;> omega

theorem rank_le (p : Precedence) : p.rank ≤ 8 := by
  cases p <;> decide

/-! ## Reading an expression -/

/-- A text is read as an expression wherever the expression is not broken up by what is around it,
and the text is rejected only where the operands are nested too deeply. -/
structure Reads (text : List Char) (t : Expr) : Prop where
  opens : ∃ c rest, text = c :: rest ∧ Opens c
  compares : 2 ≤ t.precedence
  climbs : ∀ {deep : Prop} {n : Nat} {stop : Precedence} {cs : List Char} {s : State}
    {post : Expr → State → Prop}, At s (text ++ cs) → Ends cs (lastRank t.precedence) →
    stop.rank + 2 ≤ t.precedence → t.charge ≤ s.free → (n + 1 < t.depth → deep) →
    (∀ s' rounds, Reached s cs t.charge s' → s'.tokens.length < rounds →
      Settles deep (operations (expression n) stop rounds t) s' post) →
    Settles deep (expression (n + 1) stop) s post

section Operators

variable {deep : Prop} {n rounds : Nat} {stop : Precedence} {cs : List Char} {s : State}
  {post : Expr → State → Prop} {reader : Precedence → ParseM Expr} {left t : Expr}
  {text : List Char}

/-- The reader of operators stops at an operator that binds no more strongly than the given one. -/
theorem operations_stops (hat : At s cs) (hends : Ends cs stop.rank) (hpost : post left s) :
    Settles deep (operations reader stop rounds left) s post := by
  cases rounds with
  | zero => exact Settles.pure hpost
  | succ rounds =>
      rw [operations]
      apply Settles.bind
      apply Settles.current hat
      intro token hkind
      rw [hkind]
      cases hp : Precedence.ofToken? (firstKind cs) with
      | none => exact Settles.pure hpost
      | some p =>
          have hrank := (hends.stops p hp).1
          simp only [hrank, if_true]
          exact Settles.pure hpost

/-- Before an operator that binds more strongly than the given one, the operation is read. -/
theorem operations_operation {p : Precedence} (hat : At s cs)
    (hp : Precedence.ofToken? (firstKind cs) = some p) (hrank : stop.rank < p.rank)
    (h : Settles deep (operation reader left) s
      fun x s' => Settles deep (operations reader stop rounds x) s' post) :
    Settles deep (operations reader stop (rounds + 1) left) s post := by
  rw [operations]
  apply Settles.bind
  apply Settles.current hat
  intro token hkind
  have hfurther : ¬ p.rank ≤ stop.rank := by omega
  rw [hkind, hp]
  simp only [hfurther, if_false]
  exact Settles.bind h

/-- An operand is read up to an operator that binds no more strongly than the one before it. -/
theorem Reads.operand (h : Reads text t) (hat : At s (text ++ cs)) (hends : Ends cs stop.rank)
    (hstop : stop.rank + 2 ≤ t.precedence) (hroom : t.charge ≤ s.free)
    (hdeep : n < t.depth → deep) (hpost : ∀ s', Reached s cs t.charge s' → post t s') :
    Settles deep (expression n stop) s post := by
  cases n with
  | zero =>
      have hpositive : 0 < t.depth := by
        rw [Expr.depth_eq]
        omega
      exact Or.inl ⟨hdeep hpositive, _, rfl⟩
  | succ n =>
      have hlast := lastRank_of_add_two_le hstop (rank_le stop)
      apply h.climbs hat (hends.mono hlast) hstop hroom hdeep
      intro s' rounds hreached _
      exact operations_stops hreached.at_rest hends (hpost s' hreached)

/-- What is read without looking behind it is read as an expression. -/
theorem Reads.of_leading (hopens : ∃ c rest, text = c :: rest ∧ Opens c)
    (hcompares : 2 ≤ t.precedence)
    (h : ∀ {deep : Prop} {n : Nat} {stop : Precedence} {cs : List Char} {s : State}
      {post : Expr → State → Prop}, At s (text ++ cs) → Ends cs (lastRank t.precedence) →
      stop.rank + 2 ≤ t.precedence → t.charge ≤ s.free → (n + 1 < t.depth → deep) →
      (∀ s', Reached s cs t.charge s' → post t s') →
      Settles deep (leading (expression n) stop) s post) : Reads text t := by
  refine ⟨hopens, hcompares, ?_⟩
  intro deep n stop cs s post hat hends hstop hroom hdeep hpost
  rw [expression]
  apply Settles.bind
  apply h hat hends hstop hroom hdeep
  intro s' hreached
  apply Settles.bind
  apply Settles.get
  exact hpost s' _ hreached (Nat.lt_succ_self _)

end Operators

/-! ## Operators between operands -/

/-- The operators between operands: their signs, the tokens they are, how strongly they bind to the
operand before them, and where the operand behind them ends. -/
inductive Signed : Operator → List Char → TokenKind → Precedence → Precedence → Prop where
  | addition : Signed .addition ['+'] .plus .plus .plus
  | subtraction : Signed .subtraction ['-'] .minus .minus .minus
  | multiplication : Signed .multiplication ['×'] .times .times .times
  | division : Signed .division ['/'] .slash .slash .slash
  | power : Signed .power ['^'] .caret .power .implicitTimes
  | comparison (relation : Relation) :
    Signed (.comparison relation) relation.symbol.toList (.comparison relation) .comparison
      .comparison

namespace Signed

variable {f : Operator} {sign : List Char} {kind : TokenKind} {p stop : Precedence}

theorem ofToken (h : Signed f sign kind p stop) :
    Precedence.ofToken? kind = some p ∧ p ≠ .implicitTimes ∧ stop.rank ≤ p.rank := by
  cases h <;> exact ⟨rfl, by decide, by decide⟩

theorem operatorPrecedence (h : Signed f sign kind p stop) :
    Expr.operatorPrecedence f = p.rank + 1 := by
  cases h <;> rfl

theorem sign_not_opens {c : Char} (h : Opens c) : c ≠ '>' ∧ c ≠ '=' := by
  constructor <;> rintro rfl <;> revert h <;> simp only [Opens] <;> decide

theorem lexemes_sign (h : Signed f sign kind p stop) {c : Char} (cs : List Char)
    (hopens : Opens c) : ∃ text, lexemes (sign ++ c :: cs) = (kind, text) :: lexemes (c :: cs) := by
  have hhead : (c :: cs).head? ≠ some '>' ∧ (c :: cs).head? ≠ some '=' := by
    rw [List.head?_cons, Ne, Ne, Option.some.injEq, Option.some.injEq]
    exact sign_not_opens hopens
  cases h with
  | addition => exact ⟨_, lexemes_plain _ (by decide)⟩
  | subtraction => exact ⟨_, lexemes_minus hhead.1⟩
  | multiplication => exact ⟨_, lexemes_plain _ (by decide)⟩
  | division => exact ⟨_, lexemes_plain _ (by decide)⟩
  | power => exact ⟨_, lexemes_plain _ (by decide)⟩
  | comparison relation =>
      cases relation with
      | equal => exact ⟨_, lexemes_plain _ (by decide)⟩
      | notEqual => exact ⟨_, lexemes_plain _ (by decide)⟩
      | less => exact ⟨_, lexemes_less hhead.2⟩
      | lessOrEqual => exact ⟨_, lexemes_plain _ (by decide)⟩
      | greater => exact ⟨_, lexemes_greater hhead.2⟩
      | greaterOrEqual => exact ⟨_, lexemes_plain _ (by decide)⟩

theorem breaks_sign (h : Signed f sign kind p stop) (cs : List Char) : Breaks (sign ++ cs) := by
  cases h with
  | comparison relation => cases relation <;> exact breaks_cons (by decide)
  | _ => exact breaks_cons (by decide)

end Signed

section Signed

variable {deep : Prop} {f : Operator} {sign : List Char} {kind : TokenKind} {p stop : Precedence}
  {tx ty cs : List Char} {x y : Expr} {s : State} {post : Expr → State → Prop}

theorem Signed.lastRank (h : Signed f sign kind p stop) :
    lastRank (Expr.operatorPrecedence f) = stop.rank := by
  cases h <;> rfl

theorem Signed.firstKind (h : Signed f sign kind p stop) (hy : Reads ty y) (cs : List Char) :
    firstKind (sign ++ (ty ++ cs)) = kind := by
  rcases hy.opens with ⟨c, rest, rfl, hopens⟩
  rcases h.lexemes_sign (rest ++ cs) hopens with ⟨text, hlexemes⟩
  rw [Token.firstKind, List.cons_append, hlexemes]
  rfl

theorem Signed.ends (h : Signed f sign kind p stop) (hy : Reads ty y) (cs : List Char) {rank : Nat}
    (hrank : p.rank ≤ rank) : Ends (sign ++ (ty ++ cs)) rank := by
  refine ⟨h.breaks_sign _, ?_⟩
  intro q hq
  rw [h.firstKind hy, h.ofToken.1, Option.some.injEq] at hq
  subst hq
  exact ⟨hrank, h.ofToken.2.1⟩

/-- The operation that a sign stands for. -/
theorem Signed.operation {reader : Precedence → ParseM Expr} (h : Signed f sign kind p stop)
    (hat : At s cs) (hkind : Token.firstKind cs = kind)
    (hchain : p = .comparison → x.kind ≠ .comparison)
    (hnext : Settles deep (infixOperator reader x f stop) s post) :
    Settles deep (operation reader x) s post := by
  unfold Parser.operation
  apply Settles.bind
  apply Settles.current hat
  intro token htoken
  rw [htoken, hkind]
  cases h with
  | comparison relation =>
      simp only [hchain rfl, if_false]
      exact hnext
  | _ => exact hnext

/-- A sign between two operands that are read is read as the operation on them. -/
theorem Reads.signed (h : Signed f sign kind p stop) (hx : Reads tx x) (hy : Reads ty y)
    (hleft : p.rank + 1 ≤ x.precedence) (hlast : p.rank ≤ lastRank x.precedence)
    (hchain : p = .comparison → x.kind ≠ .comparison) (hright : stop.rank + 2 ≤ y.precedence) :
    Reads (tx ++ (sign ++ ty)) (.apply f [x, y]) := by
  have hprecedence : (Expr.apply f [x, y]).precedence = p.rank + 1 := h.operatorPrecedence
  have hcharge : (Expr.apply f [x, y]).charge =
      x.charge + y.charge + (Expr.apply f [x, y]).nodeCharge := by
    rw [Expr.charge_eq]
    simp only [Expr.operands, Expr.chargeAll]
    omega
  have hdepth : x.depth ≤ (Expr.apply f [x, y]).depth ∧
      y.depth + 1 ≤ (Expr.apply f [x, y]).depth := by
    simp only [Expr.depth, Expr.depthAll]
    omega
  have hcompares : 2 ≤ p.rank + 1 := by
    cases h <;> decide
  refine ⟨?_, hprecedence ▸ hcompares, ?_⟩
  · rcases hx.opens with ⟨c, rest, rfl, hopens⟩
    exact ⟨c, rest ++ (sign ++ ty), rfl, hopens⟩
  · intro deep n stop' cs s post hat hends hstop hroom hdeep hpost
    rw [hprecedence] at hstop
    have hends' : Ends cs stop.rank := by
      rw [← h.lastRank]
      exact hends
    rw [List.append_assoc, List.append_assoc] at hat
    apply hx.climbs hat (h.ends hy cs hlast) (by omega) (by omega) (fun hn => hdeep (by omega))
    intro s₁ rounds hreached hrounds
    have hp : Precedence.ofToken? (Token.firstKind (sign ++ (ty ++ cs))) = some p := by
      rw [h.firstKind hy]
      exact h.ofToken.1
    obtain ⟨rounds, rfl⟩ : ∃ k, rounds = k + 1 := ⟨rounds - 1, by omega⟩
    apply operations_operation hreached.at_rest hp (by omega)
    apply h.operation hreached.at_rest (h.firstKind hy cs) hchain
    rcases hy.opens with ⟨c, rest, hty, hopens⟩
    rcases h.lexemes_sign (rest ++ cs) hopens with ⟨text, hlexemes⟩
    rw [← List.cons_append, ← hty] at hlexemes
    apply Settles.bind
    apply Settles.advance hreached.at_rest hlexemes
    intro _ s₂ _ _ hreached₂ hshorter
    have hfree := hreached.charged
    have hfree₂ := hreached₂.charged
    apply Settles.bind
    apply hy.operand hreached₂.at_rest hends' hright (by omega) (fun hn => hdeep (by omega))
    intro s₃ hreached₃
    have hshorter₃ := hreached₃.shorter
    apply Settles.finish ((hreached.trans hreached₂).trans hreached₃) (by omega) (by omega)
    intro s₄ hreached₄ hshorter₄
    exact hpost s₄ rounds hreached₄ (by omega)

end Signed

/-! ## Signs at one operand -/

section Unary

variable {text : List Char} {x : Expr}

/-- A tree over one operand takes its charge and one level more. -/
theorem charge_unary (f : Operator) (x : Expr) :
    (Expr.apply f [x]).charge = x.charge + (Expr.apply f [x]).nodeCharge ∧
      (Expr.apply f [x]).depth = x.depth + 1 := by
  constructor
  · rw [Expr.charge_eq]
    rfl
  · simp [Expr.depth, Expr.depthAll]

theorem Reads.opposite (hx : Reads text x) (hright : 5 ≤ x.precedence) :
    Reads ('-' :: text) (.apply .opposite [x]) := by
  rcases charge_unary .opposite x with ⟨hcharge, hdepth⟩
  refine Reads.of_leading ⟨'-', text, rfl, Or.inr (Or.inr (by decide))⟩
    (show 2 ≤ 4 by decide) ?_
  intro deep n stop cs s post hat hends hstop hroom hdeep hpost
  have hlexemes : lexemes ('-' :: (text ++ cs)) = (.minus, "-") :: lexemes (text ++ cs) := by
    rcases hx.opens with ⟨c, rest, rfl, hopens⟩
    apply lexemes_minus
    rw [List.cons_append, List.head?_cons, Ne, Option.some.injEq]
    exact (Signed.sign_not_opens hopens).1
  -- the sign is read only where no stronger operator stands before it
  have hmax : stop.max .minus = .minus := by
    have hweak : stop.rank ≤ 2 := by
      have hfour : stop.rank + 2 ≤ 4 := hstop
      omega
    revert hweak
    cases stop <;> decide
  rw [List.cons_append] at hat
  unfold leading
  apply Settles.bind
  apply Settles.current hat
  intro token hkind
  have hminus : token.kind = .minus := by
    rw [hkind, firstKind, hlexemes]
    rfl
  rw [hminus]
  apply Settles.bind
  apply Settles.advance hat hlexemes
  intro _ s₁ _ _ hreached₁ _
  have hfree₁ := hreached₁.charged
  apply Settles.bind
  rw [hmax]
  have hends' : Ends cs Precedence.minus.rank := hends
  apply hx.operand hreached₁.at_rest hends' hright (by omega) (fun hn => hdeep (by omega))
  intro s₂ hreached₂
  apply Settles.finish (hreached₁.trans hreached₂) (by omega) (by omega)
  intro s₃ hreached₃ _
  exact hpost s₃ hreached₃

theorem Reads.factorial (hx : Reads text x) (hleft : 10 ≤ x.precedence) :
    Reads (text ++ ['!']) (.apply .factorial [x]) := by
  rcases charge_unary .factorial x with ⟨hcharge, hdepth⟩
  refine ⟨?_, show 2 ≤ 9 by decide, ?_⟩
  · rcases hx.opens with ⟨c, rest, rfl, hopens⟩
    exact ⟨c, rest ++ ['!'], rfl, hopens⟩
  · intro deep n stop cs s post hat hends hstop hroom hdeep hpost
    have hweak : stop.rank + 2 ≤ 9 := hstop
    have hbang : Ends ('!' :: cs) (lastRank x.precedence) := by
      have hlast : lastRank 10 ≤ lastRank x.precedence := lastRank_mono hleft
      have hends : Ends ('!' :: cs) 8 := by
        refine Ends.plain .bang cs (by decide) (by decide) ?_
        intro p hp
        cases hp
        decide
      exact hends.mono hlast
    rw [List.append_assoc, List.singleton_append] at hat
    apply hx.climbs hat hbang (by omega) (by omega) (fun hn => hdeep (by omega))
    intro s₁ rounds hreached₁ hrounds
    have hfirst : firstKind ('!' :: cs) = .bang := firstKind_plain cs (by decide)
    have hp : Precedence.ofToken? (firstKind ('!' :: cs)) = some .factorial := by
      rw [hfirst]
      rfl
    have hfurther : stop.rank < Precedence.factorial.rank := by
      show stop.rank < 8
      omega
    obtain ⟨rounds, rfl⟩ : ∃ k, rounds = k + 1 := ⟨rounds - 1, by omega⟩
    apply operations_operation hreached₁.at_rest hp hfurther
    unfold operation
    apply Settles.bind
    apply Settles.current hreached₁.at_rest
    intro token hkind
    rw [hkind, hfirst]
    apply Settles.bind
    apply Settles.advance_plain .bang hreached₁.at_rest (by decide)
    intro _ s₂ hreached₂ hshorter
    apply Settles.finish (hreached₁.trans hreached₂) (by omega) (by omega)
    intro s₃ hreached₃ hshorter₃
    exact hpost s₃ rounds hreached₃ (by omega)

theorem Reads.parenthesis (hx : Reads text x) :
    Reads ('(' :: (text ++ [')'])) (.apply .parenthesis [x]) := by
  rcases charge_unary .parenthesis x with ⟨hcharge, hdepth⟩
  refine Reads.of_leading ⟨'(', text ++ [')'], rfl, Or.inr (Or.inr (by decide))⟩
    (show 2 ≤ 10 by decide) ?_
  intro deep n stop cs s post hat hends hstop hroom hdeep hpost
  rw [List.cons_append, List.append_assoc] at hat
  unfold leading
  apply Settles.bind
  apply Settles.current_plain .leftParenthesis hat (by decide)
  intro token hfirst
  rw [hfirst]
  apply Settles.bind
  apply Settles.advance_plain .leftParenthesis hat (by decide)
  intro _ s₁ hreached₁ _
  have hfree₁ := hreached₁.charged
  apply Settles.bind
  have hends' : Ends ([')'] ++ cs) Precedence.store.rank := Ends.close cs _ (by decide)
  apply hx.operand hreached₁.at_rest hends' hx.compares (by omega) (fun hn => hdeep (by omega))
  intro s₂ hreached₂
  apply Settles.bind
  have hclose : lexemes ([')'] ++ cs) = (.rightParenthesis, ")") :: lexemes cs :=
    lexemes_plain cs (by decide)
  apply Settles.expect hreached₂.at_rest hclose
  intro _ s₃ hreached₃ _
  apply Settles.finish ((hreached₁.trans hreached₂).trans hreached₃) (by omega) (by omega)
  intro s₄ hreached₄ _
  exact hpost s₄ hreached₄

end Unary

end Parser
end PocketAlgebra
