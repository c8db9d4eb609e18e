import Mathlib.Tactic.SplitIfs
import PocketAlgebra.Proofs.Ensures
import PocketAlgebra.Proofs.Grammar.Derivation

/-!
# Steps of reading phrases

What a step of the reader takes from the tokens before it and which phrases the strength of the
operators stands for, as far as it is needed both to show that what is read is a phrase and that
every phrase is read.
-/

namespace PocketAlgebra

namespace Grammar

open PocketAlgebra.Parser

/-! ## Steps -/

/-- The kind of the first one of the tokens that are left. -/
def nextKind (ts : List Token) : TokenKind :=
  (ts.head?.map Token.kind).getD .endOfStream

/-- Reading has taken the tokens `ts` on the way from one state to another one. -/
structure Consumes (s : State) (ts : List Token) (s' : State) : Prop where
  tokens : s.tokens = ts ++ s'.tokens
  last : s'.last = s.last
  previous : s'.previous = (ts.getLast?.map Token.kind).getD s.previous

/-- What is left behind a phrase does not go on with it: an operator binds no more strongly than
given, and no parenthesis stands behind the name of a function. -/
structure Ended (rank : Nat) (ts rest : List Token) : Prop where
  weaker : ∀ p, Precedence.ofToken? (nextKind rest) = some p → p.rank ≤ rank
  uncalled : ∀ name ∈ ts.getLast?, ∀ next ∈ rest.head?, ¬ Calls name next

theorem kind_next {s : State} (hlast : s.last.kind = .endOfStream) :
    (s.tokens.headD s.last).kind = nextKind s.tokens := by
  cases hs : s.tokens with
  | nil => exact hlast
  | cons token tokens => rfl

theorem Consumes.refl (s : State) : Consumes s [] s :=
  ⟨rfl, rfl, rfl⟩

theorem Consumes.trans {s s' s'' : State} {ts us : List Token} (h : Consumes s ts s')
    (h' : Consumes s' us s'') : Consumes s (ts ++ us) s'' := by
  refine ⟨?_, h'.last.trans h.last, ?_⟩
  · rw [h.tokens, h'.tokens, List.append_assoc]
  · rw [h'.previous, h.previous, List.getLast?_append]
    cases us.getLast? <;> rfl

theorem Consumes.ending {s s' : State} {ts : List Token} (h : Consumes s ts s')
    (hlast : s.last.kind = .endOfStream) : s'.last.kind = .endOfStream := by
  rw [h.last, hlast]

theorem current_bind {α : Type} (next : Token → ParseM α) (s : State) :
    (current >>= next) s = next (s.tokens.headD s.last) s :=
  rfl

theorem head_kind {rest : List Token} {token : Token} (h : token ∈ rest.head?) :
    token.kind = nextKind rest := by
  rw [nextKind, Option.mem_def.mp h, Option.map_some, Option.getD_some]

namespace Ensures

variable {α : Type} {s : State} {post : α → State → Prop} {causes : ParseError → Prop}

theorem reject {cause : ParseError.Cause} {span : Span} (h : causes ⟨cause, span⟩) :
    Ensures causes (reject cause span : ParseM α) s post :=
  h

theorem unexpected : Ensures anyCause (unexpected : ParseM α) s post := by
  rcases s with ⟨_ | ⟨⟨kind, text, span⟩, rest⟩, ⟨kind', text', span'⟩, previous, stop, free⟩
  · cases kind' <;> trivial
  · cases kind <;> trivial

theorem get {post : State → State → Prop} (h : post s s) :
    Ensures causes (MonadState.get : ParseM State) s post :=
  h

theorem spanFrom {token : Token} {post : Span → State → Prop} (h : ∀ span, post span s) :
    Ensures causes (spanFrom token) s post :=
  h _

theorem current_next {post : Token → State → Prop} (h : post (s.tokens.headD s.last) s) :
    Ensures causes current s post :=
  h

theorem current {post : Token → State → Prop} (hlast : s.last.kind = .endOfStream)
    (h : ∀ token, token.kind = nextKind s.tokens → post token s) :
    Ensures causes current s post :=
  current_next (h _ (kind_next hlast))

theorem advance_next {post : Token → State → Prop} (hkind : nextKind s.tokens ≠ .endOfStream)
    (h : ∀ s', Consumes s [s.tokens.headD s.last] s' → post (s.tokens.headD s.last) s') :
    Ensures causes advance s post := by
  rcases s with ⟨_ | ⟨token, rest⟩, last, previous, stop, free⟩
  · exact absurd rfl hkind
  · exact h _ ⟨rfl, rfl, rfl⟩

theorem advance {post : Token → State → Prop} (hkind : nextKind s.tokens ≠ .endOfStream)
    (h : ∀ token s', token.kind = nextKind s.tokens → Consumes s [token] s' → post token s') :
    Ensures causes advance s post := by
  apply advance_next hkind
  intro s' hcons
  apply h _ s' ?_ hcons
  rw [hcons.tokens]
  rfl

theorem expect {post : Token → State → Prop} (kind : TokenKind)
    (hlast : s.last.kind = .endOfStream) (hkind : kind ≠ .endOfStream)
    (h : ∀ token s', token.kind = kind → Consumes s [token] s' → post token s') :
    Ensures anyCause (expect kind) s post := by
  unfold Parser.expect
  apply Ensures.bind
  apply Ensures.current hlast
  intro token htoken
  apply Ensures.ite
  · rintro rfl
    apply Ensures.advance (htoken ▸ hkind)
    rw [← htoken]
    exact h
  · intro _
    exact Ensures.unexpected

theorem build {post : Expr → State → Prop} {x : Expr}
    (hcauses : ∀ shortage span, causes ⟨.allocationFailure shortage, span⟩)
    (h : ∀ s', Consumes s [] s' → post x s') : Ensures causes (build x) s post := by
  unfold Parser.build
  apply Ensures.bind
  apply Ensures.get
  apply Ensures.ite
  · intro _
    exact hcauses _ _
  · intro _
    exact h _ ⟨rfl, rfl, rfl⟩

section Known

variable {token : Token} {rest : List Token} {post : Token → State → Prop}

/-- The next token is the first one of those that are left. -/
theorem see (hs : s.tokens = token :: rest) (h : post token s) :
    Ensures causes Parser.current s post := by
  apply current_next
  rwa [hs]

theorem take (hs : s.tokens = token :: rest)
    (h : ∀ s', Consumes s [token] s' → s'.tokens = rest → post token s') :
    Ensures causes Parser.advance s post := by
  rcases s with ⟨tokens, last, previous, stop, free⟩
  obtain rfl : tokens = token :: rest := hs
  exact h _ ⟨rfl, rfl, rfl⟩ rfl

theorem expect_take (hs : s.tokens = token :: rest)
    (h : ∀ s', Consumes s [token] s' → s'.tokens = rest → post token s') :
    Ensures causes (Parser.expect token.kind) s post := by
  unfold Parser.expect
  apply Ensures.bind
  apply Ensures.see hs
  apply Ensures.ite
  · intro _
    exact Ensures.take hs h
  · intro hother
    exact absurd rfl hother

end Known

end Ensures

/-! ## What follows a phrase -/

theorem rank_le_factorial (p : Precedence) : p.rank ≤ 8 := by
  cases p <;> decide

theorem Ended.append {rank : Nat} (ts : List Token) {us rest : List Token}
    (h : Ended rank us rest) (hus : us ≠ []) : Ended rank (ts ++ us) rest := by
  refine ⟨h.weaker, ?_⟩
  intro name hname
  apply h.uncalled
  rwa [List.getLast?_append, List.getLast?_eq_some_getLast hus, Option.some_or,
    ← List.getLast?_eq_some_getLast hus] at hname

/-- Behind a token that is no name of a function, anything may stand. -/
theorem Ended.of_last (ts : List Token) {rest : List Token} {last : Token}
    (h : last.kind ≠ .identifier) : Ended 8 (ts ++ [last]) rest := by
  refine ⟨fun p _ => rank_le_factorial p, ?_⟩
  rw [List.getLast?_concat]
  intro name hname next _ hcalls
  obtain rfl : last = name := by simpa using hname
  exact h hcalls.1

theorem Enclosed.ended {opening closing : TokenKind} {ts us rest : List Token}
    (h : Enclosed opening closing us ts) (hclosing : closing ≠ .identifier) : Ended 8 ts rest := by
  cases h with
  | @intro first last _ hlast => exact .of_last (first :: us) (hlast ▸ hclosing)

/-! ## The strength of operators -/

/-- What is read behind an operator at which reading an operand stops. -/
def operandPhrase : Precedence → Phrase
  | .store => .comparison
  | .comparison => .sum
  | .plus => .difference
  | .minus => .negation
  | .times => .factor
  | .slash => .divisor
  | .implicitTimes | .power | .factorial => .exponent

/-- The phrase that an operation of the given precedence is. -/
def wholePhrase : Precedence → Phrase
  | .store | .comparison => .comparison
  | .plus => .sum
  | .minus => .difference
  | .times => .product
  | .slash => .quotient
  | .implicitTimes => .adjacency
  | .power => .power
  | .factorial => .factorial

/-- The phrase that its left operand is; that of a relation has to be a sum as well. -/
def leftPhrase : Precedence → Phrase
  | .power => .factorial
  | p => wholePhrase p

/-- What has been read is the left operand of an operator that binds more strongly than the one
before it, and no more strongly than what has been read. -/
theorem left_includes {stop p : Precedence} {q : Phrase} (hstop : stop.rank < p.rank)
    (hq : (operandPhrase stop).includes q = true) (hp : p.rank ≤ q.reach) :
    (leftPhrase p).includes q = true := by
  revert hstop hq hp
  cases p <;> cases stop <;> cases q <;> decide

theorem whole_included {stop p : Precedence} (hstop : stop.rank < p.rank) :
    (operandPhrase stop).includes (wholePhrase p) = true := by
  revert hstop
  cases p <;> cases stop <;> decide

/-- The operators between operands: their tokens, how strongly they bind, and where the operand
behind them ends. -/
inductive Infix : TokenKind → Operator → Precedence → Precedence → Prop where
  | comparison (relation : Relation) :
    Infix (.comparison relation) (.comparison relation) .comparison .comparison
  | plus : Infix .plus .addition .plus .plus
  | minus : Infix .minus .subtraction .minus .minus
  | times : Infix .times .multiplication .times .times
  | slash : Infix .slash .division .slash .slash
  | caret : Infix .caret .power .power .implicitTimes

theorem ofToken?_cases {kind : TokenKind} {p : Precedence} (h : Precedence.ofToken? kind = some p) :
    (∃ f stop, Infix kind f p stop) ∨ kind = .bang ∧ p = .factorial ∨
      kind.startsOperand = true ∧ p = .implicitTimes := by
  cases kind <;> cases h
  case plus => exact .inl ⟨_, _, .plus⟩
  case minus => exact .inl ⟨_, _, .minus⟩
  case times => exact .inl ⟨_, _, .times⟩
  case slash => exact .inl ⟨_, _, .slash⟩
  case caret => exact .inl ⟨_, _, .caret⟩
  case comparison relation => exact .inl ⟨_, _, .comparison relation⟩
  case bang => exact .inr (.inl ⟨rfl, rfl⟩)
  all_goals exact .inr (.inr ⟨rfl, rfl⟩)

/-- The operand behind a sign is a phrase that may have the sign before it. -/
theorem signed_operand {stop : Precedence} (hstop : stop.rank ≤ Precedence.implicitTimes.rank) :
    (stop.max .minus).rank ≤ Precedence.implicitTimes.rank ∧
      (operandPhrase stop).includes (operandPhrase (stop.max .minus)) = true ∧
      (operandPhrase (stop.max .minus)).isSigned = true ∧
      (operandPhrase (stop.max .minus)).reach = (stop.max .minus).rank := by
  cases stop with
  | power => exact absurd hstop (by decide)
  | factorial => exact absurd hstop (by decide)
  | _ => decide

section Operators

variable {operand : Precedence → ParseM Expr} {s : State} {x : Expr} {f : Operator}
  {p stop : Precedence} {kind : TokenKind} {ts : List Token} {post : Expr → State → Prop}

theorem Infix.reach (h : Infix kind f p stop) :
    (wholePhrase p).reach = stop.rank ∧ stop.rank ≤ Precedence.implicitTimes.rank := by
  cases h <;> decide

/-- The left operand of an operation with a relation is no such operation itself. -/
theorem Infix.joins (h : Infix kind f p stop) (hx : Derives (leftPhrase p) ts x)
    (hchain : p = .comparison → x.kind ≠ .comparison) :
    ∃ left, Joins (wholePhrase p) left kind (operandPhrase stop) f ∧ Derives left ts x := by
  cases h with
  | comparison relation =>
      exact ⟨.sum, .comparison relation, hx.sum_of_comparison (hchain rfl)⟩
  | plus => exact ⟨_, .sum, hx⟩
  | minus => exact ⟨_, .difference, hx⟩
  | times => exact ⟨_, .product, hx⟩
  | slash => exact ⟨_, .quotient, hx⟩
  | caret => exact ⟨_, .power, hx⟩

/-- Before an operator between operands, the operator and the operand behind it are read. -/
theorem operation_between (hlast : s.last.kind = .endOfStream)
    (h : Infix (nextKind s.tokens) f p stop) (hchain : p = .comparison → x.kind ≠ .comparison) :
    operation operand x s = infixOperator operand x f stop s := by
  have hkind := kind_next hlast
  rw [operation, current_bind]
  generalize nextKind s.tokens = kind at h hkind
  cases h with
  | comparison relation =>
      rw [hkind]
      dsimp only
      rw [if_neg (hchain rfl)]
  | _ => rw [hkind]

/-- A relation behind an operation with another relation is rejected. -/
theorem operation_chained {relation : Relation} (hlast : s.last.kind = .endOfStream)
    (h : nextKind s.tokens = .comparison relation) (hchain : x.kind = .comparison) :
    Ensures anyCause (operation operand x) s post := by
  have hkind := kind_next hlast
  rw [Ensures, operation, current_bind, hkind, h]
  dsimp only
  rw [if_pos hchain]
  trivial

theorem operation_bang (hlast : s.last.kind = .endOfStream) (h : nextKind s.tokens = .bang) :
    operation operand x s = (advance >>= fun _ => build (.apply .factorial [x])) s := by
  have hkind := kind_next hlast
  rw [operation, current_bind, hkind, h]

/-- Before an operand, this is read as a factor, unless two numbers would meet. -/
theorem operation_factor (hlast : s.last.kind = .endOfStream)
    (h : (nextKind s.tokens).startsOperand = true) :
    operation operand x s =
      (if nextKind s.tokens = .number ∧ s.previous = .number then unexpected
        else operand .implicitTimes >>= fun y => build (.apply .multiplication [x, y])) s := by
  have hkind := kind_next hlast
  rw [operation, current_bind, hkind]
  generalize nextKind s.tokens = kind at h
  cases kind <;> cases h
  case number =>
    have hmeet : (TokenKind.number = .number && s.previous = .number) =
        decide (TokenKind.number = .number ∧ s.previous = .number) := by simp
    show (if (TokenKind.number = .number && s.previous = .number) = true then unexpected
      else _) s = _
    rw [hmeet]
    simp only [decide_eq_true_eq]
  all_goals rfl

end Operators

/-! ## Names -/

theorem symbol?_eq_some {x : Expr} {name : String} : x.symbol? = some name ↔ x = .symbol name := by
  cases x <;> simp [Expr.symbol?]

theorem bindsLegally_iff {xs : List Expr} :
    bindsLegally xs = true ↔
      ∃ name, xs[1]? = some (.symbol name) ∧ isReservedName name = false := by
  rw [bindsLegally, Option.any_eq_true]
  constructor
  · rintro ⟨name, hname, hfree⟩
    rcases Option.bind_eq_some_iff.mp hname with ⟨x, hx, hsymbol⟩
    rw [symbol?_eq_some] at hsymbol
    exact ⟨name, hsymbol ▸ hx, by simpa using hfree⟩
  · rintro ⟨name, hname, hfree⟩
    refine ⟨name, ?_, by simpa using hfree⟩
    rw [hname]
    rfl

theorem isParameter_iff {token : Token} {function : String} :
    isParameter token function = true ↔ Assignable token ∧ token.text ≠ function := by
  simp only [isParameter, Bool.and_eq_true, decide_eq_true_eq, Bool.not_eq_true']
  constructor
  · rintro ⟨⟨⟨hkind, hfree⟩, hother⟩, hshort⟩
    exact ⟨⟨hkind, hfree, hshort⟩, hother⟩
  · rintro ⟨⟨hkind, hfree, hshort⟩, hother⟩
    exact ⟨⟨⟨hkind, hfree⟩, hother⟩, hshort⟩

/-! ## The tokens of texts -/

/-- Every token of a text has been scanned from its first character and those behind it. -/
theorem exists_scanFrom {token : Token} {position : Nat} {cs : List Char}
    (h : token ∈ Token.scanAt position cs) :
    ∃ c rest, c :: rest <:+ cs ∧ token.kind = (Token.scanFrom c rest).1 ∧
      token.text = String.ofList (c :: rest.take (Token.scanFrom c rest).2) := by
  induction position, cs using Token.scanAt.induct with
  | case1 position => simp [Token.scanAt] at h
  | case2 position c cs hblank ih =>
      rw [Token.scanAt, if_pos hblank] at h
      rcases ih h with ⟨d, rest, hsuffix, hscan⟩
      exact ⟨d, rest, hsuffix.trans (List.suffix_cons c cs), hscan⟩
  | case3 position c cs hblank kind length hscan lexeme stop ih =>
      rw [Token.scanAt, if_neg hblank, hscan, List.mem_cons] at h
      rcases h with rfl | h
      · exact ⟨c, cs, List.suffix_refl _, by rw [hscan], by rw [hscan]⟩
      · rcases ih h with ⟨d, rest, hsuffix, htoken⟩
        have hdrop : cs.drop length <:+ c :: cs :=
          (List.drop_suffix length cs).trans (List.suffix_cons c cs)
        exact ⟨d, rest, hsuffix.trans hdrop, htoken⟩

/-- What begins with a digit or a point is a number or malformed. -/
def Numeric (kind : TokenKind) : Prop :=
  kind = .number ∨ kind = .undefined

theorem closeNumber_numeric (cs : List Char) (length : Nat) :
    Numeric (Token.closeNumber cs length).1 := by
  unfold Token.closeNumber
  split
  · split_ifs <;> simp [Numeric]
  · simp [Numeric]

theorem scanNumber_numeric (cs : List Char) : Numeric (Token.scanNumber cs).1 := by
  unfold Token.scanNumber
  dsimp only
  have hundefined : ∀ length : Nat, Numeric (TokenKind.undefined, length).1 := by
    simp [Numeric]
  split_ifs <;> first
    | exact hundefined _
    | exact closeNumber_numeric _ _

theorem identifierKind_cases (name : String) :
    Token.identifierKind name = .reservedFunction ∨
      Token.identifierKind name = .identifier ∧ reservedFunction? name = none := by
  unfold Token.identifierKind
  split_ifs with h
  · exact .inl rfl
  · exact .inr ⟨rfl, by simpa using h⟩

/-- The end of a text is no token of it. -/
theorem scan_kind_ne {text : String} {token : Token} (h : token ∈ Token.scan text) :
    token.kind ≠ .endOfStream := by
  rcases exists_scanFrom h with ⟨c, rest, -, hkind, -⟩
  rw [hkind]
  unfold Token.scanFrom
  split_ifs
  · dsimp only
    rcases scanNumber_numeric (c :: rest) with hnumber | hnumber <;> rw [hnumber] <;> nofun
  · dsimp only
    rcases identifierKind_cases (String.ofList (c :: rest.take (Token.identifierLength rest))) with
      hname | ⟨hname, -⟩ <;> rw [hname] <;> nofun
  · unfold Token.scanSign
    split <;> try split_ifs
    all_goals nofun

end Grammar

end PocketAlgebra
