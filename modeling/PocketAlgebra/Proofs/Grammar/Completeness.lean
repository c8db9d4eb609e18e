import PocketAlgebra.Proofs.Expr.Everywhere
import PocketAlgebra.Proofs.Grammar.Soundness

/-!
# Every expression of the grammar is read

A row of tokens that the grammar derives as an expression is read as this expression, unless the
reader runs out of room or of depth. What is read first is the phrase at the left end, and each
operator behind it makes it the left operand of a larger phrase, so each case says what is still to
be read when its own phrase has been read.
-/

namespace PocketAlgebra

namespace Grammar

open PocketAlgebra.Parser

/-- The causes that are not the fault of the tokens. -/
def Exhausting : ParseError.Cause → Prop
  | .nestingTooDeep | .allocationFailure _ => True
  | _ => False

/-- A text is rejected, and its tokens are not to blame. -/
def Exhausts (e : ParseError) : Prop :=
  Exhausting e.cause

/-- A step reads exactly these tokens as the given value. -/
def Takes {α : Type} (step : ParseM α) (s : State) (ts : List Token) (x : α) : Prop :=
  Ensures Exhausts step s fun y s' => y = x ∧ Consumes s ts s'

/-! ## What stands next -/

/-- The tokens with which a phrase may begin. -/
def TokenKind.opens (kind : TokenKind) : Bool :=
  kind.startsOperand || kind = .minus || kind = .leftBrace

/-- The tokens that may stand behind an expression as a whole. -/
def TokenKind.ends : TokenKind → Bool
  | .comma | .rightParenthesis | .rightBracket | .rightBrace | .store | .endOfStream => true
  | _ => false

theorem nextKind_append {ts : List Token} (rest : List Token) (h : ts ≠ []) :
    nextKind (ts ++ rest) = nextKind ts := by
  cases ts with
  | nil => exact absurd rfl h
  | cons token ts => rfl

theorem Derives.opens {p : Phrase} {ts : List Token} {x : Expr} (h : Derives p ts x) :
    TokenKind.opens (nextKind ts) = true := by
  have hcons : ∀ {first : Token} {ts : List Token}, nextKind (first :: ts) = first.kind := rfl
  induction h with
  | simpler _ _ ih => exact ih
  | operation _ _ hx _ ih => rwa [nextKind_append _ hx.ne_nil]
  | opposite _ hsign => rw [hcons, hsign]; rfl
  | adjacency _ hx _ ih => rwa [nextKind_append _ hx.ne_nil]
  | factorial _ hx ih => rwa [nextKind_append _ hx.ne_nil]
  | number h => rw [hcons, h]; rfl
  | name h => rw [hcons, h]; rfl
  | call h => rw [hcons, h]; rfl
  | parenthesis hts => cases hts with | intro hfirst => rw [List.cons_append, hcons, hfirst]; rfl
  | list hts => cases hts with | intro hfirst => rw [List.cons_append, hcons, hfirst]; rfl
  | matrix hts => cases hts with | intro hfirst => rw [List.cons_append, hcons, hfirst]; rfl
  | logarithm h => rw [List.cons_append, hcons, h]; rfl
  | reserved h => rw [hcons, h]; rfl

theorem Ended.of_ends {ts rest : List Token} (rank : Nat)
    (h : TokenKind.ends (nextKind rest) = true) : Ended rank ts rest := by
  constructor
  · intro p hp
    generalize nextKind rest = kind at h hp
    cases kind <;> cases h <;> cases hp
  · rintro name - next hnext ⟨-, -, hparenthesis⟩
    rw [← head_kind hnext, hparenthesis] at h
    cases h

theorem Ended.mono {rank rank' : Nat} {ts rest : List Token} (h : Ended rank ts rest)
    (hrank : rank ≤ rank') : Ended rank' ts rest :=
  ⟨fun p hp => Nat.le_trans (h.weaker p hp) hrank, h.uncalled⟩

/-- What ends a row of tokens ends the part of it that is behind another part. -/
theorem Ended.of_append {rank : Nat} {ts us rest : List Token}
    (h : Ended rank (ts ++ us) rest) : Ended rank us rest := by
  refine ⟨h.weaker, ?_⟩
  intro name hname
  apply h.uncalled
  rw [List.getLast?_append, Option.mem_def.mp hname]
  rfl

theorem Consumes.shorter {s s' : State} {ts : List Token} (h : Consumes s ts s') (hts : ts ≠ []) :
    s'.tokens.length < s.tokens.length := by
  have hpositive := List.length_pos_iff.mpr hts
  rw [h.tokens, List.length_append]
  omega

theorem Row.ne_nil {cells : List (List Token)} {ts : List Token} (h : Row cells ts) : ts ≠ [] := by
  rcases h with ⟨inner, -, hts⟩
  exact hts.ne_nil

theorem Consumes.rest {s s' : State} {ts rest : List Token} (h : Consumes s ts s')
    (hs : s.tokens = ts ++ rest) : s'.tokens = rest :=
  (List.append_cancel_left (hs.symm.trans h.tokens)).symm

/-! ## Operands -/

/-- These tokens are read as the expression wherever a phrase of the kind may stand: reading goes on
behind them with the operators that follow. -/
def Climbs (p : Phrase) (ts : List Token) (x : Expr) : Prop :=
  ∀ ⦃n : Nat⦄ ⦃stop : Precedence⦄ ⦃s : State⦄ ⦃rest : List Token⦄ ⦃post : Expr → State → Prop⦄,
    stop.rank ≤ Precedence.implicitTimes.rank → (operandPhrase stop).includes p = true →
    s.tokens = ts ++ rest → s.last.kind = .endOfStream → Ended p.reach ts rest →
    (∀ s' rounds, Consumes s ts s' → s'.tokens.length < rounds →
      Ensures Exhausts (operations (expression n) stop rounds x) s' post) →
    Ensures Exhausts (expression (n + 1) stop) s post

theorem reach_of_includes {stop : Precedence} {q : Phrase}
    (hstop : stop.rank ≤ Precedence.implicitTimes.rank)
    (h : (operandPhrase stop).includes q = true) : stop.rank ≤ q.reach := by
  revert hstop h
  cases stop <;> cases q <;> decide

section Operands

variable {n : Nat} {stop : Precedence} {s : State} {rest ts : List Token} {p : Phrase} {x : Expr}
  {post : Expr → State → Prop}

/-- Reading stops before an operator that binds no more strongly than the one before the operand. -/
theorem operations_stops {reader : Precedence → ParseM Expr} (rounds : Nat)
    (hlast : s.last.kind = .endOfStream) (hended : Ended stop.rank ts s.tokens) (hpost : post x s) :
    Ensures Exhausts (operations reader stop rounds x) s post := by
  cases rounds with
  | zero => exact Ensures.pure hpost
  | succ rounds =>
      rw [operations]
      apply Ensures.bind
      apply Ensures.current hlast
      intro token htoken
      rw [htoken]
      cases hp : Precedence.ofToken? (nextKind s.tokens) with
      | none => exact Ensures.pure hpost
      | some p =>
          dsimp only
          rw [if_pos (hended.weaker p hp)]
          exact Ensures.pure hpost

/-- An operand is read up to where it ends. -/
theorem Climbs.operand (h : Climbs p ts x) (hstop : stop.rank ≤ Precedence.implicitTimes.rank)
    (hp : (operandPhrase stop).includes p = true) (hs : s.tokens = ts ++ rest)
    (hlast : s.last.kind = .endOfStream) (hended : Ended stop.rank ts rest) :
    Takes (expression n stop) s ts x := by
  cases n with
  | zero => exact Ensures.bind (Ensures.current_next (Ensures.reject trivial))
  | succ n =>
      apply h hstop hp hs hlast (hended.mono (reach_of_includes hstop hp))
      intro s' rounds hcons _
      have hrest := hcons.rest hs
      exact operations_stops rounds (hcons.ending hlast) (hrest ▸ hended) ⟨rfl, hcons⟩

/-- A whole expression is read up to a token that ends it. -/
theorem Climbs.store (h : Climbs .comparison ts x) (hs : s.tokens = ts ++ rest)
    (hlast : s.last.kind = .endOfStream) (hends : TokenKind.ends (nextKind rest) = true) :
    Takes (expression n .store) s ts x :=
  h.operand (by decide) (by decide) hs hlast (.of_ends 0 hends)

theorem Takes.build {us : List Token} {s₀ : State} (h : Consumes s₀ us s) :
    Ensures Exhausts (build x) s fun y s' => y = x ∧ Consumes s₀ us s' := by
  apply Ensures.build fun _ _ => trivial
  intro s' hbuilt
  exact ⟨rfl, by simpa using h.trans hbuilt⟩

end Operands

/-- A phrase that is read as what it is derived to be. -/
structure Readable (p : Phrase) (ts : List Token) (x : Expr) : Prop where
  derives : Derives p ts x
  climbs : Climbs p ts x

/-! ## Items -/

section Items

variable {n : Nat} {s : State} {rest ts us : List Token} {x : Expr} {close : TokenKind}
  {items : List (List Token × Expr)}

theorem separated_takes {last : Token} (hus : Separated (items.map Prod.fst) us)
    (hne : items ≠ []) (hitems : ∀ item ∈ items, Readable .comparison item.1 item.2)
    (hclose : TokenKind.ends last.kind = true) (hcomma : last.kind ≠ .comma) (rounds : Nat)
    (hs : s.tokens = us ++ last :: rest) (hlast : s.last.kind = .endOfStream)
    (hrounds : s.tokens.length < rounds) :
    Takes (separated (expression n) last.kind rounds) s (us ++ [last]) (items.map Prod.snd) := by
  induction rounds generalizing s items us with
  | zero => omega
  | succ rounds ih =>
      rw [separated]
      apply Ensures.bind
      rcases items with _ | ⟨item, _ | ⟨second, items⟩⟩
      · exact absurd rfl hne
      · obtain rfl := Separated.of_singleton hus
        refine ((hitems item (List.mem_singleton_self _)).climbs.store hs hlast hclose).mono ?_
        rintro _ s₁ ⟨rfl, hcons⟩
        have hs₁ := hcons.rest hs
        apply Ensures.bind
        apply Ensures.see hs₁
        split
        · rename_i hkind
          exact absurd hkind hcomma
        · apply Ensures.ite
          · intro _
            apply Ensures.bind
            apply Ensures.take hs₁
            intro s₂ hcons₂ _
            exact Ensures.pure ⟨rfl, hcons.trans hcons₂⟩
          · intro hother
            exact absurd rfl hother
      · cases hus with
        | @more _ _ _ comma us hkind hus =>
            rw [List.append_assoc, List.cons_append] at hs
            have hends : TokenKind.ends (nextKind (comma :: (us ++ last :: rest))) = true := by
              show TokenKind.ends comma.kind = true
              rw [hkind]
              rfl
            rcases List.forall_mem_cons.mp hitems with ⟨hitem, hmore⟩
            refine (hitem.climbs.store hs hlast hends).mono ?_
            rintro _ s₁ ⟨rfl, hcons⟩
            have hs₁ := hcons.rest hs
            apply Ensures.bind
            apply Ensures.see hs₁
            rw [hkind]
            apply Ensures.bind
            apply Ensures.take hs₁
            intro s₂ hcons₂ hs₂
            have hall := hcons.trans hcons₂
            have hshorter : s₂.tokens.length < rounds := by
              have hlength := congrArg List.length hall.tokens
              rw [List.length_append, List.length_append, List.length_singleton] at hlength
              omega
            have hus : Separated ((second :: items).map Prod.fst) us := hus
            apply Ensures.bind
            refine (ih hus (by simp) hmore hs₂ (hall.ending hlast) hshorter).mono ?_
            rintro _ s₃ ⟨rfl, hcons₃⟩
            exact Ensures.pure ⟨rfl, by simpa using hall.trans hcons₃⟩

theorem opens_of_separated (hus : Separated (items.map Prod.fst) us) (hne : items ≠ [])
    (hitems : ∀ item ∈ items, Readable .comparison item.1 item.2) :
    us ≠ [] ∧ TokenKind.opens (nextKind us) = true := by
  cases items with
  | nil => exact absurd rfl hne
  | cons item items =>
      have hderives := (hitems item (List.mem_cons_self ..)).derives
      rw [List.map_cons] at hus
      generalize items.map Prod.fst = pieces at hus
      cases hus with
      | one => exact ⟨hderives.ne_nil, hderives.opens⟩
      | more hcomma h =>
          refine ⟨by simp, ?_⟩
          rw [nextKind_append _ hderives.ne_nil]
          exact hderives.opens

theorem ends_ne_opens {kind : TokenKind} (hends : TokenKind.ends kind = true) :
    TokenKind.opens kind = false := by
  cases kind <;> first | rfl | cases hends

theorem sequence_takes {last : Token} (hus : Separated (items.map Prod.fst) us)
    (hitems : ∀ item ∈ items, Readable .comparison item.1 item.2)
    (hclose : TokenKind.ends last.kind = true) (hcomma : last.kind ≠ .comma)
    (hs : s.tokens = us ++ last :: rest) (hlast : s.last.kind = .endOfStream) :
    Takes (sequence (expression n) last.kind) s (us ++ [last]) (items.map Prod.snd) := by
  unfold Parser.sequence
  apply Ensures.bind
  by_cases hne : items = []
  · subst hne
    cases hus
    apply Ensures.see hs
    rw [if_pos rfl]
    apply Ensures.bind
    apply Ensures.take hs
    intro s₁ hcons _
    exact Ensures.pure ⟨rfl, hcons⟩
  · rcases opens_of_separated hus hne hitems with ⟨husne, hopens⟩
    apply Ensures.current hlast
    intro token htoken
    rw [hs, nextKind_append _ husne] at htoken
    apply Ensures.ite
    · intro hkind
      rw [← htoken, hkind, ends_ne_opens hclose] at hopens
      cases hopens
    · intro _
      apply Ensures.bind
      apply Ensures.get
      exact separated_takes hus hne hitems hclose hcomma _ hs hlast (Nat.lt_succ_self _)

section Enclosed

variable {opening : TokenKind} {α : Type} {post : α → State → Prop}

/-- Items between an opening and a closing token. -/
theorem enclosed_takes {next : List Expr → ParseM α} (hts : Enclosed opening close us ts)
    (hus : Separated (items.map Prod.fst) us)
    (hitems : ∀ item ∈ items, Readable .comparison item.1 item.2)
    (hclose : TokenKind.ends close = true) (hcomma : close ≠ .comma)
    (hs : s.tokens = ts ++ rest) (hlast : s.last.kind = .endOfStream)
    (h : ∀ s', Consumes s ts s' → Ensures Exhausts (next (items.map Prod.snd)) s' post) :
    Ensures Exhausts (do
      let _ ← advance
      let xs ← sequence (expression n) close
      next xs) s post := by
  cases hts with
  | @intro first last _ hlastKind =>
      subst hlastKind
      rw [List.append_assoc, List.cons_append] at hs
      apply Ensures.bind
      apply Ensures.take hs
      intro s₁ hcons hs₁
      apply Ensures.bind
      refine (sequence_takes hus hitems hclose hcomma hs₁ (hcons.ending hlast)).mono ?_
      rintro _ s₂ ⟨rfl, hcons₂⟩
      exact h s₂ (hcons.trans hcons₂)

/-- A single argument in parentheses. -/
theorem argument_takes {next : List Expr → ParseM α}
    (hts : Enclosed .leftParenthesis .rightParenthesis us ts) (hx : Readable .comparison us x)
    (hs : s.tokens = ts ++ rest) (hlast : s.last.kind = .endOfStream)
    (h : ∀ s', Consumes s ts s' → Ensures Exhausts (next [x]) s' post) :
    Ensures Exhausts (do
      let _ ← advance
      let xs ← sequence (expression n) .rightParenthesis
      next xs) s post := by
  have hitems : ∀ item ∈ [(us, x)], Readable .comparison item.1 item.2 := by
    simpa using hx
  have hus : Separated ([(us, x)].map Prod.fst) us := .one us
  exact enclosed_takes hts hus hitems rfl nofun hs hlast h

/-- A single expression before a closing token. -/
theorem operand_closed {next : Expr → ParseM α} {last : Token} (hx : Readable .comparison us x)
    (hclose : TokenKind.ends last.kind = true) (hs : s.tokens = us ++ last :: rest)
    (hlast : s.last.kind = .endOfStream)
    (h : ∀ s', Consumes s (us ++ [last]) s' → s'.tokens = rest →
      Ensures Exhausts (next x) s' post) :
    Ensures Exhausts (do
      let x ← expression n .store
      let _ ← expect last.kind
      next x) s post := by
  apply Ensures.bind
  refine (hx.climbs.store hs hlast hclose).mono ?_
  rintro _ s₁ ⟨rfl, hcons⟩
  apply Ensures.bind
  apply Ensures.expect_take (hcons.rest hs)
  intro s₂ hcons₂ hs₂
  exact h s₂ (hcons.trans hcons₂) hs₂

end Enclosed

end Items

/-! ## Atoms -/

section Atoms

variable {n : Nat} {s : State} {rest ts us : List Token} {x : Expr} {token : Token}

theorem userFunction_takes (hts : Enclosed .leftParenthesis .rightParenthesis us ts)
    (hx : Readable .comparison us x) (hother : x ≠ .symbol token.text)
    (hs : s.tokens = ts ++ rest) (hlast : s.last.kind = .endOfStream) :
    Takes (userFunction (expression n) token) s ts (.apply (.function token.text) [x]) := by
  unfold userFunction
  apply argument_takes hts hx hs hlast
  intro s' hcons
  apply Ensures.bind
  apply Ensures.spanFrom
  intro span
  show Ensures Exhausts (if x.symbol? = some token.text then _ else _) s' _
  rw [if_neg fun hsymbol => hother (symbol?_eq_some.mp hsymbol)]
  exact Takes.build hcons

/-- Behind a legal name, it depends on the next token whether it names a function. -/
theorem identifier_legal {post : Expr → State → Prop} (hlegal : Legal token.text)
    (hs : s.tokens = token :: rest) (hlast : s.last.kind = .endOfStream)
    (h : ∀ s₁, Consumes s [token] s₁ → s₁.tokens = rest →
      Ensures Exhausts (if nextKind rest = .leftParenthesis ∧ token.text ≠ "ans" then
        userFunction (expression n) token else build (.symbol token.text)) s₁ post) :
    Ensures Exhausts (identifier (expression n)) s post := by
  unfold identifier
  apply Ensures.bind
  apply Ensures.take hs
  intro s₁ hcons hs₁
  dsimp only
  rw [hlegal.notConstant]
  have hword := hlegal.notWord
  dsimp only
  split
  case h_4 =>
    have hsequence : ¬ (token.text = "u" || token.text = "v" || token.text = "w") = true := by
      simpa [or_assoc] using hlegal.notSequence
    rw [if_neg (Nat.not_lt.mpr hlegal.short), if_neg hsequence]
    apply Ensures.bind
    apply Ensures.current (hcons.ending hlast)
    intro next hnext
    simpa [hnext, hs₁] using h s₁ hcons hs₁
  all_goals
    rename_i hname
    simp [hname] at hword

theorem name_takes (hx : Names token.text x) (huncalled : ∀ next ∈ rest.head?, ¬ Calls token next)
    (hkind : token.kind = .identifier) (hs : s.tokens = token :: rest)
    (hlast : s.last.kind = .endOfStream) : Takes (identifier (expression n)) s [token] x := by
  have hstep : ∀ {y : Expr} {step : Token → ParseM Expr},
      (∀ s₁, Consumes s [token] s₁ → Ensures Exhausts (step token) s₁
        fun z s' => z = y ∧ Consumes s [token] s') → Takes (advance >>= step) s [token] y := by
    intro y step h
    exact Ensures.bind (Ensures.take hs fun s₁ hcons _ => h s₁ hcons)
  generalize htext : token.text = name at hx
  cases hx with
  | constant c =>
      have hconstant : Constant.ofSymbol? c.symbol = some c := by cases c <;> decide
      apply hstep
      intro s₁ hcons
      dsimp only
      rw [htext, hconstant]
      exact Takes.build hcons
  | infinity =>
      apply hstep
      intro s₁ hcons
      dsimp only
      rw [htext]
      exact Takes.build hcons
  | undefined =>
      apply hstep
      intro s₁ hcons
      dsimp only
      rw [htext]
      exact Takes.build hcons
  | nonreal =>
      apply hstep
      intro s₁ hcons
      dsimp only
      rw [htext]
      exact Takes.build hcons
  | symbol hlegal =>
      subst htext
      apply identifier_legal hlegal hs hlast
      intro s₁ hcons hs₁
      rw [if_neg]
      · exact Takes.build hcons
      · rintro ⟨hparenthesis, hanswer⟩
        cases rest with
        | nil => cases hparenthesis
        | cons next rest =>
            exact huncalled next rfl ⟨hkind, ⟨hlegal, hanswer⟩, hparenthesis⟩

theorem call_takes (hname : Callable token.text)
    (hts : Enclosed .leftParenthesis .rightParenthesis us ts) (hx : Readable .comparison us x)
    (hother : x ≠ .symbol token.text) (hs : s.tokens = token :: ts ++ rest)
    (hlast : s.last.kind = .endOfStream) :
    Takes (identifier (expression n)) s (token :: ts) (.apply (.function token.text) [x]) := by
  have hopening : nextKind (ts ++ rest) = .leftParenthesis := by
    cases hts with
    | intro hfirst => exact hfirst
  apply identifier_legal hname.toLegal hs hlast
  intro s₁ hcons hs₁
  rw [if_pos ⟨hopening, hname.notAnswer⟩]
  refine (userFunction_takes hts hx hother hs₁ (hcons.ending hlast)).mono ?_
  rintro _ s₂ ⟨rfl, hcons₂⟩
  exact ⟨rfl, hcons.trans hcons₂⟩

theorem logarithm_takes {underscore : Token} {entry : FunctionEntry} {base : Expr}
    {vs ws : List Token} (hentry : reservedFunction? token.text = some entry)
    (hkind : entry.kind = .commonLogarithm) (hunderscore : underscore.kind = .underscore)
    (hts : Enclosed .leftBrace .rightBrace us ts) (hbase : Readable .comparison us base)
    (hvs : Enclosed .leftParenthesis .rightParenthesis ws vs) (hx : Readable .comparison ws x)
    (hs : s.tokens = token :: underscore :: ts ++ vs ++ rest)
    (hlast : s.last.kind = .endOfStream) :
    Takes (reservedCall (expression n)) s (token :: underscore :: ts ++ vs)
      (.apply .logarithm [x, base]) := by
  rw [List.append_assoc, List.cons_append] at hs
  unfold reservedCall
  apply Ensures.bind
  apply Ensures.take hs
  intro s₁ hcons₁ hs₁
  rw [hentry]
  apply Ensures.bind
  apply Ensures.see hs₁
  simp only [hkind, hunderscore, decide_true, Bool.and_self, if_true]
  unfold logarithmWithSubscript
  apply Ensures.bind
  apply Ensures.take hs₁
  intro s₂ hcons₂ hs₂
  have hlast₂ := (hcons₁.trans hcons₂).ending hlast
  cases hts with
  | @intro first last hfirst hlastKind =>
      have hs₂ : s₂.tokens = first :: (us ++ last :: (vs ++ rest)) := by simpa using hs₂
      apply Ensures.bind
      rw [← hfirst]
      apply Ensures.expect_take hs₂
      intro s₃ hcons₃ hs₃
      rw [← hlastKind]
      have hclose : TokenKind.ends last.kind = true := by
        rw [hlastKind]
        rfl
      apply operand_closed hbase hclose hs₃ (hcons₃.ending hlast₂)
      intro s₄ hcons₄ hs₄
      have hlast₄ := (hcons₃.trans hcons₄).ending hlast₂
      have hopening : nextKind (vs ++ rest) = .leftParenthesis := by
        cases hvs with
        | intro hparenthesis => exact hparenthesis
      apply Ensures.bind
      apply Ensures.current hlast₄
      intro next hnext
      rw [hs₄, hopening] at hnext
      rw [if_neg (by simp [hnext])]
      apply argument_takes hvs hx hs₄ hlast₄
      intro s₅ hcons₅
      apply Takes.build
      simpa using (((hcons₁.trans hcons₂).trans hcons₃).trans hcons₄).trans hcons₅

theorem reserved_takes {entry : FunctionEntry} {items : List (List Token × Expr)}
    (hentry : reservedFunction? token.text = some entry)
    (hts : Enclosed .leftParenthesis .rightParenthesis us ts)
    (hus : Separated (items.map Prod.fst) us)
    (hitems : ∀ item ∈ items, Readable .comparison item.1 item.2)
    (hadmits : Admits entry (items.map Prod.snd)) (hs : s.tokens = token :: ts ++ rest)
    (hlast : s.last.kind = .endOfStream) :
    Takes (reservedCall (expression n)) s (token :: ts)
      (.apply (Parser.callOperator entry.kind items.length) (items.map Prod.snd)) := by
  rw [List.cons_append] at hs
  have hopening : nextKind (ts ++ rest) = .leftParenthesis := by
    cases hts with
    | intro hfirst => exact hfirst
  unfold reservedCall
  apply Ensures.bind
  apply Ensures.take hs
  intro s₁ hcons₁ hs₁
  rw [hentry]
  apply Ensures.bind
  apply Ensures.current (hcons₁.ending hlast)
  intro next hnext
  rw [hs₁, hopening] at hnext
  rw [if_neg (by simp [hnext]), if_neg (by simp [hnext])]
  apply enclosed_takes hts hus hitems rfl nofun hs₁ (hcons₁.ending hlast)
  intro s₂ hcons₂
  apply Ensures.bind
  apply Ensures.spanFrom
  intro span
  have hcount : ¬ ((items.map Prod.snd).length ≠ entry.least &&
      (items.map Prod.snd).length ≠ entry.most) = true := by
    rcases hadmits.count with hleast | hmost
    · simp [hleast]
    · simp [hmost]
  have hbound : ¬ ((callOperator entry.kind (items.map Prod.snd).length).kind.isParametered &&
      !bindsLegally (items.map Prod.snd)) = true := by
    rw [Bool.and_eq_true, Bool.not_eq_true']
    rintro ⟨hparametered, hunbound⟩
    rw [bindsLegally_iff.mpr (hadmits.bound hparametered)] at hunbound
    cases hunbound
  rw [if_neg hcount, if_neg hbound, List.length_map]
  exact Takes.build (hcons₁.trans hcons₂)

section Matrix

variable {row : List (List Token × Expr)} {columns rounds : Nat} {expected : Option Nat}
  {opening : Token}

/-- A row of a matrix is read, and what then follows decides how to go on. -/
theorem row_takes {post : List (List Expr) → State → Prop} (hrow : Row (row.map Prod.fst) ts)
    (hcolumns : 0 < columns) (hlength : row.length = columns)
    (hitems : ∀ item ∈ row, Readable .comparison item.1 item.2)
    (hexpected : ∀ width ∈ expected, width = columns) (hs : s.tokens = ts ++ rest)
    (hlast : s.last.kind = .endOfStream)
    (h : ∀ s', Consumes s ts s' → s'.tokens = rest →
      Ensures Exhausts (do
        match (← current).kind with
        | .comma =>
          let _ ← advance
          return row.map Prod.snd ::
            (← matrixRows (expression n) opening (some columns) rounds)
        | .rightBracket =>
          let _ ← advance
          return [row.map Prod.snd]
        | _ =>
          return row.map Prod.snd ::
            (← matrixRows (expression n) opening (some columns) rounds)) s' post) :
    Ensures Exhausts (matrixRows (expression n) opening expected (rounds + 1)) s post := by
  rcases hrow with ⟨inner, hinner, ⟨hfirst, hlastKind⟩⟩
  rename_i first last
  have hs : s.tokens = first :: (inner ++ last :: rest) := by simpa using hs
  have hne : row ≠ [] := List.length_pos_iff.mp (hlength ▸ hcolumns)
  rcases opens_of_separated hinner hne hitems with ⟨hinnerNe, hopens⟩
  have hwidth : expected.getD columns = columns := by
    cases expected with
    | none => rfl
    | some width => exact hexpected width rfl
  rw [matrixRows]
  apply Ensures.bind
  apply Ensures.see hs
  rw [if_neg (by simp [hfirst])]
  apply Ensures.bind
  apply Ensures.take hs
  intro s₁ hcons₁ hs₁
  have hlast₁ := hcons₁.ending hlast
  apply Ensures.bind
  apply Ensures.current hlast₁
  intro next hnext
  rw [hs₁, nextKind_append _ hinnerNe] at hnext
  have hinside : ¬ next.kind = .rightBracket := by
    intro hclosed
    rw [← hnext, hclosed] at hopens
    cases hopens
  rw [if_neg hinside]
  apply Ensures.bind
  apply Ensures.get
  apply Ensures.bind
  have hread := separated_takes (n := n) hinner hne hitems (by rw [hlastKind]; rfl)
    (by rw [hlastKind]; decide) _ hs₁ hlast₁ (Nat.lt_succ_self _)
  rw [hlastKind] at hread
  refine hread.mono ?_
  rintro _ s₂ ⟨rfl, hcons₂⟩
  dsimp only
  rw [List.length_map, hlength, hwidth, if_neg (not_not_intro rfl)]
  have hall : Consumes s (first :: inner ++ [last]) s₂ := hcons₁.trans hcons₂
  exact h s₂ hall (hcons₂.rest (by simpa using hs₁))

theorem Row.opens {cells : List (List Token)} (h : Row cells ts) (rest : List Token) :
    nextKind (ts ++ rest) = .leftBracket := by
  rcases h with ⟨inner, -, ⟨hfirst, -⟩⟩
  exact hfirst

theorem Rows.opens {pieces : List (List (List Token))} (h : Rows pieces us) (rest : List Token) :
    nextKind (us ++ rest) = .leftBracket := by
  cases h with
  | one h => exact h.opens rest
  | next hrow => rw [List.append_assoc]; exact hrow.opens _
  | comma hrow => rw [List.append_assoc]; exact hrow.opens _

theorem matrixRows_takes {rows : List (List (List Token × Expr))} {last : Token}
    (opening : Token) (expected : Option Nat) (hus : Rows (rows.map (List.map Prod.fst)) us)
    (hcolumns : 0 < columns) (hrows : ∀ row ∈ rows, row.length = columns)
    (hitems : ∀ row ∈ rows, ∀ item ∈ row, Readable .comparison item.1 item.2)
    (hexpected : ∀ width ∈ expected, width = columns) (hbracket : last.kind = .rightBracket)
    (rounds : Nat) (hs : s.tokens = us ++ last :: rest) (hlast : s.last.kind = .endOfStream)
    (hrounds : s.tokens.length < rounds) :
    Takes (matrixRows (expression n) opening expected rounds) s (us ++ [last])
      (rows.map (List.map Prod.snd)) := by
  induction rounds generalizing s rows us expected with
  | zero => omega
  | succ rounds ih =>
      cases rows with
      | nil => cases hus
      | cons row rows =>
          rcases List.forall_mem_cons.mp hrows with ⟨hlength, hlengths⟩
          rcases List.forall_mem_cons.mp hitems with ⟨hrow, hmore⟩
          rw [List.map_cons] at hus
          generalize hpieces : rows.map (List.map Prod.fst) = pieces at hus
          cases hus with
          | one h =>
              obtain rfl : rows = [] := List.map_eq_nil_iff.mp hpieces
              apply row_takes h hcolumns hlength hrow hexpected hs hlast
              intro s₁ hcons₁ hs₁
              apply Ensures.bind
              apply Ensures.see hs₁
              rw [hbracket]
              apply Ensures.bind
              apply Ensures.take hs₁
              intro s₂ hcons₂ _
              exact Ensures.pure ⟨rfl, hcons₁.trans hcons₂⟩
          | next h hrest =>
              rw [List.append_assoc] at hs
              apply row_takes h hcolumns hlength hrow hexpected hs hlast
              intro s₁ hcons₁ hs₁
              have hshorter := hcons₁.shorter h.ne_nil
              have hlast₁ := hcons₁.ending hlast
              apply Ensures.bind
              apply Ensures.current hlast₁
              intro token htoken
              rw [hs₁, hrest.opens] at htoken
              rw [htoken]
              apply Ensures.bind
              refine (ih (some columns) (hpieces ▸ hrest) hlengths hmore ?_ hs₁ hlast₁
                (by omega)).mono ?_
              · rintro width ⟨⟩
                rfl
              · rintro _ s₂ ⟨rfl, hcons₂⟩
                exact Ensures.pure ⟨rfl, by simpa using hcons₁.trans hcons₂⟩
          | comma h hcomma hrest =>
              rw [List.append_assoc] at hs
              apply row_takes h hcolumns hlength hrow hexpected hs hlast
              intro s₁ hcons₁ hs₁
              have hshorter := hcons₁.shorter h.ne_nil
              have hlast₁ := hcons₁.ending hlast
              rw [List.cons_append] at hs₁
              apply Ensures.bind
              apply Ensures.see hs₁
              rw [hcomma]
              apply Ensures.bind
              apply Ensures.take hs₁
              intro s₂ hcons₂ hs₂
              have hshorter₂ := hcons₂.shorter (by simp)
              apply Ensures.bind
              refine (ih (some columns) (hpieces ▸ hrest) hlengths hmore ?_ hs₂
                (hcons₂.ending hlast₁) (by omega)).mono ?_
              · rintro width ⟨⟩
                rfl
              · rintro _ s₃ ⟨rfl, hcons₃⟩
                exact Ensures.pure ⟨rfl, by simpa using (hcons₁.trans hcons₂).trans hcons₃⟩

theorem matrix_takes {rows : List (List (List Token × Expr))}
    (hts : Enclosed .leftBracket .rightBracket us ts)
    (hus : Rows (rows.map (List.map Prod.fst)) us) (hcolumns : 0 < columns)
    (hrows : ∀ row ∈ rows, row.length = columns)
    (hitems : ∀ row ∈ rows, ∀ item ∈ row, Readable .comparison item.1 item.2)
    (hs : s.tokens = ts ++ rest) (hlast : s.last.kind = .endOfStream) :
    Takes (matrix (expression n)) s ts
      (.apply (.matrix rows.length columns) (rows.flatten.map Prod.snd)) := by
  rcases hts with ⟨hfirst, hlastKind⟩
  rename_i first last
  have hs : s.tokens = first :: (us ++ last :: rest) := by simpa using hs
  unfold matrix
  apply Ensures.bind
  apply Ensures.take hs
  intro s₁ hcons₁ hs₁
  apply Ensures.bind
  apply Ensures.get
  apply Ensures.bind
  refine (matrixRows_takes first none hus hcolumns hrows hitems (by simp) hlastKind _ hs₁
    (hcons₁.ending hlast) (Nat.lt_succ_self _)).mono ?_
  rintro _ s₂ ⟨rfl, hcons₂⟩
  have hwidth : ((rows.map (List.map Prod.snd)).headD []).length = columns := by
    cases rows with
    | nil => cases hus
    | cons row rows => simpa using hrows row (List.mem_cons_self ..)
  rw [hwidth, List.length_map, ← List.map_flatten]
  exact Takes.build (by simpa using hcons₁.trans hcons₂)

end Matrix

/-- An atom is read first. -/
theorem Climbs.of_atom
    (h : ∀ {n : Nat} {stop : Precedence} {s : State} {rest : List Token}, s.tokens = ts ++ rest →
      s.last.kind = .endOfStream → Ended 8 ts rest → Takes (leading (expression n) stop) s ts x) :
    Climbs .atom ts x := by
  intro n stop s rest post _ _ hs hlast hended hpost
  rw [expression]
  apply Ensures.bind
  refine (h hs hlast hended).mono ?_
  rintro _ s₁ ⟨rfl, hcons⟩
  apply Ensures.bind
  apply Ensures.get
  exact hpost s₁ _ hcons (Nat.lt_succ_self _)

theorem enclosed_next {opening close : TokenKind} (h : Enclosed opening close us ts)
    (hs : s.tokens = ts ++ rest) : nextKind s.tokens = opening := by
  rw [hs]
  cases h with
  | intro hfirst => exact hfirst

theorem number_climbs (h : token.kind = .number) :
    Climbs .atom [token] (Numeral.read token.text.toList) := by
  apply Climbs.of_atom
  intro n stop s rest hs hlast _
  have hkind : nextKind s.tokens = .number := by rw [hs]; exact h
  refine Ensures.of_eq (by rw [leading, current_bind, kind_next hlast, hkind]) ?_
  apply Ensures.bind
  apply Ensures.take hs
  intro s₁ hcons _
  exact Takes.build hcons

theorem name_climbs (h : token.kind = .identifier) (hx : Names token.text x) :
    Climbs .atom [token] x := by
  apply Climbs.of_atom
  intro n stop s rest hs hlast hended
  have hkind : nextKind s.tokens = .identifier := by rw [hs]; exact h
  refine Ensures.of_eq (by rw [leading, current_bind, kind_next hlast, hkind]) ?_
  exact name_takes hx (hended.uncalled token rfl) h hs hlast

theorem call_climbs (h : token.kind = .identifier) (hname : Callable token.text)
    (hts : Enclosed .leftParenthesis .rightParenthesis us ts) (hx : Readable .comparison us x)
    (hother : x ≠ .symbol token.text) :
    Climbs .atom (token :: ts) (.apply (.function token.text) [x]) := by
  apply Climbs.of_atom
  intro n stop s rest hs hlast _
  have hkind : nextKind s.tokens = .identifier := by rw [hs]; exact h
  refine Ensures.of_eq (by rw [leading, current_bind, kind_next hlast, hkind]) ?_
  exact call_takes hname hts hx hother hs hlast

theorem parenthesis_climbs (hts : Enclosed .leftParenthesis .rightParenthesis us ts)
    (hx : Readable .comparison us x) : Climbs .atom ts (.apply .parenthesis [x]) := by
  apply Climbs.of_atom
  intro n stop s rest hs hlast _
  have hkind := enclosed_next hts hs
  refine Ensures.of_eq (by rw [leading, current_bind, kind_next hlast, hkind]) ?_
  rcases hts with ⟨hfirst, hlastKind⟩
  rename_i first last
  rw [List.append_assoc, List.cons_append] at hs
  apply Ensures.bind
  apply Ensures.take hs
  intro s₁ hcons₁ hs₁
  rw [← hlastKind]
  apply operand_closed hx (by rw [hlastKind]; rfl) hs₁ (hcons₁.ending hlast)
  intro s₂ hcons₂ _
  exact Takes.build (hcons₁.trans hcons₂)

theorem list_climbs {items : List (List Token × Expr)} (hts : Enclosed .leftBrace .rightBrace us ts)
    (hus : Separated (items.map Prod.fst) us)
    (hitems : ∀ item ∈ items, Readable .comparison item.1 item.2) :
    Climbs .atom ts (.apply .list (items.map Prod.snd)) := by
  apply Climbs.of_atom
  intro n stop s rest hs hlast _
  have hkind := enclosed_next hts hs
  refine Ensures.of_eq (by rw [leading, current_bind, kind_next hlast, hkind]) ?_
  apply enclosed_takes hts hus hitems rfl nofun hs hlast
  intro s₁ hcons
  exact Takes.build hcons

end Atoms

/-! ## Operators -/

/-- Where a phrase may stand, so may the one that it begins with. -/
theorem includes_of_simpler {stop : Precedence} {p q : Phrase} (h : p.simpler? = some q)
    (hp : (operandPhrase stop).includes p = true) :
    (operandPhrase stop).includes q = true ∧ p.reach ≤ q.reach := by
  revert h hp
  cases stop <;> cases p <;> cases q <;> decide

theorem signed_eq {stop : Precedence} {p : Phrase} (h : p.isSigned = true)
    (hstop : stop.rank ≤ Precedence.implicitTimes.rank)
    (hp : (operandPhrase stop).includes p = true) : operandPhrase (stop.max .minus) = p := by
  revert h hp hstop
  cases stop <;> cases p <;> decide

/-- A phrase that is an operation stands only where its operator binds more strongly than the one
before it. -/
theorem rank_lt_of_includes {stop p : Precedence} (hp : 0 < p.rank)
    (hstop : stop.rank ≤ Precedence.implicitTimes.rank)
    (h : (operandPhrase stop).includes (wholePhrase p) = true) :
    stop.rank < p.rank ∧ (operandPhrase stop).includes (leftPhrase p) = true ∧
      p.rank ≤ (leftPhrase p).reach := by
  revert hp hstop h
  cases stop <;> cases p <;> decide

theorem Ended.of_next {rank : Nat} {ts rest : List Token} {sign : Token} {q : Precedence}
    (hq : Precedence.ofToken? sign.kind = some q) (hrank : q.rank ≤ rank)
    (hsign : sign.kind ≠ .leftParenthesis) : Ended rank ts (sign :: rest) := by
  constructor
  · intro p hp
    rw [show nextKind (sign :: rest) = sign.kind from rfl, hq] at hp
    cases hp
    exact hrank
  · rintro name - next ⟨⟩ ⟨-, -, hparenthesis⟩
    exact hsign hparenthesis

section Operators

variable {n rounds : Nat} {stop q : Precedence} {s s₀ : State} {post : Expr → State → Prop}
  {p left right : Phrase} {kind : TokenKind} {f : Operator} {ts us : List Token} {x y : Expr}
  {sign : Token}

/-- The operator behind its left operand is read, and then what is behind the operation. -/
theorem operations_continues (hlast : s.last.kind = .endOfStream)
    (hq : Precedence.ofToken? (nextKind s.tokens) = some q) (hstop : stop.rank < q.rank)
    (h : Ensures Exhausts (operation (expression n) x) s fun y s' =>
      Ensures Exhausts (operations (expression n) stop rounds y) s' post) :
    Ensures Exhausts (operations (expression n) stop (rounds + 1) x) s post := by
  rw [operations]
  apply Ensures.bind
  apply Ensures.current hlast
  intro token htoken
  rw [htoken, hq]
  dsimp only
  rw [if_neg (Nat.not_le_of_lt hstop)]
  exact Ensures.bind h

/-- The operator of an operation, and what it says of the operands. -/
theorem Joins.infix (h : Joins p left kind right f) : ∃ q stop, Infix kind f q stop ∧
    wholePhrase q = p ∧ operandPhrase stop = right ∧ Precedence.ofToken? kind = some q ∧
    0 < q.rank ∧ q.rank ≤ left.reach ∧ (q = .comparison → left ≠ .comparison) ∧
    kind ≠ .leftParenthesis := by
  cases h with
  | comparison relation =>
      exact ⟨_, _, .comparison relation, rfl, rfl, rfl, by decide, by decide, by decide, nofun⟩
  | sum => exact ⟨_, _, .plus, by decide⟩
  | difference => exact ⟨_, _, .minus, by decide⟩
  | product => exact ⟨_, _, .times, by decide⟩
  | quotient => exact ⟨_, _, .slash, by decide⟩
  | power => exact ⟨_, _, .caret, by decide⟩

theorem Joins.left_included (h : Joins p left kind right f)
    (hp : (operandPhrase stop).includes p = true) : (operandPhrase stop).includes left = true := by
  revert hp
  cases h <;> cases stop <;> decide

theorem includes_refl (p : Phrase) : p.includes p = true := by
  cases p <;> decide

theorem operation_climbs (h : Joins p left kind right f) (hsign : sign.kind = kind)
    (hx : Readable left ts x) (hy : Readable right us y) :
    Climbs p (ts ++ sign :: us) (.apply f [x, y]) := by
  intro n stop s rest post hstop hp hs hlast hended hpost
  obtain ⟨q, operandStop, hjoint, rfl, rfl, htoken, hpositive, hreach, hchain, hparenthesis⟩ :=
    h.infix
  have hstronger := (rank_lt_of_includes hpositive hstop hp).1
  subst hsign
  rw [List.append_assoc, List.cons_append] at hs
  apply hx.climbs hstop (h.left_included hp) hs hlast (.of_next htoken hreach hparenthesis)
  intro s₁ rounds hcons₁ hrounds
  have hs₁ := hcons₁.rest hs
  have hlast₁ := hcons₁.ending hlast
  have hnext : nextKind s₁.tokens = sign.kind := by
    rw [hs₁]
    rfl
  obtain ⟨rounds, rfl⟩ : ∃ r, rounds = r + 1 := Nat.exists_eq_succ_of_ne_zero (by omega)
  apply operations_continues hlast₁ (hnext ▸ htoken) hstronger
  have hkind : q = .comparison → x.kind ≠ .comparison :=
    fun hcomparison => hx.derives.kind_ne_comparison (hchain hcomparison)
  refine Ensures.of_eq (operation_between hlast₁ (hnext ▸ hjoint) hkind) ?_
  unfold infixOperator
  apply Ensures.bind
  apply Ensures.take hs₁
  intro s₂ hcons₂ hs₂
  have hend : Ended operandStop.rank us rest := by
    rw [hjoint.reach.1, ← List.singleton_append, ← List.append_assoc] at hended
    exact hended.of_append
  apply Ensures.bind
  refine (hy.climbs.operand hjoint.reach.2 (includes_refl _) hs₂ (hcons₂.ending hlast₁)
    hend).mono ?_
  rintro _ s₃ ⟨rfl, hcons₃⟩
  apply Ensures.build fun _ _ => trivial
  intro s₄ hbuilt
  have hoperation : Consumes s₁ (sign :: us) s₄ := by
    simpa using (hcons₂.trans hcons₃).trans hbuilt
  have hshorter := hoperation.shorter (by simp)
  exact hpost s₄ rounds (hcons₁.trans hoperation) (by omega)

/-- A sign and its operand are read first. -/
theorem opposite_climbs (h : p.isSigned = true) (hsign : sign.kind = .minus)
    (hx : Readable p ts x) : Climbs p (sign :: ts) (.apply .opposite [x]) := by
  intro n stop s rest post hstop hp hs hlast hended hpost
  obtain rfl := signed_eq h hstop hp
  rcases signed_operand hstop with ⟨hrank, -, -, hreach⟩
  have hkind : nextKind s.tokens = .minus := by rw [hs]; exact hsign
  rw [expression]
  apply Ensures.bind
  refine Ensures.of_eq (by rw [leading, current_bind, kind_next hlast, hkind]) ?_
  apply Ensures.bind
  apply Ensures.take hs
  intro s₁ hcons₁ hs₁
  have hend : Ended (stop.max .minus).rank ts rest := by
    rw [hreach, ← List.singleton_append] at hended
    exact hended.of_append
  apply Ensures.bind
  refine (hx.climbs.operand hrank (includes_refl _) hs₁ (hcons₁.ending hlast) hend).mono ?_
  rintro _ s₂ ⟨rfl, hcons₂⟩
  apply Ensures.build fun _ _ => trivial
  intro s₃ hbuilt
  apply Ensures.bind
  apply Ensures.get
  refine hpost s₃ _ ?_ (Nat.lt_succ_self _)
  simpa using (hcons₁.trans hcons₂).trans hbuilt

theorem adjacency_climbs (h : Adjoins ts us) (hx : Readable .adjacency ts x)
    (hy : Readable .power us y) : Climbs .adjacency (ts ++ us) (.apply .multiplication [x, y]) := by
  intro n stop s rest post hstop hp hs hlast hended hpost
  rcases h with ⟨last, hlastToken, first, hfirst, hstarts, hmeet, huncalled⟩
  have hstronger := (rank_lt_of_includes (p := .implicitTimes) (by decide) hstop hp).1
  rw [List.append_assoc] at hs
  have hnext : nextKind (us ++ rest) = first.kind := by
    rw [nextKind_append _ hy.derives.ne_nil, head_kind hfirst]
  have htoken : Precedence.ofToken? first.kind = some .implicitTimes := by
    generalize first.kind = kind at hstarts
    cases kind <;> first | rfl | cases hstarts
  have hleft : Ended Phrase.adjacency.reach ts (us ++ rest) := by
    constructor
    · intro q hq
      rw [hnext, htoken] at hq
      cases hq
      decide
    · intro name hname next hnextToken
      have hboth : name = last ∧ next = first := by
        rw [List.head?_append, Option.mem_def.mp hfirst, Option.some_or] at hnextToken
        exact ⟨Option.mem_unique hname hlastToken, by simpa using hnextToken.symm⟩
      rw [hboth.1, hboth.2]
      exact huncalled
  apply hx.climbs hstop hp hs hlast hleft
  intro s₁ rounds hcons₁ hrounds
  have hs₁ := hcons₁.rest hs
  have hlast₁ := hcons₁.ending hlast
  obtain ⟨rounds, rfl⟩ : ∃ r, rounds = r + 1 := Nat.exists_eq_succ_of_ne_zero (by omega)
  have hnext₁ : nextKind s₁.tokens = first.kind := by rw [hs₁, hnext]
  have hprevious : s₁.previous = last.kind := by
    rw [hcons₁.previous, Option.mem_def.mp hlastToken]
    rfl
  apply operations_continues hlast₁ (by rw [hnext₁, htoken]) hstronger
  refine Ensures.of_eq (operation_factor hlast₁ (by rw [hnext₁]; exact hstarts)) ?_
  rw [hnext₁, hprevious, if_neg fun hboth => hmeet hboth.symm]
  have hread : Takes (expression n .implicitTimes) s₁ us y :=
    hy.climbs.operand (Nat.le_refl _) (by decide) hs₁ hlast₁ hended.of_append
  apply Ensures.bind
  refine hread.mono ?_
  rintro _ s₂ ⟨rfl, hcons₂⟩
  apply Ensures.build fun _ _ => trivial
  intro s₃ hbuilt
  have hoperation : Consumes s₁ us s₃ := by
    simpa using hcons₂.trans hbuilt
  have hshorter := hoperation.shorter hy.derives.ne_nil
  exact hpost s₃ rounds (hcons₁.trans hoperation) (by omega)

theorem factorial_climbs (hsign : sign.kind = .bang) (hx : Readable .factorial ts x) :
    Climbs .factorial (ts ++ [sign]) (.apply .factorial [x]) := by
  intro n stop s rest post hstop hp hs hlast hended hpost
  have htoken : Precedence.ofToken? sign.kind = some .factorial := by
    rw [hsign]
    rfl
  have hstronger := (rank_lt_of_includes (p := .factorial) (by decide) hstop hp).1
  rw [List.append_assoc] at hs
  apply hx.climbs hstop hp hs hlast (.of_next htoken (by decide) (by rw [hsign]; nofun))
  intro s₁ rounds hcons₁ hrounds
  have hs₁ := hcons₁.rest hs
  have hlast₁ := hcons₁.ending hlast
  obtain ⟨rounds, rfl⟩ : ∃ r, rounds = r + 1 := Nat.exists_eq_succ_of_ne_zero (by omega)
  have hnext : nextKind s₁.tokens = sign.kind := by
    rw [hs₁]
    rfl
  apply operations_continues hlast₁ (hnext ▸ htoken) hstronger
  refine Ensures.of_eq (operation_bang hlast₁ (hnext.trans hsign)) ?_
  apply Ensures.bind
  apply Ensures.take hs₁
  intro s₂ hcons₂ hs₂
  apply Ensures.build fun _ _ => trivial
  intro s₃ hbuilt
  have hoperation : Consumes s₁ [sign] s₃ := by
    simpa using hcons₂.trans hbuilt
  have hshorter := hoperation.shorter (by simp)
  exact hpost s₃ rounds (hcons₁.trans hoperation) (by omega)

end Operators

/-! ## Expressions -/

/-- A phrase that stands for another one is read where that one may stand. -/
theorem simpler_climbs {p q : Phrase} {ts : List Token} {x : Expr} (h : p.simpler? = some q)
    (hx : Climbs q ts x) : Climbs p ts x := by
  intro n stop s rest post hstop hp hs hlast hended hpost
  rcases includes_of_simpler h hp with ⟨hq, hreach⟩
  exact hx hstop hq hs hlast (hended.mono hreach) hpost

/-- Every phrase is read as what the grammar derives it to be. -/
theorem Derives.climbs {p : Phrase} {ts : List Token} {x : Expr} (h : Derives p ts x) :
    Climbs p ts x := by
  induction h with
  | simpler h _ ih => exact simpler_climbs h ih
  | operation h hsign hx hy ihx ihy => exact operation_climbs h hsign ⟨hx, ihx⟩ ⟨hy, ihy⟩
  | opposite h hsign hx ih => exact opposite_climbs h hsign ⟨hx, ih⟩
  | adjacency h hx hy ihx ihy => exact adjacency_climbs h ⟨hx, ihx⟩ ⟨hy, ihy⟩
  | factorial hsign hx ih => exact factorial_climbs hsign ⟨hx, ih⟩
  | number h => exact number_climbs h
  | name h hx => exact name_climbs h hx
  | call h hname hts hx hother ih => exact call_climbs h hname hts ⟨hx, ih⟩ hother
  | parenthesis hts hx ih => exact parenthesis_climbs hts ⟨hx, ih⟩
  | list hts hus hitems ih =>
      exact list_climbs hts hus fun item hitem => ⟨hitems item hitem, ih item hitem⟩
  | matrix hts hus hcolumns hrows hitems ih =>
      apply Climbs.of_atom
      intro n stop s rest hs hlast _
      have hkind := enclosed_next hts hs
      refine Ensures.of_eq (by rw [leading, current_bind, kind_next hlast, hkind]) ?_
      exact matrix_takes hts hus hcolumns hrows
        (fun row hrow item hitem => ⟨hitems row hrow item hitem, ih row hrow item hitem⟩) hs hlast
  | logarithm h hentry hkind hunderscore hts hbase hvs hx ihbase ihx =>
      apply Climbs.of_atom
      intro n stop s rest hs hlast _
      have hnext : nextKind s.tokens = .reservedFunction := by rw [hs]; exact h
      refine Ensures.of_eq (by rw [leading, current_bind, kind_next hlast, hnext]) ?_
      exact logarithm_takes hentry hkind hunderscore hts ⟨hbase, ihbase⟩ hvs ⟨hx, ihx⟩ hs hlast
  | reserved h hentry hts hus hitems hadmits ih =>
      apply Climbs.of_atom
      intro n stop s rest hs hlast _
      have hnext : nextKind s.tokens = .reservedFunction := by rw [hs]; exact h
      refine Ensures.of_eq (by rw [leading, current_bind, kind_next hlast, hnext]) ?_
      exact reserved_takes hentry hts hus (fun item hitem => ⟨hitems item hitem, ih item hitem⟩)
        hadmits hs hlast

/-! ## Whole texts -/

section Statements

variable {s : State} {rest ts us : List Token} {x target : Expr}

theorem storeTarget_takes (h : Target ts x) (hs : s.tokens = ts)
    (hlast : s.last.kind = .endOfStream) : Takes storeTarget s ts x := by
  unfold storeTarget
  apply Ensures.bind
  cases h with
  | @symbol token h =>
      apply Ensures.see hs
      rw [if_neg (by simp [h.kind])]
      apply Ensures.bind
      apply Ensures.take hs
      intro s₁ hcons₁ hs₁
      dsimp only
      rw [if_neg (by simp [h.free]), if_neg (Nat.not_lt.mpr h.short)]
      apply Ensures.bind
      apply Ensures.current (hcons₁.ending hlast)
      intro next hnext
      rw [hs₁] at hnext
      rw [if_pos (by rw [hnext]; nofun)]
      exact Takes.build hcons₁
  | @function token parameter ts h hparameter hother hts =>
      rcases hts with ⟨hfirst, hlastKind⟩
      rename_i first last
      apply Ensures.see hs
      rw [if_neg (by simp [h.kind])]
      apply Ensures.bind
      apply Ensures.take hs
      intro s₁ hcons₁ hs₁
      dsimp only
      rw [if_neg (by simp [h.free]), if_neg (Nat.not_lt.mpr h.short)]
      apply Ensures.bind
      apply Ensures.see hs₁
      rw [if_neg (by simp [hfirst])]
      apply Ensures.bind
      apply Ensures.take hs₁
      intro s₂ hcons₂ hs₂
      apply Ensures.bind
      apply Ensures.see hs₂
      rw [if_pos (isParameter_iff.mpr ⟨hparameter, hother⟩)]
      apply Ensures.bind
      apply Ensures.take hs₂
      intro s₃ hcons₃ hs₃
      rw [← hlastKind]
      apply Ensures.bind
      apply Ensures.expect_take hs₃
      intro s₄ hcons₄ _
      apply Ensures.bind
      apply Ensures.build fun _ _ => trivial
      intro s₅ hbuilt
      apply Takes.build
      simpa using (((hcons₁.trans hcons₂).trans hcons₃).trans hcons₄).trans hbuilt

theorem statement_takes (h : Statement ts x) (hs : s.tokens = ts)
    (hlast : s.last.kind = .endOfStream) : Takes statement s ts x := by
  unfold statement
  apply Ensures.bind
  cases h with
  | value h =>
      have hs : s.tokens = ts ++ [] := by simpa using hs
      refine (h.climbs.store hs hlast rfl).mono ?_
      rintro _ s₁ ⟨rfl, hcons⟩
      have hs₁ := hcons.rest hs
      apply Ensures.bind
      apply Ensures.current (hcons.ending hlast)
      intro token htoken
      rw [hs₁] at htoken
      rw [if_neg (by rw [htoken]; nofun)]
      exact Ensures.pure ⟨rfl, hcons⟩
  | @assignment arrow ts us x target hx hkind harrow htarget =>
      have hends : TokenKind.ends (nextKind (arrow :: us)) = true := by
        show TokenKind.ends arrow.kind = true
        rw [harrow]
        rfl
      refine (hx.climbs.store hs hlast hends).mono ?_
      rintro _ s₁ ⟨rfl, hcons₁⟩
      have hs₁ := hcons₁.rest hs
      apply Ensures.bind
      apply Ensures.see hs₁
      rw [if_pos harrow]
      apply Ensures.bind
      apply Ensures.take hs₁
      intro s₂ hcons₂ hs₂
      rw [if_neg hkind]
      have hlast₂ := (hcons₁.trans hcons₂).ending hlast
      apply Ensures.bind
      refine (storeTarget_takes htarget hs₂ hlast₂).mono ?_
      rintro _ s₃ ⟨rfl, hcons₃⟩
      apply Takes.build
      simpa using (hcons₁.trans hcons₂).trans hcons₃

theorem whole_takes {textEnd : Nat} (h : Statement ts x) (hs : s.tokens = ts)
    (hlast : s.last.kind = .endOfStream) : Takes (whole textEnd) s ts x := by
  unfold whole
  apply Ensures.bind
  refine (statement_takes h hs hlast).mono ?_
  rintro _ s₁ ⟨rfl, hcons⟩
  have hs₁ : s₁.tokens = [] := hcons.rest (by simpa using hs)
  apply Ensures.bind
  apply Ensures.current (hcons.ending hlast)
  intro token htoken
  rw [hs₁] at htoken
  have hend : token.kind = .endOfStream := htoken
  rw [if_neg (not_not_intro hend)]
  apply Ensures.ite
  · intro _
    exact Ensures.reject trivial
  · intro _
    exact Ensures.pure ⟨rfl, hcons⟩

end Statements

end Grammar

/-- A statement of the grammar is read as what it is, unless there is no room or it is too deep. -/
theorem Expr.parse_of_statement {text : String} {t : Expr} (free : Nat)
    (h : Grammar.Statement (Token.scan text) t) :
    Expr.parse free text = .ok t ∨
      ∃ e, Expr.parse free text = .error e ∧ Grammar.Exhausting e.cause := by
  let s : Parser.State := ⟨Token.scan text, Token.atEnd text, .endOfStream, 0, free⟩
  have htakes : Grammar.Takes (Parser.whole text.utf8ByteSize) s (Token.scan text) t :=
    Grammar.whole_takes h rfl rfl
  rw [Grammar.Takes, Ensures] at htakes
  rw [Expr.parse]
  cases hwhole : Parser.whole text.utf8ByteSize s with
  | error e =>
      rw [hwhole] at htakes
      exact .inr ⟨e, rfl, htakes⟩
  | ok result =>
      rw [hwhole] at htakes
      exact .inl (by rw [← htakes.1]; rfl)

/-- The reader accepts exactly the grammar, and builds what it derives: where a text is not rejected
for want of room or depth, it is read as an expression if and only if the grammar derives its tokens
as this expression. -/
theorem Expr.parse_eq_ok_iff {free : Nat} {text : String}
    (h : ∀ e, Expr.parse free text = .error e → ¬ Grammar.Exhausting e.cause) (t : Expr) :
    Expr.parse free text = .ok t ↔ Grammar.Statement (Token.scan text) t := by
  constructor
  · intro hparse
    exact (Expr.statement_of_parse hparse).1
  · intro hstatement
    rcases Expr.parse_of_statement free hstatement with hok | ⟨e, herror, hexhausting⟩
    · exact hok
    · exact absurd hexhausting (h e herror)

/-- A sign before an implicit product with a power, assigned to a function. -/
theorem Expr.parse_eq_ok_iff_assignment :
    (∀ e, Expr.parse 1000 "-2x^y!→f(x)" = .error e → ¬ Grammar.Exhausting e.cause) ∧
      Grammar.Statement (Token.scan "-2x^y!→f(x)")
        (.apply .store
          [.apply .opposite
            [.apply .multiplication
              [.integer 2, .apply .power [.symbol "x", .apply .factorial [.symbol "y"]]]],
          .apply (.function "f") [.symbol "x"]]) := by
  have hparse : Expr.parse 1000 "-2x^y!→f(x)" = .ok
      (.apply .store
        [.apply .opposite
          [.apply .multiplication
            [.integer 2, .apply .power [.symbol "x", .apply .factorial [.symbol "y"]]]],
        .apply (.function "f") [.symbol "x"]]) := by
    exact Expr.Everywhere.eq_ok (by decide) (by decide +kernel)
  have hread : ∀ e, Expr.parse 1000 "-2x^y!→f(x)" = .error e → ¬ Grammar.Exhausting e.cause := by
    intro e he
    rw [hparse] at he
    cases he
  exact ⟨hread, (Expr.parse_eq_ok_iff hread _).mp hparse⟩

end PocketAlgebra
