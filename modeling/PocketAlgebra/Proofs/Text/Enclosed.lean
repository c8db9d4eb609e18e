import Mathlib.Data.List.Forall2
import PocketAlgebra.Proofs.Text.Atoms
import PocketAlgebra.Text.Printer

/-!
# Reading what is enclosed

Arguments, elements and rows stand between an opening and a closing token with commas between them.
They are read one after the other, each as it would be read alone.
-/

namespace PocketAlgebra

namespace Expr

theorem joined_singleton (separator piece : List Char) : joined separator [piece] = piece := by
  simp [joined]

theorem joined_cons_cons (separator first second : List Char) (rest : List (List Char)) :
    joined separator (first :: second :: rest) =
      first ++ (separator ++ joined separator (second :: rest)) := by
  simp [joined]

end Expr

namespace Parser

open PocketAlgebra.Token
open PocketAlgebra.Expr (joined joined_singleton joined_cons_cons writeArguments chargeAll depthAll)

/-- The closing characters, and the tokens they are. -/
inductive Closing : Char → TokenKind → Prop where
  | parenthesis : Closing ')' .rightParenthesis
  | bracket : Closing ']' .rightBracket
  | brace : Closing '}' .rightBrace

namespace Closing

variable {c : Char} {close : TokenKind}

theorem plain (h : Closing c close) : (c, close) ∈ plainSigns := by
  cases h <;> decide

theorem ends (h : Closing c close) (cs : List Char) (rank : Nat) : Ends (c :: cs) rank := by
  cases h <;> exact Ends.close cs rank (by decide)

theorem closes (h : Closing c close) : Closes close := by
  cases h <;> decide

theorem ne_comma (h : Closing c close) : close ≠ .comma := by
  cases h <;> decide

end Closing

section Sequences

variable {deep : Prop} {n rounds : Nat} {c : Char} {close : TokenKind} {cs : List Char} {s : State}
  {post : List Expr → State → Prop} {texts : List (List Char)} {xs : List Expr}

theorem joined_opens (h : List.Forall₂ Reads texts xs) (hne : xs ≠ []) :
    ∃ d rest, joined [','] texts = d :: rest ∧ Opens d := by
  cases h with
  | nil => exact absurd rfl hne
  | @cons text x texts xs hx hxs =>
      rcases hx.opens with ⟨d, rest, rfl, hopens⟩
      cases texts with
      | nil => exact ⟨d, rest, joined_singleton _ _, hopens⟩
      | cons text texts =>
          rw [joined_cons_cons]
          exact ⟨d, rest ++ ([','] ++ joined [','] (text :: texts)), rfl, hopens⟩

/-- Expressions with commas between them are read up to the closing token. -/
theorem separated_reads (hc : Closing c close) (h : List.Forall₂ Reads texts xs) (hne : xs ≠ [])
    (hat : At s (joined [','] texts ++ c :: cs)) (hroom : chargeAll xs ≤ s.free)
    (hdeep : n < depthAll xs → deep) (hrounds : s.tokens.length < rounds)
    (hpost : ∀ s', Reached s cs (chargeAll xs) s' → post xs s') :
    Settles deep (separated (expression n) close rounds) s post := by
  induction h generalizing s rounds post with
  | nil => exact absurd rfl hne
  | @cons text x texts xs hx hxs ih =>
      obtain ⟨rounds, rfl⟩ : ∃ k, rounds = k + 1 := ⟨rounds - 1, by omega⟩
      rw [chargeAll] at hroom
      have hdepth : depthAll (x :: xs) = max x.depth (depthAll xs) := rfl
      rw [separated]
      apply Settles.bind
      cases hxs with
      | nil =>
          rw [joined_singleton] at hat
          apply hx.operand hat (hc.ends cs Precedence.store.rank) hx.compares (by omega)
            (fun hn => hdeep (by omega))
          intro s₁ hreached₁
          apply Settles.bind
          apply Settles.current hreached₁.at_rest
          intro token hkind
          rw [hkind, firstKind_plain cs hc.plain]
          have hlast : Settles deep (advance >>= fun _ => pure [x]) s₁ post := by
            apply Settles.bind
            apply Settles.advance_plain close hreached₁.at_rest hc.plain
            intro _ s₂ hreached₂ _
            apply Settles.pure
            apply hpost
            exact hreached₁.trans hreached₂
          split
          · exact absurd rfl hc.ne_comma
          · simp only [if_true]
            exact hlast
      | @cons text' x' texts xs hx' hxs =>
          rw [joined_cons_cons, List.append_assoc] at hat
          have hcomma : Ends ([','] ++ joined [','] (text' :: texts) ++ c :: cs)
              Precedence.store.rank := Ends.close _ _ (by decide)
          apply hx.operand hat hcomma hx.compares (by omega) (fun hn => hdeep (by omega))
          intro s₁ hreached₁
          apply Settles.bind
          apply Settles.current hreached₁.at_rest
          intro token hkind
          have hfirst : firstKind ([','] ++ joined [','] (text' :: texts) ++ c :: cs) = .comma :=
            firstKind_plain _ (by decide)
          rw [hkind, hfirst]
          apply Settles.bind
          apply Settles.advance_plain .comma hreached₁.at_rest (by decide)
          intro _ s₂ hreached₂ hshorter
          have hfree₁ := hreached₁.charged
          have hfree₂ := hreached₂.charged
          have hshorter₁ := hreached₁.shorter
          apply Settles.bind
          apply ih (by simp) hreached₂.at_rest (by omega) (fun hn => hdeep (by omega)) (by omega)
          intro s₃ hreached₃
          apply Settles.pure
          apply hpost
          exact (hreached₁.trans hreached₂).trans hreached₃

/-- The same where there may be none of them. -/
theorem sequence_reads (hc : Closing c close) (h : List.Forall₂ Reads texts xs)
    (hat : At s (joined [','] texts ++ c :: cs)) (hroom : chargeAll xs ≤ s.free)
    (hdeep : n < depthAll xs → deep)
    (hpost : ∀ s', Reached s cs (chargeAll xs) s' → post xs s') :
    Settles deep (sequence (expression n) close) s post := by
  unfold sequence
  apply Settles.bind
  by_cases hne : xs = []
  · subst hne
    cases h
    apply Settles.current_plain close hat hc.plain
    intro token hclose
    simp only [hclose, if_true]
    apply Settles.bind
    apply Settles.advance_plain close hat hc.plain
    intro _ s₁ hreached₁ _
    exact Settles.pure (hpost s₁ hreached₁)
  · apply Settles.current hat
    intro token hkind
    have hclose : token.kind ≠ close := by
      rcases joined_opens h hne with ⟨d, rest, hjoined, hopens⟩
      rw [hkind, hjoined, List.cons_append]
      intro heq
      apply firstKind_opens (rest ++ c :: cs) hopens
      rw [heq]
      exact hc.closes
    simp only [hclose, if_false]
    apply Settles.bind
    apply Settles.get
    exact separated_reads hc h hne hat hroom hdeep (Nat.lt_succ_self _) hpost

end Sequences

section Calls

variable {n : Nat} {stop : Precedence} {cs text : List Char} {s : State} {f : Operator}
  {name : String} {x : Expr} {texts : List (List Char)} {xs : List Expr}

theorem charge_apply (f : Operator) (xs : List Expr) :
    (Expr.apply f xs).charge = chargeAll xs + (Expr.apply f xs).nodeCharge ∧
      (Expr.apply f xs).depth = depthAll xs + 1 :=
  ⟨Expr.charge_eq _, rfl⟩

theorem Settles.spanFrom {deep : Prop} {token : Token} {post : Span → State → Prop}
    (h : ∀ span, post span s) : Settles deep (Parser.spanFrom token) s post := by
  unfold Parser.spanFrom
  apply Settles.bind
  apply Settles.get
  exact Settles.pure (h _)

theorem Reads.list (h : List.Forall₂ Reads texts xs) :
    Reads ('{' :: joined [','] texts ++ ['}']) (.apply .list xs) := by
  rcases charge_apply .list xs with ⟨hcharge, hdepth⟩
  refine Reads.of_leading ⟨'{', _, rfl, Or.inr (Or.inr (by decide))⟩ (show 2 ≤ 10 by decide) ?_
  intro deep n stop cs s post hat hends hstop hroom hdeep hpost
  rw [List.cons_append, List.cons_append, List.append_assoc] at hat
  unfold leading
  apply Settles.bind
  apply Settles.current_plain .leftBrace hat (by decide)
  intro token hfirst
  rw [hfirst]
  apply Settles.bind
  apply Settles.advance_plain .leftBrace hat (by decide)
  intro _ s₁ hreached₁ _
  have hfree₁ := hreached₁.charged
  apply Settles.bind
  apply sequence_reads Closing.brace h hreached₁.at_rest (by omega) (fun hn => hdeep (by omega))
  intro s₂ hreached₂
  apply Settles.finish (hreached₁.trans hreached₂) (by omega) hroom
  intro s₃ hreached₃ _
  exact hpost s₃ hreached₃

/-! ## Calls -/

/-- The name of a call is read as one token, and the parenthesis opens its arguments. -/
theorem lexemes_call (h : isSpelled name = true) (texts : List (List Char)) (cs : List Char) :
    lexemes (name.toList ++ writeArguments texts ++ cs) =
      (identifierKind name, name) :: lexemes ('(' :: (joined [','] texts ++ (')' :: cs))) := by
  have hopening : Breaks ('(' :: (joined [','] texts ++ (')' :: cs))) := breaks_cons (by decide)
  rw [← lexemes_name h hopening, writeArguments]
  simp

theorem Reads.function (h : LegalName name) (hans : name ≠ "ans") (hx : Reads text x)
    (hself : x.symbol? ≠ some name) :
    Reads (name.toList ++ writeArguments [text]) (.apply (.function name) [x]) := by
  rcases charge_apply (.function name) [x] with ⟨hcharge, hdepth⟩
  refine Reads.of_leading (opens_of_isSpelled h.spelled _) (show 2 ≤ 10 by decide) ?_
  intro deep n stop cs s post hat hends hstop hroom hdeep hpost
  have hlexemes := lexemes_call h.spelled [text] cs
  rw [identifierKind_eq h.unreserved] at hlexemes
  apply leading_legal h hat hlexemes
  intro token next s₁ htext hnext hreached₁
  have hopening : next.kind = .leftParenthesis := by
    rw [hnext]
    exact firstKind_plain _ (by decide)
  simp only [hopening, hans, ne_eq, not_false_eq_true, decide_true, Bool.and_self, if_true]
  unfold userFunction
  apply Settles.bind
  apply Settles.advance_plain .leftParenthesis hreached₁.at_rest (by decide)
  intro _ s₂ hreached₂ _
  have hfree₁ := hreached₁.charged
  have hfree₂ := hreached₂.charged
  apply Settles.bind
  apply sequence_reads Closing.parenthesis (List.Forall₂.cons hx .nil) hreached₂.at_rest
    (by omega) (fun hn => hdeep (by omega))
  intro s₃ hreached₃
  apply Settles.bind
  apply Settles.spanFrom
  intro span
  simp only [htext, hself, if_false]
  apply Settles.finish ((hreached₁.trans hreached₂).trans hreached₃) (by omega) hroom
  intro s₄ hreached₄ _
  exact hpost s₄ hreached₄

/-- A function that has a reserved name is found by this name and the number of its arguments. -/
theorem reservedFunction_of_name {count : Nat} (hname : f.kind.functionName? = some name)
    (hcount : f.kind.arity.accepts count = true) :
    ∃ entry, reservedFunction? name = some entry ∧ (count = entry.least ∨ count = entry.most) ∧
      callOperator entry.kind count = f := by
  cases f <;> cases hname <;>
    simp only [Operator.kind, Kind.arity, Arity.accepts, beq_iff_eq, Bool.and_eq_true,
      decide_eq_true_eq, Option.all_some] at hcount <;>
    first
    | (subst hcount
       exact ⟨_, rfl, by decide, rfl⟩)
    | exact ⟨_, rfl, by show count = 1 ∨ count = 2; omega, rfl⟩

theorem functionName_spelled {k : Kind} (h : k.functionName? = some name) :
    name = "√" ∨ isSpelled name = true := by
  cases k <;> cases h <;> first | exact Or.inl rfl | exact Or.inr rfl

theorem precedence_of_name (h : f.kind.functionName? = some name) (xs : List Expr) :
    (Expr.apply f xs).precedence = 10 := by
  cases f <;> first | rfl | cases h

theorem Reads.call (hname : f.kind.functionName? = some name)
    (hcount : f.kind.arity.accepts xs.length = true)
    (hbinds : f.kind.isParametered = true → bindsLegally xs = true)
    (h : List.Forall₂ Reads texts xs) :
    Reads (name.toList ++ writeArguments texts) (.apply f xs) := by
  rcases charge_apply f xs with ⟨hcharge, hdepth⟩
  rcases reservedFunction_of_name hname hcount with ⟨entry, hentry, hadmitted, hoperator⟩
  have hprecedence := precedence_of_name hname xs
  have hreserved : identifierKind name = .reservedFunction := by
    simp [identifierKind, hentry]
  have hopens : ∃ c rest, name.toList ++ writeArguments texts = c :: rest ∧ Opens c := by
    rcases functionName_spelled hname with rfl | hspelled
    · exact ⟨'√', _, rfl, Or.inr (Or.inr (by decide))⟩
    · exact opens_of_isSpelled hspelled _
  refine Reads.of_leading hopens (by omega) ?_
  intro deep n stop cs s post hat hends hstop hroom hdeep hpost
  have hlexemes : lexemes (name.toList ++ writeArguments texts ++ cs) =
      (.reservedFunction, name) :: lexemes ('(' :: (joined [','] texts ++ (')' :: cs))) := by
    rcases functionName_spelled hname with rfl | hspelled
    · have hroot : lexemes ('√' :: (writeArguments texts ++ cs)) =
          (.reservedFunction, "√") :: lexemes (writeArguments texts ++ cs) :=
        lexemes_plain _ (by decide)
      refine hroot.trans ?_
      rw [writeArguments]
      simp
    · rw [lexemes_call hspelled, hreserved]
  unfold leading
  apply Settles.bind
  apply Settles.current hat
  intro token hkind
  have hfunction : token.kind = .reservedFunction := by
    rw [hkind, firstKind, hlexemes]
    rfl
  rw [hfunction]
  unfold reservedCall
  apply Settles.bind
  apply Settles.advance hat hlexemes
  intro token₁ s₁ _ htext hreached₁ _
  simp only [htext, hentry]
  apply Settles.bind
  apply Settles.current_plain .leftParenthesis hreached₁.at_rest (by decide)
  intro next hopening
  simp only [hopening, ne_eq, not_true_eq_false, reduceCtorEq, decide_false, Bool.and_false,
    Bool.false_eq_true, if_false]
  apply Settles.bind
  apply Settles.advance_plain .leftParenthesis hreached₁.at_rest (by decide)
  intro _ s₂ hreached₂ _
  have hfree₁ := hreached₁.charged
  have hfree₂ := hreached₂.charged
  apply Settles.bind
  apply sequence_reads Closing.parenthesis h hreached₂.at_rest (by omega)
    (fun hn => hdeep (by omega))
  intro s₃ hreached₃
  apply Settles.bind
  apply Settles.spanFrom
  intro span
  have hadmits :
      ¬ (decide (xs.length ≠ entry.least) && decide (xs.length ≠ entry.most)) = true := by
    rcases hadmitted with heq | heq <;> simp [heq]
  have hbound : ¬ (f.kind.isParametered && !bindsLegally xs) = true := by
    intro hboth
    rw [Bool.and_eq_true, Bool.not_eq_true'] at hboth
    rw [hbinds hboth.1] at hboth
    exact Bool.noConfusion hboth.2
  simp only [hadmits, hoperator, hbound]
  apply Settles.finish ((hreached₁.trans hreached₂).trans hreached₃) (by omega) hroom
  intro s₄ hreached₄ _
  exact hpost s₄ hreached₄

end Calls

/-! ## Matrices -/

/-- The text of a row of a matrix. -/
def rowText (row : List (List Char)) : List Char :=
  '[' :: joined [','] row ++ [']']

section Matrices

variable {deep : Prop} {n rounds count : Nat} {columns : Option Nat} {opening : Token}
  {cs : List Char} {s : State} {post : List (List Expr) → State → Prop}
  {texts : List (List (List Char))} {rows : List (List Expr)}

theorem rowText_append (row : List (List Char)) (cs : List Char) :
    rowText row ++ cs = '[' :: (joined [','] row ++ ']' :: cs) := by
  simp [rowText]

/-- What follows a row: another row, or the bracket that closes the matrix. -/
theorem firstKind_rows (texts : List (List (List Char))) (cs : List Char) :
    firstKind ((texts.map rowText).flatten ++ ']' :: cs) =
      if texts = [] then .rightBracket else .leftBracket := by
  cases texts with
  | nil => exact firstKind_plain cs (by decide)
  | cons row texts =>
      rw [List.map_cons, List.flatten_cons, List.append_assoc, rowText_append, if_neg (by simp)]
      exact firstKind_plain _ (by decide)

theorem matrixRows_reads (h : List.Forall₂ (List.Forall₂ Reads) texts rows) (hne : rows ≠ [])
    (hcount : ∀ row ∈ rows, row.length = count) (hpositive : 0 < count)
    (hcolumns : columns = none ∨ columns = some count)
    (hat : At s ((texts.map rowText).flatten ++ ']' :: cs))
    (hroom : chargeAll rows.flatten ≤ s.free) (hdeep : n < depthAll rows.flatten → deep)
    (hrounds : s.tokens.length < rounds)
    (hpost : ∀ s', Reached s cs (chargeAll rows.flatten) s' → post rows s') :
    Settles deep (matrixRows (expression n) opening columns rounds) s post := by
  induction h generalizing s rounds post columns with
  | nil => exact absurd rfl hne
  | @cons rowTexts row texts rows hrow hrows ih =>
      obtain ⟨rounds, rfl⟩ : ∃ k, rounds = k + 1 := ⟨rounds - 1, by omega⟩
      have hlength : row.length = count := hcount row (by simp)
      have hrowne : row ≠ [] := by
        rintro rfl
        rw [List.length_nil] at hlength
        omega
      have hexpected : columns.getD count = count := by
        rcases hcolumns with rfl | rfl <;> rfl
      rw [List.flatten_cons, Expr.chargeAll_append] at hroom hpost
      rw [List.flatten_cons, Expr.depthAll_append] at hdeep
      rw [List.map_cons, List.flatten_cons, List.append_assoc, rowText_append] at hat
      rw [matrixRows]
      apply Settles.bind
      apply Settles.current_plain .leftBracket hat (by decide)
      intro next hleft
      simp only [hleft, ne_eq, not_true_eq_false, if_false]
      apply Settles.bind
      apply Settles.advance_plain .leftBracket hat (by decide)
      intro rowOpening s₁ hreached₁ hshorter₁
      apply Settles.bind
      apply Settles.current hreached₁.at_rest
      intro first hfirst
      have hentry : first.kind ≠ .rightBracket := by
        rcases joined_opens hrow hrowne with ⟨d, rest, hjoined, hopens⟩
        rw [hfirst, hjoined, List.cons_append]
        intro heq
        apply firstKind_opens _ hopens
        rw [heq]
        exact Closing.bracket.closes
      simp only [hentry, if_false]
      apply Settles.bind
      apply Settles.get
      have hfree₁ := hreached₁.charged
      apply Settles.bind
      apply separated_reads Closing.bracket hrow hrowne hreached₁.at_rest (by omega)
        (fun hn => hdeep (by omega)) (Nat.lt_succ_self _)
      intro s₂ hreached₂
      have hshorter₂ := hreached₂.shorter
      simp only [hlength, hexpected, not_true_eq_false, if_false]
      apply Settles.bind
      apply Settles.current hreached₂.at_rest
      intro after hafter
      rw [hafter, firstKind_rows]
      cases hrows with
      | nil =>
          rw [if_pos rfl]
          apply Settles.bind
          apply Settles.advance_plain .rightBracket hreached₂.at_rest (by decide)
          intro _ s₃ hreached₃ _
          apply Settles.pure
          apply hpost
          have htrans := (hreached₁.trans hreached₂).trans hreached₃
          rw [Nat.zero_add] at htrans
          exact htrans
      | @cons rowTexts' row' texts rows hrow' hrows =>
          rw [if_neg (by simp)]
          have hfree₂ := hreached₂.charged
          apply Settles.bind
          apply ih (by simp) (fun r hr => hcount r (by simp [hr])) (Or.inr rfl) hreached₂.at_rest
            (by omega) (fun hn => hdeep (by omega)) (by omega)
          intro s₃ hreached₃
          apply Settles.pure
          apply hpost
          have htrans := (hreached₁.trans hreached₂).trans hreached₃
          rw [Nat.zero_add] at htrans
          exact htrans

theorem Reads.matrix (h : List.Forall₂ (List.Forall₂ Reads) texts rows) (hne : rows ≠ [])
    (hcount : ∀ row ∈ rows, row.length = count) (hpositive : 0 < count) :
    Reads ('[' :: (texts.map rowText).flatten ++ [']'])
      (.apply (.matrix rows.length count) rows.flatten) := by
  rcases charge_apply (.matrix rows.length count) rows.flatten with ⟨hcharge, hdepth⟩
  refine Reads.of_leading ⟨'[', _, rfl, Or.inr (Or.inr (by decide))⟩ (show 2 ≤ 10 by decide) ?_
  intro deep n stop cs s post hat hends hstop hroom hdeep hpost
  rw [List.cons_append, List.cons_append, List.append_assoc, List.singleton_append] at hat
  unfold leading
  apply Settles.bind
  apply Settles.current_plain .leftBracket hat (by decide)
  intro token hfirst
  rw [hfirst]
  unfold Parser.matrix
  apply Settles.bind
  apply Settles.advance_plain .leftBracket hat (by decide)
  intro opening s₁ hreached₁ _
  apply Settles.bind
  apply Settles.get
  have hfree₁ := hreached₁.charged
  apply Settles.bind
  apply matrixRows_reads h hne hcount hpositive (Or.inl rfl) hreached₁.at_rest (by omega)
    (fun hn => hdeep (by omega)) (Nat.lt_succ_self _)
  intro s₂ hreached₂
  have hcolumns : (rows.headD []).length = count := by
    cases rows with
    | nil => exact absurd rfl hne
    | cons row rows => exact hcount row (by simp)
  rw [hcolumns]
  apply Settles.finish (hreached₁.trans hreached₂) (by omega) hroom
  intro s₃ hreached₃ _
  exact hpost s₃ hreached₃

end Matrices

end Parser
end PocketAlgebra
