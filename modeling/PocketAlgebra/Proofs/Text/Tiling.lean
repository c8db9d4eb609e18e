import Mathlib.Data.String.Basic
import PocketAlgebra.Text.Token

/-!
# Tokens tile their text

Tokens are taken from a text one by one, until only its end is left, which may be taken for ever.
They are the tokens that the text has been cut into, and nothing of the text is lost: every token is
the part of the text at its span, and what stands before, between and behind the tokens is blank.
-/

namespace PocketAlgebra

open String (utf8Len)

/-! ## Parts of texts -/

/-- A byte position between two characters of a text, or at one of its ends. -/
def IsBoundary (text : String) (position : Nat) : Prop :=
  String.Pos.Raw.IsValid text ⟨position⟩

namespace Span

/-- The part of a text between the ends of a span. -/
def slice (span : Span) (text : String) : String :=
  String.Pos.Raw.extract text ⟨span.start⟩ ⟨span.stop⟩

/-- A span of a text begins and ends at character boundaries. -/
structure Within (span : Span) (text : String) : Prop where
  start : IsBoundary text span.start
  stop : IsBoundary text span.stop
  ordered : span.start ≤ span.stop
  inside : span.stop ≤ text.utf8ByteSize

end Span

section Parts

variable {text : String} {before part rest : List Char} {position : Nat}

theorem isBoundary_of_append (h : text.toList = before ++ rest) :
    IsBoundary text (utf8Len before) := by
  rw [IsBoundary, String.Pos.Raw.isValid_iff_exists_append]
  refine ⟨String.ofList before, String.ofList rest, ?_, ?_⟩
  · rw [← String.ofList_append, ← h, String.ofList_toList]
  · rw [String.rawEndPos, String.utf8ByteSize_ofList]

theorem isBoundary_end (text : String) : IsBoundary text text.utf8ByteSize := by
  have hall : IsBoundary text (utf8Len text.toList) :=
    isBoundary_of_append (List.append_nil _).symm
  rwa [String.utf8Len_toList] at hall

theorem IsBoundary.le (h : IsBoundary text position) : position ≤ text.utf8ByteSize :=
  String.Pos.Raw.IsValid.le_rawEndPos h

theorem IsBoundary.within {start stop : Nat} (hstart : IsBoundary text start)
    (hstop : IsBoundary text stop) (h : start ≤ stop) : Span.Within ⟨start, stop⟩ text :=
  ⟨hstart, hstop, h, hstop.le⟩

theorem within_of_append (h : text.toList = before ++ part ++ rest) :
    Span.Within ⟨utf8Len before, utf8Len before + utf8Len part⟩ text := by
  have hstart : IsBoundary text (utf8Len before) :=
    isBoundary_of_append (by rw [h, List.append_assoc])
  have hstop : IsBoundary text (utf8Len before + utf8Len part) := by
    rw [← String.utf8Len_append]
    exact isBoundary_of_append h
  exact hstart.within hstop (Nat.le_add_right _ _)

theorem slice_of_append (h : text.toList = before ++ part ++ rest) :
    Span.slice ⟨utf8Len before, utf8Len before + utf8Len part⟩ text = String.ofList part := by
  rw [Span.slice, ← String.ofList_toList (s := text), h]
  exact String.extract_of_valid before part rest

end Parts

namespace Token

theorem byteLength_eq (cs : List Char) : byteLength cs = utf8Len cs := by
  induction cs with
  | nil => rfl
  | cons c cs ih =>
      rw [String.utf8Len_cons, ← ih, Nat.add_comm]
      rfl

/-! ## Taking tokens one by one -/

/-- What is left of a text, and the byte position at which it begins. -/
structure Cursor where
  position : Nat
  rest : List Char

namespace Cursor

/-- The whole of a text. -/
def ofText (text : String) : Cursor :=
  ⟨0, text.toList⟩

/-- The token at which a text goes on behind its blanks, and what is left behind it. Where nothing
but blanks is left, this is the end of the text. -/
def popAt (position : Nat) : List Char → Token × Cursor
  | [] => (⟨.endOfStream, "", ⟨position, position⟩⟩, ⟨position, []⟩)
  | c :: cs =>
    if isBlank c then
      popAt (position + c.utf8Size) cs
    else
      let (kind, length) := scanFrom c cs
      let lexeme := c :: cs.take length
      let stop := position + byteLength lexeme
      (⟨kind, String.ofList lexeme, ⟨position, stop⟩⟩, ⟨stop, cs.drop length⟩)

/-- Takes a token. -/
def pop (cursor : Cursor) : Token × Cursor :=
  popAt cursor.position cursor.rest

/-- The token that is taken after so many others. -/
def nth (cursor : Cursor) : Nat → Token
  | 0 => cursor.pop.1
  | n + 1 => cursor.pop.2.nth n

/-- The tokens that can be taken before the end of the text. -/
def tokens (cursor : Cursor) : List Token :=
  scanAt cursor.position cursor.rest

/-- What stands for the end of the text. -/
def ending (cursor : Cursor) : Token :=
  ⟨.endOfStream, "", ⟨cursor.position + utf8Len cursor.rest,
    cursor.position + utf8Len cursor.rest⟩⟩

/-- Either a token is taken, and the others are left, or the end of the text is, and is left. -/
theorem pop_cases (cursor : Cursor) :
    cursor.tokens = cursor.pop.1 :: cursor.pop.2.tokens ∧
        cursor.pop.2.ending = cursor.ending ∨
      cursor.tokens = [] ∧ cursor.pop.1 = cursor.ending ∧
        cursor.pop.2 = ⟨cursor.ending.span.stop, []⟩ := by
  rcases cursor with ⟨position, cs⟩
  induction position, cs using scanAt.induct with
  | case1 position => exact .inr ⟨by simp [tokens, scanAt], rfl, rfl⟩
  | case2 position c cs hblank ih =>
      have hpop : pop ⟨position, c :: cs⟩ = pop ⟨position + c.utf8Size, cs⟩ := by
        rw [pop, popAt, if_pos hblank]
        rfl
      have htokens : tokens ⟨position, c :: cs⟩ = tokens ⟨position + c.utf8Size, cs⟩ := by
        rw [tokens, scanAt, if_pos hblank]
        rfl
      have hending : ending ⟨position, c :: cs⟩ = ending ⟨position + c.utf8Size, cs⟩ := by
        simp only [ending, String.utf8Len_cons]
        rw [Nat.add_comm (utf8Len cs), Nat.add_assoc]
      rw [hpop, htokens, hending]
      exact ih
  | case3 position c cs hblank kind length hscan lexeme stop ih =>
      have hpop : pop ⟨position, c :: cs⟩ =
          (⟨kind, String.ofList lexeme, ⟨position, stop⟩⟩, ⟨stop, cs.drop length⟩) := by
        rw [pop, popAt, if_neg hblank, hscan]
      rw [hpop]
      apply Or.inl
      constructor
      · rw [tokens, scanAt, if_neg hblank, hscan]
        rfl
      · have hlength : utf8Len (c :: cs) = utf8Len lexeme + utf8Len (cs.drop length) := by
          rw [← String.utf8Len_append, List.cons_append, List.take_append_drop]
        simp only [ending, hlength, stop, byteLength_eq, Nat.add_assoc]

theorem nth_end (position n : Nat) :
    nth ⟨position, []⟩ n = ⟨.endOfStream, "", ⟨position, position⟩⟩ := by
  induction n with
  | zero => rfl
  | succ n ih => exact ih

/-- One after the other, the tokens of the text are taken, and then its end for ever. -/
theorem nth_eq (cursor : Cursor) (n : Nat) :
    cursor.nth n = cursor.tokens.getD n cursor.ending := by
  induction n generalizing cursor with
  | zero =>
      rcases cursor.pop_cases with ⟨htokens, -⟩ | ⟨htokens, hpop, -⟩
      · rw [htokens]
        rfl
      · rw [htokens]
        exact hpop
  | succ n ih =>
      rw [nth]
      rcases cursor.pop_cases with ⟨htokens, hending⟩ | ⟨htokens, -, hleft⟩
      · rw [ih, htokens, hending, List.getD_cons_succ]
      · rw [htokens, hleft, nth_end]
        rfl

theorem ending_ofText (text : String) : (ofText text).ending = atEnd text := by
  rw [ending, ofText, atEnd, Nat.zero_add, String.utf8Len_toList]

end Cursor

/-! ## Tokens and blanks in turn -/

/-- Tokens stand one behind the other in a text that begins at some position, with blanks before,
between and behind them. -/
inductive Laid : Nat → List Char → List Token → Prop
  | done {position : Nat} {gap : List Char} (hgap : ∀ c ∈ gap, isBlank c = true) :
    Laid position gap []
  | token {position : Nat} {gap lexeme rest : List Char} {kind : TokenKind} {tokens : List Token}
    (hgap : ∀ c ∈ gap, isBlank c = true) (hne : lexeme ≠ [])
    (hrest : Laid (position + utf8Len gap + utf8Len lexeme) rest tokens) :
    Laid position (gap ++ lexeme ++ rest)
      (⟨kind, String.ofList lexeme,
        ⟨position + utf8Len gap, position + utf8Len gap + utf8Len lexeme⟩⟩ :: tokens)

theorem laid_scanAt (position : Nat) (cs : List Char) :
    Laid position cs (scanAt position cs) := by
  induction position, cs using scanAt.induct with
  | case1 position =>
      rw [scanAt]
      exact .done (by simp)
  | case2 position c cs hblank ih =>
      rw [scanAt, if_pos hblank]
      generalize hcs : position + c.utf8Size = next at ih
      generalize scanAt next cs = tokens at ih
      cases ih with
      | done hgap =>
          apply Laid.done
          exact List.forall_mem_cons.mpr ⟨hblank, hgap⟩
      | @token _ gap lexeme rest kind tokens hgap hne hrest =>
          have hstart : next + utf8Len gap = position + utf8Len (c :: gap) := by
            rw [String.utf8Len_cons, ← hcs]
            omega
          rw [hstart] at hrest ⊢
          exact .token (List.forall_mem_cons.mpr ⟨hblank, hgap⟩) hne hrest
  | case3 position c cs hblank kind length hscan lexeme stop ih =>
      rw [scanAt, if_neg hblank, hscan]
      have hstop : stop = position + utf8Len [] + utf8Len lexeme := by
        rw [String.utf8Len_nil, ← byteLength_eq]
        rfl
      have htext : c :: cs = [] ++ lexeme ++ cs.drop length := by
        rw [List.nil_append, List.cons_append, List.take_append_drop]
      rw [hstop] at ih
      have hnogap : ∀ d ∈ ([] : List Char), isBlank d = true := by simp
      have hlaid := @Laid.token position [] lexeme (cs.drop length) kind _ hnogap
        (List.cons_ne_nil _ _) ih
      rw [← htext, ← hstop] at hlaid
      exact hlaid

/-- The spans before, between and behind tokens, from a position up to another one. -/
def gaps (position stop : Nat) : List Token → List Span
  | [] => [⟨position, stop⟩]
  | token :: tokens => ⟨position, token.span.start⟩ :: gaps token.span.stop stop tokens

section Laid

variable {text : String} {before cs : List Char} {tokens : List Token}

/-- No token is empty, and each is the part of the text at its span, behind what has been read. -/
theorem Laid.mem {position : Nat} (h : Laid position cs tokens) (htext : text.toList = before ++ cs)
    (hposition : position = utf8Len before) {token : Token} (hmem : token ∈ tokens) :
    token.text ≠ "" ∧ token.span.Within text ∧ token.span.slice text = token.text ∧
      position ≤ token.span.start := by
  induction h generalizing before with
  | done => cases hmem
  | @token position gap lexeme rest kind tokens hgap hne hrest ih =>
      subst hposition
      have hsplit : text.toList = (before ++ gap) ++ lexeme ++ rest := by
        rw [htext, List.append_assoc, List.append_assoc, List.append_assoc]
      have hstart : utf8Len before + utf8Len gap = utf8Len (before ++ gap) :=
        (String.utf8Len_append before gap).symm
      rcases List.mem_cons.mp hmem with rfl | hmem
      · refine ⟨?_, ?_, ?_, Nat.le_add_right _ _⟩
        · rwa [Ne, String.ofList_eq_empty_iff]
        · rw [hstart]
          exact within_of_append hsplit
        · rw [hstart]
          exact slice_of_append hsplit
      · have hposition : utf8Len before + utf8Len gap + utf8Len lexeme =
            utf8Len (before ++ gap ++ lexeme) := by
          rw [String.utf8Len_append, String.utf8Len_append]
        rcases ih hsplit hposition hmem with ⟨htoken, hwithin, hslice, hle⟩
        exact ⟨htoken, hwithin, hslice, by omega⟩

theorem Laid.pairwise {position : Nat} (h : Laid position cs tokens)
    (htext : text.toList = before ++ cs) (hposition : position = utf8Len before) :
    tokens.Pairwise fun first second => first.span.stop ≤ second.span.start := by
  induction h generalizing before with
  | done => exact .nil
  | @token position gap lexeme rest kind tokens hgap hne hrest ih =>
      subst hposition
      have hsplit : text.toList = (before ++ gap ++ lexeme) ++ rest := by
        rw [htext, List.append_assoc, List.append_assoc, List.append_assoc]
      have hnext : utf8Len before + utf8Len gap + utf8Len lexeme =
          utf8Len (before ++ gap ++ lexeme) := by
        rw [String.utf8Len_append, String.utf8Len_append]
      refine .cons ?_ (ih hsplit hnext)
      intro token hmem
      exact (hrest.mem hsplit hnext hmem).2.2.2

/-- What stands before, between and behind the tokens is blank. -/
theorem Laid.gaps {position : Nat} (h : Laid position cs tokens)
    (htext : text.toList = before ++ cs) (hposition : position = utf8Len before) {gap : Span}
    (hmem : gap ∈ gaps position text.utf8ByteSize tokens) :
    gap.Within text ∧ ∀ c ∈ (gap.slice text).toList, isBlank c = true := by
  have hblank : ∀ before part rest : List Char, text.toList = before ++ part ++ rest →
      (∀ c ∈ part, isBlank c = true) →
      Span.Within ⟨utf8Len before, utf8Len before + utf8Len part⟩ text ∧
        ∀ c ∈ (Span.slice ⟨utf8Len before, utf8Len before + utf8Len part⟩ text).toList,
          isBlank c = true := by
    intro before part rest hsplit hpart
    rw [slice_of_append hsplit, String.toList_ofList]
    exact ⟨within_of_append hsplit, hpart⟩
  induction h generalizing before with
  | @done position blanks hgap =>
      subst hposition
      obtain rfl := List.mem_singleton.mp hmem
      have hend : text.utf8ByteSize = utf8Len before + utf8Len blanks := by
        rw [← String.utf8Len_toList, htext, String.utf8Len_append]
      rw [hend]
      exact hblank before blanks [] (by rw [htext, List.append_nil]) hgap
  | @token position blanks lexeme rest kind tokens hgap hne hrest ih =>
      subst hposition
      rcases List.mem_cons.mp hmem with rfl | hmem
      · exact hblank before blanks (lexeme ++ rest)
          (by rw [htext, List.append_assoc, List.append_assoc]) hgap
      · have hsplit : text.toList = (before ++ blanks ++ lexeme) ++ rest := by
          rw [htext, List.append_assoc, List.append_assoc, List.append_assoc]
        have hnext : utf8Len before + utf8Len blanks + utf8Len lexeme =
            utf8Len (before ++ blanks ++ lexeme) := by
          rw [String.utf8Len_append, String.utf8Len_append]
        exact ih hsplit hnext hmem

end Laid

end Token

end PocketAlgebra
