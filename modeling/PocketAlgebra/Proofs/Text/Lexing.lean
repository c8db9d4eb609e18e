import Mathlib.Data.List.Basic
import PocketAlgebra.Text.Token

/-!
# Cutting texts into tokens

What the first token of a text is, where the text begins with a sign or an identifier.
-/

namespace PocketAlgebra
namespace Token

/-! ## Kinds and texts of tokens -/

/-- What a reader sees of a token, wherever it stands. -/
def lexeme (token : Token) : TokenKind × String :=
  (token.kind, token.text)

/-- What a reader sees of the tokens of a text. -/
def lexemes (cs : List Char) : List (TokenKind × String) :=
  (scanAt 0 cs).map lexeme

theorem map_lexeme_scanAt (first second : Nat) (cs : List Char) :
    (scanAt first cs).map lexeme = (scanAt second cs).map lexeme := by
  induction first, cs using scanAt.induct generalizing second with
  | case1 first => simp [scanAt]
  | case2 first c cs hblank ih =>
      rw [scanAt, scanAt, if_pos hblank, if_pos hblank]
      exact ih _
  | case3 first c cs hblank kind length hscan lexeme' stop ih =>
      rw [scanAt, scanAt, if_neg hblank, if_neg hblank, hscan]
      simp only [List.map_cons, lexeme]
      rw [ih (second + byteLength (c :: cs.take length))]

theorem lexemes_nil : lexemes [] = [] := by
  simp [lexemes, scanAt]

theorem lexemes_cons {c : Char} {cs : List Char} {kind : TokenKind} {length : Nat}
    (hblank : isBlank c = false) (hscan : scanFrom c cs = (kind, length)) :
    lexemes (c :: cs) =
      (kind, String.ofList (c :: cs.take length)) :: lexemes (cs.drop length) := by
  have hunblank : ¬ isBlank c = true := by
    simp [hblank]
  rw [lexemes, scanAt, if_neg hunblank, hscan]
  simp only [List.map_cons, lexeme]
  rw [map_lexeme_scanAt _ 0]
  rfl

theorem lexemes_sign {c : Char} {cs : List Char} {kind : TokenKind}
    (hblank : isBlank c = false) (hscan : scanFrom c cs = (kind, 0)) :
    lexemes (c :: cs) = (kind, String.ofList [c]) :: lexemes cs :=
  lexemes_cons hblank hscan

/-! ## Signs -/

/-- The signs that are tokens whatever follows them. -/
def plainSigns : List (Char × TokenKind) :=
  [('+', .plus), ('×', .times), ('/', .slash), ('^', .caret), ('!', .bang), ('→', .store),
   ('=', .comparison .equal), ('≠', .comparison .notEqual), ('≤', .comparison .lessOrEqual),
   ('≥', .comparison .greaterOrEqual), (',', .comma), ('(', .leftParenthesis),
   (')', .rightParenthesis), ('[', .leftBracket), (']', .rightBracket), ('{', .leftBrace),
   ('}', .rightBrace), ('π', .identifier), ('ℯ', .identifier), ('𝐢', .identifier),
   ('√', .reservedFunction)]

theorem lexemes_plain {c : Char} {kind : TokenKind} (cs : List Char)
    (h : (c, kind) ∈ plainSigns) :
    lexemes (c :: cs) = (kind, String.ofList [c]) :: lexemes cs := by
  simp only [plainSigns, List.mem_cons, Prod.mk.injEq, List.not_mem_nil, or_false] at h
  rcases h with ⟨rfl, rfl⟩ | ⟨rfl, rfl⟩ | ⟨rfl, rfl⟩ | ⟨rfl, rfl⟩ | ⟨rfl, rfl⟩ | ⟨rfl, rfl⟩ |
    ⟨rfl, rfl⟩ | ⟨rfl, rfl⟩ | ⟨rfl, rfl⟩ | ⟨rfl, rfl⟩ | ⟨rfl, rfl⟩ | ⟨rfl, rfl⟩ | ⟨rfl, rfl⟩ |
    ⟨rfl, rfl⟩ | ⟨rfl, rfl⟩ | ⟨rfl, rfl⟩ | ⟨rfl, rfl⟩ | ⟨rfl, rfl⟩ | ⟨rfl, rfl⟩ | ⟨rfl, rfl⟩ |
    ⟨rfl, rfl⟩ <;> exact lexemes_sign (by decide) rfl

theorem lexemes_minus {cs : List Char} (h : cs.head? ≠ some '>') :
    lexemes ('-' :: cs) = (.minus, "-") :: lexemes cs := by
  have hscan : scanFrom '-' cs = (.minus, 0) := by
    show (if cs.head? = some '>' then (TokenKind.store, 1) else (.minus, 0)) = _
    rw [if_neg h]
  exact lexemes_sign (by decide) hscan

theorem lexemes_less {cs : List Char} (h : cs.head? ≠ some '=') :
    lexemes ('<' :: cs) = (.comparison .less, "<") :: lexemes cs := by
  have hscan : scanFrom '<' cs = (.comparison .less, 0) := by
    show (if cs.head? = some '=' then (TokenKind.comparison .lessOrEqual, 1)
      else (.comparison .less, 0)) = _
    rw [if_neg h]
  exact lexemes_sign (by decide) hscan

theorem lexemes_greater {cs : List Char} (h : cs.head? ≠ some '=') :
    lexemes ('>' :: cs) = (.comparison .greater, ">") :: lexemes cs := by
  have hscan : scanFrom '>' cs = (.comparison .greater, 0) := by
    show (if cs.head? = some '=' then (TokenKind.comparison .greaterOrEqual, 1)
      else (.comparison .greater, 0)) = _
    rw [if_neg h]
  exact lexemes_sign (by decide) hscan

/-! ## Identifiers -/

/-- A text that goes on neither with an identifier nor with a number before it. -/
def Breaks (cs : List Char) : Prop :=
  ∀ c, cs.head? = some c →
    c.isAlphanum = false ∧ c ≠ '_' ∧ c ≠ '{' ∧ c ≠ '.' ∧ c ≠ exponentMarker

theorem breaks_nil : Breaks [] := by
  intro c h
  cases h

/-- The characters that neither a name nor a number goes on with. -/
def breakingSigns : List Char :=
  ['+', '-', '×', '/', '^', '!', '→', '=', '≠', '<', '≤', '>', '≥', ',', '(', ')', '[', ']', '}']

theorem breaks_cons {c : Char} {cs : List Char} (h : c ∈ breakingSigns) : Breaks (c :: cs) := by
  have hall : breakingSigns.all (fun c => !c.isAlphanum && c != '_' && c != '{' && c != '.' &&
      c != exponentMarker) = true := by decide
  intro d hd
  rw [List.head?_cons, Option.some.injEq] at hd
  subst hd
  simpa [and_assoc] using List.all_eq_true.mp hall c h

theorem identifierLength_breaks {cs : List Char} (h : Breaks cs) : identifierLength cs = 0 := by
  cases cs with
  | nil => rfl
  | cons c cs =>
      rcases h c rfl with ⟨halnum, hunderscore, -⟩
      rw [identifierLength]
      · simp [halnum, hunderscore]
      · intro _ heq _
        exact absurd heq hunderscore

theorem identifierLength_append {name cs : List Char}
    (hname : ∀ c ∈ name, c.isAlphanum = true ∨ c = '_') (h : Breaks cs) :
    identifierLength (name ++ cs) = name.length := by
  induction name with
  | nil => exact identifierLength_breaks h
  | cons c name ih =>
      have hrest := ih (fun d hd => hname d (by simp [hd]))
      have hc := hname c (by simp)
      rw [List.cons_append, identifierLength]
      · rw [hrest]
        simp [hc]
      · -- the underscore of a subscript does not stand within a name or at the end of it
        intro tail _ heq
        cases name with
        | nil =>
            rw [List.nil_append] at heq
            exact (h '{' (by rw [heq]; rfl)).2.2.1 rfl
        | cons d name =>
            rw [List.cons_append, List.cons.injEq] at heq
            have hd := hname d (by simp)
            rw [heq.1] at hd
            revert hd
            decide

theorem toNat_of_isAlpha {c : Char} (h : c.isAlpha = true) :
    65 ≤ c.toNat ∧ c.toNat ≤ 122 := by
  change (decide (c.val ≥ 'A'.val ∧ c.val ≤ 'Z'.val) ||
    (decide (c.val ≥ 'a'.val) && decide (c.val ≤ 'z'.val))) = true at h
  simp only [Bool.or_eq_true, decide_eq_true_eq, Bool.and_eq_true, UInt32.le_iff_toNat_le,
    ge_iff_le] at h
  have hval : c.val.toNat = c.toNat := rfl
  simp only [hval] at h
  have hbounds : 'A'.val.toNat = 65 ∧ 'Z'.val.toNat = 90 ∧
      'a'.val.toNat = 97 ∧ 'z'.val.toNat = 122 := by decide
  omega

theorem toNat_of_isDigit {c : Char} (h : c.isDigit = true) :
    48 ≤ c.toNat ∧ c.toNat ≤ 57 := by
  simp only [Char.isDigit, decide_eq_true_eq, Bool.and_eq_true, UInt32.le_iff_toNat_le,
    ge_iff_le] at h
  exact h

theorem isBlank_of_isAlpha {c : Char} (h : c.isAlpha = true) : isBlank c = false := by
  rcases toNat_of_isAlpha h with ⟨hleast, hmost⟩
  simp only [isBlank, Bool.or_eq_false_iff, Bool.and_eq_false_iff, decide_eq_false_iff_not]
  omega

theorem isBlank_of_isDigit {c : Char} (h : c.isDigit = true) : isBlank c = false := by
  rcases toNat_of_isDigit h with ⟨hleast, hmost⟩
  simp only [isBlank, Bool.or_eq_false_iff, Bool.and_eq_false_iff, decide_eq_false_iff_not]
  omega

theorem lexemes_identifier {c : Char} {name cs : List Char} (hfirst : c.isAlpha = true)
    (hname : ∀ d ∈ name, d.isAlphanum = true ∨ d = '_') (h : Breaks cs) :
    lexemes (c :: name ++ cs) =
      (identifierKind (String.ofList (c :: name)), String.ofList (c :: name)) ::
        lexemes cs := by
  have hlength := identifierLength_append hname h
  have hscan : scanFrom c (name ++ cs) =
      (identifierKind (String.ofList (c :: name)), name.length) := by
    have hdigit : (c.isDigit || c = '.') = false := by
      rcases toNat_of_isAlpha hfirst with ⟨hleast, -⟩
      rw [Bool.or_eq_false_iff, decide_eq_false_iff_not, Bool.eq_false_iff]
      constructor
      · intro hd
        have hmost := (toNat_of_isDigit hd).2
        omega
      · rintro rfl
        revert hleast
        decide
    rw [scanFrom]
    simp only [hdigit, hfirst, hlength, List.take_left, Bool.false_eq_true, if_false, if_true]
  rw [List.cons_append, lexemes_cons (isBlank_of_isAlpha hfirst) hscan, List.take_left,
    List.drop_left]

/-! ## First tokens -/

/-- The kind of the first token of a text. -/
def firstKind (cs : List Char) : TokenKind :=
  ((lexemes cs).headD (.endOfStream, "")).1

/-- The signs that an operand may begin with. -/
def openingSigns : List Char :=
  ['π', 'ℯ', '𝐢', '√', '(', '[', '{', '-']

/-- The characters that an operand may begin with. -/
def Opens (c : Char) : Prop :=
  c.isDigit = true ∨ c.isAlpha = true ∨ c ∈ openingSigns

/-- The tokens that close what operands stand in. -/
def Closes (kind : TokenKind) : Prop :=
  kind = .rightParenthesis ∨ kind = .rightBracket ∨ kind = .rightBrace

instance (kind : TokenKind) : Decidable (Closes kind) :=
  inferInstanceAs (Decidable (kind = .rightParenthesis ∨ kind = .rightBracket ∨
    kind = .rightBrace))

theorem firstKind_plain {c : Char} {kind : TokenKind} (cs : List Char)
    (h : (c, kind) ∈ plainSigns) : firstKind (c :: cs) = kind := by
  rw [firstKind, lexemes_plain cs h]
  rfl

theorem firstKind_eq_scanFrom {c : Char} (cs : List Char) (hblank : isBlank c = false) :
    firstKind (c :: cs) = (scanFrom c cs).1 := by
  rw [firstKind, lexemes_cons hblank rfl]
  rfl

theorem closeNumber_not_closes (cs : List Char) (length : Nat) :
    ¬ Closes (closeNumber cs length).1 := by
  unfold closeNumber
  split
  · split_ifs <;> simp [Closes]
  · simp [Closes]

theorem scanNumber_not_closes (cs : List Char) : ¬ Closes (scanNumber cs).1 := by
  unfold scanNumber
  dsimp only
  have hundefined : ∀ length : Nat, ¬ Closes (TokenKind.undefined, length).1 := by
    simp [Closes]
  split_ifs <;> first
    | exact hundefined _
    | exact closeNumber_not_closes _ _

theorem identifierKind_not_closes (name : String) :
    ¬ Closes (identifierKind name) := by
  unfold identifierKind
  split_ifs <;> simp [Closes]

theorem firstKind_opens {c : Char} (cs : List Char) (h : Opens c) :
    ¬ Closes (firstKind (c :: cs)) := by
  rcases h with hdigit | halpha | hsign
  · rw [firstKind_eq_scanFrom cs (isBlank_of_isDigit hdigit), scanFrom]
    simp only [hdigit, Bool.true_or, if_true]
    exact scanNumber_not_closes (c :: cs)
  · rw [firstKind_eq_scanFrom cs (isBlank_of_isAlpha halpha), scanFrom]
    split_ifs
    · exact scanNumber_not_closes (c :: cs)
    · exact identifierKind_not_closes _
  · by_cases hminus : c = '-'
    · subst hminus
      rw [firstKind_eq_scanFrom cs (by decide)]
      show ¬ Closes (if cs.head? = some '>' then (TokenKind.store, 1)
        else (TokenKind.minus, 0)).1
      split_ifs <;> simp [Closes]
    · have hall : openingSigns.all (fun d => d == '-' || plainSigns.any fun entry =>
          entry.1 == d && decide (¬ Closes entry.2)) = true := by decide
      have hplain := List.all_eq_true.mp hall c hsign
      simp only [Bool.or_eq_true, beq_iff_eq, hminus, false_or, List.any_eq_true, Bool.and_eq_true,
        decide_eq_true_eq] at hplain
      rcases hplain with ⟨⟨d, kind⟩, hmem, rfl, hopens⟩
      rw [firstKind_plain cs hmem]
      exact hopens

end Token
end PocketAlgebra
