import Mathlib.Data.Rat.Cast.Order
import PocketAlgebra.Proofs.Text.Climbing
import PocketAlgebra.Proofs.Text.Literals

/-!
# Reading numbers and names

Numbers, constants and names are read as leaves, whatever operator stands before or behind them.
-/

namespace PocketAlgebra

/-- Whether a text is a letter with letters, digits and underscores behind it. -/
def isSpelled (name : String) : Bool :=
  match name.toList with
  | [] => false
  | c :: cs => c.isAlpha && cs.all fun d => d.isAlphanum || d == '_'

theorem exists_of_isSpelled {name : String} (h : isSpelled name = true) :
    ∃ c cs, name.toList = c :: cs ∧ c.isAlpha = true ∧ ∀ d ∈ cs, d.isAlphanum = true ∨ d = '_' := by
  unfold isSpelled at h
  cases hname : name.toList with
  | nil => simp [hname] at h
  | cons c cs =>
      simp only [hname, Bool.and_eq_true, List.all_eq_true, Bool.or_eq_true, beq_iff_eq] at h
      exact ⟨c, cs, rfl, h⟩

/-- The names that are read as symbols. -/
structure LegalName (name : String) : Prop where
  spelled : isSpelled name = true
  unreserved : reservedFunction? name = none
  short : name.length ≤ maxIdentifierLength
  free : name ∉ ["inf", "undef", "nonreal", "u", "v", "w"]

/-- Names that begin with a letter are not the signs of constants. -/
theorem ofSymbol_eq_none {name : String} (h : isSpelled name = true) :
    Constant.ofSymbol? name = none := by
  rw [Constant.ofSymbol?, List.find?_eq_none]
  intro k _ hk
  have hname : k.symbol = name := by
    simpa using hk
  rw [← hname] at h
  cases k <;> exact absurd h (by decide)

namespace Parser

open PocketAlgebra.Token

section Leaves

variable {deep : Prop} {n : Nat} {stop : Precedence} {cs rest : List Char} {s : State}
  {post : Expr → State → Prop} {reader : Precedence → ParseM Expr}

theorem charge_leaf {x : Expr} (h : x.operands = []) : x.charge = 0 + x.nodeCharge := by
  rw [Expr.charge_eq, h]
  rfl

/-! ## Numbers -/

theorem precedence_read (cs : List Char) :
    (Numeral.read cs).precedence = 10 ∧ (Numeral.read cs).operands = [] := by
  have hdecimal : ∀ (m : Nat) (scale : Int), (Expr.decimal ⟨m, scale⟩).precedence = 10 := by
    intro m scale
    have hsign : ¬ (m : Int) < 0 := by omega
    rw [Expr.precedence, if_neg hsign]
    rfl
  have hinteger : ∀ m : Nat, (Expr.integer m).precedence = 10 := by
    intro m
    have hsign : ¬ ((m : Int) : Rat) < 0 := by
      rw [Int.cast_natCast, not_lt]
      exact Nat.cast_nonneg m
    rw [Expr.integer, Expr.precedence, if_neg hsign]
    rfl
  unfold Numeral.read
  dsimp only
  split
  · exact ⟨hdecimal _ _, rfl⟩
  · split_ifs
    · exact ⟨hinteger _, rfl⟩
    · exact ⟨hdecimal _ _, rfl⟩

theorem Reads.number {whole fraction : List Char} {exponent : Option Int}
    (hwhole : ∀ c ∈ whole, c.isDigit = true) (hsome : whole ≠ [])
    (hfraction : ∀ c ∈ fraction, c.isDigit = true) :
    Reads (literal whole fraction exponent) (Numeral.read (literal whole fraction exponent)) := by
  rcases precedence_read (literal whole fraction exponent) with ⟨hprecedence, hoperands⟩
  have hopens : ∃ c rest, literal whole fraction exponent = c :: rest ∧ Opens c := by
    rcases whole with _ | ⟨c, whole⟩
    · exact absurd rfl hsome
    · exact ⟨c, _, rfl, Or.inl (hwhole c (by simp))⟩
  refine Reads.of_leading hopens (by omega) ?_
  intro deep n stop cs s post hat hends hstop hroom hdeep hpost
  have hcharge := charge_leaf hoperands
  have hlexemes : lexemes (literal whole fraction exponent ++ cs) = _ :=
    lexemes_literal hwhole hsome hfraction hends.breaks
  unfold leading
  apply Settles.bind
  apply Settles.current hat
  intro token hkind
  have hnumber : token.kind = .number := by
    rw [hkind, firstKind, hlexemes]
    rfl
  rw [hnumber]
  apply Settles.bind
  apply Settles.advance hat hlexemes
  intro token₁ s₁ _ htext hreached₁ _
  rw [htext, String.toList_ofList]
  apply Settles.finish hreached₁ hcharge hroom
  intro s₂ hreached₂ _
  exact hpost s₂ hreached₂

/-! ## Identifiers -/

theorem identifierKind_eq {name : String} (h : reservedFunction? name = none) :
    identifierKind name = .identifier := by
  simp [identifierKind, h]

/-- The reader of operands goes on with an identifier where one begins. -/
theorem leading_identifier {name : String} (hat : At s cs)
    (hlexemes : lexemes cs = (.identifier, name) :: lexemes rest)
    (h : Settles deep (identifier reader) s post) : Settles deep (leading reader stop) s post := by
  have hkind : firstKind cs = .identifier := by
    rw [firstKind, hlexemes]
    rfl
  unfold leading
  apply Settles.bind
  apply Settles.current hat
  intro token htoken
  rw [htoken, hkind]
  exact h

/-- A legal name is a symbol, or a function where its argument follows. -/
theorem leading_legal {name : String} (hlegal : LegalName name) (hat : At s cs)
    (hlexemes : lexemes cs = (.identifier, name) :: lexemes rest)
    (h : ∀ (token next : Token) s₁, token.text = name → next.kind = firstKind rest →
      Reached s rest 0 s₁ →
      Settles deep (if next.kind = .leftParenthesis && name ≠ "ans" then userFunction reader token
        else build (.symbol name)) s₁ post) :
    Settles deep (leading reader stop) s post := by
  have hconstant := ofSymbol_eq_none hlegal.spelled
  have hshort : ¬ maxIdentifierLength < name.length := Nat.not_lt.mpr hlegal.short
  have hfree := hlegal.free
  simp only [List.mem_cons, List.not_mem_nil, or_false, not_or] at hfree
  rcases hfree with ⟨hinf, hundef, hnonreal, hu, hv, hw⟩
  apply leading_identifier hat hlexemes
  unfold identifier
  apply Settles.bind
  apply Settles.advance hat hlexemes
  intro token s₁ _ htext hreached₁ _
  simp only [htext, hconstant, hshort, hu, hv, hw, decide_false, Bool.or_false, Bool.false_eq_true,
    if_false]
  apply Settles.bind
  apply Settles.current hreached₁.at_rest
  intro next hnext
  exact h token next s₁ htext hnext hreached₁

theorem Reads.constant (k : Constant) : Reads k.symbol.toList (.constant k) := by
  have hopens : ∃ c rest, k.symbol.toList = c :: rest ∧ Opens c := by
    cases k <;> exact ⟨_, _, rfl, Or.inr (Or.inr (by decide))⟩
  refine Reads.of_leading hopens (show 2 ≤ 10 by decide) ?_
  intro deep n stop cs s post hat hends hstop hroom hdeep hpost
  have hcharge : (Expr.constant k).charge = 0 + (Expr.constant k).nodeCharge := charge_leaf rfl
  have hlexemes : lexemes (k.symbol.toList ++ cs) = (.identifier, k.symbol) :: lexemes cs := by
    cases k <;> exact lexemes_plain cs (by decide)
  apply leading_identifier hat hlexemes
  unfold identifier
  apply Settles.bind
  apply Settles.advance hat hlexemes
  intro token s₁ _ htext hreached₁ _
  have hconstant : Constant.ofSymbol? k.symbol = some k := by
    cases k <;> decide
  simp only [htext, hconstant]
  apply Settles.finish hreached₁ hcharge hroom
  intro s₂ hreached₂ _
  exact hpost s₂ hreached₂

/-- The words that are read as leaves. -/
inductive Word : String → Expr → Prop where
  | infinity : Word "inf" (.infinity false)
  | undefined : Word "undef" .undefined
  | nonreal : Word "nonreal" .nonreal
  | symbol {name : String} (h : LegalName name) : Word name (.symbol name)

theorem Word.spelled {name : String} {x : Expr} (h : Word name x) :
    isSpelled name = true ∧ reservedFunction? name = none := by
  cases h with
  | infinity => exact ⟨by decide, by decide⟩
  | undefined => exact ⟨by decide, by decide⟩
  | nonreal => exact ⟨by decide, by decide⟩
  | symbol h => exact ⟨h.spelled, h.unreserved⟩

/-- A name begins an operand. -/
theorem opens_of_isSpelled {name : String} (h : isSpelled name = true) (cs : List Char) :
    ∃ c rest, name.toList ++ cs = c :: rest ∧ Opens c := by
  rcases exists_of_isSpelled h with ⟨c, rest, hname, hc, -⟩
  rw [hname]
  exact ⟨c, rest ++ cs, rfl, Or.inr (Or.inl hc)⟩

theorem lexemes_name {name : String} (h : isSpelled name = true) (hbreaks : Breaks cs) :
    lexemes (name.toList ++ cs) = (identifierKind name, name) :: lexemes cs := by
  rcases exists_of_isSpelled h with ⟨c, rest, hname, hc, hrest⟩
  have htext : String.ofList (c :: rest) = name := by
    rw [← hname, String.ofList_toList]
  rw [hname, lexemes_identifier hc hrest hbreaks, htext]

theorem Reads.word {name : String} {x : Expr} (h : Word name x) : Reads name.toList x := by
  rcases h.spelled with ⟨hspelled, hunreserved⟩
  have hleaf : x.precedence = 10 ∧ x.operands = [] := by
    cases h <;> exact ⟨rfl, rfl⟩
  have hopens := opens_of_isSpelled hspelled []
  rw [List.append_nil] at hopens
  refine Reads.of_leading hopens (by omega) ?_
  intro deep n stop cs s post hat hends hstop hroom hdeep hpost
  have hcharge := charge_leaf hleaf.2
  have hlexemes := lexemes_name hspelled hends.breaks
  rw [identifierKind_eq hunreserved] at hlexemes
  have hbuild : ∀ s₁, Reached s cs 0 s₁ → Settles deep (build x) s₁ post := by
    intro s₁ hreached₁
    apply Settles.finish hreached₁ hcharge hroom
    intro s₂ hreached₂ _
    exact hpost s₂ hreached₂
  have hconstant := ofSymbol_eq_none hspelled
  cases h with
  | symbol hlegal =>
      have hopening : firstKind cs ≠ .leftParenthesis := by
        intro heq
        apply (hends.stops .implicitTimes _).2 rfl
        rw [heq]
        rfl
      apply leading_legal hlegal hat hlexemes
      intro token next s₁ _ hnext hreached₁
      rw [← hnext] at hopening
      simp only [hopening, decide_false, Bool.false_and, Bool.false_eq_true, if_false]
      exact hbuild s₁ hreached₁
  | _ =>
      apply leading_identifier hat hlexemes
      unfold identifier
      apply Settles.bind
      apply Settles.advance hat hlexemes
      intro token s₁ _ htext hreached₁ _
      simp only [htext, hconstant]
      exact hbuild s₁ hreached₁

end Leaves

end Parser
end PocketAlgebra
