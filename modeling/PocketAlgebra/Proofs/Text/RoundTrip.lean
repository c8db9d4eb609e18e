import PocketAlgebra.Proofs.Text.Reading

/-!
# What is written is read back

An expression that can be written is read back from its text as an expression that differs only in
notation, and that is written with the same text. Only a text that is nested too deeply is rejected.
-/

namespace PocketAlgebra
namespace Expr

open PocketAlgebra.Parser PocketAlgebra.Token

/-! ## Assignments -/

/-- What can be assigned to: a symbol, or a function of a parameter of another name. -/
inductive LegalTarget : Expr → Prop where
  | symbol {name : String} (legal : LegalName name) (other : name ≠ "ans") :
      LegalTarget (symbol name)
  | function {name parameter : String} (legal : LegalName name) (other : name ≠ "ans")
      (legalParameter : LegalName parameter) (otherParameter : parameter ≠ "ans")
      (distinct : parameter ≠ name) : LegalTarget (apply (.function name) [symbol parameter])

/-- An expression that can be written, or the assignment of one. -/
inductive Printable (style : NumberStyle) : Expr → Prop where
  | expression {x : Expr} (hx : Writable style x) : Printable style x
  | assignment {x target : Expr} (hx : Writable style x) (legal : LegalTarget target) :
      Printable style (apply .store [x, target])

section Targets

variable {style : NumberStyle} {deep : Prop} {s : State} {post : Expr → State → Prop}
  {name : String} {target : Expr}

theorem not_reserved (h : LegalName name) (hother : name ≠ "ans") :
    isReservedName name = false := by
  have hfree := h.free
  simp only [List.mem_cons, List.not_mem_nil, or_false, not_or] at hfree
  simp [isReservedName, h.unreserved, ofSymbol_eq_none h.spelled, keywords, hother, hfree]

theorem target_reads (h : LegalTarget target) (hat : At s (target.write style))
    (hroom : target.charge ≤ s.free)
    (hpost : ∀ s', Reached s [] target.charge s' → post target s') :
    Settles deep storeTarget s post := by
  cases h with
  | @symbol name legal other =>
      have hlexemes : lexemes name.toList = (.identifier, name) :: lexemes [] := by
        have hname := lexemes_name legal.spelled breaks_nil
        rwa [List.append_nil, identifierKind_eq legal.unreserved] at hname
      have hreserved := not_reserved legal other
      have hshort : ¬ maxIdentifierLength < name.length := Nat.not_lt.mpr legal.short
      have hcharge : (symbol name).charge = 0 + (symbol name).nodeCharge := charge_leaf rfl
      rw [write] at hat
      unfold storeTarget
      apply Settles.bind
      apply Settles.current_lexeme hat (by rw [hlexemes]; rfl)
      intro token hkind htext
      simp only [hkind, ne_eq, not_true_eq_false, if_false]
      apply Settles.bind
      apply Settles.advance hat hlexemes
      intro _ s₁ _ _ hreached₁ _
      simp only [htext, hreserved, hshort, Bool.false_eq_true, if_false]
      apply Settles.bind
      apply Settles.current hreached₁.at_rest
      intro next hnext
      have hend : next.kind ≠ .leftParenthesis := by
        rw [hnext, firstKind, lexemes_nil]
        decide
      simp only [hend, not_false_eq_true, if_true]
      apply Settles.finish hreached₁ hcharge hroom
      intro s₂ hreached₂ _
      exact hpost s₂ hreached₂
  | @function name parameter legal other legalParameter otherParameter distinct =>
      have hclosing : Breaks [')'] := breaks_cons (by decide)
      have hopening : Breaks ('(' :: (parameter.toList ++ [')'])) := breaks_cons (by decide)
      have hwrite : (apply (.function name) [symbol parameter]).write style =
          name.toList ++ ('(' :: (parameter.toList ++ [')'])) := by
        rw [write, writeAll, writeAll, write]
        show name.toList ++ writeArguments [parameter.toList] = _
        rw [writeArguments, joined_singleton]
        rfl
      have hlexemes := lexemes_name legal.spelled hopening
      have hparameter := lexemes_name legalParameter.spelled hclosing
      rw [identifierKind_eq legal.unreserved] at hlexemes
      rw [identifierKind_eq legalParameter.unreserved] at hparameter
      have hreserved := not_reserved legal other
      have hreserved' := not_reserved legalParameter otherParameter
      have hshort : ¬ maxIdentifierLength < name.length := Nat.not_lt.mpr legal.short
      have hshort' := legalParameter.short
      rcases charge_unary (.function name) (symbol parameter) with ⟨hcharge, -⟩
      have hleaf : (symbol parameter).charge = 0 + (symbol parameter).nodeCharge := charge_leaf rfl
      rw [hwrite] at hat
      unfold storeTarget
      apply Settles.bind
      apply Settles.current_lexeme hat (by rw [hlexemes]; rfl)
      intro token hkind htext
      simp only [hkind, ne_eq, not_true_eq_false, if_false]
      apply Settles.bind
      apply Settles.advance hat hlexemes
      intro _ s₁ _ _ hreached₁ _
      simp only [htext, hreserved, hshort, Bool.false_eq_true, if_false]
      apply Settles.bind
      apply Settles.current_plain .leftParenthesis hreached₁.at_rest (by decide)
      intro next hargument
      simp only [hargument, not_true_eq_false, if_false]
      apply Settles.bind
      apply Settles.advance_plain .leftParenthesis hreached₁.at_rest (by decide)
      intro _ s₂ hreached₂ _
      apply Settles.bind
      apply Settles.current_lexeme hreached₂.at_rest (by rw [hparameter]; rfl)
      intro argument hargumentKind hargumentText
      have hlegal : isParameter argument name = true := by
        simp [isParameter, hargumentKind, hargumentText, hreserved', distinct, hshort']
      simp only [hlegal, if_true]
      apply Settles.bind
      apply Settles.advance hreached₂.at_rest hparameter
      intro _ s₃ _ _ hreached₃ _
      apply Settles.bind
      have hclose : lexemes [')'] = (.rightParenthesis, ")") :: lexemes [] :=
        lexemes_plain [] (by decide)
      apply Settles.expect hreached₃.at_rest hclose
      intro _ s₄ hreached₄ _
      have hreached := ((hreached₁.trans hreached₂).trans hreached₃).trans hreached₄
      have hfree := hreached.charged
      apply Settles.bind
      rw [hargumentText]
      apply Settles.build hreached₄.at_rest (by omega)
      intro s₅ hreached₅
      apply Settles.finish (hreached.trans hreached₅) (by omega) hroom
      intro s₆ hreached₆ _
      exact hpost s₆ hreached₆

end Targets

/-! ## Whole texts -/

section Whole

variable {style : NumberStyle} {s : State} {post : Expr → State → Prop} {text : List Char}
  {x t u target : Expr}

theorem statement_reads (h : Reads text t) (hat : At s text) (hroom : t.charge ≤ s.free)
    (hpost : ∀ s', Reached s [] t.charge s' → post t s') :
    Settles (maxNesting < t.depth) statement s post := by
  unfold statement
  rw [← List.append_nil text] at hat
  apply Settles.bind
  apply h.operand hat (Ends.nil Precedence.store.rank) h.compares hroom id
  intro s₁ hreached₁
  apply Settles.bind
  apply Settles.current hreached₁.at_rest
  intro token hkind
  have hend : token.kind ≠ .store := by
    rw [hkind, firstKind, lexemes_nil]
    decide
  simp only [hend, if_false]
  exact Settles.pure (hpost s₁ hreached₁)

theorem assignment_reads (hu : Reads text u) (hbare : 3 ≤ u.precedence)
    (htarget : LegalTarget target) (hat : At s (text ++ '→' :: target.write style))
    (hroom : (apply .store [u, target]).charge ≤ s.free)
    (hpost : ∀ s', Reached s [] (apply .store [u, target]).charge s' →
      post (apply .store [u, target]) s') :
    Settles (maxNesting < (apply .store [u, target]).depth) statement s post := by
  have hcharge : (apply .store [u, target]).charge =
      u.charge + target.charge + (apply .store [u, target]).nodeCharge := by
    rw [charge_eq]
    simp only [operands, chargeAll]
    omega
  have hdepth : u.depth ≤ (apply .store [u, target]).depth := by
    simp only [depth, depthAll]
    omega
  have hcomparison : u.kind ≠ .comparison := by
    intro hkind
    cases u with
    | apply f xs =>
        cases f <;> cases hkind
        exact absurd hbare (show ¬ 3 ≤ 2 by decide)
    | _ => cases hkind
  unfold statement
  apply Settles.bind
  have hends : Ends ('→' :: target.write style) Precedence.store.rank :=
    Ends.close _ _ (by decide)
  apply hu.operand hat hends hu.compares (by omega) (fun hn => by omega)
  intro s₁ hreached₁
  apply Settles.bind
  apply Settles.current_plain .store hreached₁.at_rest (by decide)
  intro token harrow
  simp only [harrow, if_true]
  apply Settles.bind
  apply Settles.advance_plain .store hreached₁.at_rest (by decide)
  intro _ s₂ hreached₂ _
  simp only [hcomparison, if_false]
  have hfree₁ := hreached₁.charged
  have hfree₂ := hreached₂.charged
  apply Settles.bind
  apply target_reads htarget hreached₂.at_rest (by omega)
  intro s₃ hreached₃
  apply Settles.finish ((hreached₁.trans hreached₂).trans hreached₃) (by omega) hroom
  intro s₄ hreached₄ _
  exact hpost s₄ hreached₄

/-- A statement that takes up the whole text is what the text is read as. -/
theorem parse_statement {free : Nat} (hroom : t.charge ≤ free)
    (h : ∀ {s : State} {post : Expr → State → Prop}, At s text → t.charge ≤ s.free →
      (∀ s', Reached s [] t.charge s' → post t s') →
      Settles (maxNesting < t.depth) statement s post) :
    Expr.parse free (String.ofList text) = .ok t ∨
      ∃ span, Expr.parse free (String.ofList text) = .error ⟨.nestingTooDeep, span⟩ ∧
        maxNesting < t.depth := by
  let start : State :=
    ⟨scan (String.ofList text), atEnd (String.ofList text), .endOfStream, 0, free⟩
  have hat : At start text := by
    constructor
    · show (scanAt 0 (String.ofList text).toList).map lexeme = lexemes text
      rw [String.toList_ofList]
      rfl
    · rfl
  have hwhole : Settles (maxNesting < t.depth) (whole (String.ofList text).utf8ByteSize) start
      fun y _ => y = t := by
    unfold whole
    apply Settles.bind
    apply h hat hroom
    intro s₁ hreached₁
    apply Settles.bind
    apply Settles.current hreached₁.at_rest
    intro token hkind
    have hend : token.kind = .endOfStream := by
      rw [hkind, firstKind, lexemes_nil]
      rfl
    simp only [hend, ne_eq, not_true_eq_false, if_false]
    split_ifs with hdeep
    · have hnested : maxNesting < t.depth := Nat.lt_trans (by decide) hdeep
      exact Or.inl ⟨hnested, _, rfl⟩
    · exact Settles.pure rfl
  rcases hwhole with ⟨hdeep, span, herror⟩ | ⟨y, s', hok, rfl⟩
  · refine Or.inr ⟨span, ?_, hdeep⟩
    show (whole _ start).map Prod.fst = _
    rw [herror]
    rfl
  · apply Or.inl
    show (whole _ start).map Prod.fst = _
    rw [hok]
    rfl

end Whole

/-- A text that an expression is written with is read as an expression that differs only in
notation, unless the operands are nested too deeply; and what is read has the same text. -/
theorem parse_printed {style : NumberStyle} {x : Expr} (h : Printable style x) :
    ∃ t, Akin t x ∧ t.toText style = x.toText style ∧
      ∀ free, t.charge ≤ free →
        Expr.parse free (x.toText style) = .ok t ∨
          ∃ span, Expr.parse free (x.toText style) = .error ⟨.nestingTooDeep, span⟩ ∧
            maxNesting < t.depth := by
  cases h with
  | expression hx =>
      rcases hx.reading with ⟨t, ht⟩
      refine ⟨t, ht.akin, ?_, fun free hroom => ?_⟩
      · rw [toText, toText, ht.text]
      · rw [toText, ← ht.text]
        exact parse_statement hroom fun hat => statement_reads ht.legible.reads hat
  | @assignment x target hx legal =>
      rcases hx.reading with ⟨t, ht⟩
      rcases ht.placed .store 0 with ⟨u, hu⟩
      have hbare : 3 ≤ u.precedence := by
        have hneeds : ¬ u.precedence ≤ 2 := by
          simpa [needsParentheses] using hu.bare
        omega
      have hwrite : ∀ y : Expr, (apply .store [y, target]).write style =
          piece style .store 0 y ++ '→' :: target.write style := by
        intro y
        rw [write, writeAll, writeAll, writeAll]
        show joined ['→'] (parenthesize .store _) = _
        simp [joined, parenthesize, piece, needsParentheses]
      have hpiece : piece style .store 0 u = u.write style := by
        rw [piece, hu.bare]
        rfl
      have htext : (apply .store [u, target]).write style =
          (apply .store [x, target]).write style := by
        rw [hwrite, hwrite, hpiece, hu.text]
      refine ⟨apply .store [u, target], .operand .store [] [target] hu.akin, ?_, ?_⟩
      · rw [toText, toText, htext]
      · intro free hroom
        rw [toText, ← htext]
        apply parse_statement hroom
        intro s post hat
        rw [hwrite, hpiece] at hat
        exact assignment_reads hu.legible.reads hbare legal hat

end Expr
end PocketAlgebra
