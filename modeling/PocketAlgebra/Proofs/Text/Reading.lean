import PocketAlgebra.Proofs.Text.Notation
import PocketAlgebra.Proofs.Text.Legible

/-!
# Legible forms

Every expression that can be written has a legible form: an expression that differs only in
notation, and that is written with the same text.
-/

namespace PocketAlgebra
namespace Expr

open PocketAlgebra.Parser PocketAlgebra.Token

/-! ## Expressions that can be written -/

/-- An expression with as many operands as its kinds call for, with names that are read as such,
and with decimal literals that are not rounded when they are written. -/
inductive Writable (style : NumberStyle) : Expr → Prop where
  | rational (q : Rat) : Writable style (rational q)
  | decimal {d : Decimal} (short : (Scientific.dropZeros d.digits).length ≤ style.significant)
      (near : d.exponent.natAbs < 10 ^ 9) : Writable style (decimal d)
  | infinity (negative : Bool) : Writable style (infinity negative)
  | constant (k : Constant) : Writable style (constant k)
  | symbol {name : String} (legal : LegalName name) : Writable style (symbol name)
  | function {name : String} {x : Expr} (legal : LegalName name) (other : name ≠ "ans")
      (self : x.symbol? ≠ some name) (hx : Writable style x) :
      Writable style (apply (.function name) [x])
  | matrix {rows columns : Nat} {xs : List Expr} (positive : 0 < rows ∧ 0 < columns)
      (count : xs.length = rows * columns) (hxs : ∀ x ∈ xs, Writable style x) :
      Writable style (apply (.matrix rows columns) xs)
  | compound {f : Operator} {xs : List Expr} (plain : f.kind ∉ [.function, .matrix, .store])
      (count : f.kind.arity.accepts xs.length = true)
      (binds : f.kind.isParametered = true → bindsLegally xs = true)
      (hxs : ∀ x ∈ xs, Writable style x) : Writable style (apply f xs)

/-- The legible form in which an expression is read back. -/
structure Reading (style : NumberStyle) (x t : Expr) : Prop where
  legible : Legible style t
  akin : Akin t x
  text : t.write style = x.write style
  needs : ∀ f index, needsParentheses f index t.precedence = needsParentheses f index x.precedence
  symbol : t.symbol? = x.symbol?

section Numbers

variable {style : NumberStyle} {q : Rat} {d : Decimal}

theorem legible_natural (style : NumberStyle) (n : Nat) : Legible style (integer n) := by
  have hwrite : (integer n).write style = literal (Nat.toDigits 10 n) [] none := by
    rw [write_natural, literal_digits]
  refine .number ⟨isDigit_toDigits n, Nat.toDigits_ne_nil, by simp⟩ hwrite ?_
  rw [read_literal (isDigit_toDigits n) Nat.toDigits_ne_nil (by simp) (by decide),
    if_pos ⟨rfl, rfl⟩,
    List.append_nil]
  have hvalue : Numeral.ofDigits (Nat.toDigits 10 n) = n := Nat.ofDigitChars_ten_toDigits
  rw [hvalue]

theorem precedence_natural (n : Nat) : (integer n).precedence = 10 := by
  have hsign : ¬ ((n : Int) : Rat) < 0 := by
    rw [Int.cast_natCast, not_lt]
    exact Nat.cast_nonneg n
  rw [integer, precedence, if_neg hsign]
  rfl

/-- A rational number without a sign is read as an integer or as a division of integers. -/
theorem reading_rational_nonneg (style : NumberStyle) (h : 0 ≤ q) :
    ∃ t, Reading style (rational q) t ∧ 5 ≤ t.precedence := by
  have hsign : ¬ q < 0 := not_lt.mpr h
  have hnum : 0 ≤ q.num := Rat.num_nonneg.mpr h
  obtain ⟨n, hn⟩ : ∃ n : Nat, q.num = n := ⟨q.num.toNat, by omega⟩
  cases hwhole : q.isInt with
  | true =>
      have hq : rational q = integer n := by
        rw [integer, ← hn]
        congr 1
        exact (Rat.eq_num_of_isInt hwhole)
      have hlegible := legible_natural style n
      rw [← hq] at hlegible
      refine ⟨rational q, ⟨hlegible, .refl _, rfl, fun _ _ => rfl, rfl⟩, ?_⟩
      rw [hq, precedence_natural]
      decide
  | false =>
      let t := apply .division [integer q.num, integer q.den]
      have hlegible : Legible style t := by
        apply Legible.signed .division
        · rw [hn]
          exact legible_natural style n
        · exact legible_natural style q.den
        · rw [hn, precedence_natural]
          rfl
        · rw [hn, precedence_natural]
          decide
        · rw [precedence_natural]
          decide
      refine ⟨t, ⟨hlegible, (Akin.fraction hwhole).symm, ?_, ?_, rfl⟩, show 5 ≤ 6 by decide⟩
      · have hnumerator : Expr.needsParentheses .division 0 (integer q.num).precedence = false := by
          rw [hn, precedence_natural]
          rfl
        have hdenominator :
            Expr.needsParentheses .division 1 (integer q.den).precedence = false := by
          rw [precedence_natural]
          rfl
        rw [write_signed .division hnumerator hdenominator, hn, write_natural, write_natural,
          write_rational, if_neg hsign, hwhole, hn]
        rfl
      · intro f index
        rw [precedence.eq_2, if_neg hsign, hwhole]
        rfl

theorem reading_rational (style : NumberStyle) (q : Rat) : ∃ t, Reading style (rational q) t := by
  by_cases hsign : q < 0
  · have hpositive : ¬ -q < 0 := by
      rw [not_lt, neg_nonneg]
      exact le_of_lt hsign
    rcases reading_rational_nonneg style (not_lt.mp hpositive) with ⟨t, ht, hstrong⟩
    have htext : (rational q).write style = '-' :: (rational (-q)).write style := by
      rw [write_rational, write_rational, if_pos hsign, if_neg hpositive, Rat.num_neg_eq_neg_num,
        Int.natAbs_neg]
      rfl
    refine ⟨apply .opposite [t], ⟨.opposite ht.legible hstrong, ?_, ?_, ?_, rfl⟩⟩
    · exact (Akin.operand .opposite [] [] ht.akin).trans (Akin.negativeRational hsign).symm
    · rw [write_opposite hstrong, ht.text, htext]
    · intro f index
      rw [precedence.eq_2, if_pos hsign]
      rfl
  · rcases reading_rational_nonneg style (not_lt.mp hsign) with ⟨t, ht, -⟩
    exact ⟨t, ht⟩

theorem reading_decimal_nonneg (hsign : 0 ≤ d.mantissa)
    (hshort : (Scientific.dropZeros d.digits).length ≤ style.significant)
    (hnear : d.exponent.natAbs < 10 ^ 9) :
    ∃ t, Reading style (decimal d) t ∧ t.precedence = 10 := by
  rcases decimal_read hsign hshort hnear with
    ⟨whole, fraction, exponent, hdigits, hliteral, hwrite, hvalue⟩
  rcases precedence_read (literal whole fraction exponent) with ⟨hprecedence, -⟩
  have hunsigned : ¬ d.mantissa < 0 := not_lt.mpr hsign
  refine ⟨_, ⟨.number hdigits (hwrite.trans hliteral) rfl, ?_, hwrite, ?_, ?_⟩, hprecedence⟩
  · rcases hvalue with hvalue | ⟨d', hvalue, hsame⟩
    · rw [hvalue]
      exact (Akin.decimal d).symm
    · have hother := Akin.decimal d'
      rw [hsame] at hother
      rw [hvalue]
      exact hother.trans (Akin.decimal d).symm
  · intro f index
    rw [hprecedence, precedence.eq_3, if_neg hunsigned]
    rfl
  · rcases hvalue with hvalue | ⟨d', hvalue, -⟩ <;> rw [hvalue] <;> rfl

theorem reading_decimal (hshort : (Scientific.dropZeros d.digits).length ≤ style.significant)
    (hnear : d.exponent.natAbs < 10 ^ 9) : ∃ t, Reading style (decimal d) t := by
  by_cases hsign : d.mantissa < 0
  · let d' : Decimal := ⟨-d.mantissa, d.scale⟩
    have hpositive : 0 ≤ d'.mantissa := by
      show 0 ≤ -d.mantissa
      omega
    have hdigits : d'.digits = d.digits := by
      rw [Decimal.digits, Decimal.digits, Int.natAbs_neg]
    have hexponent : d'.exponent = d.exponent := by
      have hmantissa : d.mantissa ≠ 0 := by omega
      have hmantissa' : d'.mantissa ≠ 0 := neg_ne_zero.mpr hmantissa
      rw [Decimal.exponent, Decimal.exponent, if_neg hmantissa, if_neg hmantissa', hdigits]
    rw [← hdigits] at hshort
    rw [← hexponent] at hnear
    rcases reading_decimal_nonneg hpositive hshort hnear with ⟨t, ht, hprecedence⟩
    rw [hdigits] at hshort
    refine ⟨apply .opposite [t], ⟨.opposite ht.legible (by omega), ?_, ?_, ?_, rfl⟩⟩
    · exact (Akin.operand .opposite [] [] ht.akin).trans (Akin.negativeDecimal hsign).symm
    · rw [write_opposite (by omega), ht.text, write, write, format_negative hsign hshort]
    · intro f index
      rw [precedence.eq_3, if_pos hsign]
      rfl
  · rcases reading_decimal_nonneg (not_lt.mp hsign) hshort hnear with ⟨t, ht, -⟩
    exact ⟨t, ht⟩

theorem reading_infinity (style : NumberStyle) (negative : Bool) :
    ∃ t, Reading style (infinity negative) t := by
  cases negative with
  | false => exact ⟨_, ⟨.word .infinity, .refl _, rfl, fun _ _ => rfl, rfl⟩⟩
  | true =>
      have hstrong : 5 ≤ (infinity false).precedence := by decide
      refine ⟨_, ⟨.opposite (.word .infinity) hstrong, Akin.negativeInfinity.symm, ?_,
        fun _ _ => rfl, rfl⟩⟩
      rw [write_opposite hstrong, write, write]
      rfl

end Numbers

/-! ## Operands in their places -/

section Operands

variable {style : NumberStyle} {f : Operator} {index : Nat} {x t : Expr} {xs ts : List Expr}

/-- The text of an operand at a position of an operator. -/
def piece (style : NumberStyle) (f : Operator) (index : Nat) (x : Expr) : List Char :=
  if needsParentheses f index x.precedence then '(' :: (x.write style ++ [')']) else x.write style

/-- The legible form of an operand at a position of an operator, in parentheses if need be. -/
structure Placed (style : NumberStyle) (f : Operator) (index : Nat) (x u : Expr) : Prop where
  legible : Legible style u
  akin : Akin u x
  bare : needsParentheses f index u.precedence = false
  text : u.write style = piece style f index x

theorem Reading.placed (h : Reading style x t) (f : Operator) (index : Nat) :
    ∃ u, Placed style f index x u := by
  cases hneeds : needsParentheses f index x.precedence with
  | true =>
      refine ⟨apply .parenthesis [t], ⟨.parenthesis h.legible, ?_, ?_, ?_⟩⟩
      · exact (Akin.parenthesis t).trans h.akin
      · show needsParentheses f index 10 = false
        cases f <;> simp [needsParentheses, atomPrecedence]
      · rw [write_parenthesis, h.text, piece, if_pos hneeds]
  | false =>
      refine ⟨t, ⟨h.legible, h.akin, ?_, ?_⟩⟩
      · rw [h.needs, hneeds]
      · rw [h.text, piece, hneeds]
        rfl

section Forall₂

variable {r : Expr → Expr → Prop}

/-- Where every operand has a form, together they have a list of forms. -/
theorem exists_forall₂ (h : ∀ x ∈ xs, ∃ t, r x t) : ∃ ts, List.Forall₂ r xs ts := by
  induction xs with
  | nil => exact ⟨[], .nil⟩
  | cons x xs ih =>
      rcases h x (by simp) with ⟨t, ht⟩
      rcases ih (fun y hy => h y (by simp [hy])) with ⟨ts, hts⟩
      exact ⟨t :: ts, .cons ht hts⟩

theorem forall_of_forall₂ {q : Expr → Prop} (h : List.Forall₂ r xs ts)
    (hq : ∀ x t, r x t → q t) : ∀ t ∈ ts, q t := by
  induction h with
  | nil => simp
  | @cons x t xs ts hx hxs ih =>
      intro t' ht'
      rcases List.mem_cons.mp ht' with rfl | ht'
      · exact hq x t' hx
      · exact ih t' ht'

theorem map_eq_of_forall₂ {α : Type} {k k' : Expr → α} (h : List.Forall₂ r xs ts)
    (hk : ∀ x t, r x t → k t = k' x) : ts.map k = xs.map k' := by
  induction h with
  | nil => rfl
  | @cons x t xs ts hx hxs ih => rw [List.map_cons, List.map_cons, hk x t hx, ih]

theorem akin_of_forall₂ (f : Operator) (h : List.Forall₂ r xs ts)
    (hr : ∀ x t, r x t → Akin t x) : Akin (apply f ts) (apply f xs) := by
  apply Akin.operands
  exact (h.imp hr).flip

end Forall₂

/-- The second operands are the same symbol, or none of them is one. -/
theorem binds_eq (h : List.Forall₂ (Reading style) xs ts) : bindsLegally ts = bindsLegally xs := by
  have hsymbols : ts.map symbol? = xs.map symbol? := map_eq_of_forall₂ h fun _ _ ht => ht.symbol
  have hsecond : ts[1]?.map symbol? = xs[1]?.map symbol? := by
    rw [← List.getElem?_map, ← List.getElem?_map, hsymbols]
  have hbind : ts[1]?.bind symbol? = xs[1]?.bind symbol? := by
    cases hts : ts[1]? <;> cases hxs : xs[1]? <;> simp_all
  rw [bindsLegally, bindsLegally, hbind]

end Operands

/-! ## Compound expressions -/

theorem symbol_of_precedence {x : Expr} (h : x.precedence < 10) : x.symbol? = none := by
  cases x with
  | symbol name => exact absurd h (show ¬ 10 < 10 by decide)
  | _ => rfl

theorem Inverse.compound {f g : Operator} (h : Inverse f g) :
    operatorPrecedence f < 10 ∧ operatorPrecedence g < 10 := by
  cases h <;> decide

section Compound

variable {style : NumberStyle} {f g : Operator} {sign : List Char} {kind : TokenKind}
  {p stop : Precedence} {x y t t' : Expr} {xs ts : List Expr}

/-- Operands of a sum or a product are treated alike at all positions. -/
theorem write_group (h : Inverse f g) (hsigned : Signed f sign kind p stop) (xs : List Expr) :
    (apply f xs).write style = joined sign (xs.map (piece style f 0)) := by
  have halike : ∀ index precedence,
      needsParentheses f index precedence = needsParentheses f 0 precedence := by
    intro index precedence
    cases h <;> rfl
  have hpieces : parenthesize f (writeAll style xs) = xs.map (piece style f 0) := by
    rw [writeAll_eq_map, parenthesize, List.mapIdx_eq_iff]
    intro index
    rw [List.getElem?_map, List.getElem?_map, Option.map_map]
    congr 1
    funext x
    show piece style f 0 x = if needsParentheses f index x.precedence then _ else _
    rw [halike]
    rfl
  rw [write, assemble_signed hsigned, hpieces]

theorem reading_group (h : Inverse f g) (hcount : 2 ≤ xs.length)
    (hxs : ∀ x ∈ xs, ∃ t, Reading style x t) : ∃ t, Reading style (apply f xs) t := by
  rcases h.signed with ⟨sign, kind, p, -, -, -, hsigned, -, -⟩
  have hplaced : ∀ x ∈ xs, ∃ u, Placed style f 0 x u := by
    intro x hx
    rcases hxs x hx with ⟨t, ht⟩
    exact ht.placed f 0
  rcases exists_forall₂ hplaced with ⟨us, hus⟩
  have hakin := akin_of_forall₂ f hus fun _ _ hu => hu.akin
  have htext : us.map (write style) = xs.map (piece style f 0) :=
    map_eq_of_forall₂ hus fun _ _ hu => hu.text
  have hgood := forall_of_forall₂ hus fun _ u hu =>
    And.intro hu.legible ((h.bare 0 u).mp hu.bare)
  have hlength := hus.length_eq
  rcases us with _ | ⟨u, us⟩
  · rw [List.length_nil] at hlength
    omega
  · have hne : us ≠ [] := by
      rintro rfl
      rw [List.length_singleton] at hlength
      omega
    rcases hgood u (by simp) with ⟨hu, hleft⟩
    rcases group_all h hsigned hne hu hleft (fun v hv => hgood v (by simp [hv])) with
      ⟨z, hz, hprecedence, hwrite, hzakin⟩
    refine ⟨z, ⟨hz, hzakin.trans hakin, ?_, ?_, ?_⟩⟩
    · rw [hwrite, htext, write_group h hsigned]
    · intro k index
      rw [hprecedence]
      rfl
    · apply symbol_of_precedence
      rw [hprecedence]
      exact h.compound.1

/-- Two operands are written around the sign, each in parentheses if need be. -/
theorem write_two (hsigned : Signed f sign kind p stop) (x y : Expr) :
    (apply f [x, y]).write style = piece style f 0 x ++ (sign ++ piece style f 1 y) := by
  rw [write, assemble_signed hsigned]
  simp [writeAll, parenthesize, joined, piece]

theorem reading_inverse (h : Inverse f g) (hx : Reading style x t) (hy : Reading style y t') :
    ∃ z, Reading style (apply g [x, y]) z := by
  rcases h.signed with ⟨-, -, -, sign, kind, p, -, hsigned, -⟩
  rcases hx.placed g 0 with ⟨u, hu⟩
  rcases hy.placed g 1 with ⟨v, hv⟩
  have hleft : operatorPrecedence f ≤ u.precedence := by
    have hbare := hu.bare
    cases h <;> exact Nat.not_lt.mp (of_decide_eq_false hbare)
  have hright : p.rank + 2 ≤ v.precedence := by
    have hbare := hv.bare
    cases h <;> cases hsigned <;> exact Nat.not_le.mp (of_decide_eq_false hbare)
  rcases group_inverse h hsigned hu.legible hv.legible hleft hright with
    ⟨z, hz, hprecedence, hwrite, hakin⟩
  have hpair : Akin (apply g [u, v]) (apply g [x, y]) :=
    Akin.operands g (.cons hu.akin (.cons hv.akin .nil))
  refine ⟨z, ⟨hz, hakin.trans hpair, ?_, ?_, ?_⟩⟩
  · rw [hwrite, hu.text, hv.text, write_two hsigned]
  · intro k index
    rcases hprecedence with hprecedence | hprecedence
    · rw [hprecedence, h.needsParentheses]
      rfl
    · rw [hprecedence]
      rfl
  · apply symbol_of_precedence
    rcases hprecedence with hprecedence | hprecedence <;> rw [hprecedence]
    · exact h.compound.1
    · exact h.compound.2

/-- A sign whose operands are grouped by parentheses alone. -/
theorem reading_signed (hsigned : Signed f sign kind p stop)
    (hgrouping : ∀ g, ¬ Inverse f g ∧ ¬ Inverse g f) (hx : Reading style x t)
    (hy : Reading style y t') : ∃ z, Reading style (apply f [x, y]) z := by
  rcases hx.placed f 0 with ⟨u, hu⟩
  rcases hy.placed f 1 with ⟨v, hv⟩
  have hbounds : p.rank + 1 ≤ u.precedence ∧ stop.rank + 2 ≤ v.precedence := by
    have hleft := hu.bare
    have hright := hv.bare
    cases hsigned with
    | addition => exact absurd .sum (hgrouping _).1
    | subtraction => exact absurd .sum (hgrouping _).2
    | multiplication => exact absurd .product (hgrouping _).1
    | division => exact absurd .product (hgrouping _).2
    | power =>
        have hnine : 9 ≤ u.precedence := Nat.not_lt.mp (of_decide_eq_false hleft)
        exact ⟨Nat.le_trans (by decide) hnine, Nat.not_lt.mp (of_decide_eq_false hright)⟩
    | comparison =>
        have hthree : 3 ≤ u.precedence := Nat.not_le.mp (of_decide_eq_false hleft)
        exact ⟨Nat.le_trans (by decide) hthree, Nat.not_le.mp (of_decide_eq_false hright)⟩
  refine ⟨apply f [u, v], ⟨?_, ?_, ?_, fun _ _ => rfl, rfl⟩⟩
  · exact .signed hsigned hu.legible hv.legible hu.bare hbounds.1 hbounds.2
  · exact Akin.operands f (.cons hu.akin (.cons hv.akin .nil))
  · rw [write_signed hsigned hu.bare hv.bare, hu.text, hv.text, write_two hsigned]

theorem reading_opposite (hx : Reading style x t) :
    ∃ z, Reading style (apply .opposite [x]) z := by
  rcases hx.placed .opposite 0 with ⟨u, hu⟩
  have hstrong : 5 ≤ u.precedence := Nat.not_le.mp (of_decide_eq_false hu.bare)
  refine ⟨apply .opposite [u], ⟨.opposite hu.legible hstrong, .operand .opposite [] [] hu.akin, ?_,
    fun _ _ => rfl, rfl⟩⟩
  rw [write_opposite hstrong, hu.text, write, writeAll, writeAll]
  rfl

theorem reading_factorial (hx : Reading style x t) :
    ∃ z, Reading style (apply .factorial [x]) z := by
  rcases hx.placed .factorial 0 with ⟨u, hu⟩
  have hatom : 10 ≤ u.precedence := Nat.not_lt.mp (of_decide_eq_false hu.bare)
  refine ⟨apply .factorial [u], ⟨.factorial hu.legible hatom, .operand .factorial [] [] hu.akin, ?_,
    fun _ _ => rfl, rfl⟩⟩
  rw [write_factorial hatom, hu.text, write, writeAll, writeAll]
  rfl

theorem reading_parenthesis (hx : Reading style x t) :
    Reading style (apply .parenthesis [x]) (apply .parenthesis [t]) := by
  refine ⟨.parenthesis hx.legible, .operand .parenthesis [] [] hx.akin, ?_, fun _ _ => rfl, rfl⟩
  rw [write_parenthesis, write_parenthesis, hx.text]

/-- Operands that never stand in parentheses are read back one by one. -/
theorem reading_all (h : List.Forall₂ (Reading style) xs ts) :
    (∀ t ∈ ts, Legible style t) ∧ ts.map (write style) = xs.map (write style) ∧
      ts.length = xs.length :=
  ⟨forall_of_forall₂ h fun _ _ ht => ht.legible, map_eq_of_forall₂ h fun _ _ ht => ht.text,
    h.length_eq.symm⟩

theorem reading_call {name : String} (hname : f.kind.functionName? = some name)
    (hcount : f.kind.arity.accepts xs.length = true)
    (hbinds : f.kind.isParametered = true → bindsLegally xs = true)
    (h : List.Forall₂ (Reading style) xs ts) : Reading style (apply f xs) (apply f ts) := by
  rcases reading_all h with ⟨hlegible, htext, hlength⟩
  refine ⟨?_, akin_of_forall₂ f h fun _ _ ht => ht.akin, ?_, fun _ _ => rfl, rfl⟩
  · apply Legible.call hname
    · rw [hlength]
      exact hcount
    · rw [binds_eq h]
      exact hbinds
    · exact hlegible
  · rw [write_name hname, write_name hname, htext]

theorem reading_list (h : List.Forall₂ (Reading style) xs ts) :
    Reading style (apply .list xs) (apply .list ts) := by
  rcases reading_all h with ⟨hlegible, htext, -⟩
  refine ⟨.list hlegible, akin_of_forall₂ .list h fun _ _ ht => ht.akin, ?_, fun _ _ => rfl, rfl⟩
  rw [write_list, write_list, htext]

theorem reading_matrix {rows columns : Nat} (hpositive : 0 < rows ∧ 0 < columns)
    (hcount : xs.length = rows * columns) (h : List.Forall₂ (Reading style) xs ts) :
    Reading style (apply (.matrix rows columns) xs) (apply (.matrix rows columns) ts) := by
  rcases reading_all h with ⟨hlegible, htext, hlength⟩
  refine ⟨.matrix hpositive (hlength.trans hcount) hlegible,
    akin_of_forall₂ _ h fun _ _ ht => ht.akin, ?_, fun _ _ => rfl, rfl⟩
  rw [write_matrix, write_matrix, ← chunks_map, ← chunks_map, htext]

theorem reading_function {name : String} (hlegal : LegalName name) (hother : name ≠ "ans")
    (hself : x.symbol? ≠ some name) (hx : Reading style x t) :
    Reading style (apply (.function name) [x]) (apply (.function name) [t]) := by
  rw [← hx.symbol] at hself
  refine ⟨.function hlegal hother hself hx.legible, .operand _ [] [] hx.akin, ?_, fun _ _ => rfl,
    rfl⟩
  rw [write, write, writeAll, writeAll, writeAll, writeAll]
  show name.toList ++ writeArguments [t.write style] = name.toList ++ writeArguments [x.write style]
  rw [hx.text]

/-- The kinds of compound expressions that are not written as a call by a reserved name. -/
theorem reading_plain (hname : f.kind.functionName? = none)
    (hplain : f.kind ∉ [.function, .matrix, .store])
    (hcount : f.kind.arity.accepts xs.length = true)
    (hxs : ∀ x ∈ xs, ∃ t, Reading style x t) : ∃ t, Reading style (apply f xs) t := by
  have hnone : xs.length = 0 → xs = [] := List.length_eq_zero_iff.mp
  have hone : xs.length = 1 → ∃ x t, xs = [x] ∧ Reading style x t := by
    intro hlength
    rcases List.length_eq_one_iff.mp hlength with ⟨x, rfl⟩
    rcases hxs x (by simp) with ⟨t, ht⟩
    exact ⟨x, t, rfl, ht⟩
  have htwo : xs.length = 2 →
      ∃ x y t t', xs = [x, y] ∧ Reading style x t ∧ Reading style y t' := by
    intro hlength
    rcases List.length_eq_two.mp hlength with ⟨x, y, rfl⟩
    rcases hxs x (by simp) with ⟨t, ht⟩
    rcases hxs y (by simp) with ⟨t', ht'⟩
    exact ⟨x, y, t, t', rfl, ht, ht'⟩
  cases f with
  | undefined =>
      rw [hnone (eq_of_beq hcount)]
      exact ⟨_, ⟨.word .undefined, .refl _, rfl, fun _ _ => rfl, rfl⟩⟩
  | nonreal =>
      rw [hnone (eq_of_beq hcount)]
      exact ⟨_, ⟨.word .nonreal, .refl _, rfl, fun _ _ => rfl, rfl⟩⟩
  | addition => exact reading_group .sum (of_decide_eq_true hcount) hxs
  | multiplication => exact reading_group .product (of_decide_eq_true hcount) hxs
  | subtraction =>
      rcases htwo (eq_of_beq hcount) with ⟨x, y, t, t', rfl, hx, hy⟩
      exact reading_inverse .sum hx hy
  | division =>
      rcases htwo (eq_of_beq hcount) with ⟨x, y, t, t', rfl, hx, hy⟩
      exact reading_inverse .product hx hy
  | power =>
      rcases htwo (eq_of_beq hcount) with ⟨x, y, t, t', rfl, hx, hy⟩
      exact reading_signed .power (fun g => ⟨nofun, nofun⟩) hx hy
  | comparison relation =>
      rcases htwo (eq_of_beq hcount) with ⟨x, y, t, t', rfl, hx, hy⟩
      exact reading_signed (.comparison relation) (fun g => ⟨nofun, nofun⟩) hx hy
  | opposite =>
      rcases hone (eq_of_beq hcount) with ⟨x, t, rfl, hx⟩
      exact reading_opposite hx
  | factorial =>
      rcases hone (eq_of_beq hcount) with ⟨x, t, rfl, hx⟩
      exact reading_factorial hx
  | parenthesis =>
      rcases hone (eq_of_beq hcount) with ⟨x, t, rfl, hx⟩
      exact ⟨_, reading_parenthesis hx⟩
  | list =>
      rcases exists_forall₂ hxs with ⟨ts, hts⟩
      exact ⟨_, reading_list hts⟩
  | function name =>
      exact absurd (show Kind.function ∈ [Kind.function, .matrix, .store] by decide) hplain
  | matrix rows columns =>
      exact absurd (show Kind.matrix ∈ [Kind.function, .matrix, .store] by decide) hplain
  | store => exact absurd (show Kind.store ∈ [Kind.function, .matrix, .store] by decide) hplain
  | _ => cases hname

/-- An expression that can be written has a legible form with the same text. -/
theorem Writable.reading (h : Writable style x) : ∃ t, Reading style x t := by
  induction h with
  | rational q => exact reading_rational style q
  | decimal short near => exact reading_decimal short near
  | infinity negative => exact reading_infinity style negative
  | constant k => exact ⟨_, ⟨.constant k, .refl _, rfl, fun _ _ => rfl, rfl⟩⟩
  | symbol legal => exact ⟨_, ⟨.word (.symbol legal), .refl _, rfl, fun _ _ => rfl, rfl⟩⟩
  | function legal other self hx ih =>
      rcases ih with ⟨t, ht⟩
      exact ⟨_, reading_function legal other self ht⟩
  | matrix positive count hxs ih =>
      rcases exists_forall₂ ih with ⟨ts, hts⟩
      exact ⟨_, reading_matrix positive count hts⟩
  | @compound f xs plain count binds hxs ih =>
      cases hname : f.kind.functionName? with
      | none => exact reading_plain hname plain count ih
      | some name =>
          rcases exists_forall₂ ih with ⟨ts, hts⟩
          exact ⟨_, reading_call hname count binds hts⟩

end Compound

end Expr
end PocketAlgebra
