import PocketAlgebra.Proofs.Text.Enclosed

/-!
# Legible expressions

The expressions whose written form is read back as themselves: numbers without a sign, operators
grouped the way they are read, and parentheses as nodes.

Operands of sums and products are read from the left, two at a time, and a subtraction or a
division takes only the operand right before it. Every sum, product, difference and quotient of
legible operands has a legible form with the same text.
-/

namespace PocketAlgebra

namespace Expr

open PocketAlgebra.Parser PocketAlgebra.Token

/-! ## Written operands -/

section Written

variable {style : NumberStyle} {f : Operator} {sign : List Char} {kind : TokenKind}
  {p stop : Precedence} {x y : Expr}

theorem writeAll_eq_map (style : NumberStyle) (xs : List Expr) :
    writeAll style xs = xs.map fun x => (x.precedence, x.write style) := by
  induction xs with
  | nil => rfl
  | cons x xs ih => rw [writeAll, ih, List.map_cons]

theorem map_snd_writeAll (style : NumberStyle) (xs : List Expr) :
    (writeAll style xs).map Prod.snd = xs.map (write style) := by
  rw [writeAll_eq_map, List.map_map]
  rfl

theorem assemble_signed (h : Signed f sign kind p stop) (operands : List (Nat × List Char)) :
    assemble f operands = joined sign (parenthesize f operands) := by
  cases h <;> rfl

theorem write_signed (h : Signed f sign kind p stop)
    (hx : needsParentheses f 0 x.precedence = false)
    (hy : needsParentheses f 1 y.precedence = false) :
    (apply f [x, y]).write style = x.write style ++ (sign ++ y.write style) := by
  rw [write, assemble_signed h]
  simp [writeAll, parenthesize, hx, hy, joined]

theorem write_name {name : String} (h : f.kind.functionName? = some name) (xs : List Expr) :
    (apply f xs).write style = name.toList ++ writeArguments (xs.map (write style)) := by
  rw [← map_snd_writeAll, write]
  cases f <;> cases h <;> rfl

end Written

/-! ## Legible expressions -/

/-- An expression that is read back as it is: each operand stands where its operator groups it. -/
inductive Legible (style : NumberStyle) : Expr → Prop where
  | number {x : Expr} {whole fraction : List Char} {exponent : Option Int}
      (digits : (∀ c ∈ whole, c.isDigit = true) ∧ whole ≠ [] ∧ ∀ c ∈ fraction, c.isDigit = true)
      (write : x.write style = literal whole fraction exponent)
      (read : Numeral.read (literal whole fraction exponent) = x) : Legible style x
  | constant (k : Constant) : Legible style (constant k)
  | word {name : String} {x : Expr} (h : Word name x) : Legible style x
  | function {name : String} {x : Expr} (legal : LegalName name) (other : name ≠ "ans")
      (self : x.symbol? ≠ some name) (hx : Legible style x) :
      Legible style (apply (.function name) [x])
  | call {f : Operator} {name : String} {xs : List Expr}
      (named : f.kind.functionName? = some name)
      (count : f.kind.arity.accepts xs.length = true)
      (binds : f.kind.isParametered = true → bindsLegally xs = true)
      (hxs : ∀ x ∈ xs, Legible style x) : Legible style (apply f xs)
  | list {xs : List Expr} (hxs : ∀ x ∈ xs, Legible style x) : Legible style (apply .list xs)
  | matrix {rows columns : Nat} {xs : List Expr} (positive : 0 < rows ∧ 0 < columns)
      (count : xs.length = rows * columns) (hxs : ∀ x ∈ xs, Legible style x) :
      Legible style (apply (.matrix rows columns) xs)
  | parenthesis {x : Expr} (hx : Legible style x) : Legible style (apply .parenthesis [x])
  | opposite {x : Expr} (hx : Legible style x) (right : 5 ≤ x.precedence) :
      Legible style (apply .opposite [x])
  | factorial {x : Expr} (hx : Legible style x) (left : 10 ≤ x.precedence) :
      Legible style (apply .factorial [x])
  | signed {f : Operator} {sign : List Char} {kind : TokenKind} {p stop : Precedence} {x y : Expr}
      (h : Signed f sign kind p stop) (hx : Legible style x) (hy : Legible style y)
      (bare : needsParentheses f 0 x.precedence = false) (left : p.rank + 1 ≤ x.precedence)
      (right : stop.rank + 2 ≤ y.precedence) : Legible style (apply f [x, y])

section Reading

variable {style : NumberStyle} {f : Operator} {sign : List Char} {kind : TokenKind}
  {p stop : Precedence} {x y : Expr} {xs : List Expr}

theorem write_word {name : String} (h : Word name x) : x.write style = name.toList := by
  cases h with
  | infinity => rfl
  | undefined =>
      rw [Expr.undefined, write]
      rfl
  | nonreal =>
      rw [Expr.nonreal, write]
      rfl
  | symbol => rw [write]

theorem reads_all (h : ∀ x ∈ xs, Reads (x.write style) x) :
    List.Forall₂ Reads (xs.map (write style)) xs := by
  rw [List.forall₂_map_left_iff, List.forall₂_same]
  exact h

theorem write_parenthesis (x : Expr) :
    (apply .parenthesis [x]).write style = '(' :: (x.write style ++ [')']) := by
  rw [write, writeAll, writeAll]
  show '(' :: joined [','] [x.write style] ++ [')'] = _
  rw [joined_singleton]
  rfl

theorem write_opposite (h : 5 ≤ x.precedence) :
    (apply .opposite [x]).write style = '-' :: x.write style := by
  have hbare : needsParentheses .opposite 0 x.precedence = false := by
    have hstrong : ¬ x.precedence ≤ 4 := by omega
    exact decide_eq_false hstrong
  rw [write, writeAll, writeAll]
  show '-' :: (parenthesize .opposite [(x.precedence, x.write style)]).headD [] = _
  simp [parenthesize, hbare]

theorem write_factorial (h : 10 ≤ x.precedence) :
    (apply .factorial [x]).write style = x.write style ++ ['!'] := by
  have hbare : needsParentheses .factorial 0 x.precedence = false := by
    have hatom : ¬ x.precedence < 10 := by omega
    exact decide_eq_false hatom
  rw [write, writeAll, writeAll]
  show (parenthesize .factorial [(x.precedence, x.write style)]).headD [] ++ ['!'] = _
  simp [parenthesize, hbare]

theorem write_matrix (rows columns : Nat) (xs : List Expr) :
    (apply (.matrix rows columns) xs).write style =
      '[' :: (((chunks columns xs).map (List.map (write style))).map rowText).flatten ++ [']'] := by
  rw [← chunks_map, ← map_snd_writeAll, write]
  rfl

theorem write_list (xs : List Expr) :
    (apply .list xs).write style = '{' :: joined [','] (xs.map (write style)) ++ ['}'] := by
  rw [← map_snd_writeAll, write]
  rfl

/-- A sign keeps its operands apart where they need no parentheses. -/
theorem signed_keeps (h : Signed f sign kind p stop)
    (hbare : needsParentheses f 0 x.precedence = false) (hleft : p.rank + 1 ≤ x.precedence)
    (hright : stop.rank + 2 ≤ y.precedence) :
    p.rank ≤ lastRank x.precedence ∧ (p = .comparison → x.kind ≠ .comparison) ∧
      needsParentheses f 1 y.precedence = false := by
  have hsecond : needsParentheses f 1 y.precedence = false := by
    cases h <;>
      simp only [needsParentheses, Precedence.rank, Precedence.ctorIdx, one_ne_zero, if_false,
        decide_eq_false_iff_not] at hright ⊢ <;>
      omega
  have hlast : p.rank ≤ lastRank x.precedence := by
    cases h with
    | power =>
        have hnine : 9 ≤ x.precedence := by
          simpa [needsParentheses] using hbare
        have hmono := lastRank_mono hnine
        exact Nat.le_trans (by decide) hmono
    | _ =>
        have hmono := lastRank_mono hleft
        exact Nat.le_trans (by decide) hmono
  refine ⟨hlast, ?_, hsecond⟩
  rintro rfl hkind
  -- a comparison is put in parentheses where it is compared
  cases h with
  | comparison relation =>
      cases x with
      | apply g xs =>
          cases g <;> cases hkind
          exact Bool.noConfusion hbare
      | _ => cases hkind

theorem Legible.reads {t : Expr} (h : Legible style t) : Reads (t.write style) t := by
  induction h with
  | @number x whole fraction exponent digits hwrite hread =>
      have hreads : Reads (literal whole fraction exponent) _ :=
        Reads.number digits.1 digits.2.1 digits.2.2
      rwa [hread, ← hwrite] at hreads
  | constant k =>
      rw [write]
      exact Reads.constant k
  | word h =>
      rw [write_word h]
      exact Reads.word h
  | @function name x legal other self hx ih =>
      have hwrite : (apply (.function name) [x]).write style =
          name.toList ++ writeArguments [x.write style] := by
        rw [write]
        rfl
      rw [hwrite]
      exact Reads.function legal other ih self
  | call named count binds hxs ih =>
      rw [write_name named]
      exact Reads.call named count binds (reads_all ih)
  | @list xs hxs ih =>
      rw [write_list]
      exact Reads.list (reads_all ih)
  | @matrix rows columns xs positive count hxs ih =>
      rcases chunks_rows positive.2 count with ⟨hnumber, hcount⟩
      have hrows : List.Forall₂ (List.Forall₂ Reads)
          ((chunks columns xs).map (List.map (write style))) (chunks columns xs) := by
        rw [List.forall₂_map_left_iff, List.forall₂_same]
        intro row hrow
        apply reads_all
        intro x hx
        apply ih
        rw [← flatten_chunks columns xs]
        exact List.mem_flatten.mpr ⟨row, hrow, hx⟩
      have hne : chunks columns xs ≠ [] := by
        intro hempty
        rw [hempty, List.length_nil] at hnumber
        omega
      have hreads := Reads.matrix hrows hne hcount positive.2
      rw [flatten_chunks, hnumber] at hreads
      rwa [write_matrix]
  | parenthesis hx ih =>
      rw [write_parenthesis]
      exact Reads.parenthesis ih
  | opposite hx right ih =>
      rw [write_opposite right]
      exact Reads.opposite ih right
  | factorial hx left ih =>
      rw [write_factorial left]
      exact Reads.factorial ih left
  | signed h hx hy bare left right ihx ihy =>
      rcases signed_keeps h bare left right with ⟨hlast, hchain, hsecond⟩
      rw [write_signed h bare hsecond]
      exact Reads.signed h ihx ihy left hlast hchain right

end Reading

/-! ## Expressions that differ in their notation -/

/-- An operation whose operands may be grouped in any way, and its inverse. -/
inductive Inverse : Operator → Operator → Prop where
  | sum : Inverse .addition .subtraction
  | product : Inverse .multiplication .division

/-- Two expressions differ at most in how they are grouped, in parentheses, and in how their
numbers are put together. -/
inductive Akin : Expr → Expr → Prop where
  | refl (x : Expr) : Akin x x
  | symm {x y : Expr} (h : Akin x y) : Akin y x
  | trans {x y z : Expr} (h : Akin x y) (h' : Akin y z) : Akin x z
  | operand (f : Operator) (before after : List Expr) {x y : Expr} (h : Akin x y) :
      Akin (apply f (before ++ x :: after)) (apply f (before ++ y :: after))
  | parenthesis (x : Expr) : Akin (apply .parenthesis [x]) x
  | nested {f g : Operator} (h : Inverse f g) (before inner after : List Expr)
      (several : 2 ≤ inner.length) (others : before ++ after ≠ []) :
      Akin (apply f (before ++ apply f inner :: after)) (apply f (before ++ inner ++ after))
  | regrouped {f g : Operator} (h : Inverse f g) (before : List Expr) (x y : Expr)
      (others : before ≠ []) :
      Akin (apply g [apply f (before ++ [x]), y]) (apply f (before ++ [apply g [x, y]]))
  | negativeRational {q : Rat} (h : q < 0) :
      Akin (rational q) (apply .opposite [rational (-q)])
  | negativeDecimal {d : Decimal} (h : d.mantissa < 0) :
      Akin (decimal d) (apply .opposite [decimal ⟨-d.mantissa, d.scale⟩])
  | negativeInfinity : Akin (infinity true) (apply .opposite [infinity false])
  | fraction {q : Rat} (h : q.isInt = false) :
      Akin (rational q) (apply .division [integer q.num, integer q.den])
  | decimal (d : Decimal) : Akin (decimal d) (rational d.toRat)

namespace Akin

theorem operands_after (f : Operator) {xs ys : List Expr} (h : List.Forall₂ Akin xs ys)
    (before : List Expr) : Akin (apply f (before ++ xs)) (apply f (before ++ ys)) := by
  induction h generalizing before with
  | nil => exact refl _
  | @cons x y xs ys hxy hrest ih =>
      have hfirst : Akin (apply f (before ++ x :: xs)) (apply f (before ++ y :: xs)) :=
        operand f before xs hxy
      have hothers := ih (before ++ [y])
      rw [List.append_assoc, List.append_assoc] at hothers
      exact trans hfirst hothers

/-- Operands may be replaced by others that differ in their notation. -/
theorem operands (f : Operator) {xs ys : List Expr} (h : List.Forall₂ Akin xs ys) :
    Akin (apply f xs) (apply f ys) :=
  operands_after f h []

end Akin

/-! ## Sums and products -/

section Grouping

variable {style : NumberStyle} {f g k : Operator} {sign : List Char} {kind : TokenKind}
  {p : Precedence} {x y : Expr}

/-- Operands of sums and products stand in parentheses where they bind more weakly. -/
theorem Inverse.bare (h : Inverse f g) (index : Nat) (x : Expr) :
    needsParentheses f index x.precedence = false ↔ operatorPrecedence f ≤ x.precedence := by
  cases h with
  | sum =>
      show decide (x.precedence < 3) = false ↔ 3 ≤ x.precedence
      rw [decide_eq_false_iff_not, Nat.not_lt]
  | product =>
      show decide (x.precedence < 5) = false ↔ 5 ≤ x.precedence
      rw [decide_eq_false_iff_not, Nat.not_lt]

/-- An operation and its inverse stand in parentheses at the same places. -/
theorem Inverse.needsParentheses (h : Inverse f g) (k : Operator) (index : Nat) :
    needsParentheses k index (operatorPrecedence f) =
      needsParentheses k index (operatorPrecedence g) := by
  cases h <;> cases k <;> simp [Expr.needsParentheses, operatorPrecedence, atomPrecedence]

theorem Inverse.signed (h : Inverse f g) : ∃ sign kind p sign' kind' p',
    Signed f sign kind p p ∧ Signed g sign' kind' p' p' ∧ p'.rank = p.rank + 1 := by
  cases h with
  | sum => exact ⟨_, _, _, _, _, _, .addition, .subtraction, rfl⟩
  | product => exact ⟨_, _, _, _, _, _, .multiplication, .division, rfl⟩

/-- What binds as a sum or a product is one, of two operands. -/
theorem Legible.grouped (h : Inverse f g) (hx : Legible style x)
    (hprecedence : x.precedence = operatorPrecedence f) :
    ∃ l r, x = apply f [l, r] ∧ Legible style l ∧ Legible style r ∧
      operatorPrecedence f ≤ l.precedence ∧ operatorPrecedence f + 1 ≤ r.precedence := by
  have hweak : operatorPrecedence f = 3 ∨ operatorPrecedence f = 5 := by
    cases h with
    | sum => exact Or.inl rfl
    | product => exact Or.inr rfl
  rw [hprecedence.symm] at hweak
  cases hx with
  | number digits hwrite hread =>
      rw [← hread, (precedence_read _).1] at hweak
      omega
  | constant => exact absurd hweak (show ¬ (10 = 3 ∨ 10 = 5) by decide)
  | word hword =>
      have hatom : x.precedence = 10 := by
        cases hword <;> rfl
      omega
  | call named =>
      rw [precedence_of_name named] at hweak
      omega
  | function => exact absurd hweak (show ¬ (10 = 3 ∨ 10 = 5) by decide)
  | list => exact absurd hweak (show ¬ (10 = 3 ∨ 10 = 5) by decide)
  | matrix => exact absurd hweak (show ¬ (10 = 3 ∨ 10 = 5) by decide)
  | parenthesis => exact absurd hweak (show ¬ (10 = 3 ∨ 10 = 5) by decide)
  | opposite => exact absurd hweak (show ¬ (4 = 3 ∨ 4 = 5) by decide)
  | factorial => exact absurd hweak (show ¬ (9 = 3 ∨ 9 = 5) by decide)
  | @signed f' sign kind p stop l r hsigned hl hr hbare hleft hright =>
      have hsame : operatorPrecedence f' = operatorPrecedence f := hprecedence
      cases h <;> cases hsigned <;> first
        | exact ⟨l, r, rfl, hl, hr, hleft, hright⟩
        | simp [operatorPrecedence] at hsame

/-- Two operands of a sum or a product, of which the second may be one itself. -/
theorem group_two (h : Inverse f g) (hsigned : Signed f sign kind p p) (hx : Legible style x)
    (hy : Legible style y) (hleft : operatorPrecedence f ≤ x.precedence)
    (hright : operatorPrecedence f ≤ y.precedence) :
    ∃ z, Legible style z ∧ z.precedence = operatorPrecedence f ∧
      z.write style = x.write style ++ (sign ++ y.write style) ∧ Akin z (apply f [x, y]) := by
  induction hsize : y.size using Nat.strong_induction_on generalizing y with
  | _ total ih =>
      have hrank := hsigned.operatorPrecedence
      by_cases hstrong : operatorPrecedence f + 1 ≤ y.precedence
      · have hz : Legible style (apply f [x, y]) :=
          .signed hsigned hx hy ((h.bare 0 x).mpr hleft) (by omega) (by omega)
        exact ⟨_, hz, rfl, write_signed hsigned ((h.bare 0 x).mpr hleft) ((h.bare 1 y).mpr hright),
          .refl _⟩
      · rcases Legible.grouped h hy (by omega) with ⟨l, r, rfl, hl, hr, hlweak, hrstrong⟩
        have hless : l.size < total := by
          rw [← hsize]
          simp only [Expr.size, Expr.sizeAll]
          omega
        rcases ih l.size hless hl hlweak rfl with ⟨z, hz, hzprecedence, hzwrite, hzakin⟩
        have hzbare := (h.bare 0 z).mpr (Nat.le_of_eq hzprecedence.symm)
        have hrbare := (h.bare 1 r).mpr (by omega)
        have hlbare := (h.bare 0 l).mpr hlweak
        refine ⟨apply f [z, r], .signed hsigned hz hr hzbare (by omega) (by omega), rfl, ?_, ?_⟩
        · rw [write_signed hsigned hzbare hrbare, hzwrite, write_signed hsigned hlbare hrbare]
          simp
        · have hinner : Akin (apply f [z, r]) (apply f [apply f [x, l], r]) :=
            .operand f [] [r] hzakin
          have hflat : Akin (apply f [apply f [x, l], r]) (apply f [x, l, r]) :=
            .nested h [] [x, l] [r] (by simp) (by simp)
          have hnested : Akin (apply f [x, apply f [l, r]]) (apply f [x, l, r]) :=
            .nested h [x] [l, r] [] (by simp) (by simp)
          exact (hinner.trans hflat).trans hnested.symm

/-- The operands of a sum or a product, two or more of them. -/
theorem group_all (h : Inverse f g) (hsigned : Signed f sign kind p p) {ys : List Expr}
    (hne : ys ≠ []) (hx : Legible style x) (hleft : operatorPrecedence f ≤ x.precedence)
    (hys : ∀ y ∈ ys, Legible style y ∧ operatorPrecedence f ≤ y.precedence) :
    ∃ z, Legible style z ∧ z.precedence = operatorPrecedence f ∧
      z.write style = joined sign ((x :: ys).map (write style)) ∧ Akin z (apply f (x :: ys)) := by
  induction ys generalizing x with
  | nil => exact absurd rfl hne
  | cons y ys ih =>
      rcases hys y (by simp) with ⟨hy, hright⟩
      rcases group_two h hsigned hx hy hleft hright with ⟨z, hz, hzprecedence, hzwrite, hzakin⟩
      cases ys with
      | nil =>
          refine ⟨z, hz, hzprecedence, ?_, hzakin⟩
          rw [hzwrite, List.map_cons, List.map_cons, List.map_nil, joined_cons_cons,
            joined_singleton]
      | cons y' ys =>
          rcases ih (by simp) hz (Nat.le_of_eq hzprecedence.symm)
            (fun w hw => hys w (by simp [hw])) with ⟨w, hw, hwprecedence, hwwrite, hwakin⟩
          refine ⟨w, hw, hwprecedence, ?_, ?_⟩
          · rw [hwwrite]
            simp only [List.map_cons, joined_cons_cons, hzwrite, List.append_assoc]
          · have hfirst : Akin (apply f (z :: y' :: ys)) (apply f (apply f [x, y] :: y' :: ys)) :=
              .operand f [] (y' :: ys) hzakin
            have hflat : Akin (apply f (apply f [x, y] :: y' :: ys))
                (apply f (x :: y :: y' :: ys)) :=
              .nested h [] [x, y] (y' :: ys) (by simp) (by simp)
            exact (hwakin.trans hfirst).trans hflat

/-! ## Differences and quotients -/

/-- A difference whose first operand is a sum, and a quotient whose first operand is a product,
takes the last operand of it. -/
theorem group_inverse (h : Inverse f g) (hsigned : Signed g sign kind p p) (hx : Legible style x)
    (hy : Legible style y) (hleft : operatorPrecedence f ≤ x.precedence)
    (hright : p.rank + 2 ≤ y.precedence) :
    ∃ z, Legible style z ∧
      (z.precedence = operatorPrecedence f ∨ z.precedence = operatorPrecedence g) ∧
      z.write style = x.write style ++ (sign ++ y.write style) ∧ Akin z (apply g [x, y]) := by
  have hrank := hsigned.operatorPrecedence
  have hnext : operatorPrecedence g = operatorPrecedence f + 1 := by
    cases h <;> rfl
  have hbare : ∀ z : Expr, operatorPrecedence f ≤ z.precedence →
      Expr.needsParentheses g 0 z.precedence = false := by
    intro z hz
    cases h <;> exact decide_eq_false (Nat.not_lt.mpr hz)
  have hbehind : Expr.needsParentheses g 1 y.precedence = false := by
    have hstrong : ¬ y.precedence ≤ operatorPrecedence g := by omega
    cases h <;> exact decide_eq_false hstrong
  by_cases hown : operatorPrecedence g ≤ x.precedence
  · have hz : Legible style (apply g [x, y]) :=
      .signed hsigned hx hy (hbare x hleft) (by omega) hright
    exact ⟨_, hz, Or.inr rfl, write_signed hsigned (hbare x hleft) hbehind, .refl _⟩
  · rcases Legible.grouped h hx (by omega) with ⟨l, r, rfl, hl, hr, hlweak, hrstrong⟩
    rcases h.signed with ⟨sign', kind', p', -, -, -, hsigned', -, -⟩
    have hrank' := hsigned'.operatorPrecedence
    have hr' : Legible style (apply g [r, y]) :=
      .signed hsigned hr hy (hbare r (by omega)) (by omega) hright
    have hprecedence : (apply g [r, y]).precedence = operatorPrecedence g := rfl
    have hlbare := (h.bare 0 l).mpr hlweak
    have hrbare := (h.bare 1 r).mpr (by omega)
    have hlast := (h.bare 1 (apply g [r, y])).mpr (by omega)
    refine ⟨apply f [l, apply g [r, y]],
      .signed hsigned' hl hr' hlbare (by omega) (by omega), Or.inl rfl, ?_, ?_⟩
    · rw [write_signed hsigned' hlbare hlast, write_signed hsigned (hbare r (by omega)) hbehind,
        write_signed hsigned' hlbare hrbare]
      simp
    · exact (Akin.regrouped h [l] r y (by simp)).symm

end Grouping

end Expr
end PocketAlgebra
