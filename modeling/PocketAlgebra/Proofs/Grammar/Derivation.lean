import PocketAlgebra.Text.Parser

/-!
# The grammar of expressions

Which rows of tokens are expressions, and which expressions they are, told without a reader: by
phrases that are made of other phrases. There is a kind of phrase for every strength of operators,
and one for the operand behind each operator that takes a sign before it.
-/

namespace PocketAlgebra

namespace Grammar

/-! ## Phrases -/

/-- The kinds of phrase. -/
inductive Phrase where
  /-- A sum, or two of them with a relation between. -/
  | comparison
  | sum
  | difference
  /-- A product, perhaps with signs before it. -/
  | negation
  | product
  /-- What stands behind the sign of a product. -/
  | factor
  | quotient
  /-- What stands behind the sign of a division. -/
  | divisor
  /-- A product without a sign between its factors. -/
  | adjacency
  | power
  /-- What stands behind the sign of a power. -/
  | exponent
  | factorial
  | atom
  deriving DecidableEq, Repr

namespace Phrase

/-- The phrase that may stand for a phrase of the given kind as it is. -/
def simpler? : Phrase → Option Phrase
  | comparison => some sum
  | sum => some difference
  | difference => some negation
  | negation => some product
  | product => some quotient
  | factor => some quotient
  | quotient => some adjacency
  | divisor => some adjacency
  | adjacency => some power
  | exponent => some power
  | power => some factorial
  | factorial => some atom
  | atom => none

/-- The phrases that may begin with a minus sign. -/
def isSigned : Phrase → Bool
  | negation | factor | divisor | exponent => true
  | _ => false

/-- The strongest operator that may stand behind a phrase and not be part of it. -/
def reach : Phrase → Nat
  | comparison => 1
  | sum => 2
  | difference | negation => 3
  | product | factor => 4
  | quotient | divisor => 5
  | adjacency | power | exponent => 6
  | factorial | atom => 8

end Phrase

/-- The phrases that are made of two others with a sign between them, and the operation that the
sign stands for. -/
inductive Joins : Phrase → Phrase → TokenKind → Phrase → Operator → Prop where
  | comparison (relation : Relation) :
    Joins .comparison .sum (.comparison relation) .sum (.comparison relation)
  | sum : Joins .sum .sum .plus .difference .addition
  | difference : Joins .difference .difference .minus .negation .subtraction
  | product : Joins .product .product .times .factor .multiplication
  | quotient : Joins .quotient .quotient .slash .divisor .division
  | power : Joins .power .factorial .caret .exponent .power

/-! ## Names -/

/-- The names that may be symbols and, except for that of the last answer, functions. -/
structure Legal (name : String) : Prop where
  notConstant : Constant.ofSymbol? name = none
  notWord : name ∉ ["inf", "undef", "nonreal"]
  notSequence : name ∉ ["u", "v", "w"]
  short : name.length ≤ maxIdentifierLength

/-- The names that are functions where a parenthesis follows. -/
structure Callable (name : String) : Prop extends Legal name where
  notAnswer : name ≠ "ans"

/-- What an identifier stands for by itself. -/
inductive Names : String → Expr → Prop where
  | constant (c : Constant) : Names c.symbol (.constant c)
  | infinity : Names "inf" (.infinity false)
  | undefined : Names "undef" .undefined
  | nonreal : Names "nonreal" .nonreal
  | symbol {name : String} (h : Legal name) : Names name (.symbol name)

/-! ## Rows of tokens -/

/-- Tokens between an opening and a closing one. -/
inductive Enclosed (opening closing : TokenKind) (inner : List Token) : List Token → Prop where
  | intro {first last : Token} (hfirst : first.kind = opening) (hlast : last.kind = closing) :
    Enclosed opening closing inner (first :: inner ++ [last])

/-- Pieces with commas between them. -/
inductive Separated : List (List Token) → List Token → Prop where
  | nil : Separated [] []
  | one (piece : List Token) : Separated [piece] piece
  | more {first second : List Token} {rest : List (List Token)} {comma : Token} {ts : List Token}
      (hcomma : comma.kind = .comma) (h : Separated (second :: rest) ts) :
    Separated (first :: second :: rest) (first ++ comma :: ts)

/-- A row of a matrix, in brackets. -/
def Row (cells : List (List Token)) (ts : List Token) : Prop :=
  ∃ inner, Separated cells inner ∧ Enclosed .leftBracket .rightBracket inner ts

/-- The rows of a matrix, perhaps with commas between them. -/
inductive Rows : List (List (List Token)) → List Token → Prop where
  | one {row : List (List Token)} {ts : List Token} (h : Row row ts) : Rows [row] ts
  | next {row : List (List Token)} {rows : List (List (List Token))} {ts us : List Token}
      (hrow : Row row ts) (h : Rows rows us) : Rows (row :: rows) (ts ++ us)
  | comma {row : List (List Token)} {rows : List (List (List Token))} {comma : Token}
      {ts us : List Token} (hrow : Row row ts) (hcomma : comma.kind = .comma) (h : Rows rows us) :
    Rows (row :: rows) (ts ++ comma :: us)

/-- An identifier is read as a function where a parenthesis stands behind it. -/
def Calls (name next : Token) : Prop :=
  name.kind = .identifier ∧ Callable name.text ∧ next.kind = .leftParenthesis

/-- Two phrases may be factors without a sign between them: the second one begins as an operand,
they do not meet in two numbers, and not in a function and its argument. -/
def Adjoins (ts us : List Token) : Prop :=
  ∃ last ∈ ts.getLast?, ∃ first ∈ us.head?, first.kind.startsOperand = true ∧
    ¬ (last.kind = .number ∧ first.kind = .number) ∧ ¬ Calls last first

/-! ## Derivations -/

/-- A reserved function takes so many arguments, and where it binds a variable, the second argument
is a symbol that may be bound. -/
structure Admits (entry : FunctionEntry) (xs : List Expr) : Prop where
  count : xs.length = entry.least ∨ xs.length = entry.most
  bound : (Parser.callOperator entry.kind xs.length).kind.isParametered = true →
    ∃ name, xs[1]? = some (.symbol name) ∧ isReservedName name = false

/-- A row of tokens is a phrase of the given kind, and it is the expression that is given. -/
inductive Derives : Phrase → List Token → Expr → Prop where
  | simpler {p q : Phrase} {ts : List Token} {x : Expr} (h : p.simpler? = some q)
      (hx : Derives q ts x) : Derives p ts x
  | operation {p left right : Phrase} {kind : TokenKind} {f : Operator} {sign : Token}
      {ts us : List Token} {x y : Expr} (h : Joins p left kind right f) (hsign : sign.kind = kind)
      (hx : Derives left ts x) (hy : Derives right us y) :
    Derives p (ts ++ sign :: us) (.apply f [x, y])
  | opposite {p : Phrase} {sign : Token} {ts : List Token} {x : Expr} (h : p.isSigned = true)
      (hsign : sign.kind = .minus) (hx : Derives p ts x) :
    Derives p (sign :: ts) (.apply .opposite [x])
  | adjacency {ts us : List Token} {x y : Expr} (h : Adjoins ts us) (hx : Derives .adjacency ts x)
      (hy : Derives .power us y) :
    Derives .adjacency (ts ++ us) (.apply .multiplication [x, y])
  | factorial {sign : Token} {ts : List Token} {x : Expr} (hsign : sign.kind = .bang)
      (hx : Derives .factorial ts x) :
    Derives .factorial (ts ++ [sign]) (.apply .factorial [x])
  | number {token : Token} (h : token.kind = .number) :
    Derives .atom [token] (Numeral.read token.text.toList)
  | name {token : Token} {x : Expr} (h : token.kind = .identifier) (hx : Names token.text x) :
    Derives .atom [token] x
  | call {token : Token} {ts us : List Token} {x : Expr} (h : token.kind = .identifier)
      (hname : Callable token.text) (hts : Enclosed .leftParenthesis .rightParenthesis us ts)
      (hx : Derives .comparison us x) (hother : x ≠ .symbol token.text) :
    Derives .atom (token :: ts) (.apply (.function token.text) [x])
  | parenthesis {ts us : List Token} {x : Expr}
      (hts : Enclosed .leftParenthesis .rightParenthesis us ts) (hx : Derives .comparison us x) :
    Derives .atom ts (.apply .parenthesis [x])
  | list {items : List (List Token × Expr)} {ts us : List Token}
      (hts : Enclosed .leftBrace .rightBrace us ts) (hus : Separated (items.map Prod.fst) us)
      (hitems : ∀ item ∈ items, Derives .comparison item.1 item.2) :
    Derives .atom ts (.apply .list (items.map Prod.snd))
  | matrix {rows : List (List (List Token × Expr))} {columns : Nat} {ts us : List Token}
      (hts : Enclosed .leftBracket .rightBracket us ts)
      (hus : Rows (rows.map (List.map Prod.fst)) us) (hcolumns : 0 < columns)
      (hrows : ∀ row ∈ rows, row.length = columns)
      (hitems : ∀ row ∈ rows, ∀ item ∈ row, Derives .comparison item.1 item.2) :
    Derives .atom ts (.apply (.matrix rows.length columns) (rows.flatten.map Prod.snd))
  | logarithm {token underscore : Token} {entry : FunctionEntry} {base : Expr}
      {ts us vs ws : List Token} {x : Expr} (h : token.kind = .reservedFunction)
      (hentry : reservedFunction? token.text = some entry)
      (hkind : entry.kind = .commonLogarithm) (hunderscore : underscore.kind = .underscore)
      (hts : Enclosed .leftBrace .rightBrace us ts) (hbase : Derives .comparison us base)
      (hvs : Enclosed .leftParenthesis .rightParenthesis ws vs) (hx : Derives .comparison ws x) :
    Derives .atom (token :: underscore :: ts ++ vs) (.apply .logarithm [x, base])
  | reserved {token : Token} {entry : FunctionEntry} {items : List (List Token × Expr)}
      {ts us : List Token} (h : token.kind = .reservedFunction)
      (hentry : reservedFunction? token.text = some entry)
      (hts : Enclosed .leftParenthesis .rightParenthesis us ts)
      (hus : Separated (items.map Prod.fst) us)
      (hitems : ∀ item ∈ items, Derives .comparison item.1 item.2)
      (hadmits : Admits entry (items.map Prod.snd)) :
    Derives .atom (token :: ts)
      (.apply (Parser.callOperator entry.kind items.length) (items.map Prod.snd))

/-- A name that a definition may introduce. -/
structure Assignable (token : Token) : Prop where
  kind : token.kind = .identifier
  free : isReservedName token.text = false
  short : token.text.length ≤ maxIdentifierLength

/-- What may be assigned to: a symbol, or a function of a parameter with another name. -/
inductive Target : List Token → Expr → Prop where
  | symbol {token : Token} (h : Assignable token) : Target [token] (.symbol token.text)
  | function {token parameter : Token} {ts : List Token} (h : Assignable token)
      (hparameter : Assignable parameter) (hother : parameter.text ≠ token.text)
      (hts : Enclosed .leftParenthesis .rightParenthesis [parameter] ts) :
    Target (token :: ts) (.apply (.function token.text) [.symbol parameter.text])

/-- A whole text: an expression, or one that is assigned to a target and is no comparison. -/
inductive Statement : List Token → Expr → Prop where
  | value {ts : List Token} {x : Expr} (h : Derives .comparison ts x) : Statement ts x
  | assignment {arrow : Token} {ts us : List Token} {x target : Expr}
      (hx : Derives .comparison ts x) (hkind : x.kind ≠ .comparison) (harrow : arrow.kind = .store)
      (htarget : Target us target) :
    Statement (ts ++ arrow :: us) (.apply .store [x, target])

/-! ## Phrases within phrases -/

/-- The phrases that may stand for a phrase of the given kind, in so many steps. -/
def Phrase.simplest : Nat → Phrase → List Phrase
  | 0, p => [p]
  | steps + 1, p => p :: (p.simpler?.map (simplest steps)).getD []

/-- Whether a phrase of one kind may stand for one of another kind. -/
def Phrase.includes (p q : Phrase) : Bool :=
  (p.simplest 9).contains q

variable {p q : Phrase} {ts us : List Token} {x : Expr}

theorem Derives.of_mem_simplest {steps : Nat} (h : q ∈ p.simplest steps) (hx : Derives q ts x) :
    Derives p ts x := by
  induction steps generalizing p with
  | zero =>
      rw [Phrase.simplest, List.mem_singleton] at h
      exact h ▸ hx
  | succ steps ih =>
      rw [Phrase.simplest, List.mem_cons] at h
      rcases h with rfl | h
      · exact hx
      · cases hsimpler : p.simpler? with
        | none => simp [hsimpler] at h
        | some r =>
            rw [hsimpler, Option.map_some, Option.getD_some] at h
            exact .simpler hsimpler (ih h)

theorem Derives.of_includes (h : p.includes q = true) (hx : Derives q ts x) : Derives p ts x :=
  of_mem_simplest (List.contains_iff_mem.mp h) hx

theorem Enclosed.ne_nil {opening closing : TokenKind} (h : Enclosed opening closing us ts) :
    ts ≠ [] := by
  cases h
  simp

theorem Derives.ne_nil (h : Derives p ts x) : ts ≠ [] := by
  induction h with
  | simpler _ _ ih => exact ih
  | adjacency _ _ _ ih => simp [ih]
  | parenthesis hts => exact hts.ne_nil
  | list hts => exact hts.ne_nil
  | matrix hts => exact hts.ne_nil
  | _ => simp

/-- A number is a whole one that is not negative, or a decimal literal. -/
theorem read_cases (literal : List Char) :
    (∃ n : Nat, Numeral.read literal = .integer n) ∨ ∃ d, Numeral.read literal = .decimal d := by
  unfold Numeral.read
  dsimp only
  split
  · exact .inr ⟨_, rfl⟩
  · split
    · exact .inl ⟨_, rfl⟩
    · exact .inr ⟨_, rfl⟩

theorem callOperator_kind_ne (kind : Kind) (count : Nat) :
    (Parser.callOperator kind count).kind ≠ .comparison := by
  unfold Parser.callOperator
  split
  · nofun
  · nofun
  · cases kind <;> nofun

theorem Names.kind_ne_comparison {name : String} (h : Names name x) : x.kind ≠ .comparison := by
  cases h <;> nofun

/-- Only two sums with a relation between them are a comparison. -/
theorem Derives.kind_ne_comparison (h : Derives p ts x) (hp : p ≠ .comparison) :
    x.kind ≠ .comparison := by
  induction h with
  | @simpler p q _ _ h _ ih =>
      apply ih
      rintro rfl
      cases p <;> cases h
  | operation h =>
      cases h with
      | comparison relation => exact absurd rfl hp
      | _ => nofun
  | @number token =>
      rcases read_cases token.text.toList with ⟨n, hread⟩ | ⟨d, hread⟩ <;> rw [hread] <;> nofun
  | name _ hx => exact hx.kind_ne_comparison
  | reserved => exact callOperator_kind_ne _ _
  | _ => nofun

/-- So a sum is what else a comparison is. -/
theorem Derives.sum_of_comparison (h : Derives .comparison ts x) (hkind : x.kind ≠ .comparison) :
    Derives .sum ts x := by
  cases h with
  | simpler h hx =>
      cases h
      exact hx
  | operation h =>
      cases h
      exact absurd rfl hkind
  | opposite h => cases h

/-- An operand behind a sign that has no sign itself. -/
theorem Derives.power_of_exponent (h : Derives .exponent ts x)
    (hkind : ∀ token ∈ ts.head?, token.kind ≠ .minus) : Derives .power ts x := by
  cases h with
  | simpler h hx =>
      cases h
      exact hx
  | operation h => cases h
  | opposite _ hsign => exact absurd hsign (hkind _ rfl)

end Grammar

end PocketAlgebra
