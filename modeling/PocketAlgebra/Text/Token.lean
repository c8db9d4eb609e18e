import PocketAlgebra.Kind

/-!
# Tokens

The text of an expression is cut into numbers, identifiers and signs, with blanks between them.
Every character belongs to a token or is blank: what begins no token of the grammar is a token of
kind `undefined`, and so is a malformed number. Positions are counted in bytes.
-/

namespace PocketAlgebra

/-!
## Blank characters

The twenty-five characters that have the Unicode property `White_Space`. They separate tokens and
are dropped at both ends of a line of input.
-/

/-- The characters with the property `White_Space`. -/
def isBlank (c : Char) : Bool :=
  let n := c.toNat
  (0x9 ≤ n && n ≤ 0xD) || n = 0x20 || n = 0x85 || n = 0xA0 || n = 0x1680 ||
    (0x2000 ≤ n && n ≤ 0x200A) || n = 0x2028 || n = 0x2029 || n = 0x202F || n = 0x205F ||
    n = 0x3000

/-- Every character that the core library takes for white space is blank. -/
theorem isBlank_of_isWhitespace {c : Char} (h : c.isWhitespace = true) : isBlank c = true := by
  simp only [Char.isWhitespace, Bool.or_eq_true, decide_eq_true_eq] at h
  rcases h with ((h | h) | h) | h <;> subst h <;> decide

/-- A text without the blanks at its ends. -/
def trimBlanks (text : String) : String :=
  let front := text.toList.dropWhile isBlank
  String.ofList (front.reverse.dropWhile isBlank).reverse

/-! ## Tokens of a text -/

/-- The kinds of token. -/
inductive TokenKind where
  | number
  | identifier
  | reservedFunction
  | plus
  | minus
  | times
  | slash
  | caret
  | bang
  | comparison (relation : Relation)
  | store
  | comma
  | leftParenthesis
  | rightParenthesis
  | leftBracket
  | rightBracket
  | leftBrace
  | rightBrace
  | underscore
  | endOfStream
  | undefined
  deriving DecidableEq, Repr

/-- The tokens that may follow an expression as the right factor of a product written without a
sign. -/
def TokenKind.startsOperand : TokenKind → Bool
  | number | identifier | reservedFunction | leftParenthesis | leftBracket => true
  | _ => false

/-- A range of byte positions; the end is not part of it. -/
structure Span where
  start : Nat
  stop : Nat
  deriving DecidableEq, Repr

/-- A token, its text, and where it stands. -/
structure Token where
  kind : TokenKind
  text : String
  span : Span
  deriving DecidableEq, Repr

/-- The sign between the mantissa and the exponent of a number. -/
def exponentMarker : Char :=
  'ᴇ'

namespace Token

/-- The number of digits that a text begins with. -/
def digitCount (cs : List Char) : Nat :=
  (cs.takeWhile Char.isDigit).length

/-- The kind and the length of a number token, whose mantissa and exponent have been found to take
so many characters. A further point or exponent marker spoils the number. -/
def closeNumber (cs : List Char) (length : Nat) : TokenKind × Nat :=
  match cs.drop length with
  | c :: _ => if c = '.' || c = exponentMarker then (.undefined, length + 1) else (.number, length)
  | [] => (.number, length)

/-- The kind and the length of the token at the start of a text that begins with a digit or a
point: digits with at most one point, then perhaps an exponent. -/
def scanNumber (cs : List Char) : TokenKind × Nat :=
  let whole := digitCount cs
  let point := if cs[whole]? = some '.' then 1 else 0
  let fraction := if point = 1 then digitCount (cs.drop (whole + 1)) else 0
  let mantissa := whole + point + fraction
  if whole + fraction = 0 then
    (.undefined, mantissa)
  else if cs[mantissa]? = some exponentMarker then
    let sign := if cs[mantissa + 1]? = some '-' then 1 else 0
    let exponent := digitCount (cs.drop (mantissa + 1 + sign))
    let length := mantissa + 1 + sign + exponent
    if exponent = 0 then (.undefined, length) else closeNumber cs length
  else
    closeNumber cs mantissa

/-- The number of characters that go on with an identifier: letters, digits and underscores, except
for an underscore that opens a subscript in braces. -/
def identifierLength : List Char → Nat
  | '_' :: '{' :: _ => 0
  | c :: cs => if c.isAlphanum || c = '_' then identifierLength cs + 1 else 0
  | [] => 0

/-- The kind of an identifier. -/
def identifierKind (name : String) : TokenKind :=
  if (reservedFunction? name).isSome then .reservedFunction else .identifier

/-- The kind of a token that begins with a sign, and the number of characters it takes after the
first. -/
def scanSign (c : Char) (next : Option Char) : TokenKind × Nat :=
  match c with
  | 'π' | 'ℯ' | '𝐢' => (.identifier, 0)
  | '√' => (.reservedFunction, 0)
  | '+' => (.plus, 0)
  | '-' => if next = some '>' then (.store, 1) else (.minus, 0)
  | '−' => (.minus, 0)
  | '×' | '*' | '·' => (.times, 0)
  | '/' | '÷' => (.slash, 0)
  | '^' => (.caret, 0)
  | '!' => (.bang, 0)
  | '→' => (.store, 0)
  | '=' => (.comparison .equal, 0)
  | '≠' => (.comparison .notEqual, 0)
  | '≤' => (.comparison .lessOrEqual, 0)
  | '≥' => (.comparison .greaterOrEqual, 0)
  | '<' => if next = some '=' then (.comparison .lessOrEqual, 1) else (.comparison .less, 0)
  | '>' => if next = some '=' then (.comparison .greaterOrEqual, 1) else (.comparison .greater, 0)
  | ',' => (.comma, 0)
  | '(' => (.leftParenthesis, 0)
  | ')' => (.rightParenthesis, 0)
  | '[' => (.leftBracket, 0)
  | ']' => (.rightBracket, 0)
  | '{' => (.leftBrace, 0)
  | '}' => (.rightBrace, 0)
  | '_' => (.underscore, 0)
  | _ => (.undefined, 0)

/-- The kind of the token that begins with the given character, and the number of characters it
takes after that one. -/
def scanFrom (c : Char) (cs : List Char) : TokenKind × Nat :=
  if c.isDigit || c = '.' then
    let (kind, length) := scanNumber (c :: cs)
    (kind, length - 1)
  else if c.isAlpha then
    let length := identifierLength cs
    (identifierKind (String.ofList (c :: cs.take length)), length)
  else
    scanSign c cs.head?

/-- The number of bytes that characters take. -/
def byteLength (cs : List Char) : Nat :=
  cs.foldr (fun c total => c.utf8Size + total) 0

/-- The tokens of a text that begins at the given position. -/
def scanAt (position : Nat) : List Char → List Token
  | [] => []
  | c :: cs =>
    if isBlank c then
      scanAt (position + c.utf8Size) cs
    else
      let (kind, length) := scanFrom c cs
      let lexeme := c :: cs.take length
      let stop := position + byteLength lexeme
      ⟨kind, String.ofList lexeme, ⟨position, stop⟩⟩ :: scanAt stop (cs.drop length)
termination_by cs => cs.length
decreasing_by
  all_goals
    simp only [List.length_cons, List.length_drop]
    omega

/-- The tokens of a text. -/
def scan (text : String) : List Token :=
  scanAt 0 text.toList

/-- The token that stands for the end of a text. -/
def atEnd (text : String) : Token :=
  ⟨.endOfStream, "", ⟨text.utf8ByteSize, text.utf8ByteSize⟩⟩

end Token

end PocketAlgebra
