import PocketAlgebra.Expr.Basic
import PocketAlgebra.Expr.Charge
import PocketAlgebra.Text.Token

/-!
# Reading expressions

The value of a number token: digits alone, perhaps with a point after them, are an integer; with
digits behind the point or with an exponent they are a decimal literal.

A text is read by precedence climbing over its tokens. Operators of one precedence group to the
left, powers to the right, and parentheses are kept as nodes of their own. Nodes are charged to the
memory in the order in which they are built, so that a text for which there is no room is rejected
at the token where the room runs out.

Two limits keep trees shallow: one on operands nested within operands while reading, and one on the
depth of the tree that is read.
-/

namespace PocketAlgebra

/-! ## Number literals -/

namespace Numeral

/-- The value of a digit. -/
def digitValue (c : Char) : Nat :=
  c.toNat - '0'.toNat

/-- The number that decimal digits write. -/
def ofDigits (digits : List Char) : Nat :=
  digits.foldl (fun n c => 10 * n + digitValue c) 0

/-- The magnitude at which exponents are cut off, far beyond that of any decimal literal with an
exact value. -/
def maxExponent : Nat :=
  1000000000

/-- The exponent behind a marker, with its sign. -/
def exponent : List Char → Int
  | '-' :: digits => -(min (ofDigits digits) maxExponent : Nat)
  | digits => (min (ofDigits digits) maxExponent : Nat)

/-- The number that a literal writes. -/
def read (literal : List Char) : Expr :=
  let mantissa := literal.takeWhile (· ≠ exponentMarker)
  let whole := mantissa.takeWhile (· ≠ '.')
  let fraction := (mantissa.dropWhile (· ≠ '.')).drop 1
  let digits := ofDigits (whole ++ fraction)
  match literal.dropWhile (· ≠ exponentMarker) with
  | _ :: tail => .decimal ⟨digits, fraction.length - exponent tail⟩
  | [] => if fraction.isEmpty then .integer digits else .decimal ⟨digits, fraction.length⟩

end Numeral

/-!
## Rejected texts

Why a text is not an expression, and where.
-/

/-- The reasons for which a text is rejected. -/
inductive ParseError.Cause where
  /-- A token that does not fit, as it is to be shown. -/
  | unexpectedToken (found : String)
  | invalidToken (text : String)
  | identifierTooLong (name : String)
  | reservedName (name : String)
  | arityMismatch (name expected : String) (found : Nat)
  | expectedArguments (name : String)
  | parameterNotSymbol (name : String)
  | recursiveFunctionArgument (name : String)
  | raggedMatrix (expected : Nat)
  | emptyMatrix
  | chainedComparison
  | invalidStoreTarget
  | nestingTooDeep
  | allocationFailure (shortage : Shortage)
  deriving DecidableEq, Repr

/-- A rejection, with the part of the text it refers to. -/
structure ParseError where
  cause : ParseError.Cause
  span : Span
  deriving DecidableEq, Repr

/-- The text that reports a rejection. -/
def ParseError.Cause.message : ParseError.Cause → String
  | unexpectedToken found => s!"unexpected {found}"
  | invalidToken text => s!"invalid token `{text}`"
  | identifierTooLong name =>
    s!"identifier `{name}` is longer than {maxIdentifierLength} characters"
  | reservedName name => s!"`{name}` is a reserved name"
  | arityMismatch name expected found =>
    s!"`{name}` expects {expected} argument(s), found {found}"
  | expectedArguments name => s!"`{name}` must be followed by its arguments"
  | parameterNotSymbol name => s!"the variable of `{name}` must be a symbol"
  | recursiveFunctionArgument name => s!"`{name}` cannot take itself as argument"
  | raggedMatrix expected => s!"matrix rows must all have {expected} entries"
  | emptyMatrix => "matrices cannot be empty"
  | chainedComparison => "only one comparison is allowed"
  | invalidStoreTarget => "cannot store into this target"
  | nestingTooDeep => "expression is nested too deeply"
  | allocationFailure shortage => s!"parsing ran out of memory: {shortage.message}"

/-! ## Precedences -/

/-- The operators by how strongly they bind, weakest first. -/
inductive Precedence where
  | store
  | comparison
  | plus
  | minus
  | times
  | slash
  | implicitTimes
  | power
  | factorial
  deriving DecidableEq, Repr

namespace Precedence

/-- The position of a precedence in the order. -/
def rank (p : Precedence) : Nat :=
  p.ctorIdx

/-- The stronger of two precedences. -/
def max (p q : Precedence) : Precedence :=
  if p.rank < q.rank then q else p

/-- The precedence of the operator that a token stands for behind an operand. -/
def ofToken? : TokenKind → Option Precedence
  | .plus => some plus
  | .minus => some minus
  | .times => some times
  | .slash => some slash
  | .caret => some power
  | .bang => some factorial
  | .comparison _ => some comparison
  | kind => if kind.startsOperand then some implicitTimes else none

end Precedence

namespace Parser

/-- The deepest tree that is read. -/
def maxTreeDepth : Nat :=
  256

/-- How deep operands may be nested within operands. -/
def maxNesting : Nat :=
  128

/-- What is left to be read, what was read last, and the room that is left for nodes. -/
structure State where
  tokens : List Token
  /-- The token that stands for the end of the text. -/
  last : Token
  previous : TokenKind
  previousStop : Nat
  free : Nat

/-- Steps of reading, each of which may reject the text. -/
abbrev ParseM :=
  StateT State (Except ParseError)

/-- The token to be read next. -/
def current : ParseM Token := do
  let s ← get
  return s.tokens.headD s.last

/-- Rejects the text. -/
def reject {α : Type} (cause : ParseError.Cause) (span : Span) : ParseM α :=
  throw ⟨cause, span⟩

/-- Reads a token. -/
def advance : ParseM Token := do
  let token ← current
  modify fun s =>
    { s with tokens := s.tokens.tail, previous := token.kind, previousStop := token.span.stop }
  return token

/-- Rejects the text for the token to be read next. -/
def unexpected {α : Type} : ParseM α := do
  let token ← current
  match token.kind with
  | .undefined => reject (.invalidToken token.text) token.span
  | .endOfStream => reject (.unexpectedToken "end of input") token.span
  | _ => reject (.unexpectedToken s!"`{token.text}`") token.span

/-- Reads a token of the given kind. -/
def expect (kind : TokenKind) : ParseM Token := do
  if (← current).kind = kind then advance else unexpected

/-- Takes up an expression whose operands have been taken up before. -/
def build (x : Expr) : ParseM Expr := do
  let s ← get
  if s.free < x.nodeCharge then
    reject (.allocationFailure ⟨x.nodeCharge, s.free⟩) (← current).span
  else
    set { s with free := s.free - x.nodeCharge }
    return x

/-! ## Operands

Each of the following takes the reader of nested operands as a parameter. -/

/-- Reads expressions with commas between them up to a closing token, where at least one is called
for. The number bounds the rounds and has to be at least the number of tokens. -/
def separated (operand : Precedence → ParseM Expr) (close : TokenKind) : Nat → ParseM (List Expr)
  | 0 => unexpected
  | rounds + 1 => do
    let x ← operand .store
    match (← current).kind with
    | .comma =>
      let _ ← advance
      return x :: (← separated operand close rounds)
    | kind =>
      if kind = close then
        let _ ← advance
        return [x]
      else
        unexpected

/-- Reads a list of expressions up to a closing token. -/
def sequence (operand : Precedence → ParseM Expr) (close : TokenKind) : ParseM (List Expr) := do
  if (← current).kind = close then
    let _ ← advance
    return []
  else
    separated operand close ((← get).tokens.length + 1)

/-- The text between the start of a token and the end of the last token that was read. -/
def spanFrom (token : Token) : ParseM Span := do
  return ⟨token.span.start, (← get).previousStop⟩

/-- Reads the argument of a user function behind its opening parenthesis. -/
def userFunction (operand : Precedence → ParseM Expr) (name : Token) : ParseM Expr := do
  let _ ← advance
  let arguments ← sequence operand .rightParenthesis
  let span ← spanFrom name
  match arguments with
  | [argument] =>
    if argument.symbol? = some name.text then
      reject (.recursiveFunctionArgument name.text) span
    else
      build (.apply (.function name.text) [argument])
  | _ => reject (.arityMismatch name.text "1" arguments.length) span

/-- Reads an identifier, and the argument behind it where it names a function. -/
def identifier (operand : Precedence → ParseM Expr) : ParseM Expr := do
  let token ← advance
  let name := token.text
  match Constant.ofSymbol? name with
  | some constant => build (.constant constant)
  | none =>
    match name with
    | "inf" => build (.infinity false)
    | "undef" => build .undefined
    | "nonreal" => build .nonreal
    | _ =>
      if maxIdentifierLength < name.length then
        reject (.identifierTooLong name) token.span
      else if name = "u" || name = "v" || name = "w" then
        reject (.reservedName name) token.span
      else if (← current).kind = .leftParenthesis && name ≠ "ans" then
        userFunction operand token
      else
        build (.symbol name)

/-- Reads the subscript and the argument of a logarithm behind its name. -/
def logarithmWithSubscript (operand : Precedence → ParseM Expr) (token : Token) :
    ParseM Expr := do
  let _ ← advance
  let _ ← expect .leftBrace
  let base ← operand .store
  let _ ← expect .rightBrace
  if (← current).kind ≠ .leftParenthesis then
    reject (.expectedArguments token.text) token.span
  else
    let _ ← advance
    let arguments ← sequence operand .rightParenthesis
    match arguments with
    | [argument] => build (.apply .logarithm [argument, base])
    | _ => reject (.arityMismatch token.text "1" arguments.length) (← spanFrom token)

/-- The numbers of arguments that a function takes, as they are shown. -/
def expectedCount (entry : FunctionEntry) : String :=
  if entry.least = entry.most then s!"{entry.least}" else s!"{entry.least} or {entry.most}"

/-- The operator of a call of a reserved function with so many arguments. -/
def callOperator (kind : Kind) (count : Nat) : Operator :=
  match kind, count with
  | .commonLogarithm, 2 => .logarithm
  | .sum, 1 => .listSum
  | _, _ => (Operator.ofKind? kind).getD .undefined

/-- Whether the second argument of a function can be its bound variable. -/
def bindsLegally (arguments : List Expr) : Bool :=
  (arguments[1]?.bind Expr.symbol?).any fun name => !isReservedName name

/-- Reads the arguments of a reserved function behind its name. -/
def reservedCall (operand : Precedence → ParseM Expr) : ParseM Expr := do
  let token ← advance
  match reservedFunction? token.text with
  | none => reject (.unexpectedToken s!"`{token.text}`") token.span
  | some entry =>
    let next ← current
    if entry.kind = .commonLogarithm && next.kind = .underscore then
      logarithmWithSubscript operand token
    else if next.kind ≠ .leftParenthesis then
      reject (.expectedArguments token.text) token.span
    else
      let _ ← advance
      let arguments ← sequence operand .rightParenthesis
      let span ← spanFrom token
      let count := arguments.length
      if count ≠ entry.least && count ≠ entry.most then
        reject (.arityMismatch token.text (expectedCount entry) count) span
      else
        let operator := callOperator entry.kind count
        if operator.kind.isParametered && !bindsLegally arguments then
          reject (.parameterNotSymbol token.text) span
        else
          build (.apply operator arguments)

/-- Reads the rows of a matrix behind its opening bracket, up to the closing one, and checks that
they are of one length. The number bounds the rounds and has to be at least the number of tokens. -/
def matrixRows (operand : Precedence → ParseM Expr) (opening : Token) (columns : Option Nat) :
    Nat → ParseM (List (List Expr))
  | 0 => unexpected
  | rounds + 1 => do
    let next ← current
    if next.kind ≠ .leftBracket then
      if columns.isNone && next.kind = .rightBracket then
        reject .emptyMatrix ⟨opening.span.start, next.span.stop⟩
      else
        unexpected
    else
      let rowOpening ← advance
      let next ← current
      if next.kind = .rightBracket then
        reject .emptyMatrix ⟨rowOpening.span.start, next.span.stop⟩
      else
        let row ← separated operand .rightBracket ((← get).tokens.length + 1)
        let expected := columns.getD row.length
        if row.length ≠ expected then
          reject (.raggedMatrix expected) (← spanFrom rowOpening)
        else
          match (← current).kind with
          | .comma =>
            let _ ← advance
            return row :: (← matrixRows operand opening (some expected) rounds)
          | .rightBracket =>
            let _ ← advance
            return [row]
          | _ => return row :: (← matrixRows operand opening (some expected) rounds)

/-- Reads a matrix: rows in brackets, perhaps with commas between them, within brackets. -/
def matrix (operand : Precedence → ParseM Expr) : ParseM Expr := do
  let opening ← advance
  let rows ← matrixRows operand opening none ((← get).tokens.length + 1)
  build (.apply (.matrix rows.length (rows.headD []).length) rows.flatten)

/-- Reads an operand, with its sign if it has one. -/
def leading (operand : Precedence → ParseM Expr) (stop : Precedence) : ParseM Expr := do
  match (← current).kind with
  | .minus =>
    let _ ← advance
    let x ← operand (stop.max .minus)
    build (.apply .opposite [x])
  | .number =>
    let token ← advance
    build (Numeral.read token.text.toList)
  | .identifier => identifier operand
  | .reservedFunction => reservedCall operand
  | .leftParenthesis =>
    let _ ← advance
    let x ← operand .store
    let _ ← expect .rightParenthesis
    build (.apply .parenthesis [x])
  | .leftBracket => matrix operand
  | .leftBrace =>
    let _ ← advance
    let elements ← sequence operand .rightBrace
    build (.apply .list elements)
  | _ => unexpected

/-! ## Operators -/

/-- Reads a binary operator and its right operand. -/
def infixOperator (operand : Precedence → ParseM Expr) (left : Expr) (operator : Operator)
    (stop : Precedence) : ParseM Expr := do
  let _ ← advance
  let right ← operand stop
  build (.apply operator [left, right])

/-- Reads the operator that the next token stands for, and its right operand. -/
def operation (operand : Precedence → ParseM Expr) (left : Expr) : ParseM Expr := do
  let token ← current
  match token.kind with
  | .plus => infixOperator operand left .addition .plus
  | .minus => infixOperator operand left .subtraction .minus
  | .times => infixOperator operand left .multiplication .times
  | .slash => infixOperator operand left .division .slash
  | .caret => infixOperator operand left .power .implicitTimes
  | .bang =>
    let _ ← advance
    build (.apply .factorial [left])
  | .comparison relation =>
    if left.kind = .comparison then
      reject .chainedComparison token.span
    else
      infixOperator operand left (.comparison relation) .comparison
  | kind =>
    if kind = .number && (← get).previous = .number then
      unexpected
    else
      let right ← operand .implicitTimes
      build (.apply .multiplication [left, right])

/-- Reads the operators behind an operand that bind more strongly than a given one. The number
bounds the rounds and has to be at least the number of tokens. -/
def operations (operand : Precedence → ParseM Expr) (stop : Precedence) :
    Nat → Expr → ParseM Expr
  | 0, left => return left
  | rounds + 1, left => do
    match Precedence.ofToken? (← current).kind with
    | none => return left
    | some precedence =>
      if precedence.rank ≤ stop.rank then
        return left
      else
        operations operand stop rounds (← operation operand left)

/-- Reads an expression up to the first operator that binds no more strongly than the given one.
The number is how deep operands may still be nested. -/
def expression : Nat → Precedence → ParseM Expr
  | 0, _ => do reject .nestingTooDeep (← current).span
  | nesting + 1, stop => do
    let first ← leading (expression nesting) stop
    operations (expression nesting) stop ((← get).tokens.length + 1) first

/-! ## Whole texts -/

/-- Whether a name may stand where a definition introduces a parameter. -/
def isParameter (token : Token) (function : String) : Bool :=
  token.kind = .identifier && !isReservedName token.text && token.text ≠ function &&
    token.text.length ≤ maxIdentifierLength

/-- Reads what is assigned to: a symbol, or a function of a parameter. -/
def storeTarget : ParseM Expr := do
  let token ← current
  if token.kind ≠ .identifier then
    reject .invalidStoreTarget token.span
  else
    let _ ← advance
    let name := token.text
    if isReservedName name then
      reject .invalidStoreTarget token.span
    else if maxIdentifierLength < name.length then
      reject (.identifierTooLong name) token.span
    else if (← current).kind ≠ .leftParenthesis then
      build (.symbol name)
    else
      let _ ← advance
      let parameter ← current
      if isParameter parameter name then
        let _ ← advance
        let _ ← expect .rightParenthesis
        let argument ← build (.symbol parameter.text)
        build (.apply (.function name) [argument])
      else
        reject .invalidStoreTarget parameter.span

/-- Reads an expression, and the target behind an arrow if there is one. -/
def statement : ParseM Expr := do
  let value ← expression maxNesting .store
  if (← current).kind = .store then
    let arrow ← advance
    if value.kind = .comparison then
      reject .invalidStoreTarget arrow.span
    else
      let target ← storeTarget
      build (.apply .store [value, target])
  else
    return value

/-- Reads a whole text. -/
def whole (textEnd : Nat) : ParseM Expr := do
  let x ← statement
  if (← current).kind ≠ .endOfStream then
    unexpected
  else if maxTreeDepth < x.depth then
    reject .nestingTooDeep ⟨0, textEnd⟩
  else
    return x

end Parser

/-- The expression that a text writes, built where so many bytes are free. -/
def Expr.parse (free : Nat) (text : String) : Except ParseError Expr :=
  let start : Parser.State :=
    ⟨Token.scan text, Token.atEnd text, .endOfStream, 0, free⟩
  (Parser.whole text.utf8ByteSize start).map Prod.fst

end PocketAlgebra
