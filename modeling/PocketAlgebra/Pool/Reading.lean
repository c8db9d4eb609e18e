import PocketAlgebra.Pool.Work

/-!
# Reading texts and bytes into a pool

The reader of `PocketAlgebra.Text.Parser` once more, as it works within a pool: what it has read so
far stands in the pool, and it goes on with handles. What it asks of an operand it looks up in the
pool, and where there is no room for a node, it stops at the token to be read next.

So does the reader of `PocketAlgebra.Codec.Tree`: the operands that have been read stand in the
pool, and their handles are taken over by the node that they belong to.
-/

namespace PocketAlgebra

namespace Parser

instance : Refusing State ParseError where
  refuse s shortage := ⟨.allocationFailure shortage, (s.tokens.headD s.last).span⟩

namespace Pooled

open Working

/-- Steps of reading into a pool. -/
abbrev PoolM :=
  Working State ParseError

/-! ## Operands -/

/-- Reads expressions with commas between them up to a closing token. -/
def separated (operand : Precedence → PoolM Nat) (close : TokenKind) : Nat → PoolM (List Nat)
  | 0 => unexpected
  | rounds + 1 => do
    let key ← operand .store
    match (← current).kind with
    | .comma =>
      let _ ← advance
      return key :: (← separated operand close rounds)
    | kind =>
      if kind = close then
        let _ ← advance
        return [key]
      else
        unexpected

/-- Reads a list of expressions up to a closing token. -/
def sequence (operand : Precedence → PoolM Nat) (close : TokenKind) : PoolM (List Nat) := do
  if (← current).kind = close then
    let _ ← advance
    return []
  else
    separated operand close ((← get).tokens.length + 1)

/-- Reads the argument of a user function behind its opening parenthesis. -/
def userFunction (operand : Precedence → PoolM Nat) (name : Token) : PoolM Nat := do
  let _ ← advance
  let arguments ← sequence operand .rightParenthesis
  let span ← spanFrom name
  match arguments with
  | [argument] =>
    let x ← look argument
    if x.symbol? = some name.text then
      reject (.recursiveFunctionArgument name.text) span
    else
      make (.apply (.function name.text) []) [argument]
  | _ => reject (.arityMismatch name.text "1" arguments.length) span

/-- Reads an identifier, and the argument behind it where it names a function. -/
def identifier (operand : Precedence → PoolM Nat) : PoolM Nat := do
  let token ← advance
  let name := token.text
  match Constant.ofSymbol? name with
  | some constant => make (.constant constant) []
  | none =>
    if name = "inf" then
      make (.infinity false) []
    else if name = "undef" then
      make .undefined []
    else if name = "nonreal" then
      make .nonreal []
    else if maxIdentifierLength < name.length then
      reject (.identifierTooLong name) token.span
    else if name = "u" || name = "v" || name = "w" then
      reject (.reservedName name) token.span
    else if (← current).kind = .leftParenthesis && name ≠ "ans" then
      userFunction operand token
    else
      make (.symbol name) []

/-- Reads the subscript and the argument of a logarithm behind its name. -/
def logarithmWithSubscript (operand : Precedence → PoolM Nat) (token : Token) : PoolM Nat := do
  let _ ← advance
  let _ ← expect .leftBrace
  let base ← operand .store
  let _ ← expect .rightBrace
  if (← current).kind ≠ .leftParenthesis then
    reject (.expectedArguments token.text) token.span
  else
    let _ ← advance
    let arguments ← sequence operand .rightParenthesis
    match arguments with
    | [argument] => make (.apply .logarithm []) [argument, base]
    | _ => reject (.arityMismatch token.text "1" arguments.length) (← spanFrom token)

/-- Reads the arguments of a reserved function behind its name. -/
def reservedCall (operand : Precedence → PoolM Nat) : PoolM Nat := do
  let token ← advance
  match reservedFunction? token.text with
  | none => reject (.unexpectedToken s!"`{token.text}`") token.span
  | some entry =>
    let next ← current
    if entry.kind = .commonLogarithm && next.kind = .underscore then
      logarithmWithSubscript operand token
    else if next.kind ≠ .leftParenthesis then
      reject (.expectedArguments token.text) token.span
    else
      let _ ← advance
      let arguments ← sequence operand .rightParenthesis
      let span ← spanFrom token
      let count := arguments.length
      if count ≠ entry.least && count ≠ entry.most then
        reject (.arityMismatch token.text (expectedCount entry) count) span
      else
        let operator := callOperator entry.kind count
        let xs ← lookAll arguments
        if operator.kind.isParametered && !bindsLegally xs then
          reject (.parameterNotSymbol token.text) span
        else
          make (.apply operator []) arguments

/-- Reads the rows of a matrix behind its opening bracket, up to the closing one. -/
def matrixRows (operand : Precedence → PoolM Nat) (opening : Token) (columns : Option Nat) :
    Nat → PoolM (List (List Nat))
  | 0 => unexpected
  | rounds + 1 => do
    let next ← current
    if next.kind ≠ .leftBracket then
      if columns.isNone && next.kind = .rightBracket then
        reject .emptyMatrix ⟨opening.span.start, next.span.stop⟩
      else
        unexpected
    else
      let rowOpening ← advance
      let next ← current
      if next.kind = .rightBracket then
        reject .emptyMatrix ⟨rowOpening.span.start, next.span.stop⟩
      else
        let row ← separated operand .rightBracket ((← get).tokens.length + 1)
        let expected := columns.getD row.length
        if row.length ≠ expected then
          reject (.raggedMatrix expected) (← spanFrom rowOpening)
        else
          match (← current).kind with
          | .comma =>
            let _ ← advance
            return row :: (← matrixRows operand opening (some expected) rounds)
          | .rightBracket =>
            let _ ← advance
            return [row]
          | _ => return row :: (← matrixRows operand opening (some expected) rounds)

/-- Reads a matrix. -/
def matrix (operand : Precedence → PoolM Nat) : PoolM Nat := do
  let opening ← advance
  let rows ← matrixRows operand opening none ((← get).tokens.length + 1)
  make (.apply (.matrix rows.length (rows.headD []).length) []) rows.flatten

/-- Reads an operand, with its sign if it has one. -/
def leading (operand : Precedence → PoolM Nat) (stop : Precedence) : PoolM Nat := do
  match (← current).kind with
  | .minus =>
    let _ ← advance
    let key ← operand (stop.max .minus)
    make (.apply .opposite []) [key]
  | .number =>
    let token ← advance
    make (Numeral.read token.text.toList) []
  | .identifier => identifier operand
  | .reservedFunction => reservedCall operand
  | .leftParenthesis =>
    let _ ← advance
    let key ← operand .store
    let _ ← expect .rightParenthesis
    make (.apply .parenthesis []) [key]
  | .leftBracket => matrix operand
  | .leftBrace =>
    let _ ← advance
    let elements ← sequence operand .rightBrace
    make (.apply .list []) elements
  | _ => unexpected

/-! ## Operators -/

/-- Reads a binary operator and its right operand. -/
def infixOperator (operand : Precedence → PoolM Nat) (left : Nat) (operator : Operator)
    (stop : Precedence) : PoolM Nat := do
  let _ ← advance
  let right ← operand stop
  make (.apply operator []) [left, right]

/-- Reads the operator that the next token stands for, and its right operand. -/
def operation (operand : Precedence → PoolM Nat) (left : Nat) : PoolM Nat := do
  let token ← current
  match token.kind with
  | .plus => infixOperator operand left .addition .plus
  | .minus => infixOperator operand left .subtraction .minus
  | .times => infixOperator operand left .multiplication .times
  | .slash => infixOperator operand left .division .slash
  | .caret => infixOperator operand left .power .implicitTimes
  | .bang =>
    let _ ← advance
    make (.apply .factorial []) [left]
  | .comparison relation =>
    let x ← look left
    if x.kind = .comparison then
      reject .chainedComparison token.span
    else
      infixOperator operand left (.comparison relation) .comparison
  | kind =>
    if kind = .number && (← get).previous = .number then
      unexpected
    else
      let right ← operand .implicitTimes
      make (.apply .multiplication []) [left, right]

/-- Reads the operators behind an operand that bind more strongly than a given one. -/
def operations (operand : Precedence → PoolM Nat) (stop : Precedence) : Nat → Nat → PoolM Nat
  | 0, left => return left
  | rounds + 1, left => do
    match Precedence.ofToken? (← current).kind with
    | none => return left
    | some precedence =>
      if precedence.rank ≤ stop.rank then
        return left
      else
        operations operand stop rounds (← operation operand left)

/-- Reads an expression up to the first operator that binds no more strongly than the given one. -/
def expression : Nat → Precedence → PoolM Nat
  | 0, _ => do reject .nestingTooDeep (← current).span
  | nesting + 1, stop => do
    let first ← leading (expression nesting) stop
    operations (expression nesting) stop ((← get).tokens.length + 1) first

/-! ## Whole texts -/

/-- Reads what is assigned to. -/
def storeTarget : PoolM Nat := do
  let token ← current
  if token.kind ≠ .identifier then
    reject .invalidStoreTarget token.span
  else
    let _ ← advance
    let name := token.text
    if isReservedName name then
      reject .invalidStoreTarget token.span
    else if maxIdentifierLength < name.length then
      reject (.identifierTooLong name) token.span
    else if (← current).kind ≠ .leftParenthesis then
      make (.symbol name) []
    else
      let _ ← advance
      let parameter ← current
      if isParameter parameter name then
        let _ ← advance
        let _ ← expect .rightParenthesis
        let argument ← make (.symbol parameter.text) []
        make (.apply (.function name) []) [argument]
      else
        reject .invalidStoreTarget parameter.span

/-- Reads an expression, and the target behind an arrow if there is one. -/
def statement : PoolM Nat := do
  let value ← expression maxNesting .store
  if (← current).kind = .store then
    let arrow ← advance
    let x ← look value
    if x.kind = .comparison then
      reject .invalidStoreTarget arrow.span
    else
      let target ← storeTarget
      make (.apply .store []) [value, target]
  else
    return value

/-- Reads a whole text. -/
def whole (textEnd : Nat) : PoolM Nat := do
  let key ← statement
  if (← current).kind ≠ .endOfStream then
    unexpected
  else
    let x ← look key
    if maxTreeDepth < x.depth then
      reject .nestingTooDeep ⟨0, textEnd⟩
    else
      return key

end Pooled

end Parser

/-- Reads an expression from text, node by node. -/
def Pool.parsing (p : Pool) (text : String) : Except ParseError Nat × Pool :=
  Working.run (Parser.Pooled.whole text.utf8ByteSize)
    ⟨Token.scan text, Token.atEnd text, .endOfStream, 0, p.free⟩ p

/-! ## Bytes -/

namespace Codec

instance : Refusing State DecodeError where
  refuse _ shortage := .allocationFailure shortage

/-- Reads a tree, which has to take up all bytes. -/
def whole : DecodeM Expr := do
  let x ← takeNode maxLevels
  let s ← get
  if s.stack.isEmpty then return x else throw (.trailingBytes s.stack.length)

namespace Pooled

open Working

/-- Steps of reading into a pool. -/
abbrev PoolM :=
  Working State DecodeError

/-- Reads so many operands, last one first, and returns them in order behind those given. -/
def takeOperands (operand : PoolM Nat) : Nat → List Nat → PoolM (List Nat)
  | 0, read => return read
  | count + 1, read => do
    let key ← operand
    takeOperands operand count (key :: read)

/-- Reads a tree of at most so many levels. -/
def takeNode : Nat → PoolM Nat
  | 0 => throw .tooDeep
  | levels + 1 => do
    let opcode ← take fun
      | b :: rest => (some b, rest)
      | [] => (none, [])
    match Kind.ofRank? opcode.toNat with
    | none => throw (.unknownOpcode opcode)
    | some kind =>
      let count ← take readNat
      let node ← takePayload kind
      if acceptsCount (node []) count then
        make (node []) (← takeOperands (takeNode levels) count [])
      else
        throw (.arityMismatch kind count)

/-- Reads a tree, which has to take up all bytes. -/
def whole : PoolM Nat := do
  let key ← takeNode maxLevels
  let s ← get
  if s.stack.isEmpty then return key else throw (.trailingBytes s.stack.length)

end Pooled

end Codec

namespace Pool

end Pool

end PocketAlgebra
