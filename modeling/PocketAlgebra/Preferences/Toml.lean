import PocketAlgebra.Bounds

/-!
# Keys with texts and whole numbers

The part of the TOML notation that preferences are written in: lines with a key and a value, which
is a text or a whole number, between blank lines and comments. Everything else that TOML admits,
such as tables, dotted keys and dates, is not a preference, and is refused like what TOML does not
admit.

Every reader takes what it reads off the front of the characters and leaves the rest.
-/

namespace PocketAlgebra

namespace Toml

/-- The value of a key. -/
inductive Value where
  | text (content : String)
  | integer (value : Int)
  deriving DecidableEq, Repr

/-! ## Space between things -/

/-- Spaces and tabs. -/
def isSpace (c : Char) : Bool :=
  c = ' ' || c = '\t'

/-- Characters that can stand neither in a comment nor in a text. -/
def isControl (c : Char) : Bool :=
  (c.toNat < 0x20 && c ≠ '\t') || c.toNat = 0x7f

/-- What is left after spaces and tabs. -/
def skipSpaces (cs : List Char) : List Char :=
  cs.dropWhile isSpace

/-- What is left after the end of a line: perhaps a comment, then a line break or the end. -/
def endOfLine? (cs : List Char) : Option (List Char) :=
  let cs := skipSpaces cs
  let cs := if cs.head? = some '#' then cs.tail.dropWhile (! isControl ·) else cs
  match cs with
  | [] => some []
  | '\n' :: rest => some rest
  | '\r' :: '\n' :: rest => some rest
  | _ => none

/-! ## Whole numbers -/

/-- The value of a digit, also of one above nine. -/
def digitValue (c : Char) : Nat :=
  if c.isDigit then c.toNat - '0'.toNat else c.toLower.toNat - 'a'.toNat + 10

/-- Whether a character is a digit in a base. -/
def isDigitIn (base : Nat) (c : Char) : Bool :=
  (c.isDigit || c.isAlpha) && digitValue c < base

/-- The value of digits with single underscores between them. -/
def digits? (base : Nat) : List Char → Option Nat
  | [] => none
  | c :: cs => if isDigitIn base c then go (digitValue c) cs else none
where
  /-- Goes on with the digits after some whose value is known. -/
  go (value : Nat) : List Char → Option Nat
    | [] => some value
    | '_' :: c :: cs =>
      if isDigitIn base c then go (base * value + digitValue c) cs else none
    | c :: cs => if isDigitIn base c then go (base * value + digitValue c) cs else none

/-- The value of decimal digits, which do not begin with a zero unless that is all. -/
def decimal? (cs : List Char) : Option Nat :=
  if cs.head? = some '0' && cs.length ≠ 1 then none else digits? 10 cs

/-- The whole number that a word writes, in base two, eight, ten or sixteen. -/
def integer? (word : List Char) : Option Int :=
  match word with
  | '0' :: 'x' :: cs => (digits? 16 cs).map Int.ofNat
  | '0' :: 'o' :: cs => (digits? 8 cs).map Int.ofNat
  | '0' :: 'b' :: cs => (digits? 2 cs).map Int.ofNat
  | '+' :: cs => (decimal? cs).map Int.ofNat
  | '-' :: cs => (decimal? cs).map fun n => -n
  | cs => (decimal? cs).map Int.ofNat

/-! ## Texts -/

/-- The character with a number that is written in hexadecimal digits. -/
def codePoint? (cs : List Char) : Option Char := do
  let n ← digits? 16 cs
  if h : n.isValidChar then some (Char.ofNatAux n h) else none

/-- Whether these are so many hexadecimal digits. -/
def areHexDigits (count : Nat) (cs : List Char) : Bool :=
  cs.length = count && cs.all (isDigitIn 16)

/-- The character that an escape stands for, and the number of characters that it takes after the
backslash. -/
def escape? : List Char → Option (Char × Nat)
  | 'b' :: _ => some ('\x08', 1)
  | 't' :: _ => some ('\t', 1)
  | 'n' :: _ => some ('\n', 1)
  | 'f' :: _ => some ('\x0c', 1)
  | 'r' :: _ => some ('\r', 1)
  | '"' :: _ => some ('"', 1)
  | '\\' :: _ => some ('\\', 1)
  | 'e' :: _ => some ('\x1b', 1)
  | 'x' :: cs =>
    if areHexDigits 2 (cs.take 2) then (codePoint? (cs.take 2)).map (·, 3) else none
  | 'u' :: cs =>
    if areHexDigits 4 (cs.take 4) then (codePoint? (cs.take 4)).map (·, 5) else none
  | 'U' :: cs =>
    if areHexDigits 8 (cs.take 8) then (codePoint? (cs.take 8)).map (·, 9) else none
  | _ => none

/-- A text that has been read, in reverse, and what is left. -/
def finish (content rest : List Char) : Option (String × List Char) :=
  some (String.ofList content.reverse, rest)

/-- Reads a text between apostrophes, in which nothing is escaped. -/
def literalText? (content : List Char) : List Char → Option (String × List Char)
  | [] => none
  | '\'' :: rest => finish content rest
  | c :: cs => if isControl c then none else literalText? (c :: content) cs

/-- Reads a text between quotes, in which a backslash begins an escape. The number bounds the
characters that are read. -/
def basicText? : Nat → List Char → List Char → Option (String × List Char)
  | 0, _, _ => none
  | _, _, [] => none
  | _, content, '"' :: rest => finish content rest
  | steps + 1, content, '\\' :: cs => do
    let (c, count) ← escape? cs
    basicText? steps (c :: content) (cs.drop count)
  | steps + 1, content, c :: cs =>
    if isControl c then none else basicText? steps (c :: content) cs

/-- How many quotes stand at the front. -/
def quoteCount (quote : Char) (cs : List Char) : Nat :=
  (cs.takeWhile (· = quote)).length

/-- The blanks and line breaks that a backslash at the end of a line takes with it. -/
def skipLineEnding (cs : List Char) : Option (List Char) :=
  match skipSpaces cs with
  | '\n' :: rest => some (rest.dropWhile fun c => isSpace c || c = '\n' || c = '\r')
  | '\r' :: '\n' :: rest => some (rest.dropWhile fun c => isSpace c || c = '\n' || c = '\r')
  | _ => none

/-- Reads a text over several lines, up to three quotes; up to two more belong to the text. With
quotes of one kind, a backslash begins an escape. The number bounds the characters that are
read. -/
def longText? (quote : Char) : Nat → List Char → List Char → Option (String × List Char)
  | 0, _, _ => none
  | _, _, [] => none
  | steps + 1, content, c :: cs =>
    if c = quote then
      let count := quoteCount quote (c :: cs)
      if count < 3 then
        longText? quote steps (c :: content) cs
      else if count ≤ 5 then
        finish (List.replicate (count - 3) quote ++ content) ((c :: cs).drop count)
      else
        none
    else if c = '\\' && quote = '"' then
      match skipLineEnding cs with
      | some rest => longText? quote steps content rest
      | none => do
        let (c, count) ← escape? cs
        longText? quote steps (c :: content) (cs.drop count)
    else if c = '\r' then
      if cs.head? = some '\n' then longText? quote steps content cs else none
    else if isControl c && c ≠ '\n' then
      none
    else
      longText? quote steps (c :: content) cs

/-- The characters of a long text without a line break at its very beginning. -/
def skipFirstBreak : List Char → List Char
  | '\n' :: rest => rest
  | '\r' :: '\n' :: rest => rest
  | cs => cs

/-! ## Keys and values -/

/-- The characters that a key consists of when it is not quoted. -/
def isKeyCharacter (c : Char) : Bool :=
  c.isAlphanum || c = '-' || c = '_'

/-- Reads a key. -/
def key? : List Char → Option (String × List Char)
  | '"' :: cs => basicText? (cs.length + 1) [] cs
  | '\'' :: cs => literalText? [] cs
  | cs =>
    let name := cs.takeWhile isKeyCharacter
    if name.isEmpty then none else some (String.ofList name, cs.dropWhile isKeyCharacter)

/-- Whether a character can stand in a number. -/
def isNumberCharacter (c : Char) : Bool :=
  isKeyCharacter c || c = '+' || c = '.' || c = ':'

/-- Reads a value. -/
def value? : List Char → Option (Value × List Char)
  | '"' :: '"' :: '"' :: cs =>
    (longText? '"' (cs.length + 1) [] (skipFirstBreak cs)).map fun (s, rest) => (.text s, rest)
  | '\'' :: '\'' :: '\'' :: cs =>
    (longText? '\'' (cs.length + 1) [] (skipFirstBreak cs)).map fun (s, rest) => (.text s, rest)
  | '"' :: cs => (basicText? (cs.length + 1) [] cs).map fun (s, rest) => (.text s, rest)
  | '\'' :: cs => (literalText? [] cs).map fun (s, rest) => (.text s, rest)
  | cs => do
    let n ← integer? (cs.takeWhile isNumberCharacter)
    if fitsWord64 n then some (.integer n, cs.dropWhile isNumberCharacter) else none

/-- Reads a line with a key and a value. -/
def entry? (cs : List Char) : Option ((String × Value) × List Char) := do
  let (key, cs) ← key? cs
  match skipSpaces cs with
  | '=' :: cs =>
    let (value, cs) ← value? (skipSpaces cs)
    let cs ← endOfLine? cs
    return ((key, value), cs)
  | _ => none

/-- Reads lines, of which there are fewer than the number given, after those that have been read. A
key stands on one line only. -/
def entries? : Nat → List (String × Value) → List Char → Option (List (String × Value))
  | 0, _, _ => none
  | steps + 1, read, cs =>
    match skipSpaces cs with
    | [] => some read.reverse
    | c :: rest =>
      if c = '#' || c = '\n' || c = '\r' then
        (endOfLine? (c :: rest)).bind (entries? steps read)
      else do
        let (entry, cs) ← entry? (c :: rest)
        if (read.lookup entry.1).isSome then none else entries? steps (entry :: read) cs

/-- The keys and values of a text, in order. -/
def read? (text : String) : Option (List (String × Value)) :=
  let cs := text.toList
  let cs := if cs.head? = some '\ufeff' then cs.tail else cs
  entries? (cs.length + 1) [] cs

end Toml

end PocketAlgebra
