/-!
# Documents that fit a width

A document is text in which lines can be broken at certain places. A group is written on one line
if it fits there together with what follows up to the next place for a break; otherwise lines are
broken at all places that are in the group but not in a smaller one.
-/

namespace PocketAlgebra

/-!
## Styles of text

How the parts of an expression are set off from each other on a terminal, and how many columns a
text takes there.
-/

/-- What a piece of text is part of. -/
inductive Style where
  | punctuation
  /-- A parenthesis, with the number of parentheses around it. -/
  | parenthesis (depth : Nat)
  | number
  | operator
  | symbol
  | function
  /-- An expression without a value. -/
  | poison
  deriving DecidableEq, Repr

/-- The colors of text. -/
inductive Color where
  | red
  | green
  | yellow
  | blue
  | magenta
  | cyan
  deriving DecidableEq, Repr

/-- How text of some style looks. -/
structure Appearance where
  color : Option Color := none
  bold : Bool := false
  dimmed : Bool := false
  deriving DecidableEq, Repr

namespace Style

/-- The color of parentheses, which tells apart those that are nested directly. -/
def parenthesisColor (depth : Nat) : Color :=
  match depth % 4 with
  | 0 => .blue
  | 1 => .green
  | 2 => .yellow
  | _ => .magenta

/-- The look of a style. -/
def appearance : Style → Appearance
  | punctuation => { dimmed := true }
  | parenthesis depth => { color := some (parenthesisColor depth), dimmed := true }
  | number => { color := some .cyan }
  | operator => { color := some .yellow, bold := true }
  | symbol => { color := some .green, bold := true }
  | function => { color := some .magenta }
  | poison => { color := some .red, bold := true }

end Style

/-! ## Terminals -/

namespace Terminal

/-- The number that selects a color. -/
def colorCode : Color → Nat
  | .red => 31
  | .green => 32
  | .yellow => 33
  | .blue => 34
  | .magenta => 35
  | .cyan => 36

/-- The control sequence with a number. -/
def control (code : Nat) : String :=
  "\x1b[" ++ Nat.repr code ++ "m"

/-- The control sequence after which text looks plain. -/
def reset : String :=
  control 0

/-- The control sequences that select a look. -/
def select (look : Appearance) : String :=
  reset ++ (if look.bold then control 1 else "") ++ (if look.dimmed then control 2 else "") ++
    (match look.color with
    | some color => control (colorCode color)
    | none => "")

/-- Ranges of characters that take no column, as they are drawn onto the one before. -/
def zeroWidth : List (Nat × Nat) :=
  [(0x300, 0x36f), (0x483, 0x489), (0x591, 0x5bd), (0x610, 0x61a), (0x64b, 0x65f), (0x93a, 0x93a),
   (0x93c, 0x93c), (0x941, 0x948), (0x94d, 0x94d), (0xe31, 0xe31), (0xe34, 0xe3a), (0xe47, 0xe4e),
   (0x1ab0, 0x1aff), (0x1dc0, 0x1dff), (0x200b, 0x200f), (0x2028, 0x202e), (0x2060, 0x206f),
   (0x20d0, 0x20f0), (0xfe00, 0xfe0f), (0xfe20, 0xfe2f), (0xfeff, 0xfeff), (0xe0100, 0xe01ef)]

/-- Ranges of characters that take two columns. -/
def doubleWidth : List (Nat × Nat) :=
  [(0x1100, 0x115f), (0x231a, 0x231b), (0x2e80, 0x303e), (0x3041, 0x33ff), (0x3400, 0x4dbf),
   (0x4e00, 0xa4cf), (0xa960, 0xa97f), (0xac00, 0xd7a3), (0xf900, 0xfaff), (0xfe30, 0xfe6f),
   (0xff01, 0xff60), (0xffe0, 0xffe6), (0x1f300, 0x1f64f), (0x1f680, 0x1f6ff),
   (0x1f900, 0x1f9ff), (0x20000, 0x3fffd)]

/-- Whether a character is in one of some ranges. -/
def inRanges (ranges : List (Nat × Nat)) (c : Char) : Bool :=
  ranges.any fun (first, last) => first ≤ c.toNat && c.toNat ≤ last

/-- The columns that a character takes. -/
def columns (c : Char) : Nat :=
  if c.toNat < 0x300 then 1
  else if inRanges zeroWidth c then 0
  else if inRanges doubleWidth c then 2
  else 1

/-- The columns that a text takes. -/
def width (text : List Char) : Nat :=
  text.foldr (fun c total => columns c + total) 0

end Terminal

/-! ## Documents and pieces -/

/-- A text with places where its lines can be broken. -/
inductive Document where
  | empty
  | text (style : Style) (content : List Char)
  /-- A place for a line break. -/
  | softBreak
  | append (first second : Document)
  /-- A document whose lines are indented further. -/
  | nest (offset : Nat) (body : Document)
  /-- A document that is kept on one line if it fits. -/
  | group (body : Document)

/-- A piece of a document that has been laid out. -/
inductive Piece where
  | text (style : Style) (content : List Char)
  | newline (indentation : Nat)

namespace Document

instance : Append Document :=
  ⟨append⟩

/-- Documents one after the other. -/
def concat (documents : List Document) : Document :=
  documents.foldl append empty

/-- Documents with a separator between them. -/
def separate (separator : Document) (documents : List Document) : Document :=
  concat (documents.intersperse separator)

/-! ## Fitting -/

/-- The column at which a document ends that begins at the given one and is written on one line,
if all of its text stays within the width. -/
def end? (width : Nat) : Document → Nat → Option Nat
  | empty, column => some column
  | text _ content, column =>
    let column := column + Terminal.width content
    if width < column then none else some column
  | softBreak, column => some column
  | append first second, column => (first.end? width column).bind (second.end? width)
  | nest _ body, column => body.end? width column
  | group body, column => body.end? width column

/-- Whether a document that begins at the given column stays within the width up to its first
place for a break; if it has none, the column at which it ends. -/
def untilBreak (width : Nat) : Document → Nat → Except Bool Nat
  | empty, column => .ok column
  | text _ content, column =>
    let column := column + Terminal.width content
    if width < column then .error false else .ok column
  | softBreak, _ => .error true
  | append first second, column => (first.untilBreak width column).bind (second.untilBreak width)
  | nest _ body, column => body.untilBreak width column
  | group body, column => body.untilBreak width column

/-- Whether documents stay within the width up to their first place for a break. -/
def restFits (width : Nat) : List Document → Nat → Bool
  | [], _ => true
  | document :: documents, column =>
    match document.untilBreak width column with
    | .ok column => restFits width documents column
    | .error fits => fits

/-- Whether a document fits on the rest of a line, in front of other documents. -/
def fits (width : Nat) (document : Document) (rest : List Document) (column : Nat) : Bool :=
  match document.end? width column with
  | some column => restFits width rest column
  | none => false

/-! ## Laying out -/

/-- The pieces of a document, and the column at which it ends. The documents that follow it decide
with it which groups fit; a document that is flat is part of a group that fits. -/
def layOut (width : Nat) : Document → List Document → Nat → Bool → Nat → List Piece × Nat
  | empty, _, _, _, column => ([], column)
  | text style content, _, _, _, column =>
    ([.text style content], column + Terminal.width content)
  | softBreak, _, indentation, flat, column =>
    if flat then ([], column) else ([.newline indentation], indentation)
  | append first second, rest, indentation, flat, column =>
    let (pieces, column) := first.layOut width (second :: rest) indentation flat column
    let (others, column) := second.layOut width rest indentation flat column
    (pieces ++ others, column)
  | nest offset body, rest, indentation, flat, column =>
    body.layOut width rest (indentation + offset) flat column
  | group body, rest, indentation, flat, column =>
    body.layOut width rest indentation (flat || fits width body rest column) column

/-- The pieces of a document for a given width. -/
def pieces (document : Document) (width : Nat) : List Piece :=
  (document.layOut width [] 0 false 0).1

end Document

/-! ## Writing -/

namespace Piece

/-- A line break with indentation. -/
def writeNewline (indentation : Nat) : List Char :=
  '\n' :: List.replicate indentation ' '

/-- A piece as plain text. -/
def write : Piece → List Char
  | text _ content => content
  | newline indentation => writeNewline indentation

/-- A piece as text between the control sequences of its style. -/
def writeColored : Piece → List Char
  | text style content =>
    (Terminal.select style.appearance).toList ++ content ++ Terminal.reset.toList
  | newline indentation => writeNewline indentation

end Piece

/-- A document as plain text, for a given width. -/
def Document.render (document : Document) (width : Nat) : String :=
  String.ofList ((document.pieces width).flatMap Piece.write)

/-- A document as colored text, for a given width. -/
def Document.renderColored (document : Document) (width : Nat) : String :=
  String.ofList ((document.pieces width).flatMap Piece.writeColored)

end PocketAlgebra
