import StagedLambda.Shell.Paint
import StagedLambda.Source.Line
import StagedLambda.Text.Decimal

/-!
# Labelled source blocks

A block shows the line of a source that its labels point into, with a number in front, marks
under the labelled pieces, and the labels' texts below, each at the end of a thread from its
piece. All widths are counted in bytes.

There is one label that reaches over the end of a line: the one put on a final line feed when the
end of the source is to be pointed at. Its block shows that line and the empty one after it.
-/

namespace StagedLambda

structure Label where
  span : Span
  text : String
  style : Style

namespace SourceBlock

/-- A stretch of a line, with its label if it has one. -/
structure Piece where
  chars : List Char
  label? : Option Label

namespace Piece

def width (p : Piece) : Nat := byteWidth p.chars

/-- The columns to the left of the piece's thread. -/
def left (p : Piece) : Nat := p.width / 2

/-- The columns to the right of it. -/
def right (p : Piece) : Nat := p.width - p.left - 1

end Piece

def spaces (n : Nat) : String := String.ofList (List.replicate n ' ')

def dashes (n : Nat) : String := String.ofList (List.replicate n '─')

/-! ### A line with its labels -/

/-- An unlabelled piece, left out if it is empty. -/
def gap (chars : List Char) : List Piece := if chars = [] then [] else [⟨chars, none⟩]

/-- Cuts a line at its labels, which are in order and do not overlap. `start` is the offset of the
first character. -/
def pieces (start : Nat) (chars : List Char) : List Label → List Piece
  | [] => gap chars
  | label :: labels =>
    let before := charsBefore chars (label.span.start - start)
    let upTo := charsBefore chars (label.span.stop - start)
    gap before ++ ⟨upTo.drop before.length, some label⟩ ::
      pieces label.span.stop (chars.drop upTo.length) labels

def widths : List Piece → Nat
  | [] => 0
  | p :: ps => p.width + widths ps

/-- What a row shows for a piece: something styled if it is labelled, else blanks. -/
def cell (mark : Piece → String) (p : Piece) : String :=
  match p.label? with
  | some label => label.style.paint (mark p)
  | none => spaces p.width

def row (mark : Piece → String) (ps : List Piece) : String := String.join (ps.map (cell mark))

def content (p : Piece) : String :=
  match p.label? with
  | some label => label.style.paint (String.ofList p.chars)
  | none => String.ofList p.chars

def branch (p : Piece) : String := dashes p.left ++ "┬" ++ dashes p.right

def thread (p : Piece) : String := spaces p.left ++ "│" ++ spaces p.right

/-- The rows with the labels' texts. `before` is the width of the pieces to the left. -/
def texts (dots : String) (before : Nat) : List Piece → String
  | [] => ""
  | p :: ps =>
    (match p.label? with
      | some label =>
        dots ++ " " ++ spaces before ++ row thread (p :: ps) ++ "\n" ++
        dots ++ " " ++ spaces (before + p.left)
          ++ label.style.paint ("╰" ++ dashes (p.right + widths ps + 1)) ++ " " ++ label.text
          ++ "\n"
      | none => "") ++ texts dots (before + p.width) ps

/-- The rows of one labelled line. -/
def labelledLine (dots number : String) (ps : List Piece) : String :=
  number ++ " │ " ++ String.join (ps.map content) ++ "\n" ++
  dots ++ " " ++ row branch ps ++ "\n" ++
  texts dots 0 ps

/-! ### A label over a line feed -/

/-- The rows of a label that reaches from the end of a line to the start of the next. -/
def acrossLines (dots first second : String) (before : List Char) (label : Label) : String :=
  let paint := label.style.paint
  let width := byteWidth before
  first ++ " │   " ++ String.ofList before ++ paint "" ++ "\n" ++
  dots ++ "   " ++ spaces width ++ paint "▲" ++ "\n" ++
  dots ++ " " ++ paint ("╭" ++ dashes (width + 1) ++ "╯") ++ "\n" ++
  second ++ " │ " ++ paint "│" ++ " " ++ paint "" ++ "\n" ++
  dots ++ " " ++ paint "│" ++ paint "▲" ++ "\n" ++
  dots ++ " " ++ paint "│" ++ paint "│" ++ "\n" ++
  dots ++ " " ++ paint "╰┴─" ++ " " ++ label.text ++ "\n"

/-! ### Blocks -/

/-- A line number, right-aligned. -/
def numberText (columns number : Nat) : String :=
  let digits := Decimal.digits number
  spaces (columns - digits.length) ++ String.ofList digits

/-- The frame around the rows of a block whose largest line number has `columns` digits. -/
def framed (name : String) (columns : Nat) (rows : String) : String :=
  spaces columns ++ " ╭─[" ++ name ++ "]\n" ++ spaces columns ++ " │\n" ++ rows ++
    dashes (columns + 1) ++ "╯\n"

/-- The block for labels of one line, or for one label over a final line feed. Without labels there
is nothing to show. -/
def render (name : String) (source : List Char) (labels : List Label) : String :=
  match labels.head?, labels.getLast? with
  | some first, some last =>
    match Line.ofOffset? source first.span.start, Line.ofOffset? source last.span.stop with
    | some top, some bottom =>
      let columns := (Decimal.digits bottom.number).length
      let dots := spaces columns ++ " ┆"
      framed name columns <|
        if top.number = bottom.number then
          labelledLine dots (numberText columns top.number) (pieces top.start top.chars labels)
        else
          acrossLines dots (numberText columns top.number) (numberText columns bottom.number)
            (charsBefore top.chars (first.span.start - top.start)) first
    | _, _ => ""
  | _, _ => ""

end SourceBlock

end StagedLambda
