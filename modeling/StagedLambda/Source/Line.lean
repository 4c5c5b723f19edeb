import StagedLambda.Source.Span

/-!
# Lines

A source is split into lines at its line feeds, and every byte offset belongs to one of them.
-/

namespace StagedLambda

/-- A line of a source: its number, the offset where it starts, and its characters. -/
structure Line where
  number : Nat
  start : Nat
  chars : List Char
deriving DecidableEq

namespace Line

/-- Whether an offset belongs to a line; the offset of a line feed belongs to the line it ends. -/
def holds (l : Line) (offset : Nat) : Bool :=
  l.start ≤ offset && offset ≤ l.start + byteWidth l.chars

/-- The lines of the characters from `start` on; a final line feed is followed by an empty one. -/
def listFrom (number start : Nat) : List Char → List Line
  | [] => [⟨number, start, []⟩]
  | c :: cs =>
    if c = '\n' then ⟨number, start, []⟩ :: listFrom (number + 1) (start + 1) cs
    else
      match listFrom number (start + c.utf8Size) cs with
      | [] => []
      | l :: ls => ⟨number, start, c :: l.chars⟩ :: ls

/-- The lines of a source, numbered from one. -/
def list (source : List Char) : List Line := listFrom 1 0 source

/-- The first line that an offset belongs to. -/
def ofOffset? (source : List Char) (offset : Nat) : Option Line :=
  (list source).find? (·.holds offset)

end Line

end StagedLambda
