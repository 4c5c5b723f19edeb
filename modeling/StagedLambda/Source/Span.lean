/-!
# Places in a source text

A span is a half-open range of UTF-8 byte offsets; a position is the row and the column of an
offset. Columns count characters, so a position is found by walking over the characters that
end at or before the offset.
-/

namespace StagedLambda

structure Span where
  start : Nat
  stop : Nat
deriving DecidableEq

def Span.isEmpty (s : Span) : Bool := s.stop ≤ s.start

/-- The number of bytes that characters take. -/
def byteWidth : List Char → Nat
  | [] => 0
  | c :: cs => c.utf8Size + byteWidth cs

theorem byteWidth_append (cs ds : List Char) :
    byteWidth (cs ++ ds) = byteWidth cs + byteWidth ds := by
  induction cs with
  | nil => simp [byteWidth]
  | cons c cs ih => simp [byteWidth, ih, Nat.add_assoc]

theorem byteWidth_ofList (cs : List Char) : (String.ofList cs).utf8ByteSize = byteWidth cs := by
  induction cs with
  | nil => rfl
  | cons c cs ih =>
    rw [← List.singleton_append, String.ofList_append, String.utf8ByteSize_append, byteWidth_append,
      ih, ← String.singleton_eq_ofList, String.utf8ByteSize_singleton]
    rfl

theorem byteWidth_toList (s : String) : byteWidth s.toList = s.utf8ByteSize := by
  rw [← byteWidth_ofList, String.ofList_toList]

/-- The characters that end at or before a byte offset. -/
def charsBefore : List Char → Nat → List Char
  | [], _ => []
  | c :: cs, offset =>
    if c.utf8Size ≤ offset then c :: charsBefore cs (offset - c.utf8Size) else []

/-- A row and a column, both counted from zero. -/
structure Position where
  row : Nat := 0
  column : Nat := 0
deriving DecidableEq

namespace Position

/-- The position after one more character. -/
def next (p : Position) (c : Char) : Position :=
  if c = '\n' then ⟨p.row + 1, 0⟩ else ⟨p.row, p.column + 1⟩

/-- Where a byte offset of a source stands. -/
def ofOffset (source : List Char) (offset : Nat) : Position :=
  (charsBefore source offset).foldl next {}

end Position

end StagedLambda
