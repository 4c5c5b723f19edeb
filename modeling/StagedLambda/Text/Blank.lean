/-!
# White space

The characters with the Unicode property `White_Space`, and trimming by that class. The scanner
of programs has a narrower notion of its own; this one is for lines typed at the prompt.
-/

namespace StagedLambda.Blank

/-- The ranges of code points that have the property, in increasing order. -/
def ranges : List (Nat × Nat) :=
  [(0x9, 0xD), (0x20, 0x20), (0x85, 0x85), (0xA0, 0xA0), (0x1680, 0x1680), (0x2000, 0x200A),
    (0x2028, 0x2029), (0x202F, 0x202F), (0x205F, 0x205F), (0x3000, 0x3000)]

def isBlank (c : Char) : Bool :=
  ranges.any fun r => r.1 ≤ c.toNat && c.toNat ≤ r.2

/-- Drops the blanks at both ends and keeps those inside. -/
def trim (cs : List Char) : List Char :=
  ((cs.dropWhile isBlank).reverse.dropWhile isBlank).reverse

end StagedLambda.Blank
