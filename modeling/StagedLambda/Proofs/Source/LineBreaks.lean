import StagedLambda.Source.Lexeme

/-!
# Line breaks divide the scan

No lexeme and no comment reaches over a line feed: a word and a numeral stop in front of it, no mark
has one as its second character, and a comment ends there.  So a source can be scanned line by line.

* `Lexeme.scanFrom_add`: a scan that starts later gives the same lexemes further on.
* `Lexeme.scanFrom_lineFeed`: behind a line feed the scan starts anew.
* `Lexeme.scan_lines`: the lexemes of two texts with a line feed between them.
-/

namespace StagedLambda

/-- The same stretch `d` bytes further on. -/
def Span.shift (d : Nat) (s : Span) : Span := ⟨s.start + d, s.stop + d⟩

namespace Lexeme

/-- The same lexeme `d` bytes further on. -/
def shift (d : Nat) (l : Lexeme) : Lexeme := { l with span := l.span.shift d }

/-! ### In front of a line feed -/

section

variable {f : Char → Bool} (h : f '\n' = false) (cs rest : List Char)

include h

theorem takeWhile_lineFeed : (cs ++ '\n' :: rest).takeWhile f = cs.takeWhile f := by
  induction cs with
  | nil => simp [h]
  | cons c cs ih => simp only [List.cons_append, List.takeWhile_cons, ih]

theorem dropWhile_lineFeed :
    (cs ++ '\n' :: rest).dropWhile f = cs.dropWhile f ++ '\n' :: rest := by
  induction cs with
  | nil => simp [h]
  | cons c cs ih =>
    rw [List.cons_append, List.dropWhile_cons, List.dropWhile_cons, ih]
    split <;> rfl

end

theorem pair?_lineFeed (c : Char) : pair? c '\n' = none := by
  unfold pair?
  split <;> first | rfl | contradiction

/-- **What is munched in front of a line feed** is what is munched at the end of the source. -/
theorem munch_lineFeed (c : Char) (cs rest : List Char) :
    munch c (cs ++ '\n' :: rest) = munch c cs := by
  have hPair : (cs ++ '\n' :: rest).head?.bind (pair? c) = cs.head?.bind (pair? c) := by
    cases cs with
    | nil => exact pair?_lineFeed c
    | cons d cs => rfl
  rw [munch, takeWhile_lineFeed (by decide), takeWhile_lineFeed (by decide), hPair, munch]

theorem munch_le_length (c : Char) (cs : List Char) : (munch c cs).1 ≤ cs.length := by
  rw [munch]
  split
  · exact (List.takeWhile_sublist _).length_le
  · split
    · exact (List.takeWhile_sublist _).length_le
    · cases cs with
      | nil =>
        dsimp only [List.head?_nil, Option.bind_none]
        split <;> exact Nat.le_refl _
      | cons d cs =>
        split
        · exact Nat.succ_le_succ (Nat.zero_le _)
        · split <;> exact Nat.zero_le _

/-! ### Scans -/

/-- **A scan that starts later gives the same lexemes further on.** -/
theorem scanFrom_add (d offset : Nat) (cs : List Char) :
    scanFrom (offset + d) cs = (scanFrom offset cs).map (shift d) := by
  fun_induction scanFrom offset cs with
  | case1 offset => rw [scanFrom_nil, List.map_nil]
  | case2 offset c cs hSpace ih => rw [scanFrom_space hSpace, ← ih, Nat.add_right_comm]
  | case3 offset cs hSpace ih => rw [scanFrom_comment, ← ih, Nat.add_right_comm]
  | case4 offset c cs hSpace hHash extra reading hMunch stop ih =>
    have hStop : offset + d + byteWidth (c :: cs.take extra) = stop + d := Nat.add_right_comm _ _ _
    rw [scanFrom_lexeme (by simpa using hSpace) hHash, hMunch, List.map_cons, ← ih]
    simp only [hStop]
    rfl

/-- **Behind a line feed the scan starts anew.** -/
theorem scanFrom_lineFeed (offset : Nat) (cs rest : List Char) :
    scanFrom offset (cs ++ '\n' :: rest) =
      scanFrom offset cs ++ scanFrom (offset + byteWidth cs + 1) rest := by
  fun_induction scanFrom offset cs with
  | case1 offset =>
    rw [List.nil_append, scanFrom_space (by decide)]
    rfl
  | case2 offset c cs hSpace ih =>
    rw [List.cons_append, scanFrom_space hSpace, ih, byteWidth, Nat.add_assoc offset]
  | case3 offset cs hSpace ih =>
    have hLine : decide ('\n' ≠ '\n') = false := by decide
    have hWidth : byteWidth ('#' :: cs) =
        byteWidth ('#' :: cs.takeWhile (· ≠ '\n')) + byteWidth (cs.dropWhile (· ≠ '\n')) := by
      rw [← byteWidth_append, List.cons_append, List.takeWhile_append_dropWhile]
    rw [List.cons_append, scanFrom_comment, takeWhile_lineFeed hLine, dropWhile_lineFeed hLine, ih,
      hWidth, Nat.add_assoc offset]
  | case4 offset c cs hSpace hHash extra reading hMunch stop ih =>
    have hExtra : extra ≤ cs.length := by
      have := munch_le_length c cs
      rwa [hMunch] at this
    have hWidth : offset + byteWidth (c :: cs) = stop + byteWidth (cs.drop extra) := by
      rw [Nat.add_assoc, ← byteWidth_append, List.cons_append, List.take_append_drop]
    rw [List.cons_append, scanFrom_lexeme (by simpa using hSpace) hHash, munch_lineFeed, hMunch,
      hWidth]
    simp only [List.take_append_of_le_length hExtra, List.drop_append_of_le_length hExtra]
    rw [ih]
    rfl

/-- **Scanning is compositional at line breaks.**  The lexemes of two texts with a line feed between
them, faults included, are those of the first text followed by those of the second, further on by
the bytes of the first text and of the line feed. -/
theorem scan_lines (s₁ s₂ : String) :
    scan (s₁ ++ "\n" ++ s₂).toList =
      scan s₁.toList ++ (scan s₂.toList).map (shift (s₁.utf8ByteSize + 1)) := by
  have hText : (s₁ ++ "\n" ++ s₂).toList = s₁.toList ++ '\n' :: s₂.toList := by
    simp only [String.toList_append, List.append_assoc]
    rfl
  rw [hText, scan, scanFrom_lineFeed, byteWidth_toList, Nat.add_assoc, scanFrom_add, scan, scan]

/-- A comment, a numeral that is too big, and a mark that is cut short, each at the end of a line. -/
example : scan "f #<\n9999999999999999999\n&\n&".toList =
    scan "f #<".toList ++ (scan "9999999999999999999".toList).map (shift 5) ++
      (scan "&\n&".toList).map (shift 25) := by cbv

end Lexeme

end StagedLambda
