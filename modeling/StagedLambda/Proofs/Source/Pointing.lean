import Mathlib.Data.List.Infix
import StagedLambda.Proofs.Source.Acceptance
import StagedLambda.Proofs.Source.Lookahead

/-!
# Where syntax errors point

A syntax error of a source without lexical faults points at one of its tokens or at the end.  The
tokens in front of that place are the beginning of a program, and with the token itself they are
the beginning of none: it is the first one that is wrong.

* `Lexeme.spans_of_scan`: lexemes stand one after the other, so a span belongs to one token.
* `Program.parses_iff`: the token sequences of programs.
* `Program.error_at_first_offence`: the place of an error, and what stands in front of it.
-/

namespace StagedLambda

/-! ### Spans -/

/-- Lexemes are not empty and do not overlap. -/
theorem Lexeme.spans_of_scan (offset : Nat) (cs : List Char) :
    (scanFrom offset cs).Pairwise (fun l l' => l.span.stop ≤ l'.span.start) ∧
      ∀ l ∈ scanFrom offset cs, offset ≤ l.span.start ∧ l.span.start < l.span.stop := by
  fun_induction scanFrom offset cs with
  | case1 => exact ⟨.nil, List.forall_mem_nil _⟩
  | case2 offset c cs hSpace ih =>
    refine ⟨ih.1, fun l hl => ?_⟩
    obtain ⟨hStart, hStop⟩ := ih.2 l hl
    exact ⟨by omega, hStop⟩
  | case3 offset cs hSpace ih =>
    refine ⟨ih.1, fun l hl => ?_⟩
    obtain ⟨hStart, hStop⟩ := ih.2 l hl
    exact ⟨by omega, hStop⟩
  | case4 offset c cs hSpace hHash extra reading hMunch stop ih =>
    have hWidth : offset < stop := by
      have := c.utf8Size_pos
      simp only [stop, byteWidth]
      omega
    constructor
    · exact .cons (fun l hl => (ih.2 l hl).1) ih.1
    · rw [List.forall_mem_cons]
      refine ⟨⟨Nat.le_refl _, hWidth⟩, fun l hl => ?_⟩
      obtain ⟨hStart, hStop⟩ := ih.2 l hl
      exact ⟨by omega, hStop⟩

namespace Program

theorem spans_of_tokens {lexemes : List Lexeme} {marked : List (Token × Span)}
    (h : tokens lexemes = .ok marked) : marked.map (·.2) = lexemes.map (·.span) := by
  induction lexemes generalizing marked with
  | nil =>
    cases h
    rfl
  | cons l lexemes ih =>
    obtain ⟨span, reading⟩ := l
    cases reading with
    | error fault => cases h
    | ok token =>
      rw [tokens] at h
      cases hRest : tokens lexemes with
      | error fault =>
        rw [hRest] at h
        cases h
      | ok rest =>
        rw [hRest] at h
        cases h
        rw [List.map_cons, List.map_cons, ih hRest]

/-- The span is that of the token with this number, or the end of the source if there are only so
many tokens. -/
def PointsAt (source : String) (marked : List (Token × Span)) (span : Span) (i : Nat) : Prop :=
  (marked.map (·.2))[i]? = some span ∨
    i = marked.length ∧ span = ⟨byteWidth source.toList, byteWidth source.toList⟩

/-- **A span points at one place.** -/
theorem PointsAt.unique {source : String} {marked : List (Token × Span)}
    (hTokens : tokens (Lexeme.scan source.toList) = .ok marked) {span : Span} {i j : Nat}
    (hi : PointsAt source marked span i) (hj : PointsAt source marked span j) : i = j := by
  obtain ⟨hOrder, hWidths⟩ := Lexeme.spans_of_scan 0 source.toList
  have hSpans : marked.map (·.2) = (Lexeme.scan source.toList).map (·.span) :=
    spans_of_tokens hTokens
  have hApart : (marked.map (·.2)).Pairwise fun s s' => s.stop ≤ s'.start := by
    rw [hSpans]
    exact List.pairwise_map.mpr hOrder
  have hWide : ∀ s ∈ marked.map (·.2), s.start < s.stop := by
    rw [hSpans, List.forall_mem_map]
    exact fun l hl => (hWidths l hl).2
  -- The span of an earlier token ends where a later one may start, and is not empty.
  have hLess : ∀ {i j : Nat}, i < j → (marked.map (·.2))[i]? = some span →
      (marked.map (·.2))[j]? ≠ some span := by
    intro i j hij hi hj
    obtain ⟨hi', hSpanI⟩ := List.getElem?_eq_some_iff.mp hi
    obtain ⟨hj', hSpanJ⟩ := List.getElem?_eq_some_iff.mp hj
    have hStop := List.pairwise_iff_getElem.mp hApart i j hi' hj' hij
    have hStart := hWide span (List.mem_of_getElem? hi)
    rw [hSpanI, hSpanJ] at hStop
    omega
  rcases hi with hi | ⟨rfl, hEnd⟩
  · rcases hj with hj | ⟨rfl, hEnd⟩
    · rcases Nat.lt_trichotomy i j with hLt | hEq | hGt
      · exact absurd hj (hLess hLt hi)
      · exact hEq
      · exact absurd hi (hLess hGt hj)
    · have hStart := hWide span (List.mem_of_getElem? hi)
      rw [hEnd] at hStart
      exact absurd hStart (Nat.lt_irrefl _)
  · rcases hj with hj | ⟨rfl, -⟩
    · have hStart := hWide span (List.mem_of_getElem? hj)
      rw [hEnd] at hStart
      exact absurd hStart (Nat.lt_irrefl _)
    · rfl

theorem pointsAt_refusalSpan (source : String) (marked : List (Token × Span)) (R : Refusal)
    (h : R.rest.length ≤ marked.length) :
    PointsAt source marked (refusalSpan source.toList marked R)
      (marked.length - R.rest.length) := by
  rw [PointsAt, refusalSpan, List.getElem?_map]
  cases hToken : marked[marked.length - R.rest.length]? with
  | some p => exact .inl rfl
  | none =>
    have hLate := List.getElem?_eq_none_iff.mp hToken
    exact .inr ⟨by omega, rfl⟩

/-! ### The token sequences of programs -/

/-- These are the tokens of a source that is read as a program. -/
def Parses (ts : List Token) : Prop :=
  ∃ source e marked, read source = .ok e ∧
    tokens (Lexeme.scan source.toList) = .ok marked ∧ marked.map (·.1) = ts

theorem exists_spelled {ts : List Token} (h : ∀ k ∈ ts, k.proper = true) :
    ∃ text, Spelled text ts := by
  induction ts with
  | nil => exact ⟨"", fun rest _ offset => ⟨[], rfl, rfl⟩⟩
  | cons k ts ih =>
    rw [List.forall_mem_cons] at h
    obtain ⟨text, hText⟩ := ih h.2
    exact ⟨_, hText.opened k h.1⟩

/-- The tokens of a source can be written. -/
theorem proper_of_tokens {source : String} {marked : List (Token × Span)}
    (hTokens : tokens (Lexeme.scan source.toList) = .ok marked) :
    ∀ k ∈ marked.map (·.1), k.proper = true := by
  intro k hk
  obtain ⟨l, hMem, hReading⟩ := mem_of_tokens hTokens hk
  exact Lexeme.proper_of_scan hMem hReading

/-- **Programs have the token sequences that can be written and are read as a term.** -/
theorem parses_iff {ts : List Token} :
    Parses ts ↔ (∀ k ∈ ts, k.proper = true) ∧ ∃ e, Grammar.program ts = .ok e := by
  constructor
  · rintro ⟨source, e, marked, hRead, hTokens, rfl⟩
    exact ⟨proper_of_tokens hTokens, e, (read_eq_ok_iff hTokens).mp hRead⟩
  · rintro ⟨hProper, e, hProgram⟩
    obtain ⟨text, hText⟩ := exists_spelled hProper
    obtain ⟨marked, hTokens, hMarked⟩ := tokens_of_spelled hText
    exact ⟨text, e, marked, read_of_spelled hText hProgram, hTokens, hMarked⟩

/-! ### Errors -/

/-- An error of a source without lexical faults is a refusal of its tokens. -/
theorem exists_refusal {source : String} {marked : List (Token × Span)} {E : SyntaxError}
    (hTokens : tokens (Lexeme.scan source.toList) = .ok marked) (hRead : read source = .error E) :
    ∃ R, Grammar.program (marked.map (·.1)) = .error R ∧
      E.span = refusalSpan source.toList marked R := by
  rw [read, readChars, hTokens] at hRead
  dsimp only at hRead
  cases hProgram : Grammar.program (marked.map (·.1)) with
  | ok e =>
    rw [hProgram] at hRead
    cases hRead
  | error R =>
    rw [hProgram] at hRead
    cases hRead
    exact ⟨R, rfl, rfl⟩

/-- **Syntax errors point at the first offending token.**  The span of an error points at one token
of a source without lexical faults, or at its end.  The tokens in front of this place are the
beginning of a program.  If it is a token, they are not together with this token; if it is the end,
the program goes on. -/
theorem error_at_first_offence {source : String} {marked : List (Token × Span)} {E : SyntaxError}
    (hTokens : tokens (Lexeme.scan source.toList) = .ok marked) (hRead : read source = .error E) :
    (∃! i, PointsAt source marked E.span i) ∧
    ∀ i, PointsAt source marked E.span i →
      (∃ more, Parses ((marked.map (·.1)).take i ++ more)) ∧
      (i < marked.length → ∀ more, ¬Parses ((marked.map (·.1)).take (i + 1) ++ more)) ∧
      (i = marked.length → ∃ more ≠ [], Parses (marked.map (·.1) ++ more)) := by
  obtain ⟨R, hRefused, hSpan⟩ := exists_refusal hTokens hRead
  obtain ⟨ts, hSplit, more, e, w, hMore, hDerives⟩ := Grammar.viable_of_refused hRefused
  have hLength : marked.length = ts.length + R.rest.length := by
    rw [← List.length_append, ← hSplit, List.length_map]
  have hPoints : PointsAt source marked E.span ts.length := by
    have hRest := pointsAt_refusalSpan source marked R (by omega)
    rwa [← hSpan, hLength, Nat.add_sub_cancel] at hRest
  have hProper : ∀ k ∈ ts, k.proper = true := by
    intro k hk
    refine proper_of_tokens hTokens k ?_
    rw [hSplit]
    exact List.mem_append_left _ hk
  have hParses : Parses (ts ++ more) := parses_iff.mpr
    ⟨List.forall_mem_append.mpr ⟨hProper, hMore⟩, e, Grammar.program_eq_ok_iff.mpr ⟨w, hDerives⟩⟩
  refine ⟨⟨ts.length, hPoints, fun j hj => PointsAt.unique hTokens hj hPoints⟩, fun i hi => ?_⟩
  obtain rfl : i = ts.length := PointsAt.unique hTokens hi hPoints
  refine ⟨⟨more, ?_⟩, fun hToken more' hParses' => ?_, fun hEnd => ⟨more, ?_, ?_⟩⟩
  · rwa [hSplit, List.take_left]
  · obtain ⟨x, u, hRest⟩ : ∃ x u, R.rest = x :: u := by
      cases hRest : R.rest with
      | nil =>
        rw [hRest, List.length_nil] at hLength
        omega
      | cons x u => exact ⟨x, u, rfl⟩
    rw [hSplit, hRest] at hRefused
    obtain ⟨R', hRefused'⟩ := Grammar.refused_of_refused hRefused hRest more'
    obtain ⟨-, e', hProgram⟩ := parses_iff.mp hParses'
    rw [hSplit, hRest, List.take_append, List.take_of_length_le (Nat.le_succ _),
      Nat.add_sub_cancel_left, List.take_succ_cons, List.take_zero, List.append_assoc,
      List.singleton_append, hRefused'] at hProgram
    cases hProgram
  · rintro rfl
    have hNone : R.rest = [] := List.eq_nil_of_length_eq_zero (by omega)
    rw [hSplit, hNone] at hRefused
    obtain ⟨-, e', hProgram⟩ := parses_iff.mp hParses
    rw [hRefused] at hProgram
    cases hProgram
  · have hNone : R.rest = [] := List.eq_nil_of_length_eq_zero (by omega)
    rwa [hSplit, hNone, List.append_nil]

/-- In `if a < b < c` a comparison would go on, and no program does this; in `fn x ->` nothing is
wrong, but the body is missing. -/
theorem error_at_first_offence_comparison :
    let source := "if a < b < c"
    let E := SyntaxError.locate source.toList ⟨9, 10⟩
      (Refusal.message ⟨.token .thenWord, [.less, .identifier "c"]⟩)
    let source' := "fn x ->"
    let E' := SyntaxError.locate source'.toList ⟨7, 7⟩ (Refusal.message ⟨.expression, []⟩)
    read source = .error E ∧ read source' = .error E' ∧
      (∃ more, Parses ([.ifWord, .identifier "a", .less, .identifier "b"] ++ more)) ∧
      (∀ more, ¬Parses ([.ifWord, .identifier "a", .less, .identifier "b", .less] ++ more)) ∧
      ∃ more ≠ [], Parses ([.fnWord, .identifier "x", .arrow] ++ more) := by
  intro source E source' E'
  have hRead : read source = .error E := by decide +kernel
  have hRead' : read source' = .error E' := by decide +kernel
  have hTokens : tokens (Lexeme.scan source.toList) = .ok
      [(.ifWord, ⟨0, 2⟩), (.identifier "a", ⟨3, 4⟩), (.less, ⟨5, 6⟩), (.identifier "b", ⟨7, 8⟩),
        (.less, ⟨9, 10⟩), (.identifier "c", ⟨11, 12⟩)] := by decide +kernel
  have hTokens' : tokens (Lexeme.scan source'.toList) = .ok
      [(.fnWord, ⟨0, 2⟩), (.identifier "x", ⟨3, 4⟩), (.arrow, ⟨5, 7⟩)] := by decide +kernel
  obtain ⟨hBefore, hToken, -⟩ := (error_at_first_offence hTokens hRead).2 4 (.inl rfl)
  obtain ⟨-, -, hEnd⟩ := (error_at_first_offence hTokens' hRead').2 3 (.inr ⟨rfl, by decide⟩)
  exact ⟨hRead, hRead', hBefore, hToken (by decide), hEnd rfl⟩

end Program

end StagedLambda
