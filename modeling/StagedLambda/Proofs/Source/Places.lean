import Mathlib
import StagedLambda.Proofs.Source.Tiling
import StagedLambda.Shell.Report

/-!
# The places of syntax errors

An error holds a span of bytes and the positions of its two ends.  A span that comes out of the scan
begins and ends between characters; so does the empty one at the end of the source.  A position is
found by walking over the characters in front of it, and what it says can be counted in them.

* `Position.ofOffset_eq`: the row and the column, counted in the text in front of the offset.
* `Position.ofOffset_lt`: positions increase along a text.
* `SyntaxError.WellPlaced`: what holds of the places in an error.
* `Program.errors_well_placed`: all errors are well placed, and there is something to be shown at
  the place of each of them unless the source is empty.
-/

namespace StagedLambda

/-! ### Boundaries of characters -/

/-- The offset is that of a character of the text, or that of its end. -/
def IsBoundary (text : String) (offset : Nat) : Prop := String.Pos.Raw.IsValid text ⟨offset⟩

theorem isBoundary_iff {text : String} {offset : Nat} :
    IsBoundary text offset ↔
      ∃ before rest, text.toList = before ++ rest ∧ offset = byteWidth before := by
  rw [IsBoundary, String.Pos.Raw.isValid_iff_exists_append]
  constructor
  · rintro ⟨before, rest, rfl, hOffset⟩
    refine ⟨before.toList, rest.toList, String.toList_append, ?_⟩
    rw [byteWidth_toList]
    exact congrArg String.Pos.Raw.byteIdx hOffset
  · rintro ⟨before, rest, hText, rfl⟩
    refine ⟨.ofList before, .ofList rest, ?_, ?_⟩
    · rw [← String.ofList_append, ← hText, String.ofList_toList]
    · rw [← byteWidth_ofList]
      rfl

theorem charsBefore_append (before rest : List Char) :
    charsBefore (before ++ rest) (byteWidth before) = before := by
  induction before with
  | nil =>
    cases rest with
    | nil => rfl
    | cons c rest =>
      have := c.utf8Size_pos
      rw [List.nil_append, byteWidth, charsBefore, if_neg (by omega)]
  | cons c before ih =>
    rw [List.cons_append, charsBefore, byteWidth, if_pos (Nat.le_add_right _ _),
      Nat.add_sub_cancel_left, ih]

/-- Of two ends of beginnings of a text, the later one has more characters in front of it. -/
theorem exists_between {text before before' rest rest' : List Char} (h : text = before ++ rest)
    (h' : text = before' ++ rest') (hLess : byteWidth before < byteWidth before') :
    ∃ c cs, before' = before ++ c :: cs := by
  have hPrefix : before <+: text := ⟨rest, h.symm⟩
  have hPrefix' : before' <+: text := ⟨rest', h'.symm⟩
  rcases List.prefix_or_prefix_of_prefix hPrefix hPrefix' with ⟨between, rfl⟩ | ⟨between, rfl⟩
  · cases between with
    | nil => simp at hLess
    | cons c cs => exact ⟨c, cs, rfl⟩
  · rw [byteWidth_append] at hLess
    omega

/-! ### Positions -/

namespace Position

/-- Rows come first. -/
instance : LT Position := ⟨fun p q => p.row < q.row ∨ p.row = q.row ∧ p.column < q.column⟩

instance : LE Position := ⟨fun p q => p < q ∨ p = q⟩

theorem lt_iff {p q : Position} :
    p < q ↔ p.row < q.row ∨ p.row = q.row ∧ p.column < q.column := Iff.rfl

theorem lt_irrefl (p : Position) : ¬p < p := by
  rw [lt_iff]
  omega

theorem lt_trans {p q r : Position} (h : p < q) (h' : q < r) : p < r := by
  rw [lt_iff] at *
  omega

theorem lt_next (p : Position) (c : Char) : p < p.next c := by
  rw [lt_iff, next]
  by_cases hFeed : c = '\n'
  · rw [if_pos hFeed]
    exact .inl (Nat.lt_succ_self _)
  · rw [if_neg hFeed]
    exact .inr ⟨rfl, Nat.lt_succ_self _⟩

theorem lt_foldl_next (p : Position) (c : Char) (cs : List Char) : p < (c :: cs).foldl next p := by
  induction cs generalizing p c with
  | nil => exact lt_next p c
  | cons d cs ih => exact lt_trans (lt_next p c) (ih (p.next c) d)

/-- The position behind a text, counted in it: the row is the number of line feeds, and the column
the number of characters behind the last of them. -/
theorem foldl_next_eq (cs : List Char) :
    cs.foldl next {} = ⟨cs.count '\n', (cs.rtakeWhile (· ≠ '\n')).length⟩ := by
  induction cs using List.reverseRecOn with
  | nil => rfl
  | append_singleton cs c ih =>
    rw [List.foldl_concat, ih, next, List.count_append, List.rtakeWhile_concat]
    by_cases hFeed : c = '\n'
    · simp [hFeed]
    · simp [hFeed]

/-- The row of `p` is the number of line feeds in front of the offset, and its column the number of
characters behind the last of them. -/
def Counts (text : String) (offset : Nat) (p : Position) : Prop :=
  ∃ before rest, text = before ++ rest ∧ offset = before.utf8ByteSize ∧
    p.row = before.toList.count '\n' ∧ p.column = (before.toList.rtakeWhile (· ≠ '\n')).length

variable {text : String} {offset offset' : Nat}

theorem ofOffset_eq {before rest : List Char} (h : text.toList = before ++ rest) :
    ofOffset text.toList (byteWidth before) = before.foldl next {} := by
  rw [ofOffset, h, charsBefore_append]

theorem counts_ofOffset (h : IsBoundary text offset) :
    Counts text offset (ofOffset text.toList offset) := by
  obtain ⟨before, rest, hText, rfl⟩ := isBoundary_iff.mp h
  refine ⟨.ofList before, .ofList rest, ?_, (byteWidth_ofList before).symm, ?_⟩
  · rw [← String.ofList_append, ← hText, String.ofList_toList]
  · rw [ofOffset_eq hText, foldl_next_eq, String.toList_ofList]
    exact ⟨rfl, rfl⟩

/-- **Positions increase along a text.** -/
theorem ofOffset_lt (h : IsBoundary text offset) (h' : IsBoundary text offset')
    (hLess : offset < offset') : ofOffset text.toList offset < ofOffset text.toList offset' := by
  obtain ⟨before, rest, hText, rfl⟩ := isBoundary_iff.mp h
  obtain ⟨before', rest', hText', rfl⟩ := isBoundary_iff.mp h'
  obtain ⟨c, cs, rfl⟩ := exists_between hText hText' hLess
  rw [ofOffset_eq hText, ofOffset_eq hText', List.foldl_append]
  exact lt_foldl_next _ c cs

end Position

/-! ### Spans of errors -/

/-- The span stands in the text and has something in it. -/
structure Span.Covers (s : Span) (text : String) : Prop where
  start_lt_stop : s.start < s.stop
  stop_le : s.stop ≤ text.utf8ByteSize
  start_boundary : IsBoundary text s.start
  stop_boundary : IsBoundary text s.stop

theorem isBoundary_end (text : String) : IsBoundary text text.utf8ByteSize :=
  isBoundary_iff.mpr ⟨text.toList, [], by rw [List.append_nil], (byteWidth_toList text).symm⟩

theorem IsBoundary.le {text : String} {offset : Nat} (h : IsBoundary text offset) :
    offset ≤ text.utf8ByteSize := by
  obtain ⟨before, rest, hText, rfl⟩ := isBoundary_iff.mp h
  rw [← byteWidth_toList, hText, byteWidth_append]
  exact Nat.le_add_right _ _

/-- **Lexemes cover characters of the source.** -/
theorem Lexeme.covers_of_scan {source : String} {l : Lexeme} (h : l ∈ scan source.toList) :
    l.span.Covers source := by
  obtain ⟨before, text, rest, hSource, hSpan, hCuts⟩ := (tiles_scanFrom 0 source.toList).cuts l h
  obtain ⟨c, cs, rfl, -⟩ := hCuts.exists_head
  rw [Nat.zero_add, Nat.zero_add] at hSpan
  have hStop : IsBoundary source (byteWidth (before ++ c :: cs)) :=
    isBoundary_iff.mpr ⟨_, rest, by rw [hSource, List.append_assoc], rfl⟩
  rw [hSpan]
  refine ⟨?_, hStop.le, isBoundary_iff.mpr ⟨before, _, hSource, rfl⟩, hStop⟩
  have := c.utf8Size_pos
  simp only [byteWidth_append, byteWidth]
  omega

/-! ### What is shown of an error -/

namespace Report

variable {source : String} {span : Span}

/-- A span with something in it is shown as it is. -/
theorem widen?_of_covers (h : span.Covers source) : widen? source.toList span = some span := by
  have hFull : span.isEmpty = false := by
    rw [Span.isEmpty, decide_eq_false_iff_not]
    exact Nat.not_le.mpr h.start_lt_stop
  rw [widen?, hFull]
  rfl

/-- At the end of a source its last character is shown. -/
theorem widen?_at_end (source : String) :
    widen? source.toList ⟨source.utf8ByteSize, source.utf8ByteSize⟩ =
      source.toList.getLast?.map fun c =>
        ⟨source.utf8ByteSize - c.utf8Size, source.utf8ByteSize⟩ := by
  have hEmpty : Span.isEmpty ⟨source.utf8ByteSize, source.utf8ByteSize⟩ = true :=
    decide_eq_true (Nat.le_refl _)
  have hBefore : charsBefore source.toList source.utf8ByteSize = source.toList := by
    have hAll := charsBefore_append source.toList []
    rwa [List.append_nil, byteWidth_toList] at hAll
  have hWidth : ¬byteWidth source.toList ≠ source.utf8ByteSize :=
    not_not_intro (byteWidth_toList source)
  rw [widen?, hEmpty]
  simp only [hBefore, if_neg hWidth, List.drop_length]
  rfl

theorem widen?_empty : widen? "".toList ⟨0, 0⟩ = none := rfl

/-- **An error can be shown**: there is a character at its place, or in front of it. -/
theorem exists_widened
    (h : span.Covers source ∨ span = ⟨source.utf8ByteSize, source.utf8ByteSize⟩)
    (hSource : source ≠ "") : ∃ r, widen? source.toList span = some r ∧ r.Covers source := by
  rcases h with hCovers | rfl
  · exact ⟨span, widen?_of_covers hCovers, hCovers⟩
  · have hChars : source.toList ≠ [] := fun hNil => hSource (String.toList_eq_nil_iff.mp hNil)
    obtain ⟨before, c, hText⟩ := (List.eq_nil_or_concat' source.toList).resolve_left hChars
    have hSize : source.utf8ByteSize = byteWidth before + c.utf8Size := by
      rw [← byteWidth_toList, hText, byteWidth_append]
      rfl
    refine ⟨⟨byteWidth before, source.utf8ByteSize⟩, ?_, ?_, Nat.le_refl _,
      isBoundary_iff.mpr ⟨before, [c], hText, rfl⟩, isBoundary_end source⟩
    · rw [widen?_at_end, hText, List.getLast?_concat, Option.map_some, hSize,
        Nat.add_sub_cancel_right]
    · have := c.utf8Size_pos
      simp only [hSize]
      omega

end Report

/-! ### Errors -/

namespace Program

/-- The source has no lexical fault, and its tokens are refused behind the last one. -/
def EndsEarly (source : String) : Prop :=
  ∃ marked R, tokens (Lexeme.scan source.toList) = .ok marked ∧
    Grammar.program (marked.map (·.1)) = .error R ∧ R.rest = []

theorem exists_faulty {lexemes : List Lexeme} {span : Span} {fault : LexicalFault}
    (h : tokens lexemes = .error (span, fault)) : ∃ l ∈ lexemes, l.span = span := by
  induction lexemes with
  | nil => cases h
  | cons l lexemes ih =>
    obtain ⟨span', reading⟩ := l
    cases reading with
    | error fault' =>
      cases h
      exact ⟨_, List.mem_cons_self, rfl⟩
    | ok token =>
      rw [tokens] at h
      cases hRest : tokens lexemes with
      | ok rest =>
        rw [hRest] at h
        cases h
      | error e =>
        rw [hRest] at h
        cases h
        obtain ⟨l, hl, hSpan⟩ := ih hRest
        exact ⟨l, List.mem_cons_of_mem _ hl, hSpan⟩

/-- **Where a refusal points**: at a token, or at the end if the source ends there. -/
theorem place_of_refusal {source : String} {marked : List (Token × Span)} {R : Refusal}
    (hTokens : tokens (Lexeme.scan source.toList) = .ok marked)
    (hRefused : Grammar.program (marked.map (·.1)) = .error R) :
    ((refusalSpan source.toList marked R).Covers source ∧ R.rest ≠ []) ∨
      refusalSpan source.toList marked R = ⟨source.utf8ByteSize, source.utf8ByteSize⟩ ∧
        R.rest = [] := by
  obtain ⟨ts, hSplit, -⟩ := Grammar.viable_of_refused hRefused
  have hLength : marked.length = ts.length + R.rest.length := by
    rw [← List.length_append, ← hSplit, List.length_map]
  rw [refusalSpan]
  cases hToken : marked[marked.length - R.rest.length]? with
  | some p =>
    left
    have hMem : p.2 ∈ (Lexeme.scan source.toList).map (·.span) := by
      rw [← spans_of_tokens hTokens]
      exact List.mem_map_of_mem (List.mem_of_getElem? hToken)
    obtain ⟨l, hl, hSpan⟩ := List.mem_map.mp hMem
    refine ⟨show p.2.Covers source from hSpan ▸ Lexeme.covers_of_scan hl, fun hNone => ?_⟩
    obtain ⟨hIndex, -⟩ := List.getElem?_eq_some_iff.mp hToken
    rw [hNone, List.length_nil] at hIndex
    omega
  | none =>
    right
    have hIndex := List.getElem?_eq_none_iff.mp hToken
    rw [byteWidth_toList]
    exact ⟨rfl, List.eq_nil_of_length_eq_zero (by omega)⟩

/-- The places of an error are found from its span, which covers characters or is the end of the
source. -/
theorem exists_place {source : String} {E : SyntaxError} (h : read source = .error E) :
    E.start = .ofOffset source.toList E.span.start ∧
      E.stop = .ofOffset source.toList E.span.stop ∧
        ((E.span.Covers source ∧ ¬EndsEarly source) ∨
          E.span = ⟨source.utf8ByteSize, source.utf8ByteSize⟩ ∧ EndsEarly source) := by
  cases hTokens : tokens (Lexeme.scan source.toList) with
  | error e =>
    obtain ⟨span, fault⟩ := e
    rw [read, readChars, hTokens] at h
    cases h
    obtain ⟨l, hl, hSpan⟩ := exists_faulty hTokens
    refine ⟨rfl, rfl, .inl ⟨hSpan ▸ Lexeme.covers_of_scan hl, ?_⟩⟩
    rintro ⟨marked, R, hOk, -⟩
    rw [hTokens] at hOk
    cases hOk
  | ok marked =>
    rw [read, readChars, hTokens] at h
    dsimp only at h
    cases hRefused : Grammar.program (marked.map (·.1)) with
    | ok e =>
      rw [hRefused] at h
      cases h
    | error R =>
      rw [hRefused] at h
      cases h
      refine ⟨rfl, rfl, ?_⟩
      rcases place_of_refusal hTokens hRefused with ⟨hCovers, hRest⟩ | ⟨hEnd, hRest⟩
      · refine .inl ⟨hCovers, ?_⟩
        rintro ⟨marked', R', hTokens', hRefused', hRest'⟩
        rw [hTokens] at hTokens'
        cases hTokens'
        rw [hRefused] at hRefused'
        cases hRefused'
        exact hRest hRest'
      · exact .inr ⟨hEnd, marked, R, hTokens, hRefused, hRest⟩

end Program

/-- The places in an error fit each other and the source. -/
structure SyntaxError.WellPlaced (source : String) (E : SyntaxError) : Prop where
  start_le_stop : E.span.start ≤ E.span.stop
  stop_le : E.span.stop ≤ source.utf8ByteSize
  start_boundary : IsBoundary source E.span.start
  stop_boundary : IsBoundary source E.span.stop
  /-- Only what is missing at the end has no characters of its own. -/
  empty_iff : E.span.start = E.span.stop ↔ Program.EndsEarly source
  at_end : E.span.start = E.span.stop → E.span = ⟨source.utf8ByteSize, source.utf8ByteSize⟩
  start_counts : Position.Counts source E.span.start E.start
  stop_counts : Position.Counts source E.span.stop E.stop
  position_le : E.start ≤ E.stop
  position_eq_iff : E.start = E.stop ↔ E.span.start = E.span.stop

namespace Program

variable {source : String} {E : SyntaxError}

theorem well_placed (h : read source = .error E) : E.WellPlaced source := by
  obtain ⟨hStart, hStop, hPlace⟩ := exists_place h
  rcases hPlace with ⟨hCovers, hInside⟩ | ⟨hEnd, hEarly⟩
  · have hFull : ¬E.span.start = E.span.stop := Nat.ne_of_lt hCovers.start_lt_stop
    have hLess : E.start < E.stop := by
      rw [hStart, hStop]
      exact Position.ofOffset_lt hCovers.start_boundary hCovers.stop_boundary hCovers.start_lt_stop
    have hApart : ¬E.start = E.stop := by
      intro hSame
      rw [hSame] at hLess
      exact Position.lt_irrefl _ hLess
    exact {
      start_le_stop := Nat.le_of_lt hCovers.start_lt_stop
      stop_le := hCovers.stop_le
      start_boundary := hCovers.start_boundary
      stop_boundary := hCovers.stop_boundary
      empty_iff := iff_of_false hFull hInside
      at_end := fun hSame => absurd hSame hFull
      start_counts := hStart ▸ Position.counts_ofOffset hCovers.start_boundary
      stop_counts := hStop ▸ Position.counts_ofOffset hCovers.stop_boundary
      position_le := .inl hLess
      position_eq_iff := iff_of_false hApart hFull }
  · have hBoundary := isBoundary_end source
    have hCounts := Position.counts_ofOffset hBoundary
    rw [hEnd] at hStart hStop
    have hSame : E.start = E.stop := hStart.trans hStop.symm
    have hEmpty : E.span.start = E.span.stop := by rw [hEnd]
    have hSpanStart : E.span.start = source.utf8ByteSize := by rw [hEnd]
    have hSpanStop : E.span.stop = source.utf8ByteSize := by rw [hEnd]
    exact {
      start_le_stop := Nat.le_of_eq hEmpty
      stop_le := Nat.le_of_eq hSpanStop
      start_boundary := hSpanStart ▸ hBoundary
      stop_boundary := hSpanStop ▸ hBoundary
      empty_iff := iff_of_true hEmpty hEarly
      at_end := fun _ => hEnd
      start_counts := by rwa [hSpanStart, hStart]
      stop_counts := by rwa [hSpanStop, hStop]
      position_le := .inr hSame
      position_eq_iff := iff_of_true hSame hEmpty }

/-- **Syntax errors are well placed.**  The span of an error stands between characters of the
source, and only at the end of the source it is empty.  The positions of its ends count the line
feeds in front of them and the characters behind the last line feed, and they are in order.  There
is a character to be shown at the place of every error, unless the source has none.  All this rests
on positions that increase from each boundary of characters to the next. -/
theorem errors_well_placed :
    (∀ source E, read source = .error E →
      E.WellPlaced source ∧
        (source = "" → Report.widen? source.toList E.span = none) ∧
          (source ≠ "" → ∃ r, Report.widen? source.toList E.span = some r ∧ r.Covers source)) ∧
    ∀ text offset offset', IsBoundary text offset → IsBoundary text offset' → offset < offset' →
      Position.ofOffset text.toList offset < Position.ofOffset text.toList offset' := by
  refine ⟨fun source E h => ?_, fun text offset offset' => Position.ofOffset_lt⟩
  obtain ⟨-, -, hPlace⟩ := exists_place h
  have hPlace' : E.span.Covers source ∨ E.span = ⟨source.utf8ByteSize, source.utf8ByteSize⟩ :=
    hPlace.imp And.left And.left
  refine ⟨well_placed h, ?_, Report.exists_widened hPlace'⟩
  rintro rfl
  rcases hPlace with ⟨hCovers, -⟩ | ⟨hEnd, -⟩
  · have hStop : E.span.stop ≤ 0 := hCovers.stop_le
    have := hCovers.start_lt_stop
    omega
  · rw [hEnd]
    exact Report.widen?_empty

/-- A letter of two bytes in the second line, and a sum that breaks off behind a line feed. -/
theorem errors_well_placed_second_line :
    let source := "1 +\n\té"
    let E := SyntaxError.locate source.toList ⟨5, 7⟩ LexicalFault.invalid.message
    let source' := "1 +\n"
    let E' := SyntaxError.locate source'.toList ⟨4, 4⟩ (Refusal.message ⟨.expression, []⟩)
    (read source = .error E ∧ E.WellPlaced source ∧ E.start = ⟨1, 1⟩ ∧ E.stop = ⟨1, 2⟩) ∧
      read source' = .error E' ∧ E'.WellPlaced source' ∧ E'.start = ⟨1, 0⟩ ∧
        ∃ r, Report.widen? source'.toList E'.span = some r ∧ r.Covers source' := by
  intro source E source' E'
  have hRead : read source = .error E := by decide +kernel
  have hRead' : read source' = .error E' := by decide +kernel
  obtain ⟨hPlaced, -⟩ := errors_well_placed.1 source E hRead
  obtain ⟨hPlaced', -, hShown⟩ := errors_well_placed.1 source' E' hRead'
  exact ⟨⟨hRead, hPlaced, by decide +kernel, by decide +kernel⟩, hRead', hPlaced',
    by decide +kernel, hShown (by decide)⟩

end Program

end StagedLambda
