import Mathlib
import StagedLambda.Proofs.Source.Pointing

/-!
# The scan tiles the source

The tokens are given by patterns: the spellings of those that stand for nothing but themselves, the
words and the runs of digits.  The scan cuts a source into lexemes and what is skipped between them.
Each lexeme is as long as a pattern allows, and one character long where none does.  This says all
about the scan, so the relation `Lexeme.Tiles` between a source and its lexemes is a function.

* `Lexeme.Reads`: the texts of the patterns and what they stand for.
* `Lexeme.Cuts`: a lexeme in front of the rest of the source.
* `Lexeme.scan_tiles`: the lexemes of a source are those that tile it.
-/

namespace StagedLambda

namespace Lexeme

/-! ### Patterns -/

/-- A run of digits. -/
def IsRun (text : List Char) : Prop := text ≠ [] ∧ ∀ c ∈ text, c.isDigit = true

/-- The text matches one of the patterns of tokens. -/
def Matches (text : List Char) : Prop :=
  (∃ t ∈ Token.fixed, t.spelling.toList = text) ∨ isWord (String.ofList text) = true ∨ IsRun text

/-- What a text that matches a pattern stands for.  Where a word is the spelling of a token, it is
no name; and a run of digits stands for its value, if the value is an integer. -/
inductive Reads : List Char → Except LexicalFault Token → Prop
  | fixed {t : Token} (h : t ∈ Token.fixed) : Reads t.spelling.toList (.ok t)
  | name {x : String} (hWord : isWord x = true) (hOther : ∀ t ∈ Token.fixed, t.spelling ≠ x) :
    Reads x.toList (.ok (.identifier x))
  | integer {digits : List Char} (hRun : IsRun digits) {n : Int64}
    (hValue : n.toInt = Decimal.value digits) : Reads digits (.ok (.integer n))
  | tooBig {digits : List Char} (hRun : IsRun digits)
    (hValue : Int64.maxValue.toInt < Decimal.value digits) :
    Reads digits (.error (.tooBig (String.ofList digits)))

/-- In front of `rest` the text is cut off as a lexeme: it is the longest that matches a pattern, or
it is a single character that begins no such text and is not skipped. -/
inductive Cuts (text rest : List Char) : Except LexicalFault Token → Prop
  | token {reading : Except LexicalFault Token} (hReads : Reads text reading)
    (hLongest : ∀ p, p <+: text ++ rest → Matches p → p.length ≤ text.length) :
    Cuts text rest reading
  | invalid {c : Char} (hText : text = [c]) (hNone : ∀ p, p <+: text ++ rest → ¬Matches p)
    (hSpace : isSpace c = false) (hHash : c ≠ '#') : Cuts text rest (.error .invalid)

/-- In front of `rest` the text is skipped: it consists of white space and of comments, each of
which goes on to the end of its line. -/
inductive Skipped : List Char → List Char → Prop
  | nil (rest : List Char) : Skipped [] rest
  | space {c : Char} {gap rest : List Char} (hSpace : isSpace c = true) (hGap : Skipped gap rest) :
    Skipped (c :: gap) rest
  | comment {line gap rest : List Char} (hLine : '\n' ∉ line)
    (hEnd : ∀ c ∈ (gap ++ rest).head?, c = '\n') (hGap : Skipped gap rest) :
    Skipped ('#' :: (line ++ gap)) rest

/-- The lexemes tile the characters from byte `offset` on: in front of each of them and behind the
last one something may be skipped. -/
inductive Tiles : Nat → List Char → List Lexeme → Prop
  | done {offset : Nat} {gap : List Char} (hGap : Skipped gap []) : Tiles offset gap []
  | lexeme {offset start stop : Nat} {gap text rest : List Char}
    {reading : Except LexicalFault Token} {lexemes : List Lexeme}
    (hGap : Skipped gap (text ++ rest)) (hText : Cuts text rest reading)
    (hStart : start = offset + byteWidth gap) (hStop : stop = start + byteWidth text)
    (hRest : Tiles stop rest lexemes) :
    Tiles offset (gap ++ (text ++ rest)) (⟨⟨start, stop⟩, reading⟩ :: lexemes)

/-! ### What patterns begin with -/

/-- The spellings of tokens are words, or marks of one or two characters. -/
theorem spelling_of_fixed {t : Token} (h : t ∈ Token.fixed) :
    (isWord t.spelling = true ∧ t.spelling ∈ reserved) ∨
      (∃ c, t.spelling.toList = [c] ∧ single? c = some t) ∨
      ∃ c d, t.spelling.toList = [c, d] ∧ pair? c d = some t := by
  simp only [Token.fixed, List.mem_cons, List.not_mem_nil, or_false] at h
  repeat' rcases h with rfl | h
  all_goals
    first
    | exact .inl (by decide)
    | exact .inr (.inl ⟨_, rfl, rfl⟩)
    | exact .inr (.inr ⟨_, _, rfl, rfl⟩)

theorem fixed_of_single? {c : Char} {t : Token} (h : single? c = some t) :
    t ∈ Token.fixed ∧ t.spelling.toList = [c] := by
  unfold single? at h
  split at h <;> first | (cases h; decide) | cases h

theorem fixed_of_pair? {c d : Char} {t : Token} (h : pair? c d = some t) :
    t ∈ Token.fixed ∧ t.spelling.toList = [c, d] := by
  unfold pair? at h
  split at h <;> first | (cases h; decide) | cases h

theorem isDigit_of_isWordStart {c : Char} (h : isWordStart c = true) : c.isDigit = false := by
  rw [isWordStart, Bool.or_eq_true, decide_eq_true_eq] at h
  rcases h with hAlpha | rfl
  · grind [Char.isAlpha, Char.isUpper, Char.isLower, Char.isDigit]
  · rfl

theorem not_matches_nil : ¬Matches [] := by
  rintro (⟨t, ht, hText⟩ | hWord | hRun)
  · have hSome : ∀ t ∈ Token.fixed, t.spelling.toList ≠ [] := by decide
    exact hSome t ht hText
  · exact absurd hWord (by decide)
  · exact hRun.1 rfl

theorem isWord_iff {x : String} {c : Char} {cs : List Char} (hText : x.toList = c :: cs) :
    isWord x = true ↔ isWordStart c = true ∧ ∀ d ∈ cs, isWordPart d = true := by
  rw [isWord, hText, Bool.and_eq_true, List.all_eq_true]

/-- **What a text can be that matches a pattern**, by its first character. -/
inductive Shape (c : Char) (cs : List Char) : Prop
  | word (hStart : isWordStart c = true) (hParts : ∀ d ∈ cs, isWordPart d = true) : Shape c cs
  | run (hDigit : c.isDigit = true) (hDigits : ∀ d ∈ cs, d.isDigit = true) : Shape c cs
  | single {t : Token} (hSingle : single? c = some t) (hText : cs = []) : Shape c cs
  | pair {d : Char} {t : Token} (hPair : pair? c d = some t) (hText : cs = [d]) : Shape c cs

theorem Matches.shape {c : Char} {cs : List Char} (h : Matches (c :: cs)) : Shape c cs := by
  rcases h with ⟨t, ht, hText⟩ | hWord | hRun
  · rcases spelling_of_fixed ht with ⟨hWord, -⟩ | ⟨d, hText', hSingle⟩ | ⟨d, d', hText', hPair⟩
    · obtain ⟨hStart, hParts⟩ := (isWord_iff hText).mp hWord
      exact .word hStart hParts
    · rw [hText'] at hText
      cases hText
      exact .single hSingle rfl
    · rw [hText'] at hText
      cases hText
      exact .pair hPair rfl
  · obtain ⟨hStart, hParts⟩ := (isWord_iff String.toList_ofList).mp hWord
    exact .word hStart hParts
  · obtain ⟨-, hDigits⟩ := hRun
    rw [List.forall_mem_cons] at hDigits
    exact .run hDigits.1 hDigits.2

/-- What is skipped begins no token. -/
theorem Shape.unskipped {c : Char} {cs : List Char} (h : Shape c cs) :
    isSpace c = false ∧ c ≠ '#' := by
  cases h with
  | word hStart => exact ⟨isSpace_of_isWordStart hStart, ne_hash_of_isWordStart hStart⟩
  | run hDigit =>
    have hOther : ∀ d : Char, d.isDigit = false → c ≠ d := by
      rintro d hd rfl
      rw [hDigit] at hd
      cases hd
    refine ⟨?_, hOther '#' rfl⟩
    simp only [isSpace, Bool.or_eq_false_iff, decide_eq_false_iff_not]
    exact ⟨⟨⟨⟨hOther _ rfl, hOther _ rfl⟩, hOther _ rfl⟩, hOther _ rfl⟩, hOther _ rfl⟩
  | single hSingle =>
    obtain ⟨-, -, hSpace, hHash⟩ := mark_of_single? hSingle
    exact ⟨hSpace, hHash⟩
  | pair hPair =>
    obtain ⟨-, -, hSpace, hHash⟩ := mark_of_pair? hPair
    exact ⟨hSpace, hHash⟩

/-! ### Readings -/

theorem Reads.matches {text : List Char} {reading : Except LexicalFault Token}
    (h : Reads text reading) : Matches text := by
  cases h with
  | fixed ht => exact .inl ⟨_, ht, rfl⟩
  | name hWord => exact .inr (.inl (by rwa [String.ofList_toList]))
  | integer hRun | tooBig hRun => exact .inr (.inr hRun)

/-- The reserved words are the tokens that are spelled as words. -/
theorem word_of_reserved : ∀ x ∈ reserved, ∃ t ∈ Token.fixed, t.spelling = x ∧ word x = t := by
  decide

/-- A name is the spelling of no token. -/
theorem spelling_ne_of_isName {x : String} (h : isName x = true) :
    ∀ t ∈ Token.fixed, t.spelling ≠ x := by
  rintro t ht rfl
  simp only [isName, Bool.and_eq_true, Bool.not_eq_true', List.contains_eq_mem,
    decide_eq_false_iff_not] at h
  obtain ⟨hWord, hFree⟩ := h
  rcases spelling_of_fixed ht with ⟨-, hReserved⟩ | ⟨c, hText, hSingle⟩ | ⟨c, d, hText, hPair⟩
  · exact hFree hReserved
  · rw [isWord_iff hText, (mark_of_single? hSingle).1] at hWord
    cases hWord.1
  · rw [isWord_iff hText, (mark_of_pair? hPair).1] at hWord
    cases hWord.1

theorem reads_word {x : String} (h : isWord x = true) : Reads x.toList (.ok (word x)) := by
  by_cases hReserved : x ∈ reserved
  · obtain ⟨t, ht, rfl, hWord⟩ := word_of_reserved x hReserved
    rw [hWord]
    exact .fixed ht
  · have hName : isName x = true := by simp [isName, h, hReserved]
    rw [word_of_isName hName]
    exact .name h (spelling_ne_of_isName hName)

section

variable {digits : List Char}

theorem numeral_of_toInt_eq {n : Int64} (h : n.toInt = Decimal.value digits) :
    numeral digits = .ok (.integer n) := by
  have hMax := Int64.toInt_maxValue ▸ n.toInt_le
  have hBound : Decimal.value digits < 0x8000000000000000 := by omega
  have hSame : Int64.ofNat (Decimal.value digits) = n := by
    rw [← Int64.toInt_inj, Int64.toInt_ofNat_of_lt hBound, h]
  rw [numeral, if_pos hBound, hSame]

theorem numeral_of_lt (h : Int64.maxValue.toInt < Decimal.value digits) :
    numeral digits = .error (.tooBig (String.ofList digits)) := by
  rw [Int64.toInt_maxValue] at h
  rw [numeral, if_neg (by omega)]

theorem exists_toInt_eq (h : Decimal.value digits ≤ Int64.maxValue.toInt) :
    ∃ n : Int64, n.toInt = Decimal.value digits := by
  rw [Int64.toInt_maxValue] at h
  exact ⟨.ofNat (Decimal.value digits), Int64.toInt_ofNat_of_lt (by omega)⟩

theorem reads_numeral (h : IsRun digits) : Reads digits (numeral digits) := by
  by_cases hBig : Int64.maxValue.toInt < Decimal.value digits
  · rw [numeral_of_lt hBig]
    exact .tooBig h hBig
  · obtain ⟨n, hn⟩ := exists_toInt_eq (Int.not_lt.mp hBig)
    rw [numeral_of_toInt_eq hn]
    exact .integer h hn

end

section

variable {c : Char} {cs : List Char}

theorem munch_of_isWord {x : String} (h : isWord x = true) (hText : x.toList = c :: cs) :
    munch c cs = (cs.length, .ok (word x)) := by
  obtain ⟨hStart, hParts⟩ := (isWord_iff hText).mp h
  rw [munch, if_pos hStart]
  simp only [List.takeWhile_eq_self_iff.mpr hParts, ← hText, String.ofList_toList]

theorem IsRun.munch_eq (h : IsRun (c :: cs)) : munch c cs = (cs.length, numeral (c :: cs)) := by
  obtain ⟨hDigit, hDigits⟩ := List.forall_mem_cons.mp h.2
  have hStart : ¬isWordStart c = true := fun hStart => by
    rw [isDigit_of_isWordStart hStart] at hDigit
    cases hDigit
  rw [munch, if_neg hStart, if_pos hDigit]
  simp only [List.takeWhile_eq_self_iff.mpr hDigits]

end

/-- **A text that has a reading is munched as a whole.** -/
theorem Reads.munch_eq {text : List Char} {r : Except LexicalFault Token} (h : Reads text r)
    {c : Char} {cs : List Char} (hText : text = c :: cs) : munch c cs = (cs.length, r) := by
  cases h with
  | @fixed t ht =>
    rcases spelling_of_fixed ht with ⟨hSpelled, hReserved⟩ | ⟨d, hText', hSingle⟩ |
      ⟨d, d', hText', hPair⟩
    · have hSelf : ∀ t ∈ Token.fixed, t.spelling ∈ reserved → word t.spelling = t := by decide
      rw [munch_of_isWord hSpelled hText, hSelf t ht hReserved]
    · rw [hText'] at hText
      cases hText
      obtain ⟨hStart, hDigit, -, -⟩ := mark_of_single? hSingle
      simp [munch, hStart, hDigit, hSingle]
    · rw [hText'] at hText
      cases hText
      obtain ⟨hStart, hDigit, -, -⟩ := mark_of_pair? hPair
      simp [munch, hStart, hDigit, hPair]
  | @name x hIsWord hOther =>
    have hFree : x ∉ reserved := by
      intro hReserved
      obtain ⟨t, ht, hSpelling, -⟩ := word_of_reserved x hReserved
      exact hOther t ht hSpelling
    have hName : isName x = true := by simp [isName, hIsWord, hFree]
    rw [munch_of_isWord hIsWord hText, word_of_isName hName]
  | integer hRun hValue =>
    subst hText
    rw [hRun.munch_eq, numeral_of_toInt_eq hValue]
  | tooBig hRun hValue =>
    subst hText
    rw [hRun.munch_eq, numeral_of_lt hValue]

/-! ### One lexeme -/

theorem Matches.of_prefix {c : Char} {cs p : List Char} (h : Matches p) (hPrefix : p <+: c :: cs) :
    ∃ p', p = c :: p' ∧ p' <+: cs ∧ Shape c p' := by
  cases p with
  | nil => exact absurd h not_matches_nil
  | cons d p' =>
    obtain ⟨rfl, hTail⟩ := List.cons_prefix_cons.mp hPrefix
    exact ⟨p', rfl, hTail, h.shape⟩

theorem length_le_takeWhile {p cs : List Char} {f : Char → Bool} (hPrefix : p <+: cs)
    (hAll : ∀ d ∈ p, f d = true) : p.length ≤ (cs.takeWhile f).length := by
  obtain ⟨rest, rfl⟩ := hPrefix
  rw [List.takeWhile_append_of_pos hAll, List.length_append]
  exact Nat.le_add_right _ _

/-- What begins a word begins no other token. -/
theorem Shape.of_start {c : Char} {cs : List Char} (h : Shape c cs)
    (hStart : isWordStart c = true) : ∀ d ∈ cs, isWordPart d = true := by
  cases h with
  | word _ hParts => exact hParts
  | run hDigit =>
    rw [isDigit_of_isWordStart hStart] at hDigit
    cases hDigit
  | single hSingle =>
    rw [(mark_of_single? hSingle).1] at hStart
    cases hStart
  | pair hPair =>
    rw [(mark_of_pair? hPair).1] at hStart
    cases hStart

/-- What begins a run of digits begins no other token. -/
theorem Shape.of_digit {c : Char} {cs : List Char} (h : Shape c cs)
    (hDigit : c.isDigit = true) : ∀ d ∈ cs, d.isDigit = true := by
  cases h with
  | word hStart =>
    rw [isDigit_of_isWordStart hStart] at hDigit
    cases hDigit
  | run _ hDigits => exact hDigits
  | single hSingle =>
    rw [(mark_of_single? hSingle).2.1] at hDigit
    cases hDigit
  | pair hPair =>
    rw [(mark_of_pair? hPair).2.1] at hDigit
    cases hDigit

/-- What begins neither a word nor a run of digits begins a mark. -/
theorem Shape.mark {c : Char} {cs : List Char} (h : Shape c cs) (hStart : ¬isWordStart c = true)
    (hDigit : ¬c.isDigit = true) :
    (cs = [] ∧ ∃ t, single? c = some t) ∨ ∃ d t, cs = [d] ∧ pair? c d = some t := by
  cases h with
  | word hStart' => exact absurd hStart' hStart
  | run hDigit' => exact absurd hDigit' hDigit
  | single hSingle hText => exact .inl ⟨hText, _, hSingle⟩
  | pair hPair hText => exact .inr ⟨_, _, hText, hPair⟩

/-- A pattern that goes on as long as a test holds cuts off all characters that pass it. -/
theorem cuts_takeWhile {c : Char} {f : Char → Bool} {cs : List Char}
    {reading : Except LexicalFault Token} (hReads : Reads (c :: cs.takeWhile f) reading)
    (hShape : ∀ p, Shape c p → ∀ d ∈ p, f d = true) :
    Cuts (c :: cs.takeWhile f) (cs.dropWhile f) reading := by
  refine .token hReads fun p hPrefix hMatches => ?_
  rw [List.cons_append, List.takeWhile_append_dropWhile] at hPrefix
  obtain ⟨p', rfl, hTail, hp⟩ := hMatches.of_prefix hPrefix
  exact Nat.succ_le_succ (length_le_takeWhile hTail (hShape p' hp))

/-- **What is munched is cut off.** -/
theorem exists_cuts {c : Char} (hSpace : isSpace c = false) (hHash : c ≠ '#') (cs : List Char) :
    ∃ tail rest, cs = tail ++ rest ∧ (munch c cs).1 = tail.length ∧
      Cuts (c :: tail) rest (munch c cs).2 := by
  rw [munch]
  split
  next hStart =>
    refine ⟨_, _, List.takeWhile_append_dropWhile.symm, rfl, cuts_takeWhile ?_
      fun p hp => hp.of_start hStart⟩
    have hWord : isWord (String.ofList (c :: cs.takeWhile isWordPart)) = true :=
      (isWord_iff String.toList_ofList).mpr ⟨hStart, List.all_eq_true.mp List.all_takeWhile⟩
    have hReads := reads_word hWord
    rwa [String.toList_ofList] at hReads
  next hStart =>
    split
    next hDigit =>
      refine ⟨_, _, List.takeWhile_append_dropWhile.symm, rfl, cuts_takeWhile ?_
        fun p hp => hp.of_digit hDigit⟩
      refine reads_numeral ⟨List.cons_ne_nil _ _, List.forall_mem_cons.mpr ⟨hDigit, ?_⟩⟩
      exact List.all_eq_true.mp List.all_takeWhile
    next hDigit =>
      -- Of the texts that match a pattern only marks are left.
      split
      next t hPair =>
        obtain ⟨d, hHead, hPair⟩ := Option.bind_eq_some_iff.mp hPair
        obtain ⟨rest, rfl⟩ := List.head?_eq_some_iff.mp hHead
        obtain ⟨ht, hText⟩ := fixed_of_pair? hPair
        refine ⟨[d], rest, rfl, rfl, .token (hText ▸ .fixed ht) fun p hPrefix hMatches => ?_⟩
        obtain ⟨p', rfl, -, hShape⟩ := hMatches.of_prefix hPrefix
        rcases hShape.mark hStart hDigit with ⟨rfl, -⟩ | ⟨d', t', rfl, -⟩
        · exact Nat.le_succ _
        · exact Nat.le_refl _
      next hNone =>
        have hAlone : ∀ {p'}, p' <+: cs → Shape c p' → p' = [] ∧ ∃ t, single? c = some t := by
          intro p' hTail hShape
          rcases hShape.mark hStart hDigit with hSingle | ⟨d, t, rfl, hPair⟩
          · exact hSingle
          · obtain ⟨rest, rfl⟩ := hTail
            rw [List.singleton_append, List.head?_cons, Option.bind_some, hPair] at hNone
            cases hNone
        split
        next t hSingle =>
          obtain ⟨ht, hText⟩ := fixed_of_single? hSingle
          refine ⟨[], cs, rfl, rfl, .token (hText ▸ .fixed ht) fun p hPrefix hMatches => ?_⟩
          obtain ⟨p', rfl, hTail, hShape⟩ := hMatches.of_prefix hPrefix
          rw [(hAlone hTail hShape).1]
        next hSingle =>
          refine ⟨[], cs, rfl, rfl, .invalid rfl (fun p hPrefix hMatches => ?_) hSpace hHash⟩
          obtain ⟨p', rfl, hTail, hShape⟩ := hMatches.of_prefix hPrefix
          obtain ⟨-, t, ht⟩ := hAlone hTail hShape
          rw [hSingle] at ht
          cases ht

/-- **A lexeme is determined** by the characters from its first one on. -/
theorem Cuts.unique {text text' rest rest' : List Char} {r r' : Except LexicalFault Token}
    (h : Cuts text rest r) (h' : Cuts text' rest' r') (hSame : text ++ rest = text' ++ rest') :
    text = text' ∧ rest = rest' ∧ r = r' := by
  cases h with
  | token hReads hLongest =>
    have hMatches := hReads.matches
    have hPrefix : text <+: text' ++ rest' := hSame ▸ List.prefix_append text rest
    cases h' with
    | token hReads' hLongest' =>
      have hPrefix' : text' <+: text ++ rest := hSame ▸ List.prefix_append text' rest'
      have hLength : text.length = text'.length :=
        Nat.le_antisymm (hLongest' text hPrefix hMatches)
          (hLongest text' hPrefix' hReads'.matches)
      obtain ⟨rfl, rfl⟩ := List.append_inj hSame hLength
      refine ⟨rfl, rfl, ?_⟩
      cases text with
      | nil => exact absurd hMatches not_matches_nil
      | cons c cs =>
        have hMunch := hReads.munch_eq rfl
        rw [hReads'.munch_eq rfl] at hMunch
        exact (Prod.ext_iff.mp hMunch).2.symm
    | invalid hText hNone => exact absurd hMatches (hNone text hPrefix)
  | invalid hText hNone =>
    cases h' with
    | token hReads' hLongest' =>
      exact absurd hReads'.matches (hNone text' (hSame ▸ List.prefix_append text' rest'))
    | invalid hText' hNone' =>
      subst hText hText'
      obtain ⟨rfl, rfl⟩ := List.cons.inj hSame
      exact ⟨rfl, rfl, rfl⟩

/-- **A run of digits is cut off as a whole**, and stands for its value if this is an integer. -/
theorem Cuts.run {text rest : List Char} {r : Except LexicalFault Token} (h : Cuts text rest r)
    {c : Char} (hHead : c ∈ text.head?) (hDigit : c.isDigit = true) :
    text = (text ++ rest).takeWhile Char.isDigit ∧
      (Decimal.value text ≤ Int64.maxValue.toInt →
        ∃ n : Int64, n.toInt = Decimal.value text ∧ r = .ok (.integer n)) ∧
      (Int64.maxValue.toInt < Decimal.value text → r = .error (.tooBig (String.ofList text))) := by
  obtain ⟨cs, rfl⟩ := List.head?_eq_some_iff.mp hHead
  cases h with
  | invalid hText hNone =>
    refine absurd (.inr (.inr ⟨List.cons_ne_nil _ _, ?_⟩)) (hNone [c] (List.prefix_append [c] _))
    exact List.forall_mem_singleton.mpr hDigit
  | token hReads hLongest =>
    have hDigits : ∀ d ∈ c :: cs, d.isDigit = true :=
      List.forall_mem_cons.mpr ⟨hDigit, hReads.matches.shape.of_digit hDigit⟩
    have hRun : IsRun (c :: cs) := ⟨List.cons_ne_nil c cs, hDigits⟩
    have hReading : r = numeral (c :: cs) := by
      have hMunch := hReads.munch_eq rfl
      rw [(reads_numeral hRun).munch_eq rfl] at hMunch
      exact (Prod.ext_iff.mp hMunch).2.symm
    refine ⟨?_, fun hFits => ?_, fun hBig => hReading.trans (numeral_of_lt hBig)⟩
    · -- The digits that follow would make a longer run.
      have hWhole : (c :: cs ++ rest).takeWhile Char.isDigit =
          c :: cs ++ rest.takeWhile Char.isDigit := List.takeWhile_append_of_pos hDigits
      have hLength := hLongest _ (List.takeWhile_prefix _) (.inr (.inr
        ⟨by rw [hWhole]; exact List.cons_ne_nil _ _, List.all_eq_true.mp List.all_takeWhile⟩))
      rw [hWhole, List.length_append] at hLength
      have hNone : rest.takeWhile Char.isDigit = [] := List.eq_nil_of_length_eq_zero (by omega)
      rw [hWhole, hNone, List.append_nil]
    · obtain ⟨n, hn⟩ := exists_toInt_eq hFits
      exact ⟨n, hn, hReading.trans (numeral_of_toInt_eq hn)⟩

/-- A lexeme starts with a character that is not skipped. -/
theorem Cuts.exists_head {text rest : List Char} {r : Except LexicalFault Token}
    (h : Cuts text rest r) : ∃ c cs, text = c :: cs ∧ isSpace c = false ∧ c ≠ '#' := by
  cases h with
  | token hReads =>
    cases text with
    | nil => exact absurd hReads.matches not_matches_nil
    | cons c cs => exact ⟨c, cs, rfl, hReads.matches.shape.unskipped⟩
  | @invalid c hText _ hSpace hHash => exact ⟨c, [], hText, hSpace, hHash⟩

/-! ### The whole source -/

theorem byteWidth_cons (c : Char) (cs : List Char) :
    byteWidth (c :: cs) = c.utf8Size + byteWidth cs := rfl

/-- More can be skipped in front. -/
theorem Tiles.skip {offset : Nat} {pre cs : List Char} {lexemes : List Lexeme}
    (hSkip : ∀ gap rest, cs = gap ++ rest → Skipped gap rest → Skipped (pre ++ gap) rest)
    (h : Tiles (offset + byteWidth pre) cs lexemes) : Tiles offset (pre ++ cs) lexemes := by
  cases h with
  | done hGap => exact .done (hSkip cs [] (List.append_nil cs).symm hGap)
  | @lexeme _ start stop gap text rest reading lexemes hGap hText hStart hStop hRest =>
    rw [← List.append_assoc]
    refine .lexeme (hSkip gap _ rfl hGap) hText ?_ hStop hRest
    rw [hStart, byteWidth_append, Nat.add_assoc]

/-- What is skipped has no lexemes. -/
theorem scanFrom_skipped {gap rest : List Char} (h : Skipped gap rest) (offset : Nat) :
    scanFrom offset (gap ++ rest) = scanFrom (offset + byteWidth gap) rest := by
  induction h generalizing offset with
  | nil rest => rfl
  | @space c gap rest hSpace _ ih =>
    rw [List.cons_append, scanFrom_space hSpace, ih, byteWidth_cons, Nat.add_assoc]
  | @comment line gap rest hLine hEnd _ ih =>
    have hTake : (line ++ (gap ++ rest)).takeWhile (· ≠ '\n') = line := by
      refine takeWhile_append_stop (List.all_eq_true.mpr fun c hc => ?_) fun c hc => ?_
      · exact decide_eq_true fun hBreak => hLine (hBreak ▸ hc)
      · exact decide_eq_false fun hOther => hOther (hEnd c hc)
    have hDrop : (line ++ (gap ++ rest)).dropWhile (· ≠ '\n') = gap ++ rest := by
      have hBoth := List.takeWhile_append_dropWhile (p := (· ≠ '\n')) (l := line ++ (gap ++ rest))
      rw [hTake] at hBoth
      exact List.append_cancel_left hBoth
    rw [List.cons_append, List.append_assoc, scanFrom_comment, hTake, hDrop, ih, ← List.cons_append,
      byteWidth_append, Nat.add_assoc]

theorem tiles_scanFrom (offset : Nat) (cs : List Char) : Tiles offset cs (scanFrom offset cs) := by
  fun_induction scanFrom offset cs with
  | case1 offset => exact .done (.nil [])
  | case2 offset c cs hSpace ih =>
    have hWidth : byteWidth [c] = c.utf8Size := rfl
    rw [← hWidth] at ih
    exact ih.skip fun gap rest _ hGap => .space hSpace hGap
  | case3 offset cs hSpace ih =>
    have hText : '#' :: cs = '#' :: cs.takeWhile (· ≠ '\n') ++ cs.dropWhile (· ≠ '\n') := by
      rw [List.cons_append, List.takeWhile_append_dropWhile]
    rw [hText]
    refine ih.skip fun gap rest hRest hGap => .comment (fun hBreak => ?_) (fun c hc => ?_) hGap
    · have hTest := List.all_eq_true.mp List.all_takeWhile _ hBreak
      simp at hTest
    · have hStop := List.head?_dropWhile_not (· ≠ '\n') cs
      rw [hRest, hc] at hStop
      simpa using hStop
  | case4 offset c cs hSpace hHash extra reading hMunch stop ih =>
    obtain ⟨tail, rest, rfl, hExtra, hCuts⟩ := exists_cuts (by simpa using hSpace) hHash cs
    rw [hMunch] at hExtra hCuts
    obtain rfl : extra = tail.length := hExtra
    have hStop : stop = offset + byteWidth (c :: tail) := by
      show offset + byteWidth (c :: (tail ++ rest).take tail.length) = _
      rw [List.take_left]
    rw [List.drop_left] at ih ⊢
    have hSame : c :: (tail ++ rest) = [] ++ ((c :: tail) ++ rest) := rfl
    rw [hSame]
    exact .lexeme (.nil _) hCuts rfl hStop ih

theorem Tiles.eq_scanFrom {offset : Nat} {cs : List Char} {lexemes : List Lexeme}
    (h : Tiles offset cs lexemes) : lexemes = scanFrom offset cs := by
  induction h with
  | @done offset gap hGap =>
    have hScan := scanFrom_skipped hGap offset
    rw [List.append_nil, scanFrom_nil] at hScan
    exact hScan.symm
  | @lexeme offset start stop gap text rest reading lexemes hGap hText hStart hStop hRest ih =>
    obtain ⟨c, cs, rfl, hSpace, hHash⟩ := hText.exists_head
    obtain ⟨tail, rest', hSplit, hExtra, hCuts⟩ := exists_cuts hSpace hHash (cs ++ rest)
    have hSame : (c :: cs) ++ rest = (c :: tail) ++ rest' := congrArg (c :: ·) hSplit
    obtain ⟨hTail, hRest', hReading⟩ := hText.unique hCuts hSame
    obtain rfl : cs = tail := (List.cons.inj hTail).2
    rw [scanFrom_skipped hGap, List.cons_append, scanFrom_lexeme hSpace hHash, hExtra,
      List.take_left, List.drop_left, ← hReading, ← hStart, ← hStop, ← ih]

/-- Where the lexemes of a tiling stand. -/
theorem Tiles.cuts {offset : Nat} {cs : List Char} {lexemes : List Lexeme}
    (h : Tiles offset cs lexemes) : ∀ l ∈ lexemes, ∃ before text rest,
      cs = before ++ (text ++ rest) ∧
        l.span = ⟨offset + byteWidth before, offset + byteWidth (before ++ text)⟩ ∧
        Cuts text rest l.reading := by
  induction h with
  | done => exact nofun
  | @lexeme offset start stop gap text rest reading lexemes hGap hText hStart hStop hRest ih =>
    have hWidth : stop = offset + byteWidth (gap ++ text) := by
      rw [hStop, hStart, byteWidth_append, Nat.add_assoc]
    rw [List.forall_mem_cons]
    refine ⟨⟨gap, text, rest, rfl, by rw [hStart, hWidth], hText⟩, fun l hl => ?_⟩
    obtain ⟨before, text', rest', rfl, hSpan, hCuts⟩ := ih l hl
    refine ⟨gap ++ text ++ before, text', rest', by simp only [List.append_assoc], ?_, hCuts⟩
    rw [hSpan, hWidth]
    simp only [byteWidth_append, Nat.add_assoc]

/-- **The lexemes of a source are those that tile it.**  Their spans are in order, not empty and do
not overlap.  Each of them stands between two characters of the source and covers the longest text
there that matches a pattern, or one character where none does; a run of digits is covered as a
whole, and it is too big exactly if its value is above the largest integer. -/
theorem scan_tiles (source : List Char) :
    (∀ lexemes, Tiles 0 source lexemes ↔ lexemes = scan source) ∧
    (scan source).Pairwise (fun l l' => l.span.stop ≤ l'.span.start) ∧
    ∀ l ∈ scan source, l.span.start < l.span.stop ∧ ∃ before text rest,
      source = before ++ (text ++ rest) ∧
        l.span = ⟨byteWidth before, byteWidth (before ++ text)⟩ ∧
        Cuts text rest l.reading ∧
        ∀ c ∈ text.head?, c.isDigit = true →
          text = (text ++ rest).takeWhile Char.isDigit ∧
          (Decimal.value text ≤ Int64.maxValue.toInt →
            ∃ n : Int64, n.toInt = Decimal.value text ∧ l.reading = .ok (.integer n)) ∧
          (Int64.maxValue.toInt < Decimal.value text →
            l.reading = .error (.tooBig (String.ofList text))) := by
  have hTiles : Tiles 0 source (scan source) := tiles_scanFrom 0 source
  obtain ⟨hOrder, hWidths⟩ := spans_of_scan 0 source
  refine ⟨fun lexemes => ⟨Tiles.eq_scanFrom, fun hSame => hSame ▸ hTiles⟩, hOrder,
    fun l hl => ⟨(hWidths l hl).2, ?_⟩⟩
  obtain ⟨before, text, rest, hSource, hSpan, hCuts⟩ := hTiles.cuts l hl
  rw [Nat.zero_add, Nat.zero_add] at hSpan
  exact ⟨before, text, rest, hSource, hSpan, hCuts, fun c hc hDigit => hCuts.run hc hDigit⟩

/-- A keyword inside a name, a letter that begins no token, a comment, and a mark of two characters
in front of digits. -/
example : (scan "fnx é# fn\n<=9223372036854775808".toList).map (·.span) =
    [⟨0, 3⟩, ⟨4, 6⟩, ⟨11, 13⟩, ⟨13, 32⟩] := by decide +kernel

end Lexeme

end StagedLambda
