import StagedLambda.Source.Program

/-!
# The spelling of tokens

A text spells tokens in front of other characters if the scan cuts it off there and reads the
tokens from it.  The characters that follow belong to the judgement, because a lexeme is as long as
some token allows: `fn` spells a keyword in front of a space and not in front of a letter.

* `Spells.append`: what is spelled piece by piece is spelled as a whole.
* `Token.spells`: every token is spelled by its spelling, in front of a character that does not go
  on with it.  An identifier has to be a name for this, and an integer may not be below zero.
-/

namespace StagedLambda

/-! ### Names -/

namespace Lexeme

/-- The words that have a meaning of their own. -/
def reserved : List String :=
  ["fn", "fix", "let", "in", "if", "then", "else", "not", "true", "false", "_"]

def isWord (text : String) : Bool :=
  match text.toList with
  | [] => false
  | c :: cs => isWordStart c && cs.all isWordPart

/-- The words that can name a variable. -/
def isName (text : String) : Bool := isWord text && !reserved.contains text

theorem word_of_isName {x : String} (h : isName x = true) : word x = .identifier x := by
  have hReserved : x ∉ reserved := by simp_all [isName]
  simp only [reserved, List.mem_cons, not_or] at hReserved
  simp [word, hReserved]

theorem isSpace_of_isWordStart {c : Char} (h : isWordStart c = true) : isSpace c = false := by
  rw [← Bool.not_eq_true]
  intro hSpace
  simp only [isSpace, Bool.or_eq_true, decide_eq_true_eq] at hSpace
  rcases hSpace with (((rfl | rfl) | rfl) | rfl) | rfl <;> exact absurd h (by decide)

theorem ne_hash_of_isWordStart {c : Char} (h : isWordStart c = true) : c ≠ '#' := by
  rintro rfl
  exact absurd h (by decide)

/-- What starts a mark starts nothing else. -/
theorem mark_of_pair? {c d : Char} {t : Token} (h : pair? c d = some t) :
    isWordStart c = false ∧ c.isDigit = false ∧ isSpace c = false ∧ c ≠ '#' := by
  unfold pair? at h
  split at h <;> first | decide | cases h

theorem mark_of_single? {c : Char} {t : Token} (h : single? c = some t) :
    isWordStart c = false ∧ c.isDigit = false ∧ isSpace c = false ∧ c ≠ '#' := by
  unfold single? at h
  split at h <;> first | decide | cases h

theorem pair?_eq_none {c d : Char} (hc : c ∈ ['=', '<', '>']) (hd : d ≠ '=') :
    pair? c d = none := by
  simp only [List.mem_cons, List.not_mem_nil, or_false] at hc
  rcases hc with rfl | rfl | rfl <;> simp [pair?, hd]

/-- The first character of a numeral starts no word, no comment and no arrow. -/
theorem digit_starts_numeral : ∀ k < 10, isWordStart (Decimal.digit k) = false ∧
    isSpace (Decimal.digit k) = false ∧ Decimal.digit k ≠ '#' ∧ Decimal.digit k ≠ '>' := by
  decide

end Lexeme

theorem Decimal.exists_digit_of_mem {n : Nat} {c : Char} (h : c ∈ Decimal.digits n) :
    ∃ k < 10, c = Decimal.digit k := by
  induction n using Nat.strongRecOn with
  | ind n ih =>
    by_cases hn : n < 10
    · rw [Decimal.digits_of_lt hn, List.mem_singleton] at h
      exact ⟨n, hn, h⟩
    · rw [Decimal.digits_of_ge (by omega), List.mem_append, List.mem_singleton] at h
      rcases h with h | rfl
      · exact ih (n / 10) (by omega) h
      · exact ⟨n % 10, by omega, rfl⟩

theorem Decimal.exists_cons_digits (n : Nat) :
    ∃ k < 10, ∃ cs, Decimal.digits n = digit k :: cs := by
  cases hDigits : Decimal.digits n with
  | nil =>
    rw [Decimal.digits] at hDigits
    split at hDigits <;> simp at hDigits
  | cons c cs =>
    obtain ⟨k, hk, rfl⟩ := exists_digit_of_mem (n := n) (c := c) (by simp [hDigits])
    exact ⟨k, hk, cs, rfl⟩

/-! ### Spelling -/

/-- In front of `rest` the text is cut into lexemes that read as the tokens `ts`. -/
def Spells (text : String) (ts : List Token) (rest : List Char) : Prop :=
  ∀ offset, ∃ lexemes : List Lexeme, lexemes.map (·.reading) = ts.map .ok ∧
    Lexeme.scanFrom offset (text.toList ++ rest) =
      lexemes ++ Lexeme.scanFrom (offset + byteWidth text.toList) rest

/-- No word goes on with what follows. -/
def Apart (rest : List Char) : Prop := ∀ c ∈ rest.head?, Lexeme.isWordPart c = false

theorem apart_nil : Apart [] := nofun

theorem apart_cons {c : Char} {rest : List Char} (h : Lexeme.isWordPart c = false) :
    Apart (c :: rest) := by
  intro d hd
  cases hd
  exact h

theorem takeWhile_append_stop {p : Char → Bool} {cs rest : List Char} (h : cs.all p = true)
    (hStop : ∀ c ∈ rest.head?, p c = false) : (cs ++ rest).takeWhile p = cs := by
  rw [List.takeWhile_append_of_pos (List.all_eq_true.mp h)]
  cases rest with
  | nil => simp
  | cons c rest => simp [hStop c rfl]

section

variable {x y : String} {ts ts' : List Token} {rest : List Char}

theorem Spells.append (h : Spells x ts (y.toList ++ rest)) (h' : Spells y ts' rest) :
    Spells (x ++ y) (ts ++ ts') rest := by
  intro offset
  obtain ⟨lexemes, hReadings, hScan⟩ := h offset
  obtain ⟨lexemes', hReadings', hScan'⟩ := h' (offset + byteWidth x.toList)
  refine ⟨lexemes ++ lexemes', by rw [List.map_append, List.map_append, hReadings, hReadings'], ?_⟩
  rw [String.toList_append, List.append_assoc, hScan, hScan', byteWidth_append, List.append_assoc,
    Nat.add_assoc]

theorem spells_space (rest : List Char) : Spells " " [] rest := fun offset =>
  ⟨[], rfl, Lexeme.scanFrom_space (c := ' ') rfl offset rest⟩

/-- One lexeme. -/
theorem spells_of_munch {c : Char} {cs : List Char} {t : Token} (hText : x.toList = c :: cs)
    (hSpace : Lexeme.isSpace c = false) (hHash : c ≠ '#')
    (hMunch : Lexeme.munch c (cs ++ rest) = (cs.length, .ok t)) : Spells x [t] rest := by
  intro offset
  rw [hText, List.cons_append, Lexeme.scanFrom_lexeme hSpace hHash, hMunch]
  simp only [List.take_left, List.drop_left]
  exact ⟨[_], rfl, rfl⟩

theorem spells_word (h : Lexeme.isWord x = true) (hApart : Apart rest) :
    Spells x [Lexeme.word x] rest := by
  cases hText : x.toList with
  | nil => simp [Lexeme.isWord, hText] at h
  | cons c cs =>
    simp only [Lexeme.isWord, hText, Bool.and_eq_true] at h
    refine spells_of_munch hText (Lexeme.isSpace_of_isWordStart h.1)
      (Lexeme.ne_hash_of_isWordStart h.1) ?_
    have hWhole : String.ofList (c :: cs) = x := by rw [← hText, String.ofList_toList]
    rw [Lexeme.munch, if_pos h.1, takeWhile_append_stop h.2 hApart]
    simp only [hWhole]

theorem spells_numeral {n : Nat} (h : n < 0x8000000000000000) (hApart : Apart rest) :
    Spells (Decimal.ofNat n) [.integer (.ofNat n)] rest := by
  obtain ⟨k, hk, cs, hDigits⟩ := Decimal.exists_cons_digits n
  obtain ⟨hStart, hSpace, hHash, -⟩ := Lexeme.digit_starts_numeral k hk
  have hText : (Decimal.ofNat n).toList = Decimal.digit k :: cs := by
    rw [Decimal.ofNat, String.toList_ofList, hDigits]
  have hTail : cs.all Char.isDigit = true := by
    refine List.all_eq_true.mpr fun c hc => ?_
    obtain ⟨i, hi, rfl⟩ := Decimal.exists_digit_of_mem (n := n) (c := c) (by simp [hDigits, hc])
    exact Decimal.isDigit_digit hi
  have hStop : ∀ c ∈ rest.head?, c.isDigit = false := by
    intro c hc
    have hPart := hApart c hc
    simp_all [Lexeme.isWordPart, Char.isAlphanum]
  have hNumeral : Lexeme.numeral (Decimal.digit k :: cs) = .ok (.integer (.ofNat n)) := by
    rw [← hDigits, Lexeme.numeral, Decimal.value_digits, if_pos h]
  refine spells_of_munch hText hSpace hHash ?_
  rw [Lexeme.munch, if_neg (by simp [hStart]), if_pos (Decimal.isDigit_digit hk),
    takeWhile_append_stop hTail hStop]
  simp only [hNumeral]

theorem spells_pair {c d : Char} {t : Token} (hText : x.toList = [c, d])
    (hPair : Lexeme.pair? c d = some t) : Spells x [t] rest := by
  obtain ⟨hStart, hDigit, hSpace, hHash⟩ := Lexeme.mark_of_pair? hPair
  refine spells_of_munch hText hSpace hHash ?_
  simp [Lexeme.munch, hStart, hDigit, hPair]

theorem spells_single {c : Char} {t : Token} (hText : x.toList = [c])
    (hSingle : Lexeme.single? c = some t) (hAlone : ∀ d ∈ rest.head?, Lexeme.pair? c d = none) :
    Spells x [t] rest := by
  obtain ⟨hStart, hDigit, hSpace, hHash⟩ := Lexeme.mark_of_single? hSingle
  have hPair : rest.head?.bind (Lexeme.pair? c) = none := by
    cases hHead : rest.head? with
    | none => rfl
    | some d => exact hAlone d hHead
  refine spells_of_munch hText hSpace hHash ?_
  simp [Lexeme.munch, hStart, hDigit, hPair, hSingle]

end

/-! ### Tokens -/

namespace Token

/-- The tokens that a source can hold. -/
def proper : Token → Bool
  | .identifier x => Lexeme.isName x
  | .integer n => 0 ≤ n
  | _ => true

/-- The tokens that stand for nothing but themselves. -/
def fixed : List Token :=
  [.fnWord, .fixWord, .letWord, .inWord, .ifWord, .thenWord, .elseWord, .notWord, .boolean true,
    .boolean false, .arrow, .assign, .leftParen, .rightParen, .quoteOpen, .tilde, .leftBrace,
    .rightBrace, .plus, .minus, .star, .slash, .percent, .equal, .notEqual, .less, .lessEqual,
    .greater, .greaterEqual, .andAnd, .orOr, .underscore]

/-- Whether a longer lexeme results if the character follows the token. -/
def goesOn : Token → Char → Bool
  | .minus, c => c = '>'
  | .assign, c | .less, c | .greater, c => c = '='
  | .arrow, _ | .leftParen, _ | .rightParen, _ | .quoteOpen, _ | .tilde, _ | .leftBrace, _
  | .rightBrace, _ | .plus, _ | .star, _ | .slash, _ | .percent, _ | .equal, _ | .notEqual, _
  | .lessEqual, _ | .greaterEqual, _ | .andAnd, _ | .orOr, _ => false
  | _, c => Lexeme.isWordPart c

theorem goesOn_space (t : Token) : t.goesOn ' ' = false := by cases t <;> rfl

theorem spelling_integer {n : Int64} (h : 0 ≤ n) :
    n.toInt.toNat < 0x8000000000000000 ∧ Int64.ofNat n.toInt.toNat = n ∧
      (integer n).spelling = Decimal.ofNat n.toInt.toNat := by
  have hNonneg : 0 ≤ n.toInt := Int64.le_iff_toInt_le.mp h
  have hBound : n.toInt ≤ Int64.maxValue.toInt := n.toInt_le
  have hMax : Int64.maxValue.toInt = 0x7fffffffffffffff := by decide
  obtain ⟨m, hm⟩ := Int.eq_ofNat_of_zero_le hNonneg
  refine ⟨by omega, ?_, ?_⟩
  · rw [hm, Int.toNat_natCast, ← Int64.ofInt_eq_ofNat, ← hm, Int64.ofInt_toInt]
  · show Decimal.ofInt n.toInt = _
    rw [hm]
    rfl

/-- **A token is spelled by its spelling**, in front of a character that does not go on with it. -/
theorem spells (t : Token) (h : t.proper = true) {rest : List Char}
    (hEnd : ∀ c ∈ rest.head?, t.goesOn c = false) : Spells t.spelling [t] rest := by
  cases t with
  | fnWord | fixWord | letWord | inWord | ifWord | thenWord | elseWord | notWord | underscore =>
    exact spells_word (x := Token.spelling _) (by decide) hEnd
  | boolean b => cases b <;> exact spells_word (x := Token.spelling _) (by decide) hEnd
  | identifier x =>
    have hWord : Lexeme.isWord x = true := by simp_all [proper, Lexeme.isName]
    have hSpells := spells_word hWord hEnd
    rw [Lexeme.word_of_isName h] at hSpells
    exact hSpells
  | integer n =>
    obtain ⟨hBound, hValue, hSpelling⟩ := spelling_integer (of_decide_eq_true h)
    have hSpells := spells_numeral hBound hEnd
    rw [hValue, ← hSpelling] at hSpells
    exact hSpells
  | arrow | quoteOpen | equal | notEqual | lessEqual | greaterEqual | andAnd | orOr =>
    exact spells_pair rfl rfl
  | leftParen | rightParen | tilde | leftBrace | rightBrace | plus | star | slash | percent =>
    exact spells_single rfl rfl fun _ _ => rfl
  -- These marks of one character also start marks of two.
  | minus =>
    have hOther : ∀ d ∈ rest.head?, d ≠ '>' := fun d hd => of_decide_eq_false (hEnd d hd)
    exact spells_single (c := '-') rfl rfl fun d hd => by simp [Lexeme.pair?, hOther d hd]
  | assign | less | greater =>
    refine spells_single rfl rfl fun d hd => Lexeme.pair?_eq_none (by decide) ?_
    exact of_decide_eq_false (hEnd d hd)

theorem spells_before_space (t : Token) (h : t.proper = true) (rest : List Char) :
    Spells (t.spelling ++ " ") [t] rest := by
  have hEnd : ∀ c ∈ (" ".toList ++ rest).head?, t.goesOn c = false := by
    rintro c ⟨⟩
    exact t.goesOn_space
  exact (t.spells h hEnd).append (spells_space rest)

end Token

/-! ### Whole sources -/

namespace Program

/-- The tokens of lexemes that all read as tokens. -/
theorem tokens_of_readings {lexemes : List Lexeme} {ts : List Token}
    (h : lexemes.map (·.reading) = ts.map .ok) :
    ∃ marked, tokens lexemes = .ok marked ∧ marked.map (·.1) = ts := by
  induction lexemes generalizing ts with
  | nil =>
    cases ts with
    | nil => exact ⟨[], rfl, rfl⟩
    | cons t ts => cases h
  | cons l lexemes ih =>
    cases ts with
    | nil => cases h
    | cons t ts =>
      obtain ⟨span, reading⟩ := l
      simp only [List.map_cons, List.cons.injEq] at h
      obtain ⟨rfl, hRest⟩ := h
      obtain ⟨marked, hTokens, hMarked⟩ := ih hRest
      refine ⟨(t, span) :: marked, ?_, by rw [List.map_cons, hMarked]⟩
      rw [tokens, hTokens]
      rfl

theorem mem_of_tokens {lexemes : List Lexeme} {marked : List (Token × Span)}
    (h : tokens lexemes = .ok marked) {t : Token} (ht : t ∈ marked.map (·.1)) :
    ∃ l ∈ lexemes, l.reading = .ok t := by
  induction lexemes generalizing marked with
  | nil =>
    cases h
    cases ht
  | cons l lexemes ih =>
    obtain ⟨span, fault | t'⟩ := l
    · cases h
    · rw [tokens] at h
      cases hTokens : tokens lexemes with
      | error e => rw [hTokens] at h; cases h
      | ok rest =>
        rw [hTokens] at h
        cases h
        rw [List.map_cons, List.mem_cons] at ht
        rcases ht with rfl | ht
        · exact ⟨_, List.mem_cons_self, rfl⟩
        · obtain ⟨l, hl, hReading⟩ := ih hTokens ht
          exact ⟨l, List.mem_cons_of_mem _ hl, hReading⟩

end Program

namespace Lexeme

theorem proper_word {x : String} (h : isWord x = true) : (word x).proper = true := by
  by_cases hReserved : x ∈ reserved
  · simp only [reserved, List.mem_cons, List.not_mem_nil, or_false] at hReserved
    rcases hReserved with rfl | rfl | rfl | rfl | rfl | rfl | rfl | rfl | rfl | rfl | rfl <;> rfl
  · have hName : isName x = true := by simp [isName, h, hReserved]
    rw [word_of_isName hName]
    exact hName

theorem proper_numeral {digits : List Char} {t : Token} (h : numeral digits = .ok t) :
    t.proper = true := by
  rw [numeral] at h
  split at h
  next hBound =>
    cases h
    have hValue : (Int64.ofNat (Decimal.value digits)).toInt = Decimal.value digits :=
      Int64.toInt_ofNat_of_lt hBound
    refine decide_eq_true (Int64.le_iff_toInt_le.mpr ?_)
    rw [hValue]
    exact Int.natCast_nonneg _
  · cases h

theorem proper_of_pair? {c d : Char} {t : Token} (h : pair? c d = some t) : t.proper = true := by
  unfold pair? at h
  split at h <;> cases h <;> rfl

theorem proper_of_single? {c : Char} {t : Token} (h : single? c = some t) : t.proper = true := by
  unfold single? at h
  split at h <;> cases h <;> rfl

theorem proper_of_munch {c : Char} {cs : List Char} {t : Token} (h : (munch c cs).2 = .ok t) :
    t.proper = true := by
  rw [munch] at h
  split at h
  next hStart =>
    cases h
    refine proper_word ?_
    simp [isWord, hStart]
  next =>
    split at h
    · exact proper_numeral h
    · split at h
      next hPair =>
        cases h
        obtain ⟨d, -, hPair⟩ := Option.bind_eq_some_iff.mp hPair
        exact proper_of_pair? hPair
      next =>
        split at h
        next hSingle =>
          cases h
          exact proper_of_single? hSingle
        · cases h

/-- **Every token of a source is proper.** -/
theorem proper_of_scan {offset : Nat} {cs : List Char} {l : Lexeme} {t : Token}
    (hMem : l ∈ scanFrom offset cs) (hReading : l.reading = .ok t) : t.proper = true := by
  fun_induction scanFrom offset cs with
  | case1 => cases hMem
  | case2 offset c cs hSpace ih => exact ih hMem
  | case3 offset cs hSpace ih => exact ih hMem
  | case4 offset c cs hSpace hHash extra reading hMunch stop ih =>
    rcases List.mem_cons.mp hMem with rfl | hMem
    · have hToken : (munch c cs).2 = .ok t := by rw [hMunch]; exact hReading
      exact proper_of_munch hToken
    · exact ih hMem

end Lexeme

end StagedLambda
