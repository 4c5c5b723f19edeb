import StagedLambda.Proofs.Source.Script
import StagedLambda.Proofs.Source.Spelling

/-!
# Phrases spell scripts

The text of a term and its script are assembled alike, so the one spells the other construct by
construct.  What is written next to a construct is a space, a closing parenthesis or nothing, and
none of these goes on with the last word or number of the construct.

* `Term.legible`: the terms that can be read from their written form.
* `Term.phrase_matches`: the phrase of a legible term spells the script of the term.
-/

namespace StagedLambda

/-! ### Pieces of text -/

/-- The text spells the tokens wherever no word goes on with it. -/
def Spelled (text : String) (ts : List Token) : Prop :=
  ∀ rest, Apart rest → Spells text ts rest

theorem apart_space (x : String) (rest : List Char) : Apart ((" " ++ x).toList ++ rest) := by
  rw [String.toList_append]
  exact apart_cons (c := ' ') rfl

namespace Spelled

variable {x y : String} {ts ts' : List Token}

theorem name (h : Lexeme.isName x = true) : Spelled x [.identifier x] := fun _ hApart =>
  (Token.identifier x).spells h hApart

/-- A word and a space in front. -/
theorem opened (k : Token) (hProper : k.proper = true) (h : Spelled x ts) :
    Spelled (k.spelling ++ " " ++ x) (k :: ts) := fun rest hApart =>
  (k.spells_before_space hProper _).append (h rest hApart)

/-- A space between two pieces. -/
theorem spaced (h : Spelled x ts) (h' : Spelled y ts') : Spelled (x ++ " " ++ y) (ts ++ ts') := by
  intro rest hApart
  rw [String.append_assoc]
  have hRight : Spells (" " ++ y) ts' rest := (spells_space _).append (h' rest hApart)
  exact (h _ (apart_space y rest)).append hRight

/-- A token between two pieces, with a space on either side. -/
theorem joined (k : Token) (hProper : k.proper = true) (h : Spelled x ts) (h' : Spelled y ts') :
    Spelled (x ++ (" " ++ k.spelling ++ " ") ++ y) (ts ++ k :: ts') := by
  have hSpaced := h.spaced (h'.opened k hProper)
  simp only [String.append_assoc] at hSpaced ⊢
  exact hSpaced

/-- Parentheses around a piece. -/
theorem enclosed (h : Spelled x ts) :
    Spelled ("(" ++ x ++ ")") (.leftParen :: (ts ++ [.rightParen])) := by
  intro rest _
  have hOpen : Spells "(" [.leftParen] (x.toList ++ (")".toList ++ rest)) :=
    Token.leftParen.spells rfl fun _ _ => rfl
  have hClose : Spells ")" [.rightParen] rest := Token.rightParen.spells rfl fun _ _ => rfl
  exact (hOpen.append (h _ (apart_cons (c := ')') rfl))).append hClose

/-- The closing brace after a piece. -/
theorem closed (h : Spelled x ts) : Spelled (x ++ " \x7d") (ts ++ [.rightBrace]) := by
  intro rest _
  have hBrace : Spells "\x7d" [.rightBrace] rest := Token.rightBrace.spells rfl fun _ _ => rfl
  have hClose : Spells (" " ++ "\x7d") [.rightBrace] rest := (spells_space _).append hBrace
  exact (h _ (apart_space "\x7d" rest)).append hClose

end Spelled

/-! ### Numbers -/

theorem toInt_neg_of_gt {n : Int64} (h : Int64.minValue < n) : (-n).toInt = -n.toInt := by
  have hMin : Int64.minValue.toInt = -0x8000000000000000 := by decide
  have hMax : Int64.maxValue.toInt = 0x7fffffffffffffff := by decide
  have hLow := Int64.lt_iff_toInt_lt.mp h
  have hHigh := n.toInt_le
  rw [Int64.toInt_neg, Int.bmod_eq_of_le] <;> omega

theorem ofInt_eq_minus {n : Int64} (hMin : Int64.minValue < n) (hNegative : n < 0) :
    0 ≤ -n ∧ Decimal.ofInt n.toInt = "-" ++ Decimal.ofInt (-n).toInt := by
  have hBelow : n.toInt < 0 := Int64.lt_iff_toInt_lt.mp hNegative
  have hNeg := toInt_neg_of_gt hMin
  refine ⟨Int64.le_iff_toInt_le.mpr (by rw [hNeg]; exact Int.neg_nonneg_of_nonpos (by omega)), ?_⟩
  obtain ⟨k, hk⟩ := Int.eq_negSucc_of_lt_zero hBelow
  rw [hNeg, hk]
  rfl

/-- A minus sign in front of a numeral is not the start of an arrow. -/
theorem spells_minus {m : Int64} (h : 0 ≤ m) (rest : List Char) :
    Spells "-" [.minus] ((Decimal.ofInt m.toInt).toList ++ rest) := by
  obtain ⟨-, -, hText⟩ := Token.spelling_integer h
  obtain ⟨k, hk, cs, hDigits⟩ := Decimal.exists_cons_digits m.toInt.toNat
  obtain ⟨-, -, -, hArrow⟩ := Lexeme.digit_starts_numeral k hk
  replace hText : Decimal.ofInt m.toInt = Decimal.ofNat m.toInt.toNat := hText
  rw [hText, Decimal.ofNat, String.toList_ofList, hDigits]
  refine Token.minus.spells rfl ?_
  rintro c ⟨⟩
  exact decide_eq_false hArrow

theorem spelled_numeral {n : Int64} (hMin : Int64.minValue < n) :
    Spelled (Decimal.ofInt n.toInt) (Script.numeral n) := by
  intro rest hApart
  by_cases hNegative : n < 0
  · obtain ⟨hNonneg, hText⟩ := ofInt_eq_minus hMin hNegative
    have hNumber := (Token.integer (-n)).spells (decide_eq_true hNonneg) hApart
    rw [Script.numeral, if_pos hNegative, hText]
    exact (spells_minus hNonneg rest).append hNumber
  · rw [Script.numeral, if_neg hNegative]
    exact (Token.integer n).spells (decide_eq_true (Int64.not_lt.mp hNegative)) hApart

theorem spelled_spliceMark {shift : Int64} (hMin : Int64.minValue < shift) :
    Spelled (Phrase.spliceMark shift) (Script.spliceMark shift) := by
  intro rest hApart
  by_cases hOne : shift = 1
  · rw [Phrase.spliceMark, Script.spliceMark, if_pos hOne, if_pos hOne]
    exact Token.tilde.spells rfl fun _ _ => rfl
  · rw [Phrase.spliceMark, Script.spliceMark, if_neg hOne, if_neg hOne]
    exact (Token.tilde.spells rfl fun _ _ => rfl).append (spelled_numeral hMin rest hApart)

/-! ### Phrases -/

structure Phrase.Matches (p : Phrase) (s : Script) : Prop where
  tier : p.tier = s.tier
  spelled : Spelled p.text s.tokens

namespace Phrase.Matches

variable {p q r : Phrase} {s u v : Script}

theorem within (h : p.Matches s) (τ : Tier) : Spelled (p.within τ) (s.within τ) := by
  by_cases hLoose : s.tier.rank < τ.rank
  · have hText : p.within τ = "(" ++ p.text ++ ")" := if_pos (h.tier.symm ▸ hLoose)
    rw [hText, Script.within_of_lt hLoose]
    exact h.spelled.enclosed
  · have hText : p.within τ = p.text := if_neg (h.tier.symm ▸ hLoose)
    rw [hText, Script.within_of_le (Nat.not_lt.mp hLoose)]
    exact h.spelled

theorem whole (h : p.Matches s) : Spelled (p.within .expression) s.tokens := by
  have hSpelled := h.within .expression
  rwa [Script.within_expression] at hSpelled

theorem binary (hp : p.Matches s) (hq : q.Matches u) (k : Token) (hProper : k.proper = true)
    (tier left right : Tier) :
    (Phrase.binary tier left right k.spelling p q).Matches (.binary tier left right k s u) := by
  refine ⟨rfl, ?_⟩
  have hJoined := (hp.within left).joined k hProper (hq.within right)
  simp only [← String.append_assoc] at hJoined
  exact hJoined

/-- A body in braces, after the opening mark and the brace. -/
theorem braced (h : p.Matches s) {opening : String} {ts : List Token}
    (hOpening : ∀ rest, Spells (opening ++ "\x7b ") ts rest) :
    (Phrase.braced opening p).Matches ⟨.atom, ts ++ (s.tokens ++ [.rightBrace])⟩ := by
  refine ⟨rfl, fun rest hApart => ?_⟩
  have hBody := (hOpening _).append (h.whole.closed rest hApart)
  simp only [← String.append_assoc] at hBody
  exact hBody

end Phrase.Matches

namespace Term

/-- The terms that can be read from their written form. -/
def legible (t : Term) : Bool :=
  t.every fun
    | .var id | .lam id _ | .fix id _ | .letIn id _ _ => Lexeme.isName id.text
    | .int n | .splice n _ => Int64.minValue < n
    | .prim op args => args.length = op.arity
    | _ => true

theorem phrase_matches (t : Term) (h : t.legible = true) : t.phrase.Matches t.script := by
  induction t with
  | var id => exact ⟨rfl, Spelled.name h⟩
  | int n => exact ⟨rfl, spelled_numeral (of_decide_eq_true h)⟩
  | bool b =>
    have hText : (bool b).phrase.text = (Token.boolean b).spelling := by cases b <;> rfl
    refine ⟨rfl, fun rest hApart => ?_⟩
    rw [hText]
    exact (Token.boolean b).spells rfl hApart
  | lam param body ih =>
    simp only [legible, every, Bool.and_eq_true] at h
    exact ⟨rfl, ((Spelled.name h.1).opened .fnWord rfl).joined .arrow rfl (ih h.2).whole⟩
  | fix self body ih =>
    simp only [legible, every, Bool.and_eq_true] at h
    exact ⟨rfl, ((Spelled.name h.1).opened .fixWord rfl).joined .arrow rfl (ih h.2).whole⟩
  | letIn id bound body hBound hBody =>
    simp only [legible, every, Bool.and_eq_true] at h
    exact ⟨rfl, (((Spelled.name h.1).opened .letWord rfl).joined .assign rfl
      (hBound h.2.1).whole).joined .inWord rfl (hBody h.2.2).whole⟩
  | ite cond yes no hCond hYes hNo =>
    simp only [legible, every, Bool.and_eq_true] at h
    have hText := (((hCond h.2.1).whole.opened .ifWord rfl).joined .thenWord rfl
      (hYes h.2.2.1).whole).joined .elseWord rfl (hNo h.2.2.2).whole
    simp only [List.cons_append, List.append_assoc] at hText
    exact ⟨rfl, hText⟩
  | app fn arg hFn hArg =>
    simp only [legible, every, Bool.and_eq_true] at h
    exact ⟨rfl, ((hFn h.2.1).within .application).spaced ((hArg h.2.2).within .atom)⟩
  | logic op left right hLeft hRight =>
    simp only [legible, every, Bool.and_eq_true] at h
    have hSymbol : op.symbol = (Token.ofLogic op).spelling := by cases op <;> rfl
    have hProper : (Token.ofLogic op).proper = true := by cases op <;> rfl
    rw [phrase, hSymbol]
    exact (hLeft h.2.1).binary (hRight h.2.2) _ hProper _ _ _
  | prim op args ih =>
    simp only [legible, every, Bool.and_eq_true, decide_eq_true_eq, everyAll_iff] at h
    obtain ⟨hLength, hArgs⟩ := h
    have hArg : ∀ a ∈ args, a.phrase.Matches a.script := fun a ha => ih a ha (hArgs a ha)
    cases operands_of_length hLength with
    | one a => exact ⟨rfl, ((hArg a (by simp)).within .unary).opened .notWord rfl⟩
    | arith op a b =>
      have hSymbol : op.symbol = (Token.ofArith op).spelling := by cases op <;> rfl
      have hProper : (Token.ofArith op).proper = true := by cases op <;> rfl
      show (Phrase.chained op.tier op.symbol a.phrase b.phrase).Matches _
      rw [hSymbol]
      exact (hArg a (by simp)).binary (hArg b (by simp)) _ hProper _ _ _
    | compare op a b =>
      have hSymbol : op.symbol = (Token.ofCompare op).spelling := by cases op <;> rfl
      have hProper : (Token.ofCompare op).proper = true := by cases op <;> rfl
      show (Phrase.binary .comparison .sum .sum op.symbol a.phrase b.phrase).Matches _
      rw [hSymbol]
      exact (hArg a (by simp)).binary (hArg b (by simp)) _ hProper _ _ _
  | quote body ih =>
    -- The backquote and the brace are written apart and read as one token.
    have hOpening : ∀ rest, Spells ("\x60" ++ "\x7b ") [.quoteOpen] rest :=
      Token.quoteOpen.spells_before_space rfl
    exact (ih h).braced hOpening
  | splice shift body ih =>
    simp only [legible, every, Bool.and_eq_true, decide_eq_true_eq] at h
    have hOpening : ∀ rest, Spells (Phrase.spliceMark shift ++ "\x7b ")
        (Script.spliceMark shift ++ [.leftBrace]) rest := fun rest =>
      (spelled_spliceMark h.1 _ (apart_cons (c := '\x7b') rfl)).append
        (Token.leftBrace.spells_before_space rfl rest)
    have hBody := (ih h.2).braced hOpening
    rw [List.append_assoc] at hBody
    exact hBody

end Term

end StagedLambda
