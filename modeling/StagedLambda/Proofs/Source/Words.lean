import Mathlib.Data.List.Basic
import Mathlib.Tactic.Tauto
import StagedLambda.Proofs.Source.Spelling
import StagedLambda.Term.Text

/-!
# The words of written terms

Numbers, marks of splices, names of operators and identifiers are each written without spaces and
brackets, and each of them is known from its text.  A color has an at sign, which no name has, and
behind it the tag; in front of it stands the base name or, if there is none, an underscore, which
is no name.

* `Decimal.ofInt_injective`, `Phrase.spliceMark_injective`, `PrimOp.name_injective`.
* `Ident.text_injective`: texts determine identifiers.
-/

namespace StagedLambda

/-! ### Numbers -/

namespace Decimal

theorem toList_ofNat (n : Nat) : (ofNat n).toList = digits n := String.toList_ofList

theorem isDigit_of_mem {n : Nat} {c : Char} (h : c ∈ digits n) : c.isDigit = true := by
  obtain ⟨k, hk, rfl⟩ := exists_digit_of_mem h
  exact isDigit_digit hk

theorem ofNat_injective : Function.Injective ofNat := by
  intro m n h
  have hDigits : digits m = digits n := by rw [← toList_ofNat, h, toList_ofNat]
  rw [← value_digits m, hDigits, value_digits]

theorem toList_ofInt (n : Int) : (ofInt n).toList = digits n.natAbs ∨
    (ofInt n).toList = '-' :: digits n.natAbs := by
  cases n with
  | ofNat n => exact .inl (toList_ofNat n)
  | negSucc n =>
    refine .inr ?_
    rw [ofInt, String.toList_append, toList_ofNat]
    rfl

theorem ofInt_injective : Function.Injective ofInt := by
  have hSign : ∀ m n : Nat, ofNat m ≠ "-" ++ ofNat n := by
    intro m n h
    have hMinus : '-' ∈ digits m := by
      rw [← toList_ofNat, h, String.toList_append]
      exact List.mem_cons_self
    exact absurd (isDigit_of_mem hMinus) (by decide)
  intro m n h
  cases m with
  | ofNat m =>
    cases n with
    | ofNat n => exact congrArg Int.ofNat (ofNat_injective h)
    | negSucc n => exact absurd h (hSign m (n + 1))
  | negSucc m =>
    cases n with
    | ofNat n => exact absurd h.symm (hSign n (m + 1))
    | negSucc n =>
      have hSame : ofNat (m + 1) = ofNat (n + 1) := String.append_right_inj _ |>.mp h
      exact congrArg Int.negSucc (Nat.succ.inj (ofNat_injective hSame))

/-- What begins a number begins no word. -/
theorem exists_head (n : Int) :
    ∃ c cs, (ofInt n).toList = c :: cs ∧ Lexeme.isWordStart c = false := by
  rcases toList_ofInt n with hText | hText
  · obtain ⟨k, hk, cs, hDigits⟩ := exists_cons_digits n.natAbs
    exact ⟨_, cs, hText.trans hDigits, (Lexeme.digit_starts_numeral k hk).1⟩
  · exact ⟨_, _, hText, rfl⟩

end Decimal

theorem Phrase.spliceMark_injective : Function.Injective Phrase.spliceMark := by
  have hMark : ∀ n : Int, "~" ≠ "~" ++ Decimal.ofInt n := by
    intro n h
    obtain ⟨c, cs, hText, -⟩ := Decimal.exists_head n
    have hNone : (Decimal.ofInt n).toList = [] := by simpa using congrArg String.toList h
    rw [hText] at hNone
    cases hNone
  intro m n h
  rw [spliceMark, spliceMark] at h
  split at h <;> split at h
  next hm hn => exact hm.trans hn.symm
  · exact absurd h (hMark _)
  · exact absurd h.symm (hMark _)
  · exact Int64.toInt_inj.mp (Decimal.ofInt_injective ((String.append_right_inj _).mp h))

/-! ### Names -/

theorem PrimOp.name_injective : Function.Injective PrimOp.name := by
  have hAll : ∀ op ∈ PrimOp.all, ∀ op' ∈ PrimOp.all, op.name = op'.name → op = op' := by decide
  exact fun op op' => hAll op op.mem_all op' op'.mem_all

namespace Lexeme

theorem isWordPart_of_isWordStart {c : Char} (h : isWordStart c = true) : isWordPart c = true := by
  simp only [isWordStart, isWordPart, Char.isAlphanum, Bool.or_eq_true] at h ⊢
  tauto

theorem exists_of_isWord {x : String} (h : isWord x = true) :
    ∃ c cs, x.toList = c :: cs ∧ isWordStart c = true ∧ ∀ d ∈ x.toList, isWordPart d = true := by
  rw [isWord] at h
  split at h
  · cases h
  next c cs hText =>
    rw [Bool.and_eq_true, List.all_eq_true] at h
    refine ⟨c, cs, hText, h.1, ?_⟩
    rw [hText, List.forall_mem_cons]
    exact ⟨isWordPart_of_isWordStart h.1, h.2⟩

theorem isWord_of_isName {x : String} (h : isName x = true) : isWord x = true :=
  (Bool.and_eq_true_iff.mp h).1

end Lexeme

namespace Ident

/-- What a program or its code can have for an identifier: a name, or a color with a name or with
none. -/
def isSpelled : Ident → Bool
  | .raw x => Lexeme.isName x
  | .generated _ => false
  | .colored x _ => x = "" || Lexeme.isName x

/-- What stands in front of the tag of a color. -/
def stem (x : String) : String := if x = "" then "_" else x

theorem isWord_stem {x : String} (h : (x = "" || Lexeme.isName x) = true) :
    Lexeme.isWord (stem x) = true := by
  rw [stem]
  split
  · decide
  next hName =>
    rw [decide_eq_false hName, Bool.false_or] at h
    exact Lexeme.isWord_of_isName h

/-- No name is the underscore that stands for a missing one. -/
theorem stem_injective {x y : String} (hx : (x = "" || Lexeme.isName x) = true)
    (hy : (y = "" || Lexeme.isName y) = true) (h : stem x = stem y) : x = y := by
  have hUnderscore : Lexeme.isName "_" = false := by decide
  rw [stem, stem] at h
  split at h <;> split at h
  next hxNone hyNone => exact hxNone.trans hyNone.symm
  next hyName =>
    rw [← h, hUnderscore] at hy
    cases hy
  next hxName _ =>
    rw [decide_eq_false hxName, Bool.false_or, h, hUnderscore] at hx
    cases hx
  · exact h

theorem toList_text_colored (x : String) (tag : Nat) :
    (Ident.colored x tag).text.toList = (stem x).toList ++ '@' :: Decimal.digits tag := by
  rw [text, String.toList_append, String.toList_append, Decimal.toList_ofNat, List.append_assoc]
  rfl

/-- The text of an identifier begins as a word does. -/
theorem exists_head {id : Ident} (h : id.isSpelled = true) :
    ∃ c cs, id.text.toList = c :: cs ∧ Lexeme.isWordStart c = true := by
  cases id with
  | generated => cases h
  | raw x =>
    obtain ⟨c, cs, hText, hStart, -⟩ := Lexeme.exists_of_isWord (Lexeme.isWord_of_isName h)
    exact ⟨c, cs, hText, hStart⟩
  | colored x tag =>
    obtain ⟨c, cs, hText, hStart, -⟩ := Lexeme.exists_of_isWord (isWord_stem h)
    exact ⟨c, _, by rw [toList_text_colored, hText, List.cons_append], hStart⟩

/-- **Texts determine identifiers.** -/
theorem text_injective {a b : Ident} (ha : a.isSpelled = true) (hb : b.isSpelled = true)
    (h : a.text = b.text) : a = b := by
  have hAt : ∀ {x : String}, Lexeme.isWord x = true → '@' ∉ x.toList := by
    intro x hx hMem
    obtain ⟨-, -, -, -, hParts⟩ := Lexeme.exists_of_isWord hx
    exact absurd (hParts _ hMem) (by decide)
  -- Only colors have an at sign.
  have hRaw : ∀ {x y : String} {tag : Nat}, Lexeme.isName x = true →
      x ≠ (Ident.colored y tag).text := by
    rintro x y tag hx rfl
    refine hAt (Lexeme.isWord_of_isName hx) ?_
    rw [toList_text_colored]
    simp
  cases a with
  | generated => cases ha
  | raw x =>
    cases b with
    | generated => cases hb
    | raw y => exact congrArg raw h
    | colored y tag => exact absurd h (hRaw ha)
  | colored x tag =>
    cases b with
    | generated => cases hb
    | raw y => exact absurd h.symm (hRaw hb)
    | colored y tag' =>
      have hDigits : '@' ∉ Decimal.digits tag := fun hMem =>
        absurd (Decimal.isDigit_of_mem hMem) (by decide)
      have hLists := congrArg String.toList h
      rw [toList_text_colored, toList_text_colored] at hLists
      obtain ⟨hStems, -, hTags⟩ :=
        (List.append_cons_inj_of_notMem (hAt (isWord_stem ha)) hDigits).mp hLists
      have hNames : x = y := stem_injective ha hb (String.toList_inj.mp hStems)
      have hSame : tag = tag' := by rw [← Decimal.value_digits tag, hTags, Decimal.value_digits]
      rw [hNames, hSame]

end Ident

end StagedLambda
