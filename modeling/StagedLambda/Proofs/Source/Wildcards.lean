import StagedLambda.Proofs.Source.WellFormed
import StagedLambda.Proofs.Term.Alpha

/-!
# Wildcards in writing

A wildcard binder has no name, but it is written with one, which is a name like any other.  So the
text of a program always reads again; what it reads as is alpha-equivalent to the program exactly
if no variable in the scope of a wildcard happens to have the name by which the wildcard is written.
Such a variable is captured.

* `Term.legible_of_grammatical`: the text of a program can be read.
* `Term.alphaEq_reread_iff`: when what is written means what it was written from.
* `Program.read_wildcards`: both for programs that have been read.
-/

namespace StagedLambda

/-! ### The written form of a wildcard -/

/-- A wildcard is written as a name. -/
theorem Ident.isName_text_generated (tag : Nat) :
    Lexeme.isName (Ident.generated tag).text = true := by
  have hText : (Ident.generated tag).text.toList = '_' :: 'g' :: Decimal.digits tag := by
    rw [text, Decimal.ofNat, String.toList_append, String.toList_ofList, String.toList_ofList]
    rfl
  have hDigits : (Decimal.digits tag).all Lexeme.isWordPart = true := by
    rw [List.all_eq_true]
    intro c hc
    obtain ⟨k, hk, rfl⟩ := Decimal.exists_digit_of_mem hc
    simp [Lexeme.isWordPart, Char.isAlphanum, Decimal.isDigit_digit hk]
  have hWord : Lexeme.isWord (Ident.generated tag).text = true := by
    rw [Lexeme.isWord, hText]
    simp only [List.all_cons, hDigits]
    rfl
  -- No other word of the language starts this way.
  have hReserved : (Ident.generated tag).text ∉ Lexeme.reserved := by
    intro hMem
    have hStart : ∀ x ∈ Lexeme.reserved, x.toList.take 2 ≠ ['_', 'g'] := by decide
    exact hStart _ hMem (by rw [hText]; rfl)
  simp [Lexeme.isName, hWord, hReserved]

namespace Term

theorem legible_of_grammatical {t : Term} (h : t.grammatical = true) : t.legible = true := by
  have hNamed : ∀ id : Ident, id.isNamed = true → Lexeme.isName id.text = true := by
    intro id hId
    cases id <;> first | exact hId | cases hId
  have hBinder : ∀ id : Ident, (id.isNamed || id.isWildcard) = true →
      Lexeme.isName id.text = true := by
    intro id hId
    cases id with
    | raw x => exact hNamed _ (by rwa [Ident.isWildcard, Bool.or_false] at hId)
    | generated tag => exact Ident.isName_text_generated tag
    | colored => cases hId
  refine every_mono (fun t ht => ?_) t h
  cases t with
  | var | fix => exact hNamed _ ht
  | lam | letIn => exact hBinder _ ht
  | int n => exact decide_eq_true (Int64.lt_of_lt_of_le (by decide) (of_decide_eq_true ht))
  | _ => exact ht

end Term

/-! ### Capture -/

/-- The name by which the binder is written, if it is a wildcard, does not occur free in its
scope. -/
def Ident.spares (id : Ident) (scope : Term) : Bool :=
  !(id.isWildcard && scope.occursFree (.raw id.text))

namespace Term

/-- No variable has the written form of a wildcard that it is in the scope of. -/
def wildcardsApart (t : Term) : Bool :=
  t.every fun
    | .lam id body | .letIn id _ body => id.spares body
    | _ => true

/-- What is free in a program has a name. -/
theorem isRaw_of_occursFree {t : Term} (h : t.grammatical = true) {id : Ident}
    (hFree : t.occursFree id = true) : id.isRaw = true :=
  vars_of_every (wellFormed_of_grammatical h) id (mem_vars_of_occursFree hFree)

/-- **A binder and its written form** stand for each other in the same way as if nothing were
bound, exactly if the written form captures nothing. -/
theorem alpha_scope_iff {id : Ident} {s t : Term} (hBinder : (id.isNamed || id.isWildcard) = true)
    (hFree : ∀ x, s.occursFree x = true → x.isRaw = true) :
    s.Alpha (Under Eq id (.raw id.text)) t ↔ s.AlphaEq t ∧ id.spares s = true := by
  cases id with
  | colored => cases hBinder
  | raw x =>
    have hSame : ∀ a b, Under Eq (.raw x) (.raw x) a b ↔ a = b := by
      intro a b
      constructor
      · rintro (⟨rfl, rfl⟩ | ⟨-, -, hab⟩)
        · rfl
        · exact hab
      · rintro rfl
        by_cases ha : a = .raw x
        · exact .inl ⟨ha, ha⟩
        · exact .inr ⟨ha, ha, rfl⟩
    refine ⟨fun h => ⟨h.mono fun a b => (hSame a b).mp, rfl⟩, fun h => ?_⟩
    exact h.1.mono fun a b => (hSame a b).mpr
  | generated tag =>
    have hSpares : (Ident.generated tag).spares s = true ↔
        s.occursFree (.raw (Ident.generated tag).text) = false := by
      rw [Ident.spares, Ident.isWildcard, Bool.true_and, Bool.not_eq_true']
    -- The wildcard itself is not free, as it has no name.
    have hWildcard : ∀ a, s.occursFree a = true → a ≠ .generated tag := by
      rintro a ha rfl
      cases hFree _ ha
    rw [hSpares]
    constructor
    · intro h
      refine ⟨h.imp ?_, Bool.eq_false_iff.mpr fun hCaptured => ?_⟩
      · rintro a b ha - (⟨rfl, -⟩ | ⟨-, -, hab⟩)
        · exact absurd rfl (hWildcard _ ha)
        · exact hab
      · obtain ⟨b, ⟨hName, -⟩ | ⟨-, hb, hName⟩, -⟩ := h.occursFree hCaptured
        · cases hName
        · exact hb hName.symm
    · rintro ⟨h, hApart⟩
      refine h.imp ?_
      rintro a b ha - rfl
      refine .inr ⟨hWildcard a ha, ?_, rfl⟩
      rintro rfl
      rw [hApart] at ha
      cases ha

/-- **When a written program means what it was written from.** -/
theorem alphaEq_reread_iff {t : Term} (h : t.grammatical = true) :
    t.AlphaEq t.reread ↔ t.wildcardsApart = true := by
  induction t with
  | var id =>
    have hSame : (var id).reread = var id := congrArg var (Ident.raw_text h)
    rw [hSame]
    exact iff_of_true (.refl (fun _ => rfl) _) rfl
  | int n =>
    have hSame : (int n).reread = int n := if_neg (Int64.not_lt.mpr (of_decide_eq_true h))
    rw [hSame]
    exact iff_of_true (.int n) rfl
  | bool b => exact iff_of_true (.bool b) rfl
  | lam id body ih =>
    simp only [grammatical, every, Bool.and_eq_true] at h
    have hScope : (lam id body).AlphaEq (lam id body).reread ↔
        body.Alpha (Under Eq id (.raw id.text)) body.reread :=
      ⟨fun hLam => by cases hLam with | lam hBody => exact hBody, .lam⟩
    rw [hScope, alpha_scope_iff h.1 fun _ => isRaw_of_occursFree h.2, ih h.2, and_comm]
    exact Bool.and_eq_true_iff.symm
  | letIn id bound body ihBound ihBody =>
    simp only [grammatical, every, Bool.and_eq_true] at h
    have hScope : (letIn id bound body).AlphaEq (letIn id bound body).reread ↔
        bound.AlphaEq bound.reread ∧ body.Alpha (Under Eq id (.raw id.text)) body.reread :=
      ⟨fun hLet => by cases hLet with | letIn hBound hBody => exact ⟨hBound, hBody⟩,
        fun hParts => .letIn hParts.1 hParts.2⟩
    rw [hScope, alpha_scope_iff h.1 fun _ => isRaw_of_occursFree h.2.2, ihBound h.2.1,
      ihBody h.2.2]
    simp only [wildcardsApart, every, Bool.and_eq_true]
    exact ⟨fun hParts => ⟨hParts.2.2, hParts.1, hParts.2.1⟩,
      fun hParts => ⟨hParts.2.1, hParts.2.2, hParts.1⟩⟩
  | fix id body ih =>
    -- A fixpoint has a name of its own, so its written form is the name.
    simp only [grammatical, every, Bool.and_eq_true] at h
    have hScope : (fix id body).AlphaEq (fix id body).reread ↔
        body.Alpha (Under Eq id (.raw id.text)) body.reread :=
      ⟨fun hFix => by cases hFix with | fix hBody => exact hBody, .fix⟩
    have hNamed : id.spares body = true := by
      cases id <;> first | rfl | cases h.1
    have hBinder : (id.isNamed || id.isWildcard) = true := by rw [h.1, Bool.true_or]
    rw [hScope, alpha_scope_iff hBinder fun _ => isRaw_of_occursFree h.2, ih h.2]
    exact and_iff_left hNamed
  | quote body ih =>
    refine Iff.trans ?_ (ih h)
    exact ⟨fun hQuote => by cases hQuote with | quote hBody => exact hBody, .quote⟩
  | splice shift body ih =>
    simp only [grammatical, every, Bool.and_eq_true] at h
    refine Iff.trans ?_ (ih h.2)
    exact ⟨fun hSplice => by cases hSplice with | splice hBody => exact hBody, .splice⟩
  | app fn arg ihFn ihArg =>
    simp only [grammatical, every, Bool.and_eq_true] at h
    have hParts : (app fn arg).AlphaEq (app fn arg).reread ↔
        fn.AlphaEq fn.reread ∧ arg.AlphaEq arg.reread :=
      ⟨fun hApp => by cases hApp with | app hFn hArg => exact ⟨hFn, hArg⟩,
        fun hParts => .app hParts.1 hParts.2⟩
    rw [hParts, ihFn h.2.1, ihArg h.2.2]
    exact Bool.and_eq_true_iff.symm
  | logic op left right ihLeft ihRight =>
    simp only [grammatical, every, Bool.and_eq_true] at h
    have hParts : (logic op left right).AlphaEq (logic op left right).reread ↔
        left.AlphaEq left.reread ∧ right.AlphaEq right.reread :=
      ⟨fun hLogic => by cases hLogic with | logic hLeft hRight => exact ⟨hLeft, hRight⟩,
        fun hParts => .logic hParts.1 hParts.2⟩
    rw [hParts, ihLeft h.2.1, ihRight h.2.2]
    exact Bool.and_eq_true_iff.symm
  | ite cond yes no ihCond ihYes ihNo =>
    simp only [grammatical, every, Bool.and_eq_true] at h
    have hParts : (ite cond yes no).AlphaEq (ite cond yes no).reread ↔
        cond.AlphaEq cond.reread ∧ yes.AlphaEq yes.reread ∧ no.AlphaEq no.reread :=
      ⟨fun hIte => by cases hIte with | ite hCond hYes hNo => exact ⟨hCond, hYes, hNo⟩,
        fun hParts => .ite hParts.1 hParts.2.1 hParts.2.2⟩
    rw [hParts, ihCond h.2.1, ihYes h.2.2.1, ihNo h.2.2.2]
    simp only [wildcardsApart, every, Bool.true_and, Bool.and_eq_true]
  | prim op args ih =>
    simp only [grammatical, every, Bool.and_eq_true, everyAll_iff] at h
    have hParts : (prim op args).AlphaEq (prim op args).reread ↔
        ∀ a ∈ args, a.AlphaEq a.reread := by
      have hEach : List.Forall₂ (Alpha Eq) args (args.map reread) ↔
          ∀ a ∈ args, a.AlphaEq a.reread := List.forall₂_map_right_iff.trans List.forall₂_same
      have hArgs : (prim op args).reread = prim op (args.map reread) :=
        congrArg (prim op) (unsignAll_eq_map _ _)
      rw [hArgs, ← hEach]
      exact ⟨Alpha.forall₂, .of_forall₂⟩
    rw [hParts]
    simp only [wildcardsApart, every, Bool.true_and, everyAll_iff]
    exact forall₂_congr fun a ha => ih a ha (h.2 a ha)

end Term

/-! ### Programs -/

namespace Program

/-- **Programs are read again from their text.**  What is read is alpha-equivalent to the program
exactly if no variable has the written form of a wildcard that it is in the scope of. -/
theorem read_wildcards {source : String} {e : Term} (hRead : read source = .ok e) :
    ∃ e', read e.text = .ok e' ∧ (e.AlphaEq e' ↔ e.wildcardsApart = true) := by
  have hGrammatical := grammatical_of_read hRead
  exact ⟨e.reread, read_legible (Term.legible_of_grammatical hGrammatical),
    Term.alphaEq_reread_iff hGrammatical⟩

/-- Two wildcards, and variables with the names by which they are written, none of which is in the
scope of its wildcard. -/
theorem read_wildcards_shadowed :
    let source := "fn _ -> fn _g0 -> let _ = _g1 in _g0"
    let e : Term := .lam (.generated 0) (.lam (.raw "_g0")
      (.letIn (.generated 1) (.var (.raw "_g1")) (.var (.raw "_g0"))))
    read source = .ok e ∧ e.text = "fn _g0 -> fn _g0 -> let _g1 = _g1 in _g0" ∧
      ∃ e', read e.text = .ok e' ∧ e.AlphaEq e' := by
  intro source e
  have hRead : read source = .ok e := by decide +kernel
  obtain ⟨e', hAgain, hAlpha⟩ := read_wildcards hRead
  exact ⟨hRead, by decide +kernel, e', hAgain, hAlpha.mpr (by decide +kernel)⟩

/-- **A wildcard can capture a name.**  Written out, the binder takes the variable for its own. -/
theorem wildcard_captures :
    let e : Term := .lam (.generated 0) (.var (.raw "_g0"))
    let e' : Term := .lam (.raw "_g0") (.var (.raw "_g0"))
    read "fn _ -> _g0" = .ok e ∧ e.text = "fn _g0 -> _g0" ∧ read e.text = .ok e' ∧
      ¬e.AlphaEq e' := by
  intro e e'
  refine ⟨by decide +kernel, by decide +kernel, by decide +kernel, fun hAlpha => ?_⟩
  -- The variable is free in the program and bound in what is read.
  obtain ⟨b, rfl, hb⟩ := hAlpha.occursFree (a := .raw "_g0") (by decide)
  exact absurd hb (by decide)

end Program

end StagedLambda
