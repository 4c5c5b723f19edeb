import StagedLambda.Proofs.Scope.Safety
import StagedLambda.Proofs.Source.Glosses
import StagedLambda.Proofs.Source.WellFormed
import StagedLambda.Proofs.Source.Words
import StagedLambda.Proofs.Tags.Bases

/-!
# Texts determine terms

Code cannot be read back from its text, since colors have no spelling in a program.  Still the text
tells the code.  Terms with the same text have the same tokens when their texts are cut coarsely,
and these tokens derive one gloss; and a term can be told from its gloss, because numbers, marks of
splices and callees have become names that are not taken for each other or for an identifier.

* `Term.phrase_glosses`: the gloss of a term is derived from its text.
* `Term.glossed_injective`: glosses determine terms.
* `Term.text_unambiguous`: texts determine terms, and in particular the code of programs.
-/

namespace StagedLambda

/-! ### What words the texts of terms are made of -/

namespace Gloss

/-- No fixed word has a digit in it. -/
theorem Names.of_digit {x : String} (hPlain : ∀ c ∈ x.toList, isPlain c = true) {c : Char}
    (hc : c ∈ x.toList) (hDigit : c.isDigit = true) : Names x := by
  refine ⟨hPlain, List.ne_nil_of_mem hc, ?_⟩
  rintro t ht rfl
  have hNone : ∀ t ∈ fixed, t.spelling.toList.any Char.isDigit = false := by decide
  exact List.any_eq_false.mp (hNone t ht) c hc hDigit

theorem isPlain_of_isWordPart {c : Char} (h : Lexeme.isWordPart c = true) : isPlain c = true := by
  unfold isPlain
  split <;> first | rfl | exact absurd h (by decide)

theorem plain_of_isWord {x : String} (h : Lexeme.isWord x = true) :
    ∀ c ∈ x.toList, isPlain c = true := by
  obtain ⟨-, -, -, -, hParts⟩ := Lexeme.exists_of_isWord h
  exact fun c hc => isPlain_of_isWordPart (hParts c hc)

theorem plain_digits (n : Nat) : ∀ c ∈ Decimal.digits n, isPlain c = true := by
  intro c hc
  refine isPlain_of_isWordPart ?_
  simp [Lexeme.isWordPart, Char.isAlphanum, Decimal.isDigit_of_mem hc]

theorem exists_mem_digits (n : Nat) : ∃ c ∈ Decimal.digits n, c.isDigit = true := by
  obtain ⟨k, hk, cs, hDigits⟩ := Decimal.exists_cons_digits n
  exact ⟨Decimal.digit k, hDigits ▸ List.mem_cons_self, Decimal.isDigit_digit hk⟩

theorem names_ofInt (n : Int) : Names (Decimal.ofInt n) := by
  obtain ⟨c, hc, hDigit⟩ := exists_mem_digits n.natAbs
  rcases Decimal.toList_ofInt n with hText | hText
  · exact .of_digit (hText ▸ plain_digits _) (hText ▸ hc) hDigit
  · refine .of_digit ?_ (hText ▸ List.mem_cons_of_mem _ hc) hDigit
    rw [hText, List.forall_mem_cons]
    exact ⟨rfl, plain_digits _⟩

theorem names_text {id : Ident} (h : id.isSpelled = true) : Names id.text := by
  cases id with
  | generated => cases h
  | raw x =>
    have hWord := Lexeme.isWord_of_isName h
    refine ⟨plain_of_isWord hWord, ?_, ?_⟩
    · obtain ⟨c, cs, hText, -⟩ := Lexeme.exists_of_isWord hWord
      exact fun hNone => List.cons_ne_nil c cs (hText.symm.trans hNone)
    · rintro t ht rfl
      have hNone : ∀ t ∈ fixed, Lexeme.isName t.spelling = false := by decide
      rw [Ident.isSpelled, hNone t ht] at h
      cases h
  | colored x tag =>
    obtain ⟨c, hc, hDigit⟩ := exists_mem_digits tag
    have hText := Ident.toList_text_colored x tag
    refine .of_digit ?_ (c := c) (by simp [hText, hc]) hDigit
    rw [hText, List.forall_mem_append, List.forall_mem_cons]
    exact ⟨plain_of_isWord (Ident.isWord_stem h), rfl, plain_digits tag⟩

theorem plain_spliceMark (n : Int64) : ∀ c ∈ (Phrase.spliceMark n).toList, isPlain c = true := by
  rw [Phrase.spliceMark]
  split
  · exact List.all_eq_true.mp (by decide)
  · rw [String.toList_append, List.forall_mem_append]
    exact ⟨List.all_eq_true.mp (by decide), (names_ofInt n.toInt).plain⟩

/-- The mark of a splice is not that of a quote. -/
theorem spliceMark_ne (n : Int64) : (Phrase.spliceMark n).toList ≠ ['\x60'] := by
  intro h
  rw [Phrase.spliceMark] at h
  split at h
  · exact absurd h (by decide)
  · rw [String.toList_append] at h
    cases h

end Gloss

/-! ### Glosses of terms -/

namespace Term

/-- A call of an operator as a function of the operator's name, with the operands in its body. -/
def glossedCall (op : PrimOp) (args : List Term) : Term :=
  .lam (.raw (op.name ++ "(")) (args.foldl .app (.int 0))

mutual

/-- What the grammar makes of the text of the term: numbers have turned into names, marks of splices
into parameters, and calls of operators into functions. -/
def glossed : Term → Term
  | .var id => .var (.raw id.text)
  | .int n => .var (.raw (Decimal.ofInt n.toInt))
  | .bool b => .bool b
  | .lam param body => .lam (.raw param.text) body.glossed
  | .fix self body => .fix (.raw self.text) body.glossed
  | .letIn id bound body => .letIn (.raw id.text) bound.glossed body.glossed
  | .ite cond yes no => .ite cond.glossed yes.glossed no.glossed
  | .app fn arg => .app fn.glossed arg.glossed
  | .logic op left right => .logic op left.glossed right.glossed
  | .prim op args =>
    if args.length = op.arity then .prim op (glossedAll args)
    else glossedCall op (glossedAll args)
  | .quote body => .quote body.glossed
  | .splice shift body => .splice 1 (.lam (.raw (Phrase.spliceMark shift)) body.glossed)

def glossedAll : List Term → List Term
  | [] => []
  | t :: ts => t.glossed :: glossedAll ts

end

theorem glossedAll_eq_map (ts : List Term) : glossedAll ts = ts.map glossed := by
  induction ts with
  | nil => rfl
  | cons t ts ih => rw [glossedAll, ih, List.map_cons]

theorem ofPrim_of_length_ne {op : PrimOp} {ps : List Phrase} (h : ps.length ≠ op.arity) :
    Phrase.ofPrim op ps = ⟨.atom, op.name ++ "(" ++ Phrase.listed ps ++ ")"⟩ := by
  unfold Phrase.ofPrim
  split <;> first | rfl | exact absurd rfl h

/-- **The gloss of a term is derived from its text.** -/
theorem phrase_glosses (t : Term) (h : ∀ id ∈ t.idents, id.isSpelled = true) :
    Gloss.Derives t.phrase.tier t.phrase.text t.glossed := by
  induction t with
  | var id => exact .var (Gloss.names_text (h id (by simp)))
  | int n =>
    have hAtom := Gloss.Derives.var (Gloss.names_ofInt n.toInt)
    exact hAtom.loosen (Tier.rank_le_atom _)
  | bool b =>
    have hText : (bool b).phrase.text = (Token.boolean b).spelling := by cases b <;> rfl
    rw [hText]
    exact .bool b
  | lam param body ih =>
    simp only [mem_idents_lam, forall_eq_or_imp] at h
    exact .lam (Gloss.names_text h.1) (ih h.2).whole
  | fix self body ih =>
    simp only [mem_idents_fix, forall_eq_or_imp] at h
    exact .fix (Gloss.names_text h.1) (ih h.2).whole
  | letIn id bound body hBound hBody =>
    simp only [mem_idents_letIn, or_imp, forall_and, forall_eq] at h
    exact .letIn (Gloss.names_text h.1) (hBound h.2.1).whole (hBody h.2.2).whole
  | ite cond yes no hCond hYes hNo =>
    simp only [mem_idents_ite, or_imp, forall_and] at h
    exact .ite (hCond h.1).whole (hYes h.2.1).whole (hNo h.2.2).whole
  | app fn arg hFn hArg =>
    simp only [mem_idents_app, or_imp, forall_and] at h
    exact .app ((hFn h.1).within _) ((hArg h.2).within _)
  | logic op left right hLeft hRight =>
    simp only [mem_idents_logic, or_imp, forall_and] at h
    have hSymbol : op.symbol = (Token.ofLogic op).spelling := by cases op <;> rfl
    have hFixed : Token.ofLogic op ∈ Gloss.fixed := by cases op <;> decide
    rw [phrase, hSymbol]
    exact .binary (f := .logic op) hFixed (.logic op) (hLeft h.1) (hRight h.2)
  | prim op args ih =>
    simp only [mem_idents_prim, forall_exists_index, and_imp] at h
    have hArg : ∀ a ∈ args, Gloss.Derives a.phrase.tier a.phrase.text a.glossed :=
      fun a ha => ih a ha fun id hid => h id a ha hid
    by_cases hLength : args.length = op.arity
    · rw [glossed, if_pos hLength]
      cases operands_of_length hLength with
      | one a => exact .negate ((hArg a (by simp)).within .unary)
      | arith op a b =>
        have hSymbol : op.symbol = (Token.ofArith op).spelling := by cases op <;> rfl
        have hFixed : Token.ofArith op ∈ Gloss.fixed := by cases op <;> decide
        show Gloss.Derives _ (Phrase.chained op.tier op.symbol a.phrase b.phrase).text _
        rw [hSymbol]
        exact .binary (f := fun x y => .prim (.arith op) [x, y]) hFixed (.arith op)
          (hArg a (by simp)) (hArg b (by simp))
      | compare op a b =>
        have hSymbol : op.symbol = (Token.ofCompare op).spelling := by cases op <;> rfl
        have hFixed : Token.ofCompare op ∈ Gloss.fixed := by cases op <;> decide
        show Gloss.Derives .comparison
          (Phrase.binary .comparison .sum .sum op.symbol a.phrase b.phrase).text _
        rw [hSymbol]
        exact .binary (f := fun x y => .prim (.compare op) [x, y]) hFixed (.compare op)
          (hArg a (by simp)) (hArg b (by simp))
    · have hPhrases : (phrases args).length ≠ op.arity := by
        rwa [phrases_eq_map, List.length_map]
      have hName : op.name.toList.all Gloss.isPlain = true ∧ op.name.toList ≠ [] := by
        rcases op with op | op | _ <;> first | decide | (cases op <;> decide)
      rw [glossed, if_neg hLength, phrase, ofPrim_of_length_ne hPhrases]
      refine .call (List.all_eq_true.mp hName.1) hName.2 ?_
      rw [phrases_eq_map, glossedAll_eq_map, List.forall₂_map_left_iff,
        List.forall₂_map_right_iff, List.forall₂_same]
      exact hArg
  | quote body ih => exact .quote (ih h).whole
  | splice shift body ih =>
    exact .splice (Gloss.plain_spliceMark shift) (Gloss.spliceMark_ne shift) (ih h).whole

/-- Terms with the same text have the same gloss. -/
theorem glossed_eq_of_text_eq {s t : Term} (hs : ∀ id ∈ s.idents, id.isSpelled = true)
    (ht : ∀ id ∈ t.idents, id.isSpelled = true) (h : s.text = t.text) :
    s.glossed = t.glossed := by
  obtain ⟨ts, hText, hDerives⟩ := (s.phrase_glosses hs).loosen (τ := .expression) (Nat.zero_le _)
  obtain ⟨ts', hText', hDerives'⟩ := (t.phrase_glosses ht).loosen (τ := .expression) (Nat.zero_le _)
  have hTokens : ts = ts' := by
    have hFirst := hText [] Gloss.ends_nil
    rw [← text_eq, h, text_eq, hText' [] Gloss.ends_nil] at hFirst
    exact (List.append_cancel_right hFirst).symm
  subst hTokens
  exact ((hDerives 0).unique (hDerives' 0)).1

/-! ### Glosses determine terms -/

theorem text_ne_ofInt {id : Ident} (h : id.isSpelled = true) (n : Int) :
    id.text ≠ Decimal.ofInt n := by
  intro hSame
  obtain ⟨c, cs, hText, hStart⟩ := id.exists_head h
  obtain ⟨d, ds, hText', hStart'⟩ := Decimal.exists_head n
  rw [hSame, hText'] at hText
  rw [(List.cons.inj hText).1, hStart] at hStart'
  cases hStart'

theorem text_ne_callee {id : Ident} (h : id.isSpelled = true) (op : PrimOp) :
    id.text ≠ op.name ++ "(" := by
  intro hSame
  have hPlain := (Gloss.names_text h).plain
  rw [hSame, String.toList_append] at hPlain
  exact absurd (hPlain '(' (List.mem_append_right _ (by decide))) (by decide)

/-- A chain of applications that starts with a number, which no gloss is, tells its operands. -/
theorem foldl_app_injective {as bs : List Term}
    (h : as.foldl app (int 0) = bs.foldl app (int 0)) : as = bs := by
  induction as using List.reverseRecOn generalizing bs with
  | nil =>
    cases bs using List.reverseRecOn with
    | nil => rfl
    | append_singleton bs b =>
      rw [List.foldl_concat] at h
      cases h
  | append_singleton as a ih =>
    cases bs using List.reverseRecOn with
    | nil =>
      rw [List.foldl_concat] at h
      cases h
    | append_singleton bs b =>
      rw [List.foldl_concat, List.foldl_concat, app.injEq] at h
      rw [ih h.1, h.2]

theorem glossedAll_injective {as bs : List Term}
    (hEach : ∀ a ∈ as, ∀ b ∈ bs, a.glossed = b.glossed → a = b)
    (h : glossedAll as = glossedAll bs) : as = bs := by
  induction as generalizing bs with
  | nil =>
    cases bs with
    | nil => rfl
    | cons b bs => cases h
  | cons a as ih =>
    cases bs with
    | nil => cases h
    | cons b bs =>
      rw [glossedAll, glossedAll, List.cons.injEq] at h
      rw [hEach a (by simp) b (by simp) h.1,
        ih (fun x hx y hy => hEach x (List.mem_cons_of_mem _ hx) y (List.mem_cons_of_mem _ hy)) h.2]

theorem glossed_prim (op : PrimOp) (args : List Term) :
    (prim op args).glossed = prim op (glossedAll args) ∨
      (prim op args).glossed = glossedCall op (glossedAll args) := by
  rw [glossed]
  split
  · exact .inl rfl
  · exact .inr rfl

/-- Only primitives have the gloss of a primitive. -/
theorem exists_eq_prim {s : Term} (hs : ∀ id ∈ s.idents, id.isSpelled = true) {op : PrimOp}
    {args : List Term} (h : s.glossed = (prim op args).glossed) : ∃ args', s = prim op args' := by
  cases s with
  | prim op' args' =>
    refine ⟨args', ?_⟩
    rcases glossed_prim op' args' with hLeft | hLeft <;>
      rcases glossed_prim op args with hRight | hRight <;> rw [hLeft, hRight] at h
    · rw [(prim.inj h).1]
    · cases h
    · cases h
    · have hName := Ident.raw.inj (lam.inj h).1
      rw [PrimOp.name_injective ((String.append_left_inj _).mp hName)]
  | lam x body =>
    rcases glossed_prim op args with hRight | hRight <;> rw [hRight] at h
    · cases h
    · exact absurd (Ident.raw.inj (lam.inj h).1) (text_ne_callee (hs x (by simp)) op)
  | _ => rcases glossed_prim op args with hRight | hRight <;> rw [hRight] at h <;> cases h

/-- **Glosses determine terms.** -/
theorem glossed_injective {s t : Term} (hs : ∀ id ∈ s.idents, id.isSpelled = true)
    (ht : ∀ id ∈ t.idents, id.isSpelled = true) (h : s.glossed = t.glossed) : s = t := by
  induction s generalizing t with
  | var id =>
    cases t with
    | var id' =>
      have hText : id.text = id'.text := by simpa only [glossed, var.injEq, Ident.raw.injEq] using h
      rw [Ident.text_injective (hs id (by simp)) (ht id' (by simp)) hText]
    | int n =>
      have hText : id.text = Decimal.ofInt n.toInt := by
        simpa only [glossed, var.injEq, Ident.raw.injEq] using h
      exact absurd hText (text_ne_ofInt (hs id (by simp)) _)
    | prim => obtain ⟨_, ⟨⟩⟩ := exists_eq_prim hs h
    | _ => cases h
  | int n =>
    cases t with
    | var id =>
      have hText : id.text = Decimal.ofInt n.toInt := by
        simpa only [glossed, var.injEq, Ident.raw.injEq] using h.symm
      exact absurd hText (text_ne_ofInt (ht id (by simp)) _)
    | int n' =>
      have hText : Decimal.ofInt n.toInt = Decimal.ofInt n'.toInt := by
        simpa only [glossed, var.injEq, Ident.raw.injEq] using h
      rw [Int64.toInt_inj.mp (Decimal.ofInt_injective hText)]
    | prim => obtain ⟨_, ⟨⟩⟩ := exists_eq_prim hs h
    | _ => cases h
  | bool b =>
    cases t with
    | bool b' => exact h
    | prim => obtain ⟨_, ⟨⟩⟩ := exists_eq_prim hs h
    | _ => cases h
  | lam x body ih =>
    cases t with
    | lam y body' =>
      simp only [mem_idents_lam, forall_eq_or_imp] at hs ht
      simp only [glossed, lam.injEq, Ident.raw.injEq] at h
      rw [Ident.text_injective hs.1 ht.1 h.1, ih hs.2 ht.2 h.2]
    | prim => obtain ⟨_, ⟨⟩⟩ := exists_eq_prim hs h
    | _ => cases h
  | fix x body ih =>
    cases t with
    | fix y body' =>
      simp only [mem_idents_fix, forall_eq_or_imp] at hs ht
      simp only [glossed, fix.injEq, Ident.raw.injEq] at h
      rw [Ident.text_injective hs.1 ht.1 h.1, ih hs.2 ht.2 h.2]
    | prim => obtain ⟨_, ⟨⟩⟩ := exists_eq_prim hs h
    | _ => cases h
  | letIn x bound body ihBound ihBody =>
    cases t with
    | letIn y bound' body' =>
      simp only [mem_idents_letIn, or_imp, forall_and, forall_eq] at hs ht
      simp only [glossed, letIn.injEq, Ident.raw.injEq] at h
      rw [Ident.text_injective hs.1 ht.1 h.1, ihBound hs.2.1 ht.2.1 h.2.1,
        ihBody hs.2.2 ht.2.2 h.2.2]
    | prim => obtain ⟨_, ⟨⟩⟩ := exists_eq_prim hs h
    | _ => cases h
  | ite cond yes no ihCond ihYes ihNo =>
    cases t with
    | ite cond' yes' no' =>
      simp only [mem_idents_ite, or_imp, forall_and] at hs ht
      simp only [glossed, ite.injEq] at h
      rw [ihCond hs.1 ht.1 h.1, ihYes hs.2.1 ht.2.1 h.2.1, ihNo hs.2.2 ht.2.2 h.2.2]
    | prim => obtain ⟨_, ⟨⟩⟩ := exists_eq_prim hs h
    | _ => cases h
  | app fn arg ihFn ihArg =>
    cases t with
    | app fn' arg' =>
      simp only [mem_idents_app, or_imp, forall_and] at hs ht
      simp only [glossed, app.injEq] at h
      rw [ihFn hs.1 ht.1 h.1, ihArg hs.2 ht.2 h.2]
    | prim => obtain ⟨_, ⟨⟩⟩ := exists_eq_prim hs h
    | _ => cases h
  | logic op left right ihLeft ihRight =>
    cases t with
    | logic op' left' right' =>
      simp only [mem_idents_logic, or_imp, forall_and] at hs ht
      simp only [glossed, logic.injEq] at h
      rw [h.1, ihLeft hs.1 ht.1 h.2.1, ihRight hs.2 ht.2 h.2.2]
    | prim => obtain ⟨_, ⟨⟩⟩ := exists_eq_prim hs h
    | _ => cases h
  | prim op args ih =>
    obtain ⟨args', rfl⟩ := exists_eq_prim ht h.symm
    simp only [mem_idents_prim, forall_exists_index, and_imp] at hs ht
    have hEach : ∀ a ∈ args, ∀ b ∈ args', a.glossed = b.glossed → a = b := fun a ha b hb =>
      ih a ha (fun id hid => hs id a ha hid) (fun id hid => ht id b hb hid)
    have hArgs : glossedAll args = glossedAll args' := by
      rcases glossed_prim op args with hLeft | hLeft <;>
        rcases glossed_prim op args' with hRight | hRight <;> rw [hLeft, hRight] at h
      · exact (prim.inj h).2
      · cases h
      · cases h
      · exact foldl_app_injective (lam.inj h).2
    rw [glossedAll_injective hEach hArgs]
  | quote body ih =>
    cases t with
    | quote body' =>
      simp only [glossed, quote.injEq] at h
      rw [ih (t := body') hs ht h]
    | prim => obtain ⟨_, ⟨⟩⟩ := exists_eq_prim hs h
    | _ => cases h
  | splice n body ih =>
    cases t with
    | splice n' body' =>
      simp only [glossed, splice.injEq, lam.injEq, Ident.raw.injEq] at h
      rw [Phrase.spliceMark_injective h.2.1, ih (t := body') hs ht h.2.2]
    | prim => obtain ⟨_, ⟨⟩⟩ := exists_eq_prim hs h
    | _ => cases h

end Term

/-! ### Programs and code -/

namespace Term

theorem idents_of_every {P : Ident → Bool} {t : Term}
    (h : t.every (fun
      | .var id | .lam id _ | .fix id _ | .letIn id _ _ => P id
      | _ => true) = true) : ∀ id ∈ t.idents, P id = true := by
  induction t with
  | var x =>
    rintro id hid
    rw [mem_idents_var.mp hid]
    exact h
  | int | bool => exact nofun
  | lam x body ih | fix x body ih =>
    simp only [every, Bool.and_eq_true] at h
    simpa using ⟨h.1, ih h.2⟩
  | quote body ih | splice _ body ih =>
    simp only [every, Bool.and_eq_true] at h
    exact ih h.2
  | app a b ha hb | logic _ a b ha hb =>
    simp only [every, Bool.and_eq_true] at h
    simpa [or_imp, forall_and] using ⟨ha h.2.1, hb h.2.2⟩
  | letIn x a b ha hb =>
    simp only [every, Bool.and_eq_true] at h
    simpa [or_imp, forall_and] using ⟨h.1, ha h.2.1, hb h.2.2⟩
  | ite a b c ha hb hc =>
    simp only [every, Bool.and_eq_true] at h
    simpa [or_imp, forall_and] using ⟨ha h.2.1, hb h.2.2.1, hc h.2.2.2⟩
  | prim op args ih =>
    simp only [every, Bool.and_eq_true, everyAll_iff] at h
    simp only [mem_idents_prim, forall_exists_index, and_imp]
    exact fun id a ha hid => ih a ha (h.2 a ha) id hid

/-- The identifiers of a program are names and wildcards. -/
theorem idents_of_grammatical {t : Term} (h : t.grammatical = true) :
    ∀ id ∈ t.idents, (id.isNamed || id.isWildcard) = true := by
  refine idents_of_every (every_mono (fun t ht => ?_) t h)
  cases t with
  | var | fix => exact Bool.or_eq_true_iff.mpr (.inl ht)
  | lam | letIn => exact ht
  | _ => rfl

theorem written_of_grammatical {t : Term} (h : t.grammatical = true) : t.Written := by
  refine ⟨vars_of_every (wellFormed_of_grammatical h), fun id hid => ?_⟩
  have hKind := idents_of_grammatical h id (List.mem_append_right _ hid)
  cases id with
  | raw | generated => rfl
  | colored => cases hKind

/-- Code that is a value at some point of a run of a program. -/
def Produced (c : Term) : Prop :=
  ∃ source e m m' k, Program.read source = .ok e ∧
    Machine.Reaches m (.initial e) m' (.deliver (.code c) k)

theorem Produced.isSpelled {c : Term} (h : c.Produced) : ∀ id ∈ c.idents, id.isSpelled = true := by
  obtain ⟨source, e, m, m', k, hRead, hReach⟩ := h
  have hGrammatical := Program.grammatical_of_read hRead
  have hFragment := (hReach.scoped (written_of_grammatical hGrammatical)).1.fragment
  intro id hid
  have hColored : id.isColored = true := (List.mem_append.mp hid).elim (hFragment.vars id)
    (hFragment.binders id)
  obtain ⟨id₀, hid₀, hBase⟩ := hReach.exists_base (List.mem_append_left _ hid)
  have hKind := idents_of_grammatical hGrammatical id₀ hid₀
  cases id with
  | raw | generated => cases hColored
  | colored x tag =>
    obtain rfl : x = id₀.base := hBase
    cases id₀ with
    | raw y =>
      rw [Ident.isWildcard, Bool.or_false] at hKind
      exact Bool.or_eq_true_iff.mpr (.inr hKind)
    | generated => rfl
    | colored => cases hKind

/-- **Texts determine terms.**  Two terms whose identifiers are names, or colors with a name or with
none, are the same if they are written alike, whatever literals, shifts and numbers of operands
they have.  Code that programs come to has such identifiers; so code values that are written alike
are the same, tags included. -/
theorem text_unambiguous :
    (∀ s t : Term, (∀ id ∈ s.idents, id.isSpelled = true) →
      (∀ id ∈ t.idents, id.isSpelled = true) → s.text = t.text → s = t) ∧
    ∀ c d : Term, c.Produced → d.Produced → (Value.code c).text = (Value.code d).text →
      c = d := by
  have hTerms : ∀ s t : Term, (∀ id ∈ s.idents, id.isSpelled = true) →
      (∀ id ∈ t.idents, id.isSpelled = true) → s.text = t.text → s = t :=
    fun s t hs ht h => glossed_injective hs ht (glossed_eq_of_text_eq hs ht h)
  refine ⟨hTerms, fun c d hc hd h => ?_⟩
  have hQuotes : quote c = quote d := hTerms _ _ hc.isSpelled hd.isSpelled h
  exact quote.inj hQuotes

/-- Terms that are written almost alike, and the codes of one program on two machines, which differ
in a tag only. -/
theorem text_unambiguous_close :
    let add : Term := .var (.raw "add")
    let called : Term := .prim (.arith .add) [.int (-1)]
    let applied : Term := .app add (.int (-1))
    let code (tag : Nat) : Term := .lam (.colored "" tag) (.int 1)
    called.text = "add(-1)" ∧ applied.text = "add (-1)" ∧ called.text ≠ applied.text ∧
      (code 0).Produced ∧ (code 7).Produced ∧
      (Value.code (code 0)).text ≠ (Value.code (code 7)).text := by
  intro add called applied code
  have hProduced : ∀ tag, (code tag).Produced := by
    intro tag
    let e : Term := .quote (.lam (.generated 0) (.int 1))
    let m : Machine := { palette := ⟨tag⟩ }
    have hRead : Program.read "\x60\x7b fn _ -> 1 \x7d" = .ok e := by decide +kernel
    have hCode : m.Yields (.initial e) (.ok (.code (code tag))) := ⟨5, rfl⟩
    obtain ⟨m', hReach⟩ := Machine.yields_ok_iff.mp hCode
    exact ⟨_, e, m, m', .halt, hRead, hReach⟩
  have hTerms : called.text ≠ applied.text := fun h =>
    absurd (text_unambiguous.1 called applied (by decide) (by decide) h) (by decide)
  have hCodes : (Value.code (code 0)).text ≠ (Value.code (code 7)).text := fun h =>
    absurd (text_unambiguous.2 _ _ (hProduced 0) (hProduced 7) h) (by decide)
  exact ⟨by decide +kernel, by decide +kernel, hTerms, hProduced 0, hProduced 7, hCodes⟩

end Term

end StagedLambda
