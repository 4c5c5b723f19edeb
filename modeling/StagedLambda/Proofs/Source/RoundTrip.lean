import StagedLambda.Proofs.Source.Derivation
import StagedLambda.Proofs.Source.Phrases
import StagedLambda.Proofs.Source.Reading

/-!
# Reading what has been written

The text of a term spells its script, and the grammar reads the script as the term; so a legible
term is read from its text, up to literals below zero, which the grammar does not have.  In the
other direction a program that has been read is legible unless it has wildcards, and it has no
literal below zero; so its text reads as the program itself.

* `Program.read_legible`: the text of a legible term is read.
* `Grammar.Derives.grammatical`: what tokens of a source derive is legible but for its wildcards.
* `Program.read_text`: both directions.
-/

namespace StagedLambda

/-! ### From terms to texts -/

theorem Term.saturated_of_legible {t : Term} (h : t.legible = true) : t.saturated = true := by
  refine every_mono (fun t ht => ?_) t h
  cases t <;> first | rfl | exact ht

theorem Program.tokens_of_spelled {text : String} {ts : List Token} (h : Spelled text ts) :
    ∃ marked, tokens (Lexeme.scan text.toList) = .ok marked ∧ marked.map (·.1) = ts := by
  obtain ⟨lexemes, hReadings, hScan⟩ := h [] apart_nil 0
  rw [List.append_nil, Lexeme.scanFrom_nil, List.append_nil] at hScan
  rw [Lexeme.scan, hScan]
  exact tokens_of_readings hReadings

theorem Program.read_of_spelled {text : String} {ts : List Token} {t : Term}
    (h : Spelled text ts) (hProgram : Grammar.program ts = .ok t) : Program.read text = .ok t := by
  obtain ⟨marked, hTokens, hMarked⟩ := tokens_of_spelled h
  rw [Program.read, Program.readChars, hTokens]
  simp only [hMarked, hProgram]

/-- **The text of a legible term is read.** -/
theorem Program.read_legible {t : Term} (h : t.legible = true) :
    Program.read t.text = .ok t.reread := by
  have hSpelled := (t.phrase_matches h).spelled
  rw [← t.text_eq] at hSpelled
  exact Program.read_of_spelled hSpelled
    (Grammar.program_script t (Term.saturated_of_legible h))

namespace Term

/-- Identifiers only matter by what they are replaced with. -/
theorem unsign_congr {f g : Ident → Ident} {t : Term}
    (h : t.every (fun
      | .var id | .lam id _ | .fix id _ | .letIn id _ _ => f id = g id
      | _ => true) = true) : t.unsign f = t.unsign g := by
  induction t with
  | var id => exact congrArg Term.var (of_decide_eq_true h)
  | int | bool => rfl
  | lam id body ih | fix id body ih =>
    simp only [every, Bool.and_eq_true, decide_eq_true_eq] at h
    simp only [unsign, h.1, ih h.2]
  | quote body ih | splice shift body ih =>
    simp only [every, Bool.and_eq_true] at h
    simp only [unsign, ih h.2]
  | app a b ha hb | logic op a b ha hb =>
    simp only [every, Bool.and_eq_true] at h
    simp only [unsign, ha h.2.1, hb h.2.2]
  | letIn id bound body hBound hBody =>
    simp only [every, Bool.and_eq_true, decide_eq_true_eq] at h
    simp only [unsign, h.1, hBound h.2.1, hBody h.2.2]
  | ite cond yes no hCond hYes hNo =>
    simp only [every, Bool.and_eq_true] at h
    simp only [unsign, hCond h.2.1, hYes h.2.2.1, hNo h.2.2.2]
  | prim op args ih =>
    simp only [every, Bool.and_eq_true, everyAll_iff] at h
    simp only [unsign, unsignAll_eq_map]
    exact congrArg (Term.prim op) (List.map_congr_left fun a ha => ih a ha (h.2 a ha))

/-- Without literals below zero there is nothing to replace. -/
theorem unsigned_eq_self {t : Term}
    (h : t.every (fun
      | .int n => 0 ≤ n
      | _ => true) = true) : t.unsigned = t := by
  rw [unsigned]
  induction t with
  | var | bool => rfl
  | int n => exact if_neg (Int64.not_lt.mpr (of_decide_eq_true h))
  | lam x body ih | fix x body ih | quote body ih | splice shift body ih =>
    simp only [every, Bool.and_eq_true] at h
    simp only [unsign, ih h.2, id]
  | app a b ha hb | logic op a b ha hb | letIn x a b ha hb =>
    simp only [every, Bool.and_eq_true] at h
    simp only [unsign, ha h.2.1, hb h.2.2, id]
  | ite cond yes no hCond hYes hNo =>
    simp only [every, Bool.and_eq_true] at h
    simp only [unsign, hCond h.2.1, hYes h.2.2.1, hNo h.2.2.2]
  | prim op args ih =>
    simp only [every, Bool.and_eq_true, everyAll_iff] at h
    simp only [unsign, unsignAll_eq_map]
    rw [List.map_congr_left (g := id) fun a ha => ih a ha (h.2 a ha), List.map_id]

end Term

/-! ### From texts to terms -/

/-- A name as a program can have it. -/
def Ident.isNamed : Ident → Bool
  | .raw x => Lexeme.isName x
  | .generated _ | .colored _ _ => false

/-- The binder of a wildcard. -/
def Ident.isWildcard : Ident → Bool
  | .generated _ => true
  | .raw _ | .colored _ _ => false

theorem Ident.raw_text {id : Ident} (h : id.isNamed = true) : .raw id.text = id := by
  cases id <;> first | rfl | cases h

namespace Term

/-- Identifiers are names as written, primitives have as many operands as they take, and no literal
and no shift is the least integer. -/
def printable (t : Term) : Bool :=
  t.every fun
    | .var id | .lam id _ | .fix id _ | .letIn id _ _ => id.isNamed
    | .int n | .splice n _ => Int64.minValue < n
    | .prim op args => args.length = op.arity
    | _ => true

/-- The terms that a program could be: binders may be wildcards, and no literal is below zero. -/
def grammatical (t : Term) : Bool :=
  t.every fun
    | .var id | .fix id _ => id.isNamed
    | .lam id _ | .letIn id _ _ => id.isNamed || id.isWildcard
    | .int n => 0 ≤ n
    | .splice n _ => Int64.minValue < n
    | .prim op args => args.length = op.arity
    | _ => true

theorem legible_of_printable {t : Term} (h : t.printable = true) : t.legible = true := by
  have hName : ∀ id : Ident, id.isNamed = true → Lexeme.isName id.text = true := by
    intro id hId
    cases id <;> first | exact hId | cases hId
  refine every_mono (fun t ht => ?_) t h
  cases t <;> first | exact ht | exact hName _ ht

theorem reread_of_printable {t : Term} (h : t.printable = true) : t.reread = t.unsigned := by
  refine unsign_congr (every_mono (fun t ht => ?_) t h)
  cases t <;> first | rfl | exact decide_eq_true (Ident.raw_text ht)

theorem unsigned_of_grammatical {t : Term} (h : t.grammatical = true) : t.unsigned = t := by
  refine unsigned_eq_self (every_mono (fun t ht => ?_) t h)
  cases t <;> first | rfl | exact ht

theorem printable_of_grammatical {t : Term} (h : t.grammatical = true)
    (hBinders : ∀ id ∈ t.binders, id.isWildcard = false) : t.printable = true := by
  induction t with
  | var | bool => exact h
  | int n =>
    have hNonneg : 0 ≤ n := of_decide_eq_true h
    exact decide_eq_true (Int64.lt_of_lt_of_le (by decide) hNonneg)
  | lam x body ih =>
    simp only [grammatical, printable, every, Bool.and_eq_true, binders, List.forall_mem_cons] at *
    rw [hBinders.1, Bool.or_false] at h
    exact ⟨h.1, ih h.2 hBinders.2⟩
  | fix x body ih =>
    simp only [grammatical, printable, every, Bool.and_eq_true, binders, List.forall_mem_cons] at *
    exact ⟨h.1, ih h.2 hBinders.2⟩
  | letIn x bound body hBound hBody =>
    simp only [grammatical, printable, every, Bool.and_eq_true, binders, List.forall_mem_cons,
      List.forall_mem_append] at *
    rw [hBinders.1, Bool.or_false] at h
    exact ⟨h.1, hBound h.2.1 hBinders.2.1, hBody h.2.2 hBinders.2.2⟩
  | quote body ih | splice shift body ih =>
    simp only [grammatical, printable, every, Bool.and_eq_true, binders] at *
    exact ⟨h.1, ih h.2 hBinders⟩
  | app a b ha hb | logic op a b ha hb =>
    simp only [grammatical, printable, every, Bool.and_eq_true, binders,
      List.forall_mem_append] at *
    exact ⟨h.1, ha h.2.1 hBinders.1, hb h.2.2 hBinders.2⟩
  | ite a b c ha hb hc =>
    simp only [grammatical, printable, every, Bool.and_eq_true, binders,
      List.forall_mem_append] at *
    exact ⟨h.1, ha h.2.1 hBinders.1.1, hb h.2.2.1 hBinders.1.2, hc h.2.2.2 hBinders.2⟩
  | prim op args ih =>
    simp only [grammatical, printable, every, Bool.and_eq_true, everyAll_iff, binders,
      bindersAll_eq_flatMap, List.mem_flatMap] at *
    exact ⟨h.1, fun a ha => ih a ha (h.2 a ha) fun id hid => hBinders id ⟨a, ha, hid⟩⟩

end Term

namespace Grammar

theorem Binds.named {w : Nat} {k : Token} {x : Ident} {w' : Nat} (h : Binds w k x w')
    (hProper : k.proper = true) : (x.isNamed || x.isWildcard) = true := by
  cases h with
  | name => rwa [Ident.isWildcard, Bool.or_false]
  | wildcard => rfl

theorem Shifts.above {ss : List Token} {n : Int64} (h : Shifts ss n)
    (hProper : ∀ k ∈ ss, k.proper = true) : Int64.minValue < n := by
  cases h with
  | one => decide
  | number =>
    have hNonneg : 0 ≤ n := of_decide_eq_true (hProper (.integer n) (by simp))
    exact Int64.lt_of_lt_of_le (by decide) hNonneg
  | minus m =>
    have hNonneg : 0 ≤ m := of_decide_eq_true (hProper (.integer m) (by simp))
    have hMin : Int64.minValue.toInt = -0x8000000000000000 := by decide
    have hMax : Int64.maxValue.toInt = 0x7fffffffffffffff := by decide
    have hLow : 0 ≤ m.toInt := Int64.le_iff_toInt_le.mp hNonneg
    have hHigh := m.toInt_le
    rw [Int64.lt_iff_toInt_lt, toInt_neg_of_gt (Int64.lt_of_lt_of_le (by decide) hNonneg)]
    omega

/-- **What tokens of a source derive could be a program.** -/
theorem Derives.grammatical {τ : Tier} {w : Nat} {ts : List Token} {t : Term} {w' : Nat}
    (h : Derives τ w ts t w') (hProper : ∀ k ∈ ts, k.proper = true) : t.grammatical = true := by
  induction h with
  | tighter _ _ ih => exact ih hProper
  | enclosed _ ih | quote _ ih => exact ih fun k hk => hProper k (by simp [hk])
  | int w n => exact hProper (.integer n) (by simp)
  | bool => rfl
  | var w x => exact hProper (.identifier x) (by simp)
  | lam hId _ ih =>
    simp only [Term.grammatical, Term.every, Bool.and_eq_true]
    exact ⟨hId.named (hProper _ (by simp)), ih fun k hk => hProper k (by simp [hk])⟩
  | @fix w x ts body w' _ ih =>
    simp only [Term.grammatical, Term.every, Bool.and_eq_true]
    exact ⟨hProper (.identifier x) (by simp), ih fun k hk => hProper k (by simp [hk])⟩
  | letIn hId _ _ hBound hBody =>
    simp only [Term.grammatical, Term.every, Bool.and_eq_true]
    exact ⟨hId.named (hProper _ (by simp)), hBound fun k hk => hProper k (by simp [hk]),
      hBody fun k hk => hProper k (by simp [hk])⟩
  | ite _ _ _ hCond hYes hNo =>
    simp only [Term.grammatical, Term.every, Bool.and_eq_true]
    exact ⟨trivial, hCond fun k hk => hProper k (by simp [hk]),
      hYes fun k hk => hProper k (by simp [hk]), hNo fun k hk => hProper k (by simp [hk])⟩
  | logic _ _ _ hLeft hRight | app _ _ hLeft hRight =>
    simp only [Term.grammatical, Term.every, Bool.and_eq_true]
    exact ⟨trivial, hLeft fun k hk => hProper k (by simp [hk]),
      hRight fun k hk => hProper k (by simp [hk])⟩
  | arith _ _ _ hLeft hRight | compare _ _ _ hLeft hRight =>
    simp only [Term.grammatical, Term.every, Term.everyAll, Bool.and_eq_true]
    exact ⟨rfl, hLeft fun k hk => hProper k (by simp [hk]),
      hRight fun k hk => hProper k (by simp [hk]), trivial⟩
  | negate _ ih =>
    simp only [Term.grammatical, Term.every, Term.everyAll, Bool.and_eq_true]
    exact ⟨rfl, ih fun k hk => hProper k (by simp [hk]), trivial⟩
  | minus _ ih =>
    simp only [Term.grammatical, Term.every, Term.everyAll, Bool.and_eq_true]
    exact ⟨rfl, rfl, ih fun k hk => hProper k (by simp [hk]), trivial⟩
  | splice hShift _ ih =>
    simp only [Term.grammatical, Term.every, Bool.and_eq_true]
    exact ⟨decide_eq_true (hShift.above fun k hk => hProper k (by simp [hk])),
      ih fun k hk => hProper k (by simp [hk])⟩

end Grammar

namespace Program

theorem grammatical_of_read {source : String} {e : Term} (h : Program.read source = .ok e) :
    e.grammatical = true := by
  rw [Program.read, readChars] at h
  split at h
  · cases h
  next marked hTokens =>
    split at h
    · cases h
    next hProgram =>
      cases h
      obtain ⟨w, hDerives⟩ := Grammar.derives_of_program hProgram
      refine hDerives.grammatical fun k hk => ?_
      obtain ⟨l, hl, hReading⟩ := mem_of_tokens hTokens hk
      exact Lexeme.proper_of_scan hl hReading

/-- **Reading undoes writing.**  The text of a printable term is read as the term with its literals
below zero taken from zero; and a program that has been read, unless it has wildcards, is printable
and has no such literals, so it is read from its own text. -/
theorem read_text (e : Term) :
    (e.printable = true → Program.read e.text = .ok e.unsigned) ∧
    ∀ source, Program.read source = .ok e → (∀ id ∈ e.binders, id.isWildcard = false) →
      e.printable = true ∧ e.unsigned = e ∧ Program.read e.text = .ok e := by
  have hText : e.printable = true → Program.read e.text = .ok e.unsigned := by
    intro hPrintable
    rw [← Term.reread_of_printable hPrintable]
    exact read_legible (Term.legible_of_printable hPrintable)
  refine ⟨hText, fun source hRead hBinders => ?_⟩
  have hGrammatical := grammatical_of_read hRead
  have hPrintable := Term.printable_of_grammatical hGrammatical hBinders
  have hUnsigned := Term.unsigned_of_grammatical hGrammatical
  have hAgain := hText hPrintable
  rw [hUnsigned] at hAgain
  exact ⟨hPrintable, hUnsigned, hAgain⟩

/-- A literal below zero as an argument, an open form as an operand and a splice below zero. -/
theorem read_text_nested :
    let f : Term := .var (.raw "f")
    let body (argument : Term) : Term := .prim (.arith .mul) [.app f argument,
      .prim (.arith .sub) [.int 2, .splice (-2)
        (.logic .or (.prim .negate [f]) (.letIn (.raw "x\x27") (.quote f) f))]]
    let e : Term := .lam (.raw "f") (body (.int (-3)))
    let e' : Term := .lam (.raw "f") (body (.prim (.arith .sub) [.int 0, .int 3]))
    e.text = "fn f -> f (-3) * (2 - ~-2\x7b not f || (let x\x27 = \x60\x7b f \x7d in f) \x7d)" ∧
      Program.read e.text = .ok e' ∧ e'.unsigned = e' ∧ Program.read e'.text = .ok e' := by
  intro f body e e'
  have hRead : Program.read e.text = .ok e' := (read_text e).1 (by decide)
  exact ⟨by decide +kernel, hRead, ((read_text e').2 _ hRead (by decide)).2⟩

end Program

end StagedLambda
