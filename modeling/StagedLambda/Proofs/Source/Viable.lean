import StagedLambda.Proofs.Source.Reading
import StagedLambda.Proofs.Source.Spelling

/-!
# Where reading stops

Tokens are viable for a construct if more tokens make them into one.  A reader that refuses has
taken viable tokens: up to the token that it refuses, nothing was wrong.  So there is a program
that starts with them.

* `Grammar.Explores`: what a reader has done when it succeeds, and that it may be completed to
  where it refuses.
* `Grammar.viable_of_refused`: the tokens in front of a refusal are viable.
-/

namespace StagedLambda.Grammar

variable {α β : Type}

/-- With some more tokens that can be written, `Q` holds of the tokens and some result. -/
def Viable (Q : Nat → List Token → α → Nat → Prop) (w : Nat) (ts : List Token) : Prop :=
  ∃ more a w', (∀ k ∈ more, k.proper = true) ∧ Q w (ts ++ more) a w'

/-- The reader takes tokens for which `Q` holds.  Where it refuses, it has taken viable tokens, and
it can always be satisfied from scratch. -/
structure Explores (r : Reader α) (Q : Nat → List Token → α → Nat → Prop) : Prop where
  reads : Reads r Q
  refuses : ∀ c R, r c = .error R → ∃ ts, c.tokens = ts ++ R.rest ∧ Viable Q c.wildcards ts
  opens : ∀ w, Viable Q w []

section

variable {r : Reader α} {f : α → Reader β} {Q : Nat → List Token → α → Nat → Prop}
  {S : α → Nat → List Token → β → Nat → Prop} {w : Nat} {ts rest : List Token} {k : Token}

theorem Viable.mono {Q' : Nat → List Token → α → Nat → Prop} (h : Viable Q w ts)
    (hQ : ∀ w ts a w', Q w ts a w' → Q' w ts a w') : Viable Q' w ts := by
  obtain ⟨more, a, w', hProper, hMore⟩ := h
  exact ⟨more, a, w', hProper, hQ _ _ _ _ hMore⟩

theorem Explores.mono {Q' : Nat → List Token → α → Nat → Prop} (h : Explores r Q)
    (hQ : ∀ w ts a w', Q w ts a w' → Q' w ts a w') : Explores r Q' := by
  refine ⟨h.reads.mono hQ, fun c R hRefuse => ?_, fun w => (h.opens w).mono hQ⟩
  obtain ⟨ts, hTokens, hViable⟩ := h.refuses c R hRefuse
  exact ⟨ts, hTokens, hViable.mono hQ⟩

theorem bind_eq_error {x : Except Refusal (α × Cursor)} {g : α × Cursor → Except Refusal β}
    {R : Refusal} (h : (x >>= g) = .error R) :
    x = .error R ∨ ∃ a c, x = .ok (a, c) ∧ g (a, c) = .error R := by
  cases x with
  | error e =>
    cases h
    exact .inl rfl
  | ok p => exact .inr ⟨p.1, p.2, rfl, h⟩

/-- **One reader after another.**  Where the first refuses, it can be satisfied and the second one
from scratch behind it. -/
theorem Explores.bind (h : Explores r Q) (h' : ∀ a, Explores (f a) (S a)) :
    Explores (r >>= f) fun w ts b w' =>
      ∃ a w₁ ts₁ ts₂, Q w ts₁ a w₁ ∧ S a w₁ ts₂ b w' ∧ ts = ts₁ ++ ts₂ := by
  refine ⟨h.reads.bind fun a => (h' a).reads, fun c R hRefuse => ?_, fun w => ?_⟩
  · rcases bind_eq_error (g := fun p => f p.1 p.2) hRefuse with hFirst | ⟨a, c₁, hFirst, hSecond⟩
    · obtain ⟨ts, hTokens, more, a, w₁, hProper, hQ⟩ := h.refuses c R hFirst
      obtain ⟨more', b, w', hProper', hS⟩ := (h' a).opens w₁
      exact ⟨ts, hTokens, more ++ more', b, w', List.forall_mem_append.mpr ⟨hProper, hProper'⟩,
        a, w₁, ts ++ more, more', hQ, hS, (List.append_assoc _ _ _).symm⟩
    · obtain ⟨ts₁, hTokens₁, hQ⟩ := h.reads c a c₁ hFirst
      obtain ⟨ts₂, hTokens₂, more, b, w', hProper, hS⟩ := (h' a).refuses c₁ R hSecond
      refine ⟨ts₁ ++ ts₂, ?_, more, b, w', hProper, a, _, ts₁, ts₂ ++ more, hQ, hS,
        List.append_assoc _ _ _⟩
      rw [hTokens₁, hTokens₂, List.append_assoc]
  · obtain ⟨more, a, w₁, hProper, hQ⟩ := h.opens w
    obtain ⟨more', b, w', hProper', hS⟩ := (h' a).opens w₁
    exact ⟨more ++ more', b, w', List.forall_mem_append.mpr ⟨hProper, hProper'⟩, a, w₁, more,
      more', hQ, hS, rfl⟩

theorem explores_pure (a : α) :
    Explores (pure a) fun w ts b w' => ts = [] ∧ b = a ∧ w' = w :=
  ⟨reads_pure a, nofun, fun w => ⟨[], a, w, List.forall_mem_nil _, rfl, rfl, rfl⟩⟩

theorem Explores.map (h : Explores r Q) (g : α → β) :
    Explores (do let a ← r; return g a) fun w ts b w' => ∃ a, Q w ts a w' ∧ b = g a := by
  refine (h.bind fun a => explores_pure (g a)).mono ?_
  rintro w ts b w' ⟨a, _, ts₁, _, hQ, ⟨rfl, rfl, rfl⟩, rfl⟩
  exact ⟨a, by rwa [List.append_nil], rfl⟩

/-- A reader that refuses at once. -/
theorem explores_refuse (e : Expectation) (hOpens : ∀ w, Viable Q w []) :
    Explores (refuse e : Reader α) Q := by
  refine ⟨nofun, ?_, hOpens⟩
  rintro c _ ⟨⟩
  exact ⟨[], rfl, hOpens c.wildcards⟩

theorem explores_expect (hProper : k.proper = true) :
    Explores (expect k) fun w ts _ w' => ts = [k] ∧ w' = w := by
  have hOpens (w : Nat) : Viable (fun w ts (_ : Unit) w' => ts = [k] ∧ w' = w) w [] :=
    ⟨[k], (), w, List.forall_mem_singleton.mpr hProper, rfl, rfl⟩
  refine ⟨reads_expect k, ?_, hOpens⟩
  rintro ⟨tokens, w⟩ R h
  refine ⟨[], ?_, hOpens w⟩
  simp only [expect] at h
  split at h
  · split at h <;> cases h
    rfl
  · cases h
    rfl

/-- A token that has to stand there, and then the rest. -/
theorem Explores.after_expect (h : Explores r Q) (hProper : k.proper = true) :
    Explores (expect k >>= fun _ => r) fun w ts a w' => ∃ ts', Q w ts' a w' ∧ ts = k :: ts' := by
  refine ((explores_expect hProper).bind fun _ => h).mono ?_
  rintro w ts a w' ⟨_, _, _, ts', ⟨rfl, rfl⟩, hQ, rfl⟩
  exact ⟨ts', hQ, rfl⟩

/-- The rest of a reader that has seen the first token. -/
theorem Explores.after_token {Q' : Nat → List Token → α → Nat → Prop} (h : Explores r Q)
    (hQ : ∀ w ts a w', Q w ts a w' → Q' w (k :: ts) a w') {R : Refusal}
    (hRefuse : r ⟨rest, w⟩ = .error R) :
    ∃ ts, k :: rest = ts ++ R.rest ∧ Viable Q' w ts := by
  obtain ⟨ts, hTokens, more, a, w', hProper, hMore⟩ := h.refuses _ R hRefuse
  exact ⟨k :: ts, congrArg (k :: ·) hTokens, more, a, w', hProper, hQ _ _ _ _ hMore⟩

/-- A bound that depends on the tokens. -/
theorem Explores.of_bound {r : Nat → Reader α} (h : ∀ bound, Explores (r bound) Q) :
    Explores (fun c => r c.tokens.length c) Q :=
  ⟨fun c => (h _).reads c, fun c => (h _).refuses c, (h 0).opens⟩

end

theorem proper_name : Lexeme.isName "x" = true := by decide

theorem explores_name :
    Explores name fun w ts id w' => ∃ x, ts = [.identifier x] ∧ id = .raw x ∧ w' = w := by
  have hOpens (w : Nat) : Viable (fun w ts (id : Ident) w' =>
      ∃ x, ts = [.identifier x] ∧ id = .raw x ∧ w' = w) w [] :=
    ⟨[.identifier "x"], _, w, List.forall_mem_singleton.mpr proper_name, "x", rfl, rfl, rfl⟩
  refine ⟨reads_name, ?_, hOpens⟩
  rintro ⟨tokens, w⟩ R h
  refine ⟨[], ?_, hOpens w⟩
  simp only [name] at h
  split at h <;> cases h
  rfl

theorem explores_binder : Explores binder fun w ts id w' => ∃ k, ts = [k] ∧ Binds w k id w' := by
  have hName : Explores name fun w ts id w' => ∃ k, ts = [k] ∧ Binds w k id w' := by
    refine explores_name.mono ?_
    rintro w _ _ _ ⟨x, rfl, rfl, rfl⟩
    exact ⟨_, rfl, .name _ x⟩
  refine ⟨reads_binder, ?_, hName.opens⟩
  rintro ⟨tokens, w⟩ R h
  simp only [binder] at h
  split at h
  · cases h
  · exact hName.refuses _ R h

theorem explores_shift : Explores Grammar.shift fun w ts n w' => Shifts ts n ∧ w' = w := by
  refine ⟨reads_shift, ?_, fun w => ⟨[], 1, w, List.forall_mem_nil _, .one, rfl⟩⟩
  rintro ⟨tokens, w⟩ R h
  simp only [Grammar.shift] at h
  split at h
  · cases h
  · cases h
  · cases h
    exact ⟨[.minus], rfl, [.integer 0], _, w, List.forall_mem_singleton.mpr rfl, .minus 0, rfl⟩
  · cases h

/-- Anything can be read from scratch: as a variable. -/
theorem viable_nil (τ : Tier) (w : Nat) : Viable (Derives τ) w [] :=
  ⟨[.identifier "x"], _, w, List.forall_mem_singleton.mpr proper_name,
    (Derives.var w "x").loosen τ.rank_le_atom⟩

/-! ### Chains -/

theorem explores_stop (τ : Tier) (left : Term) : Explores (pure left) (Continues τ left) := by
  refine (explores_pure left).mono ?_
  rintro w₁ ts t w₂ ⟨rfl, rfl, rfl⟩ w ls hLeft
  rwa [List.append_nil]

section

variable {op? : Token → Option (Term → Term → Term)} {operand : Reader Term} {τ : Tier}

theorem Explores.of_continues {next : Term → Reader Term} (hAtom : τ ≠ .atom)
    (hFirst : Explores operand (Derives τ.tighter))
    (hNext : ∀ left, Explores (next left) (Continues τ left)) :
    Explores (operand >>= next) (Derives τ) := by
  refine (hFirst.bind hNext).mono ?_
  rintro w ts t w' ⟨left, w₁, ts₁, ts₂, hLeft, hContinues, rfl⟩
  exact hContinues w ts₁ (.tighter hAtom hLeft)

theorem explores_chainOn (hOp : ∀ k f, op? k = some f → Joins τ k f)
    (hOperand : Explores operand (Derives τ.tighter)) (bound : Nat) (left : Term) :
    Explores (chainOn op? operand bound left) (Continues τ left) := by
  refine ⟨reads_chainOn hOp hOperand.reads bound left, ?_, (explores_stop τ left).opens⟩
  induction bound generalizing left with
  | zero => exact fun c R h => nomatch h
  | succ bound ih =>
    rintro ⟨tokens, w₁⟩ R h
    simp only [chainOn] at h
    split at h
    · cases h
    next k rest =>
      split at h
      · cases h
      next f hf =>
        have hRest (right : Term) :
            Explores (chainOn op? operand bound (f left right)) (Continues τ (f left right)) :=
          ⟨reads_chainOn hOp hOperand.reads bound _, ih _, (explores_stop τ _).opens⟩
        refine (hOperand.bind hRest).after_token ?_ h
        rintro w₁ ts t w₂ ⟨right, w, rs, ts', hRight, hContinues, rfl⟩ w₀ ls hLeft
        have hWhole := hContinues w₀ _ (hOp k f hf hLeft hRight)
        rwa [List.append_assoc, List.cons_append] at hWhole

theorem explores_chain (hAtom : τ ≠ .atom) (hOp : ∀ k f, op? k = some f → Joins τ k f)
    (hOperand : Explores operand (Derives τ.tighter)) :
    Explores (chain op? operand) (Derives τ) :=
  .of_continues hAtom hOperand fun left => .of_bound fun bound =>
    explores_chainOn hOp hOperand bound left

end

/-! ### The tiers -/

section

variable {ex : Reader Term} (hEx : Explores ex (Derives .expression))

include hEx

theorem explores_enclosed :
    Explores (enclosed ex) fun w ts t w' => Derives .atom w (.leftParen :: ts) t w' := by
  refine (hEx.bind fun inner => (explores_pure inner).after_expect (k := .rightParen) rfl).mono ?_
  rintro w _ t w' ⟨inner, w₁, ts, _, hInner, ⟨_, ⟨rfl, rfl, rfl⟩, rfl⟩, rfl⟩
  exact .enclosed hInner

theorem explores_quotation :
    Explores (quotation ex) fun w ts t w' => Derives .atom w (.quoteOpen :: ts) t w' := by
  refine (hEx.bind fun body =>
    (explores_pure (Term.quote body)).after_expect (k := .rightBrace) rfl).mono ?_
  rintro w _ t w' ⟨body, w₁, ts, _, hBody, ⟨_, ⟨rfl, rfl, rfl⟩, rfl⟩, rfl⟩
  exact .quote hBody

theorem explores_splicing :
    Explores (splicing ex) fun w ts t w' => Derives .atom w (.tilde :: ts) t w' := by
  refine (explores_shift.bind fun n => (hEx.bind fun body =>
    (explores_pure (Term.splice n body)).after_expect (k := .rightBrace) rfl).after_expect
      (k := .leftBrace) rfl).mono ?_
  rintro w _ t w' ⟨n, w₁, ss, _, ⟨hShift, rfl⟩, ⟨_, ⟨body, w₂, ts, _, hBody,
    ⟨_, ⟨rfl, rfl, rfl⟩, rfl⟩, rfl⟩, rfl⟩, rfl⟩
  exact .splice hShift hBody

theorem explores_atom : Explores (atom ex) (Derives .atom) := by
  refine ⟨reads_atom hEx.reads, ?_, viable_nil .atom⟩
  rintro ⟨tokens, w⟩ R h
  simp only [atom] at h
  split at h
  · cases h
  · cases h
  · cases h
  · exact (explores_enclosed hEx).after_token (fun _ _ _ _ hDerives => hDerives) h
  · exact (explores_quotation hEx).after_token (fun _ _ _ _ hDerives => hDerives) h
  · exact (explores_splicing hEx).after_token (fun _ _ _ _ hDerives => hDerives) h
  · exact (explores_refuse .expression (viable_nil .atom)).refuses _ R h

theorem explores_applyOn (bound : Nat) (fn : Term) :
    Explores (applyOn ex bound fn) (Continues .application fn) := by
  refine ⟨reads_applyOn hEx.reads bound fn, ?_, (explores_stop _ fn).opens⟩
  induction bound generalizing fn with
  | zero => exact fun c R h => nomatch h
  | succ bound ih =>
    intro c R h
    simp only [applyOn] at h
    split at h
    · have hRest (arg : Term) :
          Explores (applyOn ex bound (.app fn arg)) (Continues .application (.app fn arg)) :=
        ⟨reads_applyOn hEx.reads bound _, ih _, (explores_stop _ _).opens⟩
      obtain ⟨ts, hTokens, hViable⟩ := ((explores_atom hEx).bind hRest).refuses _ R h
      refine ⟨ts, hTokens, hViable.mono ?_⟩
      rintro w₁ ts t w₂ ⟨arg, w, as, ts', hArg, hContinues, rfl⟩ w₀ ls hFn
      have hWhole := hContinues w₀ _ (.app hFn hArg)
      rwa [List.append_assoc] at hWhole
    · cases h

theorem explores_application : Explores (application ex) (Derives .application) :=
  .of_continues nofun (explores_atom hEx) fun fn => .of_bound fun bound =>
    explores_applyOn hEx bound fn

theorem explores_signed (bound : Nat) : Explores (signed ex bound) (Derives .unary) := by
  have hPassed : Explores (application ex) (Derives .unary) :=
    (explores_application hEx).mono fun _ _ _ _ => .tighter (τ := .unary) nofun
  induction bound with
  | zero => exact hPassed
  | succ bound ih =>
    refine ⟨reads_signed hEx.reads _, ?_, viable_nil .unary⟩
    rintro ⟨tokens, w⟩ R h
    simp only [signed] at h
    split at h
    · refine (ih.map fun a => Term.prim .negate [a]).after_token ?_ h
      rintro w ts t w' ⟨a, hOperand, rfl⟩
      exact .negate hOperand
    · refine (ih.map fun a => Term.prim (.arith .sub) [.int 0, a]).after_token ?_ h
      rintro w ts t w' ⟨a, hOperand, rfl⟩
      exact .minus hOperand
    · exact hPassed.refuses _ R h

theorem explores_unary : Explores (unary ex) (Derives .unary) := .of_bound (explores_signed hEx)

theorem explores_product : Explores (product ex) (Derives .product) :=
  explores_chain nofun productOp?_joins (explores_unary hEx)

theorem explores_sum : Explores (sum ex) (Derives .sum) :=
  explores_chain nofun sumOp?_joins (explores_product hEx)

theorem explores_compareOn (left : Term) : Explores (compareOn ex left) fun w₁ ts t w₂ =>
    ∀ w ls, Derives .sum w ls left w₁ → Derives .comparison w (ls ++ ts) t w₂ := by
  refine ⟨reads_compareOn hEx.reads left, ?_, fun w₁ =>
    ⟨[], left, w₁, List.forall_mem_nil _, ?_⟩⟩
  · rintro ⟨tokens, w₁⟩ R h
    simp only [compareOn] at h
    split at h
    · cases h
    next k rest =>
      split at h
      · cases h
      next op hOp =>
        refine ((explores_sum hEx).map fun right =>
          Term.prim (.compare op) [left, right]).after_token ?_ h
        rintro w₁ ts t w₂ ⟨right, hRight, rfl⟩ w ls hLeft
        rw [eq_ofCompare hOp]
        exact .compare op hLeft hRight
  · intro w ls hLeft
    rw [List.append_nil, List.append_nil]
    exact .tighter (τ := .comparison) (by decide) hLeft

theorem explores_comparison : Explores (comparison ex) (Derives .comparison) := by
  refine ((explores_sum hEx).bind fun left => explores_compareOn hEx left).mono ?_
  rintro w ts t w' ⟨left, w₁, ts₁, ts₂, hLeft, hContinues, rfl⟩
  exact hContinues w ts₁ hLeft

theorem explores_conjunction : Explores (conjunction ex) (Derives .conjunction) :=
  explores_chain nofun andOp?_joins (explores_comparison hEx)

theorem explores_disjunction : Explores (disjunction ex) (Derives .disjunction) :=
  explores_chain nofun orOp?_joins (explores_conjunction hEx)

theorem explores_abstraction :
    Explores (abstraction ex) fun w ts t w' => Derives .expression w (.fnWord :: ts) t w' := by
  refine (explores_binder.bind fun id =>
    (hEx.map (Term.lam id)).after_expect (k := .arrow) rfl).mono ?_
  rintro w _ t w' ⟨id, w₁, _, _, ⟨k, rfl, hId⟩, ⟨ts, ⟨body, hBody, rfl⟩, rfl⟩, rfl⟩
  exact .lam hId hBody

theorem explores_fixpoint :
    Explores (fixpoint ex) fun w ts t w' => Derives .expression w (.fixWord :: ts) t w' := by
  refine (explores_name.bind fun self =>
    (hEx.map (Term.fix self)).after_expect (k := .arrow) rfl).mono ?_
  rintro w _ t w' ⟨self, w₁, _, _, ⟨x, rfl, rfl, rfl⟩, ⟨ts, ⟨body, hBody, rfl⟩, rfl⟩, rfl⟩
  exact .fix hBody

theorem explores_binding :
    Explores (binding ex) fun w ts t w' => Derives .expression w (.letWord :: ts) t w' := by
  refine (explores_binder.bind fun id => (hEx.bind fun bound =>
    (hEx.map (Term.letIn id bound)).after_expect (k := .inWord) rfl).after_expect
      (k := .assign) rfl).mono ?_
  rintro w _ t w' ⟨id, w₁, _, _, ⟨k, rfl, hId⟩, ⟨_, ⟨bound, w₂, ts, _, hBound,
    ⟨ts', ⟨body, hBody, rfl⟩, rfl⟩, rfl⟩, rfl⟩, rfl⟩
  exact .letIn hId hBound hBody

theorem explores_conditional :
    Explores (conditional ex) fun w ts t w' => Derives .expression w (.ifWord :: ts) t w' := by
  refine (hEx.bind fun cond => (hEx.bind fun yes =>
    (hEx.map (Term.ite cond yes)).after_expect (k := .elseWord) rfl).after_expect
      (k := .thenWord) rfl).mono ?_
  rintro w _ t w' ⟨cond, w₁, ts, _, hCond, ⟨_, ⟨yes, w₂, ts', _, hYes,
    ⟨ts'', ⟨no, hNo, rfl⟩, rfl⟩, rfl⟩, rfl⟩, rfl⟩
  exact .ite hCond hYes hNo

theorem explores_form : Explores (form ex) (Derives .expression) := by
  have hPassed : Explores (disjunction ex) (Derives .expression) :=
    (explores_disjunction hEx).mono fun _ _ _ _ => .tighter (τ := .expression) nofun
  refine ⟨reads_form hEx.reads, ?_, viable_nil .expression⟩
  rintro ⟨tokens, w⟩ R h
  simp only [form] at h
  split at h
  · exact (explores_abstraction hEx).after_token (fun _ _ _ _ hDerives => hDerives) h
  · exact (explores_fixpoint hEx).after_token (fun _ _ _ _ hDerives => hDerives) h
  · exact (explores_binding hEx).after_token (fun _ _ _ _ hDerives => hDerives) h
  · exact (explores_conditional hEx).after_token (fun _ _ _ _ hDerives => hDerives) h
  · exact hPassed.refuses _ R h

end

theorem explores_expr (bound : Nat) : Explores (expr bound) (Derives .expression) := by
  induction bound with
  | zero => exact explores_refuse .expression (viable_nil .expression)
  | succ bound ih => exact explores_form ih

/-- **What stands in front of a refusal is viable.** -/
theorem viable_of_refused {tokens : List Token} {R : Refusal} (h : program tokens = .error R) :
    ∃ ts, tokens = ts ++ R.rest ∧ Viable (Derives .expression) 0 ts := by
  have hExpr := explores_expr tokens.length
  rw [program] at h
  rcases bind_eq_error h with hRefuse | ⟨t, ⟨rest, w⟩, hRead, hEnd⟩
  · exact hExpr.refuses _ R hRefuse
  · obtain ⟨ts, hTokens, hDerives⟩ := hExpr.reads _ t _ hRead
    cases rest with
    | nil => cases hEnd
    | cons k rest =>
      cases hEnd
      refine ⟨ts, hTokens, [], t, w, List.forall_mem_nil _, ?_⟩
      rwa [List.append_nil]

end StagedLambda.Grammar
