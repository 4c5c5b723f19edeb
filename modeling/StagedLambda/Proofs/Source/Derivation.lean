import StagedLambda.Proofs.Source.Script
import StagedLambda.Source.Grammar

/-!
# Derivations

The grammar as a relation: at a tier, a list of tokens derives a term.  Wildcards are numbered in
the order of the tokens, so a derivation carries the number of the next wildcard in front of the
tokens and behind them.

* `Grammar.Derives`: one rule for each construct, and one that passes to a tighter tier.
* `Grammar.derives_of_program`: what is read from tokens is derived by them.
-/

namespace StagedLambda.Grammar

/-- A binder is a name or the next wildcard. -/
inductive Binds : Nat → Token → Ident → Nat → Prop
  | name (w : Nat) (x : String) : Binds w (.identifier x) (.raw x) w
  | wildcard (w : Nat) : Binds w .underscore (.generated w) (w + 1)

/-- The number behind a tilde. -/
inductive Shifts : List Token → Int64 → Prop
  | one : Shifts [] 1
  | number (n : Int64) : Shifts [.integer n] n
  | minus (n : Int64) : Shifts [.minus, .integer n] (-n)

/-- At a tier, tokens derive a term; the wildcards among them have the numbers from the first one
given up to the last one, which is not among them. -/
inductive Derives : Tier → Nat → List Token → Term → Nat → Prop
  | tighter {τ w ts t w'} (hAtom : τ ≠ .atom) (h : Derives τ.tighter w ts t w') :
    Derives τ w ts t w'
  | lam {w k id w₁ ts body w₂} (hId : Binds w k id w₁) (hBody : Derives .expression w₁ ts body w₂) :
    Derives .expression w (.fnWord :: k :: .arrow :: ts) (.lam id body) w₂
  | fix {w x ts body w'} (hBody : Derives .expression w ts body w') :
    Derives .expression w (.fixWord :: .identifier x :: .arrow :: ts) (.fix (.raw x) body) w'
  | letIn {w k id w₁ ts bound w₂ ts' body w₃} (hId : Binds w k id w₁)
    (hBound : Derives .expression w₁ ts bound w₂) (hBody : Derives .expression w₂ ts' body w₃) :
    Derives .expression w (.letWord :: k :: .assign :: (ts ++ .inWord :: ts'))
      (.letIn id bound body) w₃
  | ite {w ts cond w₁ ts' yes w₂ ts'' no w₃} (hCond : Derives .expression w ts cond w₁)
    (hYes : Derives .expression w₁ ts' yes w₂) (hNo : Derives .expression w₂ ts'' no w₃) :
    Derives .expression w (.ifWord :: (ts ++ .thenWord :: (ts' ++ .elseWord :: ts'')))
      (.ite cond yes no) w₃
  | logic {w ts left w₁ ts' right w₂} (op : LogicOp) (hLeft : Derives op.tier w ts left w₁)
    (hRight : Derives op.tier.tighter w₁ ts' right w₂) :
    Derives op.tier w (ts ++ .ofLogic op :: ts') (.logic op left right) w₂
  | arith {w ts left w₁ ts' right w₂} (op : ArithOp) (hLeft : Derives op.tier w ts left w₁)
    (hRight : Derives op.tier.tighter w₁ ts' right w₂) :
    Derives op.tier w (ts ++ .ofArith op :: ts') (.prim (.arith op) [left, right]) w₂
  | compare {w ts left w₁ ts' right w₂} (op : CompareOp) (hLeft : Derives .sum w ts left w₁)
    (hRight : Derives .sum w₁ ts' right w₂) :
    Derives .comparison w (ts ++ .ofCompare op :: ts') (.prim (.compare op) [left, right]) w₂
  | negate {w ts a w'} (h : Derives .unary w ts a w') :
    Derives .unary w (.notWord :: ts) (.prim .negate [a]) w'
  | minus {w ts a w'} (h : Derives .unary w ts a w') :
    Derives .unary w (.minus :: ts) (.prim (.arith .sub) [.int 0, a]) w'
  | app {w ts fn w₁ ts' arg w₂} (hFn : Derives .application w ts fn w₁)
    (hArg : Derives .atom w₁ ts' arg w₂) : Derives .application w (ts ++ ts') (.app fn arg) w₂
  | int (w : Nat) (n : Int64) : Derives .atom w [.integer n] (.int n) w
  | bool (w : Nat) (b : Bool) : Derives .atom w [.boolean b] (.bool b) w
  | var (w : Nat) (x : String) : Derives .atom w [.identifier x] (.var (.raw x)) w
  | enclosed {w ts t w'} (h : Derives .expression w ts t w') :
    Derives .atom w (.leftParen :: (ts ++ [.rightParen])) t w'
  | quote {w ts body w'} (h : Derives .expression w ts body w') :
    Derives .atom w (.quoteOpen :: (ts ++ [.rightBrace])) (.quote body) w'
  | splice {w ss shift ts body w'} (hShift : Shifts ss shift)
    (hBody : Derives .expression w ts body w') :
    Derives .atom w (.tilde :: (ss ++ .leftBrace :: (ts ++ [.rightBrace]))) (.splice shift body) w'

/-! ### What a reader has done -/

/-- When the reader succeeds, `Q` relates the tokens it took off the cursor and its result, and the
numbers of the next wildcard before and after. -/
def Reads {α : Type} (r : Reader α) (Q : Nat → List Token → α → Nat → Prop) : Prop :=
  ∀ c a c', r c = .ok (a, c') →
    ∃ ts, c.tokens = ts ++ c'.tokens ∧ Q c.wildcards ts a c'.wildcards

section

variable {α β : Type} {r : Reader α} {f : α → Reader β} {Q R : Nat → List Token → α → Nat → Prop}
  {S : α → Nat → List Token → β → Nat → Prop}

theorem Reads.mono (h : Reads r Q) (hQ : ∀ w ts a w', Q w ts a w' → R w ts a w') : Reads r R := by
  intro c a c' hRead
  obtain ⟨ts, hTokens, hResult⟩ := h c a c' hRead
  exact ⟨ts, hTokens, hQ _ _ _ _ hResult⟩

theorem bind_eq_ok {x : Except Refusal (α × Cursor)} {g : α × Cursor → Except Refusal β} {b : β}
    (h : (x >>= g) = .ok b) : ∃ a c, x = .ok (a, c) ∧ g (a, c) = .ok b := by
  cases x with
  | error e => cases h
  | ok p => exact ⟨p.1, p.2, rfl, h⟩

theorem Reads.bind (h : Reads r Q) (h' : ∀ a, Reads (f a) (S a)) :
    Reads (r >>= f) fun w ts b w' =>
      ∃ a w₁ ts₁ ts₂, Q w ts₁ a w₁ ∧ S a w₁ ts₂ b w' ∧ ts = ts₁ ++ ts₂ := by
  intro c b c' hRead
  obtain ⟨a, c₁, hFirst, hSecond⟩ := bind_eq_ok (g := fun p => f p.1 p.2) hRead
  obtain ⟨ts₁, hTokens₁, hQ⟩ := h c a c₁ hFirst
  obtain ⟨ts₂, hTokens₂, hS⟩ := h' a c₁ b c' hSecond
  refine ⟨ts₁ ++ ts₂, ?_, a, _, ts₁, ts₂, hQ, hS, rfl⟩
  rw [hTokens₁, hTokens₂, List.append_assoc]

theorem reads_pure (a : α) : Reads (pure a) fun w ts b w' => ts = [] ∧ b = a ∧ w' = w := by
  rintro c b c' ⟨⟩
  exact ⟨[], rfl, rfl, rfl, rfl⟩

theorem Reads.map (h : Reads r Q) (g : α → β) :
    Reads (do let a ← r; return g a) fun w ts b w' => ∃ a, Q w ts a w' ∧ b = g a := by
  refine (h.bind fun a => reads_pure (g a)).mono ?_
  rintro w ts b w' ⟨a, _, ts₁, _, hQ, ⟨rfl, rfl, rfl⟩, rfl⟩
  exact ⟨a, by rwa [List.append_nil], rfl⟩

theorem reads_expect (k : Token) : Reads (expect k) fun w ts _ w' => ts = [k] ∧ w' = w := by
  rintro ⟨tokens, w⟩ u c' h
  simp only [expect] at h
  split at h
  · split at h
    next hToken =>
      cases h
      exact ⟨[k], by rw [hToken]; rfl, rfl, rfl⟩
    · cases h
  · cases h

/-- A token that has to stand there, and then the rest. -/
theorem Reads.after_expect (h : Reads r Q) (k : Token) :
    Reads (expect k >>= fun _ => r) fun w ts a w' => ∃ ts', Q w ts' a w' ∧ ts = k :: ts' := by
  refine ((reads_expect k).bind fun _ => h).mono ?_
  rintro w ts a w' ⟨_, _, _, ts', ⟨rfl, rfl⟩, hQ, rfl⟩
  exact ⟨ts', hQ, rfl⟩

/-- The rest of a reader that has seen the first token. -/
theorem Reads.after_token (h : Reads r Q) {k : Token} {rest : List Token} {w : Nat} {a : α}
    {c' : Cursor} (hRead : r ⟨rest, w⟩ = .ok (a, c')) :
    ∃ ts, k :: rest = ts ++ c'.tokens ∧ ∃ ts', Q w ts' a c'.wildcards ∧ ts = k :: ts' := by
  obtain ⟨ts, hTokens, hQ⟩ := h _ _ _ hRead
  exact ⟨k :: ts, congrArg (k :: ·) hTokens, ts, hQ, rfl⟩

end

theorem reads_name :
    Reads name fun w ts id w' => ∃ x, ts = [.identifier x] ∧ id = .raw x ∧ w' = w := by
  rintro ⟨tokens, w⟩ id c' h
  simp only [name] at h
  split at h
  · cases h
    exact ⟨_, rfl, _, rfl, rfl, rfl⟩
  · cases h

theorem reads_binder : Reads binder fun w ts id w' => ∃ k, ts = [k] ∧ Binds w k id w' := by
  rintro ⟨tokens, w⟩ id c' h
  simp only [binder] at h
  split at h
  · cases h
    exact ⟨_, rfl, _, rfl, .wildcard w⟩
  · obtain ⟨ts, hTokens, x, rfl, rfl, hWildcards⟩ := reads_name _ _ _ h
    refine ⟨_, hTokens, _, rfl, ?_⟩
    rw [hWildcards]
    exact .name w x

theorem reads_shift : Reads Grammar.shift fun w ts n w' => Shifts ts n ∧ w' = w := by
  rintro ⟨tokens, w⟩ n c' h
  simp only [Grammar.shift] at h
  split at h
  · cases h
    exact ⟨_, rfl, .number _, rfl⟩
  · cases h
    exact ⟨_, rfl, .minus _, rfl⟩
  · cases h
  · cases h
    exact ⟨[], rfl, .one, rfl⟩

/-! ### Chains -/

/-- The rule of an infix operator. -/
def Joins (τ : Tier) (k : Token) (f : Term → Term → Term) : Prop :=
  ∀ {w ts left w₁ ts' right w₂}, Derives τ w ts left w₁ → Derives τ.tighter w₁ ts' right w₂ →
    Derives τ w (ts ++ k :: ts') (f left right) w₂

section

variable {op? : Token → Option (Term → Term → Term)} {operand : Reader Term} {τ : Tier}

/-- The result continues the derivation of what stands in front of it. -/
def Continues (τ : Tier) (left : Term) (w₁ : Nat) (ts : List Token) (t : Term) (w₂ : Nat) : Prop :=
  ∀ w ls, Derives τ w ls left w₁ → Derives τ w (ls ++ ts) t w₂

theorem continues_self (left : Term) : Reads (pure left) (Continues τ left) := by
  refine (reads_pure left).mono ?_
  rintro w₁ ts t w₂ ⟨rfl, rfl, rfl⟩ w ls hLeft
  rwa [List.append_nil]

theorem Reads.of_continues {next : Term → Reader Term} (hAtom : τ ≠ .atom)
    (hFirst : Reads operand (Derives τ.tighter))
    (hNext : ∀ left, Reads (next left) (Continues τ left)) :
    Reads (operand >>= next) (Derives τ) := by
  refine (hFirst.bind hNext).mono ?_
  rintro w ts t w' ⟨left, w₁, ts₁, ts₂, hLeft, hContinues, rfl⟩
  exact hContinues w ts₁ (.tighter hAtom hLeft)

theorem reads_chainOn (hOp : ∀ k f, op? k = some f → Joins τ k f)
    (hOperand : Reads operand (Derives τ.tighter)) (bound : Nat) (left : Term) :
    Reads (chainOn op? operand bound left) (Continues τ left) := by
  induction bound generalizing left with
  | zero => exact continues_self left
  | succ bound ih =>
    rintro ⟨tokens, w₁⟩ t c' h
    simp only [chainOn] at h
    split at h
    · exact continues_self left _ _ _ h
    next k rest =>
      split at h
      · exact continues_self left _ _ _ h
      next f hf =>
        have hRead : Reads (operand >>= fun right => chainOn op? operand bound (f left right)) _ :=
          hOperand.bind fun right => ih (f left right)
        obtain ⟨ts, hTokens, ts', ⟨right, w₂, rs, ts'', hRight, hRest, rfl⟩, rfl⟩ :=
          hRead.after_token h
        refine ⟨_, hTokens, fun w ls hLeft => ?_⟩
        have hWhole := hRest w _ (hOp k f hf hLeft hRight)
        rwa [List.append_assoc, List.cons_append] at hWhole

theorem reads_chain (hAtom : τ ≠ .atom) (hOp : ∀ k f, op? k = some f → Joins τ k f)
    (hOperand : Reads operand (Derives τ.tighter)) : Reads (chain op? operand) (Derives τ) :=
  .of_continues hAtom hOperand fun left c => reads_chainOn hOp hOperand c.tokens.length left c

end

theorem orOp?_joins (k : Token) (f : Term → Term → Term) (h : orOp? k = some f) :
    Joins .disjunction k f := by
  cases k <;> cases h
  exact Derives.logic .or

theorem andOp?_joins (k : Token) (f : Term → Term → Term) (h : andOp? k = some f) :
    Joins .conjunction k f := by
  cases k <;> cases h
  exact Derives.logic .and

theorem sumOp?_joins (k : Token) (f : Term → Term → Term) (h : sumOp? k = some f) :
    Joins .sum k f := by
  cases k <;> cases h
  · exact Derives.arith .add
  · exact Derives.arith .sub

theorem productOp?_joins (k : Token) (f : Term → Term → Term) (h : productOp? k = some f) :
    Joins .product k f := by
  cases k <;> cases h
  · exact Derives.arith .mul
  · exact Derives.arith .div
  · exact Derives.arith .mod

theorem eq_ofCompare {k : Token} {op : CompareOp} (h : compareOp? k = some op) :
    k = .ofCompare op := by
  cases k <;> cases h <;> rfl

/-! ### The tiers -/

section

variable {ex : Reader Term} (hEx : Reads ex (Derives .expression))

include hEx

theorem reads_atom : Reads (atom ex) (Derives .atom) := by
  rintro ⟨tokens, w⟩ t c' h
  simp only [atom] at h
  split at h
  next n rest =>
    cases h
    exact ⟨_, rfl, .int w n⟩
  next b rest =>
    cases h
    exact ⟨_, rfl, .bool w b⟩
  next x rest =>
    cases h
    exact ⟨_, rfl, .var w x⟩
  next rest =>
    have hRead : Reads (enclosed ex) _ :=
      hEx.bind fun inner => (reads_pure inner).after_expect .rightParen
    obtain ⟨ts, hTokens, ts', ⟨inner, w₁, ts₁, ts₂, hInner, ⟨_, ⟨rfl, rfl, rfl⟩, rfl⟩, rfl⟩, rfl⟩ :=
      hRead.after_token h
    exact ⟨_, hTokens, .enclosed hInner⟩
  next rest =>
    have hRead : Reads (quotation ex) _ :=
      hEx.bind fun body => (reads_pure (Term.quote body)).after_expect .rightBrace
    obtain ⟨ts, hTokens, ts', ⟨body, w₁, ts₁, ts₂, hBody, ⟨_, ⟨rfl, rfl, rfl⟩, rfl⟩, rfl⟩, rfl⟩ :=
      hRead.after_token h
    exact ⟨_, hTokens, .quote hBody⟩
  next rest =>
    have hRead : Reads (splicing ex) _ := reads_shift.bind fun n => (hEx.bind fun body =>
      (reads_pure (Term.splice n body)).after_expect .rightBrace).after_expect .leftBrace
    obtain ⟨ts, hTokens, ts', ⟨n, w₁, ss, ts₂, ⟨hShift, rfl⟩, ⟨_, ⟨body, w₂, ts₃, ts₄, hBody,
      ⟨_, ⟨rfl, rfl, rfl⟩, rfl⟩, rfl⟩, rfl⟩, rfl⟩, rfl⟩ := hRead.after_token h
    exact ⟨_, hTokens, .splice hShift hBody⟩
  · cases h

theorem reads_applyOn (bound : Nat) (fn : Term) :
    Reads (applyOn ex bound fn) (Continues .application fn) := by
  induction bound generalizing fn with
  | zero => exact continues_self fn
  | succ bound ih =>
    intro c t c' h
    simp only [applyOn] at h
    split at h
    · have hRead : Reads (atom ex >>= fun arg => applyOn ex bound (.app fn arg)) _ :=
        (reads_atom hEx).bind fun arg => ih (.app fn arg)
      obtain ⟨ts, hTokens, arg, w₁, ts₁, ts₂, hArg, hRest, rfl⟩ := hRead _ _ _ h
      refine ⟨_, hTokens, fun w ls hFn => ?_⟩
      have hWhole := hRest w _ (.app hFn hArg)
      rwa [List.append_assoc] at hWhole
    · exact continues_self fn _ _ _ h

theorem reads_application : Reads (application ex) (Derives .application) :=
  .of_continues nofun (reads_atom hEx) fun fn c => reads_applyOn hEx c.tokens.length fn c

theorem reads_signed (bound : Nat) : Reads (signed ex bound) (Derives .unary) := by
  have hPassed : Reads (application ex) (Derives .unary) :=
    (reads_application hEx).mono fun _ _ _ _ => .tighter (τ := .unary) nofun
  induction bound with
  | zero => exact hPassed
  | succ bound ih =>
    rintro ⟨tokens, w⟩ t c' h
    simp only [signed] at h
    split at h
    · obtain ⟨ts, hTokens, ts', ⟨a, hOperand, rfl⟩, rfl⟩ :=
        (ih.map fun a => Term.prim .negate [a]).after_token h
      exact ⟨_, hTokens, .negate hOperand⟩
    · obtain ⟨ts, hTokens, ts', ⟨a, hOperand, rfl⟩, rfl⟩ :=
        (ih.map fun a => Term.prim (.arith .sub) [.int 0, a]).after_token h
      exact ⟨_, hTokens, .minus hOperand⟩
    · exact hPassed _ _ _ h

theorem reads_unary : Reads (unary ex) (Derives .unary) := fun c =>
  reads_signed hEx c.tokens.length c

theorem reads_product : Reads (product ex) (Derives .product) :=
  reads_chain nofun productOp?_joins (reads_unary hEx)

theorem reads_sum : Reads (sum ex) (Derives .sum) :=
  reads_chain nofun sumOp?_joins (reads_product hEx)

/-- Comparisons do not chain, so the left operand is a sum. -/
theorem reads_compareOn (left : Term) : Reads (compareOn ex left) fun w₁ ts t w₂ =>
    ∀ w ls, Derives .sum w ls left w₁ → Derives .comparison w (ls ++ ts) t w₂ := by
  have hOver : Reads (pure left) fun w₁ ts t w₂ =>
      ∀ w ls, Derives .sum w ls left w₁ → Derives .comparison w (ls ++ ts) t w₂ :=
    (continues_self left).mono fun _ _ _ _ hContinues w ls hLeft =>
      hContinues w ls (.tighter (τ := .comparison) nofun hLeft)
  rintro ⟨tokens, w₁⟩ t c' h
  simp only [compareOn] at h
  split at h
  · exact hOver _ _ _ h
  next k rest =>
    split at h
    · exact hOver _ _ _ h
    next op hOp =>
      obtain ⟨ts, hTokens, ts', ⟨right, hRight, rfl⟩, rfl⟩ :=
        ((reads_sum hEx).map fun right => Term.prim (.compare op) [left, right]).after_token h
      refine ⟨_, hTokens, fun w ls hLeft => ?_⟩
      rw [eq_ofCompare hOp]
      exact .compare op hLeft hRight

theorem reads_comparison : Reads (comparison ex) (Derives .comparison) := by
  refine ((reads_sum hEx).bind fun left => reads_compareOn hEx left).mono ?_
  rintro w ts t w' ⟨left, w₁, ts₁, ts₂, hLeft, hContinues, rfl⟩
  exact hContinues w ts₁ hLeft

theorem reads_conjunction : Reads (conjunction ex) (Derives .conjunction) :=
  reads_chain nofun andOp?_joins (reads_comparison hEx)

theorem reads_disjunction : Reads (disjunction ex) (Derives .disjunction) :=
  reads_chain nofun orOp?_joins (reads_conjunction hEx)

theorem reads_form : Reads (form ex) (Derives .expression) := by
  rintro ⟨tokens, w⟩ t c' h
  simp only [form] at h
  split at h
  next rest =>
    have hRead : Reads (abstraction ex) _ := reads_binder.bind fun id =>
      (hEx.map (Term.lam id)).after_expect .arrow
    obtain ⟨ts, hTokens, ts', ⟨id, w₁, ts₁, ts₂, ⟨k, rfl, hId⟩,
      ⟨ts₃, ⟨body, hBody, rfl⟩, rfl⟩, rfl⟩, rfl⟩ := hRead.after_token h
    exact ⟨_, hTokens, .lam hId hBody⟩
  next rest =>
    have hRead : Reads (fixpoint ex) _ := reads_name.bind fun self =>
      (hEx.map (Term.fix self)).after_expect .arrow
    obtain ⟨ts, hTokens, ts', ⟨self, w₁, ts₁, ts₂, ⟨x, rfl, rfl, rfl⟩,
      ⟨ts₃, ⟨body, hBody, rfl⟩, rfl⟩, rfl⟩, rfl⟩ := hRead.after_token h
    exact ⟨_, hTokens, .fix hBody⟩
  next rest =>
    have hRead : Reads (binding ex) _ := reads_binder.bind fun id => (hEx.bind fun bound =>
      (hEx.map (Term.letIn id bound)).after_expect .inWord).after_expect .assign
    obtain ⟨ts, hTokens, ts', ⟨id, w₁, ts₁, ts₂, ⟨k, rfl, hId⟩, ⟨ts₃, ⟨bound, w₂, ts₄, ts₅, hBound,
      ⟨ts₆, ⟨body, hBody, rfl⟩, rfl⟩, rfl⟩, rfl⟩, rfl⟩, rfl⟩ := hRead.after_token h
    exact ⟨_, hTokens, .letIn hId hBound hBody⟩
  next rest =>
    have hRead : Reads (conditional ex) _ := hEx.bind fun cond => (hEx.bind fun yes =>
      (hEx.map (Term.ite cond yes)).after_expect .elseWord).after_expect .thenWord
    obtain ⟨ts, hTokens, ts', ⟨cond, w₁, ts₁, ts₂, hCond, ⟨ts₃, ⟨yes, w₂, ts₄, ts₅, hYes,
      ⟨ts₆, ⟨no, hNo, rfl⟩, rfl⟩, rfl⟩, rfl⟩, rfl⟩, rfl⟩ := hRead.after_token h
    exact ⟨_, hTokens, .ite hCond hYes hNo⟩
  · obtain ⟨ts, hTokens, hDerives⟩ := reads_disjunction hEx _ _ _ h
    exact ⟨ts, hTokens, .tighter nofun hDerives⟩

end

theorem reads_expr (bound : Nat) : Reads (expr bound) (Derives .expression) := by
  induction bound with
  | zero => exact fun c t c' h => nomatch h
  | succ bound ih => exact reads_form ih

/-- **What is read from tokens is derived by them.** -/
theorem derives_of_program {tokens : List Token} {t : Term} (h : program tokens = .ok t) :
    ∃ w, Derives .expression 0 tokens t w := by
  rw [program] at h
  obtain ⟨t', c, hRead, hEnd⟩ := bind_eq_ok h
  obtain ⟨ts, hTokens, hDerives⟩ := reads_expr _ _ _ _ hRead
  obtain ⟨rest, w⟩ := c
  cases rest with
  | cons k rest => cases hEnd
  | nil =>
    cases hEnd
    obtain rfl : tokens = ts := hTokens.trans (List.append_nil ts)
    exact ⟨w, hDerives⟩

end StagedLambda.Grammar
