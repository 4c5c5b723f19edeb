import StagedLambda.Proofs.Source.Derivation

/-!
# The grammar reads what it derives

A reader of some tier, put in front of tokens that derive a term at that tier, takes exactly these
tokens, provided that what follows does not go on with the construct (`Grammar.Derives.readable`).
A construct of a tighter tier is passed down; nested expressions stand behind a token that has
been read before them and are left to the reader of expressions.

In front of a chain of operators this is not enough for the left operand, which is followed by an
operator of the same tier.  A reader of chains that has taken a left operand goes on with that
operand, and with enough bound for all tokens that are left (`Readable.chains`).

* `Grammar.program_eq_ok_iff`: a program is read from tokens exactly if they derive it.
* `Grammar.Derives.unique`: tokens derive one term.
* `Grammar.program_script`: the tokens of a term read as the term.
-/

namespace StagedLambda

namespace Grammar

/-- In front of `rest` the reader takes the tokens `ts` and gives `a`; the numbers of the next
wildcard before and after are `w` and `w'`. -/
def Takes {α : Type} (r : Reader α) (w : Nat) (ts : List Token) (a : α) (w' : Nat)
    (rest : List Token) : Prop :=
  r ⟨ts ++ rest, w⟩ = .ok (a, ⟨rest, w'⟩)

section

variable {α β : Type} {r : Reader α} {f : α → Reader β} {a : α} {b : β} {ts ts' rest : List Token}
  {w w₁ w' : Nat}

theorem Takes.bind (h : Takes r w ts a w₁ (ts' ++ rest)) (h' : Takes (f a) w₁ ts' b w' rest) :
    Takes (r >>= f) w (ts ++ ts') b w' rest := by
  show (r ⟨ts ++ ts' ++ rest, w⟩ >>= fun p => f p.1 p.2) = _
  rw [List.append_assoc, h]
  exact h'

theorem takes_pure (a : α) (w : Nat) (rest : List Token) : Takes (pure a) w [] a w rest := rfl

theorem Takes.map (h : Takes r w ts a w' rest) (g : α → β) :
    Takes (do let a ← r; return g a) w ts (g a) w' rest := by
  have hBind : Takes (r >>= fun a => pure (g a)) w (ts ++ []) (g a) w' rest :=
    Takes.bind h (takes_pure (g a) w' rest)
  rwa [List.append_nil] at hBind

/-- A token that has to stand there, and then the rest. -/
theorem Takes.after_expect (h : Takes r w ts a w' rest) (k : Token) :
    Takes (expect k >>= fun _ => r) w (k :: ts) a w' rest := by
  have hExpect : Takes (expect k) w [k] () w (ts ++ rest) := if_pos rfl
  exact hExpect.bind h

end

theorem takes_binder {w w' : Nat} {k : Token} {id : Ident} (h : Binds w k id w')
    (rest : List Token) : Takes binder w [k] id w' rest := by
  cases h <;> rfl

/-- The number of a splice, in front of the brace. -/
theorem takes_shift {ss : List Token} {n : Int64} (h : Shifts ss n) (w : Nat)
    (rest : List Token) : Takes Grammar.shift w ss n w (.leftBrace :: rest) := by
  cases h <;> rfl

/-! ### Chains -/

section

variable {op? : Token → Option (Term → Term → Term)} {operand : Reader Term} {a b : Term}
  {ts rest : List Token} {w w' : Nat}

theorem chain_of_takes (h : Takes operand w ts a w' rest) :
    chain op? operand ⟨ts ++ rest, w⟩ = chainOn op? operand rest.length a ⟨rest, w'⟩ := by
  show (operand ⟨ts ++ rest, w⟩ >>= fun p => _) = _
  rw [h]
  rfl

theorem chainOn_step {k : Token} {combine : Term → Term → Term} (hOp : op? k = some combine)
    (h : Takes operand w ts b w' rest) (bound : Nat) :
    chainOn op? operand (bound + 1) a ⟨k :: (ts ++ rest), w⟩ =
      chainOn op? operand bound (combine a b) ⟨rest, w'⟩ := by
  rw [chainOn]
  simp only [hOp]
  show (operand ⟨ts ++ rest, w⟩ >>= fun p => _) = _
  rw [h]
  rfl

theorem chainOn_stop (h : ∀ k ∈ rest.head?, op? k = none) (bound w : Nat) :
    chainOn op? operand bound a ⟨rest, w⟩ = .ok (a, ⟨rest, w⟩) := by
  cases bound with
  | zero => rfl
  | succ bound =>
    rw [chainOn]
    cases rest with
    | nil => rfl
    | cons k rest => simp only [h k rfl]

end

/-! ### Readers by tier -/

section

variable (ex : Reader Term)

def reader : Tier → Reader Term
  | .expression => form ex
  | .disjunction => disjunction ex
  | .conjunction => conjunction ex
  | .comparison => comparison ex
  | .sum => sum ex
  | .product => product ex
  | .unary => unary ex
  | .application => application ex
  | .atom => atom ex

/-- How a reader goes on when it has read a construct of a tighter tier. -/
def onward : Tier → Nat → Term → Reader Term
  | .disjunction => chainOn orOp? (conjunction ex)
  | .conjunction => chainOn andOp? (comparison ex)
  | .comparison => fun _ left => compareOn ex left
  | .sum => chainOn sumOp? (product ex)
  | .product => chainOn productOp? (unary ex)
  | .application => applyOn ex
  | .expression | .unary | .atom => fun _ left => pure left

/-- What an infix operator makes of its operands, at the tier where it chains. -/
def combine? : Tier → Token → Option (Term → Term → Term)
  | .disjunction => orOp?
  | .conjunction => andOp?
  | .sum => sumOp?
  | .product => productOp?
  | _ => fun _ => none

variable {ex} {t : Term} {ts rest : List Token}

theorem onward_stop {τ : Tier} (hStop : Stops τ rest) (bound w : Nat) :
    onward ex τ bound t ⟨rest, w⟩ = .ok (t, ⟨rest, w⟩) := by
  have hChain : ∀ {op? : Token → Option (Term → Term → Term)} {operand : Reader Term},
      (∀ k, k.joins? ≠ some τ → op? k = none) →
      chainOn op? operand bound t ⟨rest, w⟩ = .ok (t, ⟨rest, w⟩) := by
    intro op? operand hOp
    refine chainOn_stop (fun k hk => hOp k fun hJoins => ?_) bound w
    exact Nat.lt_irrefl _ (hStop k hk τ hJoins)
  cases τ with
  | expression | unary | atom => rfl
  | disjunction | conjunction | sum | product =>
    exact hChain fun k hk => by cases k <;> first | rfl | exact absurd rfl hk
  | comparison =>
    cases rest with
    | nil => rfl
    | cons k rest =>
      have hk := stops_cons.mp hStop
      have hNone : compareOp? k = none := by
        cases k <;> first | rfl | exact absurd (hk _ rfl) (Nat.lt_irrefl _)
      show compareOn ex t ⟨k :: rest, w⟩ = _
      simp only [compareOn, hNone]
  | application =>
    cases bound with
    | zero => rfl
    | succ bound =>
      show applyOn ex (bound + 1) t ⟨rest, w⟩ = _
      rw [applyOn]
      cases rest with
      | nil => rfl
      | cons k rest =>
        have hk := stops_cons.mp hStop
        have hNot : k.startsAtom = false := by
          cases k <;> first | rfl | exact absurd (hk _ rfl) (Nat.lt_irrefl _)
        simp [hNot]

/-- Tokens that start with one that leads no construct of a looser tier. -/
def Leads (τ : Tier) (ts : List Token) : Prop :=
  ∃ k ts' σ, ts = k :: ts' ∧ k.leads? = some σ ∧ τ.rank ≤ σ.rank

theorem Leads.append {τ σ : Tier} (h : Leads σ ts) (hRank : τ.rank ≤ σ.rank) (ts' : List Token) :
    Leads τ (ts ++ ts') := by
  obtain ⟨k, ts₁, ρ, rfl, hLeads, hρ⟩ := h
  exact ⟨k, ts₁ ++ ts', ρ, rfl, hLeads, Nat.le_trans hRank hρ⟩

/-- **A construct of a tighter tier is passed down.** -/
theorem reader_of_tighter {τ : Tier} {w w' : Nat} (hAtom : τ ≠ .atom) (hLeads : Leads τ.tighter ts)
    (h : Takes (reader ex τ.tighter) w ts t w' rest) :
    reader ex τ ⟨ts ++ rest, w⟩ = onward ex τ rest.length t ⟨rest, w'⟩ := by
  obtain ⟨k, ts, σ, rfl, hk, hRank⟩ := hLeads
  cases τ with
  | atom => exact absurd rfl hAtom
  | disjunction | conjunction | sum | product => exact chain_of_takes h
  | comparison =>
    have hSum : sum ex ⟨k :: ts ++ rest, w⟩ = .ok (t, ⟨rest, w'⟩) := h
    show (sum ex ⟨k :: ts ++ rest, w⟩ >>= fun p => compareOn ex p.1 p.2) = _
    rw [hSum]
    rfl
  | application =>
    have hHead : atom ex ⟨k :: ts ++ rest, w⟩ = .ok (t, ⟨rest, w'⟩) := h
    show (atom ex ⟨k :: ts ++ rest, w⟩ >>= fun p => _) = _
    rw [hHead]
    rfl
  | expression =>
    have hForm : form ex ⟨k :: ts ++ rest, w⟩ = disjunction ex ⟨k :: ts ++ rest, w⟩ := by
      cases k <;> first | rfl | (cases hk; cases hRank)
    exact hForm.trans h
  | unary =>
    have hSigned : unary ex ⟨k :: ts ++ rest, w⟩ = application ex ⟨k :: ts ++ rest, w⟩ := by
      cases k <;> first | rfl | (cases hk; simp [Tier.rank, Tier.tighter] at hRank)
    exact hSigned.trans h

end

/-- The first token of a derivation tells which tiers it may be passed down. -/
theorem Derives.leads {τ : Tier} {w w' : Nat} {ts : List Token} {t : Term}
    (h : Derives τ w ts t w') : Leads τ ts := by
  induction h with
  | @tighter τ _ _ _ _ _ _ ih =>
    obtain ⟨k, ts', σ, hTokens, hLeads, hRank⟩ := ih
    exact ⟨k, ts', σ, hTokens, hLeads, Nat.le_trans τ.rank_le_tighter hRank⟩
  | lam | fix | letIn | ite => exact ⟨_, _, .expression, rfl, rfl, Nat.le_refl _⟩
  | logic _ _ _ ih | arith _ _ _ ih | app _ _ ih => exact ih.append (Nat.le_refl _) _
  | compare _ _ _ ih => exact ih.append (by decide) _
  | negate | minus => exact ⟨_, _, .unary, rfl, rfl, Nat.le_refl _⟩
  | int | bool | var | enclosed | quote | splice => exact ⟨_, _, .atom, rfl, rfl, Nat.le_refl _⟩

/-! ### Readable tokens -/

/-- The tiers whose constructs chain to the left. -/
def chains : Tier → Bool
  | .disjunction | .conjunction | .sum | .product | .application => true
  | .expression | .comparison | .unary | .atom => false

/-- The reader of expressions takes the tokens in front of all that stops an expression. -/
def Nested (ex : Reader Term) (w : Nat) (ts : List Token) (t : Term) (w' : Nat) : Prop :=
  ∀ rest, Stops .expression rest → Takes ex w ts t w' rest

/-- The reader of a tier takes the tokens in front of all that stops the tier. -/
structure Readable (ex : Reader Term) (τ : Tier) (w : Nat) (ts : List Token) (t : Term) (w' : Nat) :
    Prop where
  takes : ∀ rest, Stops τ rest → Takes (reader ex τ) w ts t w' rest
  /-- A reader of chains goes on from here. -/
  chains : chains τ = true → ∀ rest, Stops τ.tighter rest → ∃ bound, rest.length ≤ bound ∧
    reader ex τ ⟨ts ++ rest, w⟩ = onward ex τ bound t ⟨rest, w'⟩

section

variable {ex : Reader Term} {τ : Tier} {w w₁ w₂ w₃ w' : Nat} {ts ts' ts'' : List Token}
  {t x y z : Term}

/-- A construct that does not chain. -/
theorem Readable.of_form (hTier : Grammar.chains τ = false)
    (h : ∀ rest, Stops τ rest → Takes (reader ex τ) w ts t w' rest) :
    Readable ex τ w ts t w' := by
  refine ⟨h, fun hChain => ?_⟩
  rw [hTier] at hChain
  cases hChain

/-- A construct that chains. -/
theorem Readable.of_chain (h : ∀ rest, Stops τ.tighter rest → ∃ bound, rest.length ≤ bound ∧
    reader ex τ ⟨ts ++ rest, w⟩ = onward ex τ bound t ⟨rest, w'⟩) :
    Readable ex τ w ts t w' := by
  refine ⟨fun rest hStop => ?_, fun _ => h⟩
  obtain ⟨bound, -, hRead⟩ := h rest (hStop.mono τ.rank_le_tighter)
  exact hRead.trans (onward_stop hStop bound w')

theorem Readable.of_tighter (hAtom : τ ≠ .atom) (hLeads : Leads τ.tighter ts)
    (h : Readable ex τ.tighter w ts t w') : Readable ex τ w ts t w' := by
  constructor
  · intro rest hStop
    have hRead := reader_of_tighter hAtom hLeads (h.takes rest (hStop.mono τ.rank_le_tighter))
    exact hRead.trans (onward_stop hStop _ w')
  · intro _ rest hStop
    exact ⟨rest.length, Nat.le_refl _, reader_of_tighter hAtom hLeads (h.takes rest hStop)⟩

/-! ### Constructs -/

/-- What stands in front of a closing mark. -/
theorem Nested.takes_closed {f : Term → Term} {k : Token} (h : Nested ex w ts x w')
    (hClose : k.joins? = none) (rest : List Token) :
    Takes (do let body ← ex; expect k; return f body) w (ts ++ [k]) (f x) w' rest := by
  have hBody : Takes ex w ts x w' ([k] ++ rest) :=
    h _ (stops_cons.mpr fun σ hσ => by rw [hClose] at hσ; cases hσ)
  exact hBody.bind ((takes_pure (f x) w' rest).after_expect k)

/-- In parentheses anything is an atom. -/
theorem Readable.enclosed (h : Nested ex w ts x w') :
    Readable ex .atom w (.leftParen :: (ts ++ [.rightParen])) x w' := by
  refine .of_form rfl fun rest _ => ?_
  have hEnclosed : Takes (Grammar.enclosed ex) w (ts ++ [.rightParen]) x w' rest :=
    h.takes_closed (f := id) rfl rest
  exact hEnclosed

theorem Readable.quote (h : Nested ex w ts x w') :
    Readable ex .atom w (.quoteOpen :: (ts ++ [.rightBrace])) (.quote x) w' := by
  refine .of_form rfl fun rest _ => ?_
  have hQuotation : Takes (quotation ex) w (ts ++ [.rightBrace]) (.quote x) w' rest :=
    h.takes_closed rfl rest
  exact hQuotation

theorem Readable.splice {ss : List Token} {n : Int64} (hShift : Shifts ss n)
    (h : Nested ex w ts x w') :
    Readable ex .atom w (.tilde :: (ss ++ .leftBrace :: (ts ++ [.rightBrace]))) (.splice n x)
      w' := by
  refine .of_form rfl fun rest _ => ?_
  have hBody := (h.takes_closed (f := Term.splice n) (k := .rightBrace) rfl rest).after_expect
    .leftBrace
  have hSplicing : Takes (splicing ex) w (ss ++ .leftBrace :: (ts ++ [.rightBrace])) (.splice n x)
      w' rest := (takes_shift hShift w _).bind hBody
  exact hSplicing

theorem Readable.lam {k : Token} {id : Ident} (hId : Binds w k id w₁) (h : Nested ex w₁ ts x w') :
    Readable ex .expression w (.fnWord :: k :: .arrow :: ts) (.lam id x) w' := by
  refine .of_form rfl fun rest hStop => ?_
  have hBody := (h rest hStop).map (Term.lam id)
  have hAbstraction : Takes (abstraction ex) w (k :: .arrow :: ts) (.lam id x) w' rest :=
    (takes_binder hId _).bind (hBody.after_expect .arrow)
  exact hAbstraction

theorem Readable.fix {name : String} (h : Nested ex w ts x w') :
    Readable ex .expression w (.fixWord :: .identifier name :: .arrow :: ts) (.fix (.raw name) x)
      w' := by
  refine .of_form rfl fun rest hStop => ?_
  have hName : Takes Grammar.name w [.identifier name] (.raw name) w ((.arrow :: ts) ++ rest) := rfl
  have hBody := (h rest hStop).map (Term.fix (.raw name))
  have hFixpoint : Takes (fixpoint ex) w (.identifier name :: .arrow :: ts) (.fix (.raw name) x) w'
      rest := hName.bind (hBody.after_expect .arrow)
  exact hFixpoint

theorem Readable.letIn {k : Token} {id : Ident} (hId : Binds w k id w₁)
    (hBound : Nested ex w₁ ts x w₂) (hBody : Nested ex w₂ ts' y w') :
    Readable ex .expression w (.letWord :: k :: .assign :: (ts ++ .inWord :: ts')) (.letIn id x y)
      w' := by
  refine .of_form rfl fun rest hStop => ?_
  have hLast := (hBody rest hStop).map (Term.letIn id x)
  have hFirst : Takes ex w₁ ts x w₂ ((.inWord :: ts') ++ rest) := hBound _ (stops_cons.mpr nofun)
  have hBinding : Takes (binding ex) w (k :: .assign :: (ts ++ .inWord :: ts')) (.letIn id x y) w'
      rest :=
    (takes_binder hId _).bind ((hFirst.bind (hLast.after_expect .inWord)).after_expect .assign)
  exact hBinding

theorem Readable.ite (hCond : Nested ex w ts x w₁) (hYes : Nested ex w₁ ts' y w₂)
    (hNo : Nested ex w₂ ts'' z w') :
    Readable ex .expression w (.ifWord :: (ts ++ .thenWord :: (ts' ++ .elseWord :: ts'')))
      (.ite x y z) w' := by
  refine .of_form rfl fun rest hStop => ?_
  have hThird := (hNo rest hStop).map (Term.ite x y)
  have hSecond : Takes ex w₁ ts' y w₂ ((.elseWord :: ts'') ++ rest) :=
    hYes _ (stops_cons.mpr nofun)
  have hFirst : Takes ex w ts x w₁ ((.thenWord :: (ts' ++ .elseWord :: ts'')) ++ rest) :=
    hCond _ (stops_cons.mpr nofun)
  have hConditional : Takes (conditional ex) w (ts ++ .thenWord :: (ts' ++ .elseWord :: ts''))
      (.ite x y z) w' rest :=
    hFirst.bind ((hSecond.bind (hThird.after_expect .elseWord)).after_expect .thenWord)
  exact hConditional

/-! ### Operators -/

/-- An operator that chains reads on from its left operand. -/
theorem Readable.joined {k : Token} {f : Term → Term → Term} (hOp : combine? τ k = some f)
    (hLeft : Readable ex τ w ts x w₁) (hRight : Readable ex τ.tighter w₁ ts' y w') :
    Readable ex τ w (ts ++ k :: ts') (f x y) w' := by
  have hOnward : onward ex τ = chainOn (combine? τ) (reader ex τ.tighter) := by
    cases τ <;> first | rfl | cases hOp
  have hChain : Grammar.chains τ = true := by cases τ <;> first | rfl | cases hOp
  have hJoins : k.joins? = some τ := by cases τ <;> cases k <;> first | rfl | cases hOp
  have hRank : τ.rank < τ.tighter.rank := by cases τ <;> first | decide | cases hOp
  refine .of_chain fun rest hStop => ?_
  -- The operator ends what the tighter tier reads, and the chain goes on with it.
  have hBetween : Stops τ.tighter (k :: (ts' ++ rest)) :=
    stops_cons.mpr fun σ hσ => Option.some.inj (hJoins.symm.trans hσ) ▸ hRank
  obtain ⟨bound, hBound, hRead⟩ := hLeft.chains hChain _ hBetween
  rw [List.length_cons, List.length_append] at hBound
  obtain ⟨bound, rfl⟩ : ∃ m, bound = m + 1 := ⟨bound - 1, by omega⟩
  refine ⟨bound, by omega, ?_⟩
  have hStep := chainOn_step (a := x) hOp (hRight.takes rest hStop) bound
  rw [← hOnward] at hStep
  rw [List.append_assoc, List.cons_append, hRead]
  exact hStep

/-- Comparisons do not chain: what follows the operator is a sum, and then they are over. -/
theorem Readable.compare (op : CompareOp) (hLeft : Readable ex .sum w ts x w₁)
    (hRight : Readable ex .sum w₁ ts' y w') :
    Readable ex .comparison w (ts ++ .ofCompare op :: ts') (.prim (.compare op) [x, y]) w' := by
  have hOp : compareOp? (.ofCompare op) = some op := by cases op <;> rfl
  have hJoins : (Token.ofCompare op).joins? = some .comparison := by cases op <;> rfl
  refine .of_form rfl fun rest hStop => ?_
  have hBetween : Stops .sum (.ofCompare op :: ts' ++ rest) :=
    stops_cons.mpr fun σ hσ => Option.some.inj (hJoins.symm.trans hσ) ▸ by decide
  have hFirst : Takes (sum ex) w ts x w₁ (.ofCompare op :: ts' ++ rest) :=
    hLeft.takes _ hBetween
  have hSecond : Takes (sum ex) w₁ ts' y w' rest :=
    hRight.takes rest (Stops.mono (σ := .comparison) hStop (by decide))
  have hCompare : Takes (compareOn ex x) w₁ (.ofCompare op :: ts') (.prim (.compare op) [x, y]) w'
      rest := by
    show compareOn ex x ⟨.ofCompare op :: (ts' ++ rest), w₁⟩ = _
    simp only [compareOn, hOp]
    rw [hSecond]
    rfl
  exact hFirst.bind hCompare

theorem stops_atom (rest : List Token) : Stops .atom rest := by
  intro k _ σ hσ
  have hσ' : σ ≠ .atom := by
    rintro rfl
    cases k <;> cases hσ
  cases σ <;> first | decide | exact absurd rfl hσ'

theorem Readable.app (hLeads : Leads .atom ts') (hFn : Readable ex .application w ts x w₁)
    (hArg : Readable ex .atom w₁ ts' y w') :
    Readable ex .application w (ts ++ ts') (.app x y) w' := by
  obtain ⟨k, ts', σ, rfl, hk, hRank⟩ := hLeads
  have hStarts : k.startsAtom = true := by
    cases k <;> first | rfl | (cases hk; done) | (cases hk; simp [Tier.rank] at hRank)
  refine .of_chain fun rest hStop => ?_
  obtain ⟨bound, hBound, hRead⟩ := hFn.chains rfl (k :: ts' ++ rest) (stops_atom _)
  rw [List.length_append, List.length_cons] at hBound
  obtain ⟨bound, rfl⟩ : ∃ m, bound = m + 1 := ⟨bound - 1, by omega⟩
  refine ⟨bound, by omega, ?_⟩
  rw [List.append_assoc, hRead]
  show applyOn ex (bound + 1) x ⟨k :: ts' ++ rest, w₁⟩ = _
  have hHead : (k :: ts' ++ rest).head?.any Token.startsAtom = true := hStarts
  have hTakes : atom ex ⟨k :: ts' ++ rest, w₁⟩ = .ok (y, ⟨rest, w'⟩) := hArg.takes rest hStop
  rw [applyOn]
  simp only [hHead, if_true]
  rw [hTakes]
  rfl

/-- A construct that is its operand behind a mark. -/
theorem Readable.marked {k : Token} {f : Term → Term}
    (hMark : ∀ ts w, unary ex ⟨k :: ts, w⟩ = (do let a ← unary ex; return f a : Reader Term) ⟨ts, w⟩)
    (h : Readable ex .unary w ts x w') : Readable ex .unary w (k :: ts) (f x) w' := by
  refine .of_form rfl fun rest hStop => ?_
  have hOperand : Takes (unary ex) w ts x w' rest := h.takes rest hStop
  exact (hMark (ts ++ rest) w).trans (hOperand.map f)

end

/-! ### Derivations -/

/-- **Tokens are read at the tier at which they derive a term.**  What stands in parentheses, in
braces or behind a keyword is left to the reader of expressions. -/
theorem Derives.readable {ex : Reader Term} {n : Nat}
    (hNested : ∀ {w ts t w'}, Derives .expression w ts t w' → ts.length ≤ n → Nested ex w ts t w')
    {τ : Tier} {w w' : Nat} {ts : List Token} {t : Term} (h : Derives τ w ts t w')
    (hLength : ts.length ≤ n + 1) : Readable ex τ w ts t w' := by
  induction h with
  | tighter hAtom h ih => exact .of_tighter hAtom h.leads (ih hLength)
  | int | bool | var => exact .of_form rfl fun _ _ => rfl
  | lam hId hBody =>
    simp only [List.length_cons] at hLength
    exact .lam hId (hNested hBody (by omega))
  | fix hBody =>
    simp only [List.length_cons] at hLength
    exact .fix (hNested hBody (by omega))
  | letIn hId hBound hBody =>
    simp only [List.length_cons, List.length_append] at hLength
    exact .letIn hId (hNested hBound (by omega)) (hNested hBody (by omega))
  | ite hCond hYes hNo =>
    simp only [List.length_cons, List.length_append] at hLength
    exact .ite (hNested hCond (by omega)) (hNested hYes (by omega)) (hNested hNo (by omega))
  | logic op _ _ ihLeft ihRight =>
    rw [List.length_append, List.length_cons] at hLength
    have hOp : combine? op.tier (.ofLogic op) = some (.logic op) := by cases op <;> rfl
    exact .joined hOp (ihLeft (by omega)) (ihRight (by omega))
  | arith op _ _ ihLeft ihRight =>
    rw [List.length_append, List.length_cons] at hLength
    have hOp : combine? op.tier (.ofArith op) = some fun a b => .prim (.arith op) [a, b] := by
      cases op <;> rfl
    exact .joined hOp (ihLeft (by omega)) (ihRight (by omega))
  | compare op _ _ ihLeft ihRight =>
    rw [List.length_append, List.length_cons] at hLength
    exact .compare op (ihLeft (by omega)) (ihRight (by omega))
  | negate _ ih =>
    rw [List.length_cons] at hLength
    exact .marked (f := fun a => .prim .negate [a]) (fun _ _ => rfl) (ih (by omega))
  | minus _ ih =>
    rw [List.length_cons] at hLength
    exact .marked (f := fun a => .prim (.arith .sub) [.int 0, a]) (fun _ _ => rfl) (ih (by omega))
  | app _ hArg ihFn ihArg =>
    rw [List.length_append] at hLength
    exact .app hArg.leads (ihFn (by omega)) (ihArg (by omega))
  | enclosed h =>
    simp only [List.length_cons, List.length_append] at hLength
    exact .enclosed (hNested h (by omega))
  | quote h =>
    simp only [List.length_cons, List.length_append] at hLength
    exact .quote (hNested h (by omega))
  | splice hShift hBody =>
    simp only [List.length_cons, List.length_append] at hLength
    exact .splice hShift (hNested hBody (by omega))

/-- Every nested expression stands behind a token, so a bound on the tokens bounds the nesting. -/
theorem Derives.nested (bound : Nat) {w w' : Nat} {ts : List Token} {t : Term}
    (h : Derives .expression w ts t w') (hLength : ts.length ≤ bound) :
    Nested (expr bound) w ts t w' := by
  induction bound generalizing w w' ts t with
  | zero =>
    -- No derivation is from no tokens.
    obtain ⟨k, ts', -, rfl, -⟩ := h.leads
    cases hLength
  | succ bound ih => exact (h.readable ih hLength).takes

/-- **A program is read from tokens exactly if they derive it.** -/
theorem program_eq_ok_iff {ts : List Token} {t : Term} :
    program ts = .ok t ↔ ∃ w, Derives .expression 0 ts t w := by
  refine ⟨derives_of_program, ?_⟩
  rintro ⟨w, h⟩
  have hTakes := h.nested _ (Nat.le_refl _) [] (stops_nil _)
  rw [Takes, List.append_nil] at hTakes
  rw [program, hTakes]
  rfl

/-- **Tokens derive one term** at each tier, and number the same wildcards. -/
theorem Derives.unique {τ : Tier} {w w₁ w₂ : Nat} {ts : List Token} {t t' : Term}
    (h : Derives τ w ts t w₁) (h' : Derives τ w ts t' w₂) : t = t' ∧ w₁ = w₂ := by
  have hTakes : ∀ {t w'}, Derives τ w ts t w' → Takes (reader (expr ts.length) τ) w ts t w' [] :=
    fun h => (h.readable (Derives.nested _) (Nat.le_succ _)).takes [] (stops_nil τ)
  have hSame := (hTakes h).symm.trans (hTakes h')
  cases hSame
  exact ⟨rfl, rfl⟩

/-! ### Scripts -/

theorem Derives.loosen {σ τ : Tier} {w w' : Nat} {ts : List Token} {t : Term}
    (h : Derives σ w ts t w') (hRank : τ.rank ≤ σ.rank) : Derives τ w ts t w' := by
  induction τ using Tier.loosen with
  | atom =>
    have hTier : σ = .atom := Tier.rank_injective (Nat.le_antisymm σ.rank_le_atom hRank)
    exact hTier ▸ h
  | step τ hAtom ih =>
    by_cases hTier : τ = σ
    · exact hTier ▸ h
    · have hOther : τ.rank ≠ σ.rank := fun hSame => hTier (Tier.rank_injective hSame)
      exact .tighter hAtom (ih (by rw [Tier.rank_tighter hAtom]; omega))

/-- A script derives wherever it stands what it derives at its own tier. -/
theorem Derives.within {s : Script} {w : Nat} {t : Term} (h : Derives s.tier w s.tokens t w)
    (τ : Tier) : Derives τ w (s.within τ) t w := by
  by_cases hLoose : s.tier.rank < τ.rank
  · rw [Script.within_of_lt hLoose]
    exact (Derives.enclosed (h.loosen (Nat.zero_le _))).loosen τ.rank_le_atom
  · rw [Script.within_of_le (Nat.not_lt.mp hLoose)]
    exact h.loosen (Nat.not_lt.mp hLoose)

theorem shifts_spliceMark (n : Int64) : Shifts (Script.spliceMark n).tail n := by
  by_cases hOne : n = 1
  · subst hOne
    exact .one
  · by_cases hNegative : n < 0
    · have hMark : (Script.spliceMark n).tail = [.minus, .integer (-n)] := by
        simp [Script.spliceMark, Script.numeral, hOne, hNegative]
      have hShift := Shifts.minus (-n)
      rwa [Int64.neg_neg, ← hMark] at hShift
    · have hMark : (Script.spliceMark n).tail = [.integer n] := by
        simp [Script.spliceMark, Script.numeral, hOne, hNegative]
      rw [hMark]
      exact .number n

theorem derives_ofInt (n : Int64) (w : Nat) :
    Derives (Script.ofInt n).tier w (Script.ofInt n).tokens (Term.reread (.int n)) w := by
  rw [Term.reread, Term.unsign]
  by_cases hn : n < 0
  · have hScript : Script.ofInt n = ⟨.unary, [.minus, .integer (-n)]⟩ := by
      simp [Script.ofInt, Script.numeral, hn]
    rw [hScript, if_pos hn]
    exact .minus ((Derives.int w (-n)).loosen (by decide))
  · have hScript : Script.ofInt n = ⟨.atom, [.integer n]⟩ := by
      simp [Script.ofInt, Script.numeral, hn]
    rw [hScript, if_neg hn]
    exact .int w n

/-- **The script of a term derives the term**, read by the texts of its identifiers. -/
theorem derives_script (t : Term) (h : t.saturated = true) (w : Nat) :
    Derives t.script.tier w t.script.tokens t.reread w := by
  induction t with
  | var id => exact .var w id.text
  | int n => exact derives_ofInt n w
  | bool b => exact .bool w b
  | lam param body ih => exact .lam (.name w _) ((ih h).loosen (Nat.zero_le _))
  | fix self body ih => exact .fix ((ih h).loosen (Nat.zero_le _))
  | quote body ih => exact .quote ((ih h).loosen (Nat.zero_le _))
  | splice n body ih =>
    have hSplice := Derives.splice (shifts_spliceMark n) ((ih h).loosen (Nat.zero_le _))
    rw [← List.cons_append, ← Script.spliceMark_eq] at hSplice
    exact hSplice
  | letIn id bound body ihBound ihBody =>
    simp only [Term.saturated, Term.every, Bool.and_eq_true] at h
    exact .letIn (.name w _) ((ihBound h.2.1).loosen (Nat.zero_le _))
      ((ihBody h.2.2).loosen (Nat.zero_le _))
  | ite cond yes no ihCond ihYes ihNo =>
    simp only [Term.saturated, Term.every, Bool.and_eq_true] at h
    exact .ite ((ihCond h.2.1).loosen (Nat.zero_le _)) ((ihYes h.2.2.1).loosen (Nat.zero_le _))
      ((ihNo h.2.2.2).loosen (Nat.zero_le _))
  | app fn arg ihFn ihArg =>
    simp only [Term.saturated, Term.every, Bool.and_eq_true] at h
    exact .app ((ihFn h.2.1).within _) ((ihArg h.2.2).within _)
  | logic op left right ihLeft ihRight =>
    simp only [Term.saturated, Term.every, Bool.and_eq_true] at h
    exact .logic op ((ihLeft h.2.1).within _) ((ihRight h.2.2).within _)
  | prim op args ih =>
    obtain ⟨hOperands, hArgs⟩ := Term.operands_of_saturated h
    have hArg : ∀ a ∈ args, ∀ τ, Derives τ w (a.script.within τ) a.reread w :=
      fun a ha => (ih a ha (hArgs a ha)).within
    cases hOperands with
    | one a => exact .negate (hArg a (by simp) _)
    | arith op a b => exact .arith op (hArg a (by simp) _) (hArg b (by simp) _)
    | compare op a b => exact .compare op (hArg a (by simp) _) (hArg b (by simp) _)

/-- **The tokens of a term read as the term.** -/
theorem program_script (t : Term) (h : t.saturated = true) :
    program t.script.tokens = .ok t.reread :=
  program_eq_ok_iff.mpr ⟨0, (derives_script t h 0).loosen (Nat.zero_le _)⟩

end Grammar

end StagedLambda
