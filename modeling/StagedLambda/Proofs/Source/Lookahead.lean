import StagedLambda.Proofs.Source.Viable

/-!
# One token at a time

A reader goes by the next token, and what stands behind it makes no difference to anything that the
reader has done so far.  So two readings of tokens that are the same up to some token `x` are
abreast: they do the same until both have taken `x`.  If one of them refuses `x`, so does the other,
whatever follows it.

The bounds of the readers depend on the number of all tokens and differ between the two readings.
They are large enough on both sides for what is left to be read up to `x`, and beyond that they
play no part.

* `Grammar.Abreast.of_heads`: readers that do alike in front of every token are abreast.
* `Grammar.Abreast.of_loop`: so are loops of such readers, whatever their bounds.
* `Grammar.refused_of_refused`: tokens that are refused at some token are refused whatever
  follows it.
-/

namespace StagedLambda.Grammar

variable {α β : Type}

/-! ### Taking tokens off -/

/-- The tokens that are left when a reader is done or has refused. -/
def remaining : Except Refusal (α × Cursor) → List Token
  | .ok (_, c) => c.tokens
  | .error R => R.rest

/-- The reader puts no tokens on the cursor. -/
def Shrinks (r : Reader α) : Prop := ∀ c, (remaining (r c)).length ≤ c.tokens.length

theorem Explores.shrinks {r : Reader α} {Q : Nat → List Token → α → Nat → Prop}
    (h : Explores r Q) : Shrinks r := by
  intro c
  cases hRead : r c with
  | ok p =>
    obtain ⟨ts, hTokens, -⟩ := h.reads c p.1 p.2 hRead
    rw [hTokens, List.length_append]
    exact Nat.le_add_left _ _
  | error R =>
    obtain ⟨ts, hTokens, -⟩ := h.refuses c R hRead
    rw [hTokens, List.length_append]
    exact Nat.le_add_left _ _

theorem remaining_bind_le {f : α → Reader β} (h : ∀ a, Shrinks (f a))
    (y : Except Refusal (α × Cursor)) :
    (remaining (y >>= fun p => f p.1 p.2)).length ≤ (remaining y).length := by
  cases y with
  | ok p => exact h p.1 p.2
  | error R => exact Nat.le_refl _

theorem Shrinks.bind {r : Reader α} {f : α → Reader β} (h : Shrinks r)
    (h' : ∀ a, Shrinks (f a)) : Shrinks (r >>= f) := fun c =>
  Nat.le_trans (remaining_bind_le h' (r c)) (h c)

/-! ### Two readings abreast -/

/-- The outcomes of two readings that differ only behind `x`, where the one goes on with `u` and the
other with `v`: the same result or the same refusal in front of the same tokens up to `x`, or else
`x` has been taken on both sides. -/
inductive InStep (x : Token) (u v : List Token) :
    Except Refusal (α × Cursor) → Except Refusal (α × Cursor) → Prop
  | reads (a : α) (pre : List Token) (w : Nat) :
    InStep x u v (.ok (a, ⟨pre ++ x :: u, w⟩)) (.ok (a, ⟨pre ++ x :: v, w⟩))
  | refuses (e : Expectation) (pre : List Token) :
    InStep x u v (.error ⟨e, pre ++ x :: u⟩) (.error ⟨e, pre ++ x :: v⟩)
  | past {y z : Except Refusal (α × Cursor)} (hy : (remaining y).length ≤ u.length)
    (hz : (remaining z).length ≤ v.length) : InStep x u v y z

/-- In front of fewer than `m` tokens and `x` behind them, the two readers do the same until both
have taken `x`. -/
structure Abreast (x : Token) (u v : List Token) (m : Nat) (r r' : Reader α) : Prop where
  shrinks : Shrinks r
  shrinks' : Shrinks r'
  inStep : ∀ pre w, pre.length < m →
    InStep x u v (r ⟨pre ++ x :: u, w⟩) (r' ⟨pre ++ x :: v, w⟩)

/-- What two readers do in front of a token: they take it and go on abreast, or they leave it to
readers that are abreast. -/
inductive Heads (x : Token) (u v : List Token) (m : Nat) (r r' : Reader α) (k : Token) : Prop
  | takes {next next' : Reader α} (hNext : Abreast x u v m next next')
    (h : ∀ rest w, r ⟨k :: rest, w⟩ = next ⟨rest, w⟩)
    (h' : ∀ rest w, r' ⟨k :: rest, w⟩ = next' ⟨rest, w⟩) : Heads x u v m r r' k
  | leaves {stay stay' : Reader α} (hStay : Abreast x u v (m + 1) stay stay')
    (h : ∀ rest w, r ⟨k :: rest, w⟩ = stay ⟨k :: rest, w⟩)
    (h' : ∀ rest w, r' ⟨k :: rest, w⟩ = stay' ⟨k :: rest, w⟩) : Heads x u v m r r' k

section

variable {x : Token} {u v : List Token} {m : Nat}

namespace Abreast

variable {r r' : Reader α} {f f' : α → Reader β}

theorem mono {j : Nat} (h : Abreast x u v m r r') (hLe : j ≤ m) : Abreast x u v j r r' :=
  ⟨h.shrinks, h.shrinks', fun pre w hPre => h.inStep pre w (Nat.lt_of_lt_of_le hPre hLe)⟩

theorem zero (hShrinks : Shrinks r) (hShrinks' : Shrinks r') : Abreast x u v 0 r r' :=
  ⟨hShrinks, hShrinks', nofun⟩

theorem bind (h : Abreast x u v m r r') (h' : ∀ a, Abreast x u v m (f a) (f' a)) :
    Abreast x u v m (r >>= f) (r' >>= f') := by
  refine ⟨h.shrinks.bind fun a => (h' a).shrinks, h.shrinks'.bind fun a => (h' a).shrinks', ?_⟩
  intro pre w hPre
  show InStep x u v (r ⟨pre ++ x :: u, w⟩ >>= fun p => f p.1 p.2)
    (r' ⟨pre ++ x :: v, w⟩ >>= fun p => f' p.1 p.2)
  have hStep := h.inStep pre w hPre
  have hFewer := h.shrinks ⟨pre ++ x :: u, w⟩
  generalize r ⟨pre ++ x :: u, w⟩ = y at hStep hFewer
  generalize r' ⟨pre ++ x :: v, w⟩ = z at hStep
  cases hStep with
  | reads a pre' w' =>
    simp only [remaining, List.length_append] at hFewer
    exact (h' a).inStep pre' w' (by omega)
  | refuses e pre' => exact .refuses e pre'
  | past hy hz =>
    exact .past (Nat.le_trans (remaining_bind_le (fun a => (h' a).shrinks) y) hy)
      (Nat.le_trans (remaining_bind_le (fun a => (h' a).shrinks') z) hz)

/-- **Readers that do alike in front of every token are abreast.** -/
theorem of_heads (hShrinks : Shrinks r) (hShrinks' : Shrinks r')
    (h : ∀ k, Heads x u v m r r' k) : Abreast x u v (m + 1) r r' := by
  refine ⟨hShrinks, hShrinks', fun pre w hPre => ?_⟩
  cases pre with
  | nil =>
    -- The last common token is next.
    cases h x with
    | takes hNext hr hr' =>
      rw [List.nil_append, List.nil_append, hr, hr']
      exact .past (hNext.shrinks ⟨u, w⟩) (hNext.shrinks' ⟨v, w⟩)
    | leaves hStay hr hr' =>
      rw [List.nil_append, List.nil_append, hr, hr']
      exact hStay.inStep [] w hPre
  | cons k pre =>
    cases h k with
    | takes hNext hr hr' =>
      rw [List.cons_append, List.cons_append, hr, hr']
      exact hNext.inStep pre w (Nat.lt_of_succ_lt_succ hPre)
    | leaves hStay hr hr' =>
      rw [List.cons_append, List.cons_append, hr, hr']
      exact hStay.inStep (k :: pre) w hPre

/-- **Loops that do alike in each round are abreast.**  A round takes a token if it leads to
another one, so a bound on the tokens in front of `x` is enough. -/
theorem of_loop {s s' : Nat → α → Reader β} (hShrinks : ∀ bound a, Shrinks (s bound a))
    (hShrinks' : ∀ bound a, Shrinks (s' bound a))
    (hRound : ∀ j < m, ∀ bound bound', (∀ a, Abreast x u v j (s bound a) (s' bound' a)) →
      ∀ a k, Heads x u v j (s (bound + 1) a) (s' (bound' + 1) a) k) (a : α) :
    Abreast x u v m (fun c => s c.tokens.length a c) (fun c => s' c.tokens.length a c) := by
  have hRounds (j bound bound' : Nat) (a : α) (hj : j ≤ m) (hBound : j + u.length ≤ bound)
      (hBound' : j + v.length ≤ bound') : Abreast x u v j (s bound a) (s' bound' a) := by
    induction j generalizing bound bound' a with
    | zero => exact .zero (hShrinks bound a) (hShrinks' bound' a)
    | succ j ih =>
      obtain ⟨bound, rfl⟩ : ∃ n, bound = n + 1 := ⟨bound - 1, by omega⟩
      obtain ⟨bound', rfl⟩ : ∃ n, bound' = n + 1 := ⟨bound' - 1, by omega⟩
      refine .of_heads (hShrinks _ a) (hShrinks' _ a) (hRound j hj bound bound' (fun a => ?_) a)
      exact ih bound bound' a (by omega) (by omega) (by omega)
  refine ⟨fun c => hShrinks _ a c, fun c => hShrinks' _ a c, fun pre w hPre => ?_⟩
  have hLength (rest : List Token) :
      pre.length + 1 + rest.length ≤ (pre ++ x :: rest).length := by
    rw [List.length_append, List.length_cons]
    omega
  exact (hRounds (pre.length + 1) _ _ a hPre (hLength u) (hLength v)).inStep pre w
    (Nat.lt_succ_self _)

end Abreast

theorem abreast_pure (a : α) : Abreast x u v m (pure a) (pure a) :=
  ⟨fun _ => Nat.le_refl _, fun _ => Nat.le_refl _, fun pre w _ => .reads a pre w⟩

theorem abreast_refuse (e : Expectation) :
    Abreast x u v m (refuse e : Reader α) (refuse e) :=
  ⟨fun _ => Nat.le_refl _, fun _ => Nat.le_refl _, fun pre _ _ => .refuses e pre⟩

/-! ### Single tokens -/

theorem abreast_expect {t : Token} (hProper : t.proper = true) :
    Abreast x u v m (expect t) (expect t) := by
  have hShrinks := (explores_expect hProper).shrinks
  refine (Abreast.of_heads hShrinks hShrinks fun k => ?_).mono (Nat.le_succ m)
  by_cases hToken : k = t
  · exact .takes (abreast_pure ()) (fun _ _ => if_pos hToken) fun _ _ => if_pos hToken
  · exact .leaves (abreast_refuse (.token t)) (fun _ _ => if_neg hToken) fun _ _ => if_neg hToken

theorem abreast_name : Abreast x u v m name name := by
  refine (Abreast.of_heads explores_name.shrinks explores_name.shrinks fun k => ?_).mono
    (Nat.le_succ m)
  cases k with
  | identifier y =>
    exact .takes (abreast_pure (.raw y)) (fun _ _ => rfl) fun _ _ => rfl
  | _ => exact .leaves (abreast_refuse .identifier) (fun _ _ => rfl) fun _ _ => rfl

/-- The binder of a wildcard that has been read. -/
def numbered : Reader Ident := fun c => .ok (.generated c.wildcards, ⟨c.tokens, c.wildcards + 1⟩)

theorem abreast_binder : Abreast x u v m binder binder := by
  refine (Abreast.of_heads explores_binder.shrinks explores_binder.shrinks fun k => ?_).mono
    (Nat.le_succ m)
  cases k with
  | underscore =>
    have hNumbered : Abreast x u v m numbered numbered :=
      ⟨fun _ => Nat.le_refl _, fun _ => Nat.le_refl _, fun pre w _ => .reads _ pre (w + 1)⟩
    exact .takes hNumbered (fun _ _ => rfl) fun _ _ => rfl
  | _ => exact .leaves abreast_name (fun _ _ => rfl) fun _ _ => rfl

/-- What follows the minus of a shift. -/
def negative : Reader Int64 := fun c =>
  match c.tokens with
  | .integer n :: rest => .ok (-n, { c with tokens := rest })
  | _ => refuse .shiftAmount c

theorem shrinks_negative : Shrinks negative := by
  rintro ⟨_ | ⟨k, rest⟩, w⟩
  · exact Nat.le_refl _
  · cases k with
    | integer => exact Nat.le_succ _
    | _ => exact Nat.le_refl _

theorem abreast_shift : Abreast x u v m Grammar.shift Grammar.shift := by
  have hNegative : Abreast x u v m negative negative := by
    refine (Abreast.of_heads shrinks_negative shrinks_negative fun k => ?_).mono (Nat.le_succ m)
    cases k with
    | integer n => exact .takes (abreast_pure (-n)) (fun _ _ => rfl) fun _ _ => rfl
    | _ => exact .leaves (abreast_refuse .shiftAmount) (fun _ _ => rfl) fun _ _ => rfl
  have hMinus (rest : List Token) (w : Nat) :
      Grammar.shift ⟨.minus :: rest, w⟩ = negative ⟨rest, w⟩ := by
    cases rest with
    | nil => rfl
    | cons k rest => cases k <;> rfl
  refine (Abreast.of_heads explores_shift.shrinks explores_shift.shrinks fun k => ?_).mono
    (Nat.le_succ m)
  cases k with
  | integer n => exact .takes (abreast_pure n) (fun _ _ => rfl) fun _ _ => rfl
  | minus => exact .takes hNegative hMinus hMinus
  | _ => exact .leaves (abreast_pure 1) (fun _ _ => rfl) fun _ _ => rfl

/-! ### Chains -/

section

variable {op? : Token → Option (Term → Term → Term)} {operand operand' : Reader Term} {τ : Tier}

theorem abreast_chain (hOp : ∀ k f, op? k = some f → Joins τ k f)
    (hOperand : Explores operand (Derives τ.tighter))
    (hOperand' : Explores operand' (Derives τ.tighter))
    (h : Abreast x u v m operand operand') :
    Abreast x u v m (chain op? operand) (chain op? operand') := by
  refine h.bind (Abreast.of_loop
    (fun bound left => (explores_chainOn hOp hOperand bound left).shrinks)
    (fun bound left => (explores_chainOn hOp hOperand' bound left).shrinks) ?_)
  intro j hj bound bound' hNext left k
  cases hk : op? k with
  | none =>
    have hStop {operand : Reader Term} {bound : Nat} (rest : List Token) (w : Nat) :
        chainOn op? operand (bound + 1) left ⟨k :: rest, w⟩ = .ok (left, ⟨k :: rest, w⟩) := by
      simp only [chainOn, hk]
    exact .leaves (abreast_pure left) hStop hStop
  | some f =>
    have hStep {operand : Reader Term} {bound : Nat} (rest : List Token) (w : Nat) :
        chainOn op? operand (bound + 1) left ⟨k :: rest, w⟩ =
          (operand >>= fun right => chainOn op? operand bound (f left right)) ⟨rest, w⟩ := by
      simp only [chainOn, hk]
      rfl
    have hRight := h.mono (Nat.le_of_lt hj)
    exact .takes (hRight.bind fun right => hNext (f left right)) hStep hStep

end

/-! ### The tiers -/

/-- What follows the first token of an atom. -/
def atomAfter (ex : Reader Term) : Token → Reader Term
  | .integer n => pure (.int n)
  | .boolean b => pure (.bool b)
  | .identifier y => pure (.var (.raw y))
  | .leftParen => enclosed ex
  | .quoteOpen => quotation ex
  | .tilde => splicing ex
  | _ => refuse .expression

section

variable {k : Token}

theorem atom_of_starts (h : k.startsAtom = true) (ex : Reader Term) (rest : List Token) (w : Nat) :
    atom ex ⟨k :: rest, w⟩ = atomAfter ex k ⟨rest, w⟩ := by
  cases k <;> first | rfl | cases h

theorem atom_of_not_starts (h : k.startsAtom = false) (ex : Reader Term) (rest : List Token)
    (w : Nat) : atom ex ⟨k :: rest, w⟩ = refuse .expression ⟨k :: rest, w⟩ := by
  cases k <;> first | rfl | cases h

theorem applyOn_of_starts (h : k.startsAtom = true) (ex : Reader Term) (bound : Nat) (fn : Term)
    (rest : List Token) (w : Nat) :
    applyOn ex (bound + 1) fn ⟨k :: rest, w⟩ =
      (atomAfter ex k >>= fun arg => applyOn ex bound (.app fn arg)) ⟨rest, w⟩ := by
  simp only [applyOn, List.head?_cons, Option.any_some, h, if_true]
  rw [atom_of_starts h]
  rfl

theorem applyOn_of_not_starts (h : k.startsAtom = false) (ex : Reader Term) (bound : Nat)
    (fn : Term) (rest : List Token) (w : Nat) :
    applyOn ex (bound + 1) fn ⟨k :: rest, w⟩ = .ok (fn, ⟨k :: rest, w⟩) := by
  simp only [applyOn, List.head?_cons, Option.any_some, h, Bool.false_eq_true, if_false]

end

section

variable {ex ex' : Reader Term} (hEx : Explores ex (Derives .expression))
  (hEx' : Explores ex' (Derives .expression)) (h : Abreast x u v m ex ex')

include h

theorem abreast_enclosed : Abreast x u v m (enclosed ex) (enclosed ex') :=
  h.bind fun inner => (abreast_expect rfl).bind fun _ => abreast_pure inner

theorem abreast_quotation : Abreast x u v m (quotation ex) (quotation ex') :=
  h.bind fun body => (abreast_expect rfl).bind fun _ => abreast_pure (Term.quote body)

theorem abreast_splicing : Abreast x u v m (splicing ex) (splicing ex') :=
  abreast_shift.bind fun n => (abreast_expect rfl).bind fun _ => h.bind fun body =>
    (abreast_expect rfl).bind fun _ => abreast_pure (Term.splice n body)

theorem abreast_atomAfter (k : Token) : Abreast x u v m (atomAfter ex k) (atomAfter ex' k) := by
  cases k with
  | integer n => exact abreast_pure (Term.int n)
  | boolean b => exact abreast_pure (Term.bool b)
  | identifier y => exact abreast_pure (Term.var (.raw y))
  | leftParen => exact abreast_enclosed h
  | quoteOpen => exact abreast_quotation h
  | tilde => exact abreast_splicing h
  | _ => exact abreast_refuse .expression

theorem abreast_abstraction : Abreast x u v m (abstraction ex) (abstraction ex') :=
  abreast_binder.bind fun id => (abreast_expect rfl).bind fun _ => h.bind fun body =>
    abreast_pure (Term.lam id body)

theorem abreast_fixpoint : Abreast x u v m (fixpoint ex) (fixpoint ex') :=
  abreast_name.bind fun self => (abreast_expect rfl).bind fun _ => h.bind fun body =>
    abreast_pure (Term.fix self body)

theorem abreast_binding : Abreast x u v m (binding ex) (binding ex') :=
  abreast_binder.bind fun id => (abreast_expect rfl).bind fun _ => h.bind fun bound =>
    (abreast_expect rfl).bind fun _ => h.bind fun body => abreast_pure (Term.letIn id bound body)

theorem abreast_conditional : Abreast x u v m (conditional ex) (conditional ex') :=
  h.bind fun cond => (abreast_expect rfl).bind fun _ => h.bind fun yes =>
    (abreast_expect rfl).bind fun _ => h.bind fun no => abreast_pure (Term.ite cond yes no)

include hEx hEx'

theorem abreast_atom : Abreast x u v (m + 1) (atom ex) (atom ex') := by
  refine .of_heads (explores_atom hEx).shrinks (explores_atom hEx').shrinks fun k => ?_
  cases hk : k.startsAtom with
  | true => exact .takes (abreast_atomAfter h k) (atom_of_starts hk ex) (atom_of_starts hk ex')
  | false =>
    exact .leaves (abreast_refuse .expression) (atom_of_not_starts hk ex)
      (atom_of_not_starts hk ex')

theorem abreast_application : Abreast x u v (m + 1) (application ex) (application ex') := by
  refine (abreast_atom hEx hEx' h).bind (Abreast.of_loop
    (fun bound fn => (explores_applyOn hEx bound fn).shrinks)
    (fun bound fn => (explores_applyOn hEx' bound fn).shrinks) ?_)
  intro j hj bound bound' hNext fn k
  cases hk : k.startsAtom with
  | true =>
    have hArg := (abreast_atomAfter h k).mono (Nat.le_of_lt_succ hj)
    exact .takes (hArg.bind fun arg => hNext (.app fn arg)) (applyOn_of_starts hk ex bound fn)
      (applyOn_of_starts hk ex' bound' fn)
  | false =>
    exact .leaves (abreast_pure fn) (applyOn_of_not_starts hk ex bound fn)
      (applyOn_of_not_starts hk ex' bound' fn)

theorem abreast_unary : Abreast x u v (m + 1) (unary ex) (unary ex') := by
  have hShrinks (bound : Nat) (_ : Unit) : Shrinks (signed ex bound) :=
    (explores_signed hEx bound).shrinks
  have hShrinks' (bound : Nat) (_ : Unit) : Shrinks (signed ex' bound) :=
    (explores_signed hEx' bound).shrinks
  refine Abreast.of_loop hShrinks hShrinks' ?_ ()
  intro j hj bound bound' hNext _ k
  cases k with
  | notWord =>
    exact .takes ((hNext ()).bind fun a => abreast_pure (Term.prim .negate [a])) (fun _ _ => rfl)
      fun _ _ => rfl
  | minus =>
    exact .takes ((hNext ()).bind fun a => abreast_pure (Term.prim (.arith .sub) [.int 0, a]))
      (fun _ _ => rfl) fun _ _ => rfl
  | _ =>
    exact .leaves ((abreast_application hEx hEx' h).mono hj) (fun _ _ => rfl) fun _ _ => rfl

theorem abreast_product : Abreast x u v (m + 1) (product ex) (product ex') :=
  abreast_chain productOp?_joins (explores_unary hEx) (explores_unary hEx')
    (abreast_unary hEx hEx' h)

theorem abreast_sum : Abreast x u v (m + 1) (sum ex) (sum ex') :=
  abreast_chain sumOp?_joins (explores_product hEx) (explores_product hEx')
    (abreast_product hEx hEx' h)

theorem abreast_compareOn (left : Term) :
    Abreast x u v (m + 1) (compareOn ex left) (compareOn ex' left) := by
  refine .of_heads (explores_compareOn hEx left).shrinks (explores_compareOn hEx' left).shrinks
    fun k => ?_
  cases hk : compareOp? k with
  | none =>
    have hStop {ex : Reader Term} (rest : List Token) (w : Nat) :
        compareOn ex left ⟨k :: rest, w⟩ = .ok (left, ⟨k :: rest, w⟩) := by
      simp only [compareOn, hk]
    exact .leaves (abreast_pure left) hStop hStop
  | some op =>
    have hStep {ex : Reader Term} (rest : List Token) (w : Nat) :
        compareOn ex left ⟨k :: rest, w⟩ = (do
          let right ← sum ex
          return (.prim (.compare op) [left, right]) : Reader Term) ⟨rest, w⟩ := by
      simp only [compareOn, hk]
      rfl
    exact .takes (((abreast_sum hEx hEx' h).mono (Nat.le_succ m)).bind fun right =>
      abreast_pure _) hStep hStep

theorem abreast_comparison : Abreast x u v (m + 1) (comparison ex) (comparison ex') :=
  (abreast_sum hEx hEx' h).bind fun left => abreast_compareOn hEx hEx' h left

theorem abreast_conjunction : Abreast x u v (m + 1) (conjunction ex) (conjunction ex') :=
  abreast_chain andOp?_joins (explores_comparison hEx) (explores_comparison hEx')
    (abreast_comparison hEx hEx' h)

theorem abreast_disjunction : Abreast x u v (m + 1) (disjunction ex) (disjunction ex') :=
  abreast_chain orOp?_joins (explores_conjunction hEx) (explores_conjunction hEx')
    (abreast_conjunction hEx hEx' h)

theorem abreast_form : Abreast x u v (m + 1) (form ex) (form ex') := by
  refine .of_heads (explores_form hEx).shrinks (explores_form hEx').shrinks fun k => ?_
  cases k with
  | fnWord => exact .takes (abreast_abstraction h) (fun _ _ => rfl) fun _ _ => rfl
  | fixWord => exact .takes (abreast_fixpoint h) (fun _ _ => rfl) fun _ _ => rfl
  | letWord => exact .takes (abreast_binding h) (fun _ _ => rfl) fun _ _ => rfl
  | ifWord => exact .takes (abreast_conditional h) (fun _ _ => rfl) fun _ _ => rfl
  | _ => exact .leaves (abreast_disjunction hEx hEx' h) (fun _ _ => rfl) fun _ _ => rfl

end

theorem abreast_expr {bound bound' : Nat} (hBound : m + u.length ≤ bound)
    (hBound' : m + v.length ≤ bound') : Abreast x u v m (expr bound) (expr bound') := by
  induction m generalizing bound bound' with
  | zero => exact .zero (explores_expr bound).shrinks (explores_expr bound').shrinks
  | succ m ih =>
    obtain ⟨bound, rfl⟩ : ∃ n, bound = n + 1 := ⟨bound - 1, by omega⟩
    obtain ⟨bound', rfl⟩ : ∃ n, bound' = n + 1 := ⟨bound' - 1, by omega⟩
    exact abreast_form (explores_expr bound) (explores_expr bound')
      (ih (by omega) (by omega))

end

/-! ### Programs -/

/-- **A token is refused whatever follows it.** -/
theorem refused_of_refused {ts u : List Token} {x : Token} {R : Refusal}
    (h : program (ts ++ x :: u) = .error R) (hRest : R.rest = x :: u) (v : List Token) :
    ∃ R', program (ts ++ x :: v) = .error R' := by
  have hLength (rest : List Token) : ts.length + 1 + rest.length ≤ (ts ++ x :: rest).length := by
    rw [List.length_append, List.length_cons]
    omega
  have hStep := (abreast_expr (x := x) (hLength u) (hLength v)).inStep ts 0 (Nat.lt_succ_self _)
  rw [program] at h ⊢
  generalize expr (ts ++ x :: u).length ⟨ts ++ x :: u, 0⟩ = y at h hStep
  generalize expr (ts ++ x :: v).length ⟨ts ++ x :: v, 0⟩ = z at hStep
  cases hStep with
  | reads t pre w =>
    refine ⟨⟨.endOfInput, pre ++ x :: v⟩, ?_⟩
    cases pre <;> rfl
  | refuses e pre => exact ⟨_, rfl⟩
  | past hy hz =>
    -- The refusal would be behind the token.
    exfalso
    rcases bind_eq_error h with rfl | ⟨t, ⟨rest, w⟩, rfl, hEnd⟩
    · rw [remaining, hRest] at hy
      exact Nat.not_succ_le_self _ hy
    · cases rest with
      | nil => cases hEnd
      | cons k rest =>
        cases hEnd
        obtain ⟨rfl, rfl⟩ := List.cons.inj hRest
        exact Nat.not_succ_le_self _ hy

end StagedLambda.Grammar
