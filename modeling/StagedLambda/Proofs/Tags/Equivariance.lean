import StagedLambda.Proofs.Machine.Reach
import StagedLambda.Proofs.Tags.Recoloring

/-!
# Transitions do not look at tags

A state whose tags have been renamed one-to-one goes on by the same rule as before, or fails by
the same rule.  A rule that issues a tag looks at the palette; there the renaming has to send the
tag that the one palette issues to the tag that the other one issues.

* `State.Moves.retag`, `State.Faults.retag`: the rules carry over.
* `Machine.retag_after_congr`: only the tags issued so far occur in a run from a state without
  tags.
-/

namespace StagedLambda

/-- Two palettes that go on alike: each issues a tag or neither does. -/
inductive Palette.Alike (p q : Palette) : Palette → Palette → Prop
  | same : Alike p q p q
  | issue : Alike p q p.advance q.advance

theorem Palette.Alike.issued_le {p q p' q' : Palette} (h : p.Alike q p' q') :
    p.issued ≤ p'.issued := by
  cases h with
  | same => exact Nat.le_refl _
  | issue => exact Nat.le_succ _

/-- The state with its tags renamed. -/
abbrev State.retag (f : Nat → Nat) (s : State) : State := s.recolor (Ident.retag f)

section

variable {f : Nat → Nat} {s s' : State} {p q p' : Palette}

theorem Renaming.resolve_retag (hf : Function.Injective f) {env : Renaming} {id : Ident}
    {color? : Option Ident} (hName : env.resolve id = color?) :
    (env.recolor (Ident.retag f)).resolve (id.retag f) = color?.map (Ident.retag f) := by
  rw [Renaming.resolve_recolor (Ident.retag_injective hf) Ident.isRaw_retag, hName]

theorem Step.firstOperand_retag {op : PrimOp} {args : List Term} {first : Term}
    (hFirst : Step.firstOperand op args = .ok first) :
    Step.firstOperand op (Term.recolorAll (Ident.retag f) args) =
      .ok (first.recolor (Ident.retag f)) := by
  rw [Step.firstOperand_recolor, hFirst]
  rfl

/-- From the palette `q` the state with renamed tags goes on to the renamed state, and issues a tag
where the transition to `s'` has issued one. -/
def GoesOnAlike (f : Nat → Nat) (p q : Palette) (s s' : State) (p' : Palette) : Prop :=
  ∃ q', (s.retag f).Moves q (s'.retag f) q' ∧ p.Alike q p' q'

theorem State.Moves.retag_eval {env : Renaming} {t : Term} {k : EvalStack}
    (hf : Function.Injective f) (h : (State.eval env t k).Moves p s' p')
    (hTag : p' = p.advance → f p.issued = q.issued) :
    GoesOnAlike f p q (.eval env t k) s' p' := by
  cases h with
  | evalVar hName hFound =>
    refine ⟨q, .evalVar (Renaming.resolve_retag hf hName) ?_, .same⟩
    rw [EvalStack.lookup_recolor (Ident.retag_injective hf), hFound]
    rfl
  | evalLam => exact ⟨q, .evalLam _ _ _ _, .same⟩
  | evalFix =>
    refine ⟨q.advance, ?_, .issue⟩
    simp only [State.retag, State.recolor, Value.recolor, Abstraction.recolor, Option.map_some,
      Renaming.recolor_bind, Palette.retag_tint (hTag rfl)]
    exact .evalFix _ _ _ _ _
  | evalApp => exact ⟨q, .evalApp _ _ _ _, .same⟩
  | evalInt => exact ⟨q, .evalInt _ _ _, .same⟩
  | evalBool => exact ⟨q, .evalBool _ _ _, .same⟩
  | evalPrim hFirst => exact ⟨q, .evalPrim (Step.firstOperand_retag hFirst), .same⟩
  | evalIte => exact ⟨q, .evalIte _ _ _ _ _, .same⟩
  | evalLogic => exact ⟨q, .evalLogic _ _ _ _ _, .same⟩
  | evalQuote => exact ⟨q, .evalQuote _ _ _, .same⟩
  | evalSplice hStages => exact ⟨q, .evalSplice hStages, .same⟩
  | evalLet => exact ⟨q, .evalLet _ _ _ _ _, .same⟩

theorem State.Moves.retag_build {level : UInt64} {env : Renaming} {t : Term} {k : BuildStack}
    (hf : Function.Injective f) (h : (State.build level env t k).Moves p s' p')
    (hTag : p' = p.advance → f p.issued = q.issued) :
    GoesOnAlike f p q (.build level env t k) s' p' := by
  cases h with
  | buildVar hName => exact ⟨q, .buildVar (Renaming.resolve_retag hf hName), .same⟩
  | buildLam =>
    refine ⟨q.advance, ?_, .issue⟩
    simp only [State.retag, State.recolor, BuildStack.recolor, BuildFrame.recolor,
      Renaming.recolor_bind, Palette.retag_tint (hTag rfl)]
    exact .buildLam _ _ _ _ _
  | buildFix hBody =>
    refine ⟨q.advance, ?_, .issue⟩
    simp only [State.retag, State.recolor, BuildStack.recolor, BuildFrame.recolor,
      Renaming.recolor_bind, Palette.retag_tint (hTag rfl)]
    exact .buildFix (by rwa [Step.maybeFunction_recolor])
  | buildApp => exact ⟨q, .buildApp _ _ _ _ _, .same⟩
  | buildInt => exact ⟨q, .buildInt _ _ _ _, .same⟩
  | buildBool => exact ⟨q, .buildBool _ _ _ _, .same⟩
  | buildPrim hFirst => exact ⟨q, .buildPrim (Step.firstOperand_retag hFirst), .same⟩
  | buildIte => exact ⟨q, .buildIte _ _ _ _ _ _, .same⟩
  | buildLogic => exact ⟨q, .buildLogic _ _ _ _ _ _, .same⟩
  | buildQuote hRaise => exact ⟨q, .buildQuote hRaise, .same⟩
  | buildEscape hStages => exact ⟨q, .buildEscape hStages, .same⟩
  | buildSplice hStages hAbove => exact ⟨q, .buildSplice hStages hAbove, .same⟩
  | buildLet => exact ⟨q, .buildLet _ _ _ _ _ _, .same⟩

theorem State.Moves.retag_deliver {v : Value} {k : EvalStack} (hf : Function.Injective f)
    (h : (State.deliver v k).Moves p s' p') (hTag : p' = p.advance → f p.issued = q.issued) :
    GoesOnAlike f p q (.deliver v k) s' p' := by
  cases h with
  | deliverEscape => exact ⟨q, .deliverEscape _ _ _, .same⟩
  | deliverApplyTo => exact ⟨q, .deliverApplyTo _ _ _ _, .same⟩
  | deliverCall =>
    refine ⟨q.advance, ?_, .issue⟩
    simp only [State.retag, State.recolor, EvalStack.recolor, EvalFrame.recolor, Value.recolor,
      EvalStack.recolor_enter, Renaming.recolor_bind, Palette.retag_tint (hTag rfl)]
    exact .deliverCall _ _ _ _
  | deliverBind hLeave =>
    refine ⟨q, .deliverBind ?_, .same⟩
    rw [Step.leave_recolor (Ident.retag_injective hf), hLeave]
    rfl
  | deliverPrimNext hNext =>
    refine ⟨q, ?_, .same⟩
    simp only [State.retag, State.recolor, EvalStack.recolor, EvalFrame.recolor, List.map_append]
    exact .deliverPrimNext (Term.getElem?_recolorAll hNext (by simp))
  | deliverPrimLast hLast hApply =>
    refine ⟨q, .deliverPrimLast (Term.getElem?_recolorAll hLast (by simp)) ?_, .same⟩
    rw [← List.map_singleton, ← List.map_append, Arithmetic.apply_recolor, hApply]
    rfl
  | deliverBranch b yes no env k =>
    have hMove := Moves.deliverBranch (p := q) b (yes.recolor (Ident.retag f))
      (no.recolor (Ident.retag f)) (env.recolor (Ident.retag f)) (k.recolor (Ident.retag f))
    rw [← apply_ite] at hMove
    exact ⟨q, hMove, .same⟩
  | deliverLogicSettled => exact ⟨q, .deliverLogicSettled _ _ _ _, .same⟩
  | deliverLogicLeft hOpen => exact ⟨q, .deliverLogicLeft hOpen, .same⟩
  | deliverLogicRight => exact ⟨q, .deliverLogicRight _ _ _, .same⟩
  | deliverLet =>
    refine ⟨q.advance, ?_, .issue⟩
    simp only [State.retag, State.recolor, EvalStack.recolor, EvalFrame.recolor,
      Renaming.recolor_bind, Palette.retag_tint (hTag rfl)]
    exact .deliverLet _ _ _ _ _
  | deliverRun => exact ⟨q, .deliverRun _ _, .same⟩

theorem State.Moves.retag_emit {level : UInt64} {c : Term} {k : BuildStack}
    (h : (State.emit level c k).Moves p s' p') (hTag : p' = p.advance → f p.issued = q.issued) :
    GoesOnAlike f p q (.emit level c k) s' p' := by
  cases h with
  | emitClose => exact ⟨q, .emitClose _ _, .same⟩
  | emitLam => exact ⟨q, .emitLam _ _ _ _, .same⟩
  | emitFix => exact ⟨q, .emitFix _ _ _ _, .same⟩
  | emitApplyTo => exact ⟨q, .emitApplyTo _ _ _ _ _, .same⟩
  | emitApplied => exact ⟨q, .emitApplied _ _ _ _, .same⟩
  | emitPrimNext hNext =>
    refine ⟨q, ?_, .same⟩
    simp only [State.retag, State.recolor, BuildStack.recolor, BuildFrame.recolor,
      Term.recolorAll_append]
    exact .emitPrimNext (Term.getElem?_recolorAll hNext (by simp [Term.length_recolorAll]))
  | emitPrimLast hLast =>
    refine ⟨q, ?_, .same⟩
    simp only [State.retag, State.recolor, Term.recolor, Term.recolorAll_append]
    exact .emitPrimLast (Term.getElem?_recolorAll hLast (by simp [Term.length_recolorAll]))
  | emitIteCond => exact ⟨q, .emitIteCond _ _ _ _ _ _, .same⟩
  | emitIteYes => exact ⟨q, .emitIteYes _ _ _ _ _ _, .same⟩
  | emitIteNo => exact ⟨q, .emitIteNo _ _ _ _ _, .same⟩
  | emitLogicLeft => exact ⟨q, .emitLogicLeft _ _ _ _ _ _, .same⟩
  | emitLogicRight => exact ⟨q, .emitLogicRight _ _ _ _ _, .same⟩
  | emitLetBound =>
    refine ⟨q.advance, ?_, .issue⟩
    simp only [State.retag, State.recolor, BuildStack.recolor, BuildFrame.recolor,
      Renaming.recolor_bind, Palette.retag_tint (hTag rfl)]
    exact .emitLetBound _ _ _ _ _ _
  | emitLetBody => exact ⟨q, .emitLetBody _ _ _ _ _, .same⟩
  | emitQuote hLevel => exact ⟨q, .emitQuote hLevel, .same⟩
  | emitSplice hRaise hShift => exact ⟨q, .emitSplice hRaise hShift, .same⟩

/-- **A state with renamed tags goes on by the same rule.** -/
theorem State.Moves.retag (hf : Function.Injective f) (h : s.Moves p s' p')
    (hTag : p' = p.advance → f p.issued = q.issued) : GoesOnAlike f p q s s' p' := by
  cases s with
  | eval => exact retag_eval hf h hTag
  | build => exact retag_build hf h hTag
  | deliver => exact retag_deliver hf h hTag
  | emit => exact retag_emit h hTag

theorem State.Faults.retag_eval {env : Renaming} {t : Term} {k : EvalStack} {e : Fault}
    (hf : Function.Injective f) (h : (State.eval env t k).Faults e) :
    ((State.eval env t k).retag f).Faults (e.recolor (Ident.retag f)) := by
  cases h with
  | evalUnresolved hName => exact .evalUnresolved (Renaming.resolve_retag hf hName)
  | evalAbsent hName hAbsent =>
    refine .evalAbsent (Renaming.resolve_retag hf hName) ?_
    rw [EvalStack.lookup_recolor (Ident.retag_injective hf), hAbsent]
    rfl
  | evalFuture hName hFuture =>
    refine .evalFuture (Renaming.resolve_retag hf hName) ?_
    rw [EvalStack.lookup_recolor (Ident.retag_injective hf), hFuture]
    rfl
  | evalFix hBody => exact .evalFix (by rwa [Term.isLam_recolor])
  | evalPrim hFirst =>
    refine .evalPrim ?_
    rw [Step.firstOperand_recolor, hFirst]
    rfl
  | evalSplice hStages =>
    rw [Step.recolor_of_stages hStages]
    exact .evalSplice hStages

theorem State.Faults.retag_build {level : UInt64} {env : Renaming} {t : Term} {k : BuildStack}
    {e : Fault} (hf : Function.Injective f) (h : (State.build level env t k).Faults e) :
    ((State.build level env t k).retag f).Faults (e.recolor (Ident.retag f)) := by
  cases h with
  | buildUnresolved hName => exact .buildUnresolved (Renaming.resolve_retag hf hName)
  | buildFix hBody => exact .buildFix (by rwa [Step.maybeFunction_recolor])
  | buildPrim hFirst =>
    refine .buildPrim ?_
    rw [Step.firstOperand_recolor, hFirst]
    rfl
  | buildQuote hRaise =>
    obtain ⟨rfl, -⟩ := Step.raise_eq_error hRaise
    exact .buildQuote hRaise
  | buildSplice hStages =>
    rw [Step.recolor_of_stages hStages]
    exact .buildSplice hStages

theorem State.Faults.retag_deliver {v : Value} {k : EvalStack} {e : Fault}
    (hf : Function.Injective f) (h : (State.deliver v k).Faults e) :
    ((State.deliver v k).retag f).Faults (e.recolor (Ident.retag f)) := by
  cases h with
  | deliverHalt => exact .deliverHalt _
  | deliverEscape hFragment =>
    refine .deliverEscape ?_
    rw [Step.fragment_recolor, hFragment]
    rfl
  | @deliverCall fn _ _ hKind =>
    show Faults _ (.mismatch .application .function fn.kind)
    rw [← fn.kind_recolor (g := Ident.retag f)] at hKind ⊢
    exact .deliverCall hKind
  | deliverBind hLeave =>
    refine .deliverBind ?_
    rw [Step.leave_recolor (Ident.retag_injective hf), hLeave]
    rfl
  | deliverPrim hLast hApply =>
    refine .deliverPrim (Term.getElem?_recolorAll hLast (by simp)) ?_
    rw [← List.map_singleton, ← List.map_append, Arithmetic.apply_recolor, hApply]
    rfl
  | deliverBranch hTruth =>
    refine .deliverBranch ?_
    rw [Step.truth_recolor, hTruth]
    rfl
  | deliverLogicLeft hTruth =>
    refine .deliverLogicLeft ?_
    rw [Step.truth_recolor, hTruth]
    rfl
  | deliverLogicRight hTruth =>
    refine .deliverLogicRight ?_
    rw [Step.truth_recolor, hTruth]
    rfl
  | deliverRun hFragment =>
    refine .deliverRun ?_
    rw [Step.fragment_recolor, hFragment]
    rfl

theorem State.Faults.retag_emit {level : UInt64} {c : Term} {k : BuildStack} {e : Fault}
    (h : (State.emit level c k).Faults e) :
    ((State.emit level c k).retag f).Faults (e.recolor (Ident.retag f)) := by
  cases h with
  | emitClose hLevel => exact .emitClose hLevel
  | emitQuote hLevel => exact .emitQuote hLevel
  | emitRaise hRaise =>
    obtain ⟨rfl, -⟩ := Step.raise_eq_error hRaise
    exact .emitRaise hRaise
  | emitSplice hRaise hShift => exact .emitSplice hRaise hShift

/-- **A state with renamed tags fails by the same rule.** -/
theorem State.Faults.retag (hf : Function.Injective f) {e : Fault} (h : s.Faults e) :
    (s.retag f).Faults (e.recolor (Ident.retag f)) := by
  cases s with
  | eval => exact retag_eval hf h
  | build => exact retag_build hf h
  | deliver => exact retag_deliver hf h
  | emit => exact retag_emit h

end

/-! ### Runs -/

namespace Machine

/-- The run with its tags renamed, in the fault that has stopped it as well. -/
def Progress.retag (f : Nat → Nat) : Progress → Progress :=
  recolorAnswer (Ident.retag f) (State.retag f)

section

variable {f g : Nat → Nat} {m m' : Machine} {r r' : Progress}

/-- **A run with renamed tags takes the same turn**, and the palettes go on alike. -/
theorem turn_retag (hf : Function.Injective f) (h : m.turn r = (r', m')) (m₁ : Machine)
    (hTag : m'.palette = m.palette.advance → f m.palette.issued = m₁.palette.issued) :
    ∃ m₁', m₁.turn (Progress.retag f r) = (Progress.retag f r', m₁') ∧
      m.palette.Alike m₁.palette m'.palette m₁'.palette := by
  cases r with
  | error e =>
    cases h
    exact ⟨m₁, rfl, .same⟩
  | ok s =>
    cases r' with
    | ok s' =>
      obtain ⟨q', hMoves, hAlike⟩ := (step_eq_ok_iff.mp h).1.retag hf hTag
      exact ⟨⟨q', m₁.steps + 1⟩, step_of_moves hMoves, hAlike⟩
    | error e =>
      obtain ⟨hFault, rfl⟩ := step_eq_error_iff.mp h
      exact ⟨_, step_eq_error_iff.mpr ⟨hFault.retag hf, rfl⟩, .same⟩

theorem issued_le_turn (m : Machine) (r : Progress) :
    m.palette.issued ≤ (m.turn r).2.palette.issued := by
  obtain ⟨_, -, hAlike⟩ := turn_retag (r := r) Function.injective_id rfl m fun _ => rfl
  exact hAlike.issued_le

theorem issued_le_after (m : Machine) (s : State) {j n : Nat} (h : j ≤ n) :
    (m.after s j).2.palette.issued ≤ (m.after s n).2.palette.issued := by
  induction h with
  | refl => exact Nat.le_refl _
  | step _ ih => exact Nat.le_trans ih (issued_le_turn _ _)

/-- **Only the tags issued so far occur in a run** from a state without tags: renamings that agree
on them are the same for it. -/
theorem retag_after_congr (hf : Function.Injective f) (hg : Function.Injective g) {s : State}
    (hStart : ∀ f, s.retag f = s) (n : Nat)
    (hAgree : ∀ t < (m.after s n).2.palette.issued, f t = g t) :
    Progress.retag f (m.after s n).1 = Progress.retag g (m.after s n).1 := by
  induction n with
  | zero => exact congrArg Except.ok ((hStart f).trans (hStart g).symm)
  | succ n ih =>
    obtain ⟨r, m₀, hPrior⟩ : ∃ r m₀, m.after s n = (r, m₀) := ⟨_, _, rfl⟩
    obtain ⟨r', m', hTurn⟩ : ∃ r' m', m₀.turn r = (r', m') := ⟨_, _, rfl⟩
    have hLe : m₀.palette.issued ≤ m'.palette.issued := by simpa [hTurn] using issued_le_turn m₀ r
    rw [after_succ hPrior, hTurn] at hAgree ⊢
    rw [hPrior] at ih
    have hSame : Progress.retag f r = Progress.retag g r :=
      ih fun t ht => hAgree t (Nat.lt_of_lt_of_le ht hLe)
    -- Both renamed runs take the turn on a machine that issues the image of the next tag.
    let m₁ : Machine := ⟨⟨f m₀.palette.issued⟩, 0⟩
    obtain ⟨_, hf', -⟩ := turn_retag hf hTurn m₁ fun _ => rfl
    obtain ⟨_, hg', -⟩ := turn_retag hg hTurn m₁ fun hIssue =>
      (hAgree _ (hIssue ▸ Nat.lt_succ_self m₀.palette.issued)).symm
    rw [hSame, hg'] at hf'
    exact (congrArg Prod.fst hf').symm

end

end Machine

end StagedLambda
