import StagedLambda.Proofs.Machine.Brackets

/-!
# Exchanging the bottom of a stack

Until a result is handed to the stack that a run started on, this stack is only searched for
bindings.  So a run goes on in the same way on any other stack that has the same bindings, with the
same colors, however the two would use the result.

* `Stack.Rebased`: two stacks with the same on top of different bottoms.
* `State.Rebased.moves`: a transition above the bottom is a transition above another one.
* `Machine.Reaches.rebase`: a run on the empty stack goes on in the same way above any stack that
  has no bindings.
-/

namespace StagedLambda

namespace Stack

/-- The same frames, escapes and quotes on top of `base` and of `base'`. -/
inductive Rebased (base base' : EvalStack) : Stack → Stack → Prop
  | base : Rebased base base' (.eval base) (.eval base')
  | evalFrame (frame : EvalFrame) {k l : EvalStack} (h : Rebased base base' (.eval k) (.eval l)) :
      Rebased base base' (.eval (.push frame k)) (.eval (.push frame l))
  | escape (shift : UInt64) {k l : BuildStack} (h : Rebased base base' (.build k) (.build l)) :
      Rebased base base' (.eval (.escape shift k)) (.eval (.escape shift l))
  | buildFrame (frame : BuildFrame) {k l : BuildStack}
      (h : Rebased base base' (.build k) (.build l)) :
      Rebased base base' (.build (.push frame k)) (.build (.push frame l))
  | close {k l : EvalStack} (h : Rebased base base' (.eval k) (.eval l)) :
      Rebased base base' (.build (.close k)) (.build (.close l))

def lookup (c : Ident) : Stack → Lookup
  | .eval k => k.lookup c
  | .build k => k.lookup c

namespace Rebased

variable {base base' : EvalStack} {s t : Stack}

theorem lookup_eq (hBase : ∀ c, base.lookup c = base'.lookup c) (h : Rebased base base' s t)
    (c : Ident) : s.lookup c = t.lookup c := by
  induction h with
  | base => exact hBase c
  | escape _ _ ih | close _ ih => exact ih
  | evalFrame frame _ ih =>
    cases frame with
    | bind x v => exact congrArg (fun below => if x = c then Lookup.found v else below) ih
    | _ => exact ih
  | buildFrame frame _ ih =>
    exact congrArg (fun below => if frame.binder? = some c then Lookup.future else below) ih

theorem extends_base (h : Rebased base base' s t) : Stack.Extends (.eval base) s := by
  induction h with
  | base => exact .refl
  | evalFrame frame _ ih => exact .evalFrame frame ih
  | escape shift _ ih => exact .escape shift ih
  | buildFrame frame _ ih => exact .buildFrame frame ih
  | close _ ih => exact .close ih

/-- Nothing lies on top of the bottom itself. -/
theorem eq_base {l : EvalStack} (h : Rebased base base' (.eval base) (.eval l)) : l = base' := by
  cases h with
  | base => rfl
  | evalFrame _ h | escape _ h =>
    have hSize := h.extends_base.sizeOf_le
    simp only [eval.sizeOf_spec, build.sizeOf_spec, EvalStack.push.sizeOf_spec,
      EvalStack.escape.sizeOf_spec] at hSize
    omega

/-! #### One layer down -/

theorem of_evalFrame {frame : EvalFrame} {k l : EvalStack}
    (h : Rebased base base' (.eval (.push frame k)) (.eval l)) (hOther : base ≠ .push frame k) :
    ∃ l', l = .push frame l' ∧ Rebased base base' (.eval k) (.eval l') := by
  cases h with
  | base => exact absurd rfl hOther
  | evalFrame _ h => exact ⟨_, rfl, h⟩

theorem of_escape {shift : UInt64} {k : BuildStack} {l : EvalStack}
    (h : Rebased base base' (.eval (.escape shift k)) (.eval l)) (hOther : base ≠ .escape shift k) :
    ∃ l', l = .escape shift l' ∧ Rebased base base' (.build k) (.build l') := by
  cases h with
  | base => exact absurd rfl hOther
  | escape _ h => exact ⟨_, rfl, h⟩

theorem of_buildFrame {frame : BuildFrame} {k l : BuildStack}
    (h : Rebased base base' (.build (.push frame k)) (.build l)) :
    ∃ l', l = .push frame l' ∧ Rebased base base' (.build k) (.build l') := by
  cases h with
  | buildFrame _ h => exact ⟨_, rfl, h⟩

theorem of_close {k : EvalStack} {l : BuildStack}
    (h : Rebased base base' (.build (.close k)) (.build l)) :
    ∃ l', l = .close l' ∧ Rebased base base' (.eval k) (.eval l') := by
  cases h with
  | close h => exact ⟨_, rfl, h⟩

theorem bindAll {k l : EvalStack} (h : Rebased base base' (.eval k) (.eval l))
    (bindings : List (Ident × Value)) :
    Rebased base base' (.eval (k.bindAll bindings)) (.eval (l.bindAll bindings)) := by
  induction bindings generalizing k l with
  | nil => exact h
  | cons b rest ih => exact ih (h.evalFrame (.bind b.1 b.2))

theorem enter {k l : EvalStack} (h : Rebased base base' (.eval k) (.eval l)) (fn : Abstraction)
    (captured : List (Ident × Value)) :
    Rebased base base' (.eval (k.enter fn captured)) (.eval (l.enter fn captured)) := by
  rw [EvalStack.enter, EvalStack.enter]
  cases fn.self? with
  | none => exact h.bindAll captured
  | some self => exact (h.bindAll captured).evalFrame _

end Rebased

end Stack

/-! ### States -/

/-- States that differ in the bottom of their stacks only. -/
inductive State.Rebased (base base' : EvalStack) : State → State → Prop
  | eval (env : Renaming) (t : Term) {k l : EvalStack}
      (h : Stack.Rebased base base' (.eval k) (.eval l)) :
      Rebased base base' (.eval env t k) (.eval env t l)
  | build (level : UInt64) (env : Renaming) (t : Term) {k l : BuildStack}
      (h : Stack.Rebased base base' (.build k) (.build l)) :
      Rebased base base' (.build level env t k) (.build level env t l)
  | deliver (v : Value) {k l : EvalStack} (h : Stack.Rebased base base' (.eval k) (.eval l)) :
      Rebased base base' (.deliver v k) (.deliver v l)
  | emit (level : UInt64) (c : Term) {k l : BuildStack}
      (h : Stack.Rebased base base' (.build k) (.build l)) :
      Rebased base base' (.emit level c k) (.emit level c l)

namespace State

variable {base base' : EvalStack} {p p' : Palette} {s s' : State} {env : Renaming} {t c : Term}
  {level : UInt64} {v : Value}

theorem Moves.rebase_eval {k l : EvalStack} (hMoves : (eval env t k).Moves p s' p')
    (hBase : ∀ c, base.lookup c = base'.lookup c)
    (h : Stack.Rebased base base' (.eval k) (.eval l)) :
    ∃ u, (eval env t l).Moves p u p' ∧ s'.Rebased base base' u := by
  cases hMoves with
  | @evalVar _ _ color _ _ hName hFound =>
    have hSame : k.lookup color = l.lookup color := h.lookup_eq hBase color
    exact ⟨_, .evalVar hName (hSame ▸ hFound), .deliver _ h⟩
  | evalLam => exact ⟨_, .evalLam _ _ _ l, .deliver _ h⟩
  | evalFix => exact ⟨_, .evalFix _ _ _ _ l, .deliver _ h⟩
  | evalApp => exact ⟨_, .evalApp _ _ _ l, .eval _ _ (h.evalFrame _)⟩
  | evalInt => exact ⟨_, .evalInt _ _ l, .deliver _ h⟩
  | evalBool => exact ⟨_, .evalBool _ _ l, .deliver _ h⟩
  | evalPrim hFirst => exact ⟨_, .evalPrim hFirst, .eval _ _ (h.evalFrame _)⟩
  | evalIte => exact ⟨_, .evalIte _ _ _ _ l, .eval _ _ (h.evalFrame _)⟩
  | evalLogic => exact ⟨_, .evalLogic _ _ _ _ l, .eval _ _ (h.evalFrame _)⟩
  | evalQuote => exact ⟨_, .evalQuote _ _ l, .build _ _ _ h.close⟩
  | evalSplice hStages => exact ⟨_, .evalSplice hStages, .eval _ _ (h.evalFrame _)⟩
  | evalLet => exact ⟨_, .evalLet _ _ _ _ l, .eval _ _ (h.evalFrame _)⟩

theorem Moves.rebase_build {k l : BuildStack} (hMoves : (build level env t k).Moves p s' p')
    (h : Stack.Rebased base base' (.build k) (.build l)) :
    ∃ u, (build level env t l).Moves p u p' ∧ s'.Rebased base base' u := by
  cases hMoves with
  | buildVar hName => exact ⟨_, .buildVar hName, .emit _ _ h⟩
  | buildLam => exact ⟨_, .buildLam _ _ _ _ l, .build _ _ _ (h.buildFrame _)⟩
  | buildFix hBody => exact ⟨_, .buildFix hBody, .build _ _ _ (h.buildFrame _)⟩
  | buildApp => exact ⟨_, .buildApp _ _ _ _ l, .build _ _ _ (h.buildFrame _)⟩
  | buildInt => exact ⟨_, .buildInt _ _ _ l, .emit _ _ h⟩
  | buildBool => exact ⟨_, .buildBool _ _ _ l, .emit _ _ h⟩
  | buildPrim hFirst => exact ⟨_, .buildPrim hFirst, .build _ _ _ (h.buildFrame _)⟩
  | buildIte => exact ⟨_, .buildIte _ _ _ _ _ l, .build _ _ _ (h.buildFrame _)⟩
  | buildLogic => exact ⟨_, .buildLogic _ _ _ _ _ l, .build _ _ _ (h.buildFrame _)⟩
  | buildQuote hRaise => exact ⟨_, .buildQuote hRaise, .build _ _ _ (h.buildFrame _)⟩
  | buildEscape hStages => exact ⟨_, .buildEscape hStages, .eval _ _ (h.escape _)⟩
  | buildSplice hStages hAbove =>
    exact ⟨_, .buildSplice hStages hAbove, .build _ _ _ (h.buildFrame _)⟩
  | buildLet => exact ⟨_, .buildLet _ _ _ _ _ l, .build _ _ _ (h.buildFrame _)⟩

theorem Moves.rebase_deliver {k l : EvalStack} (hMoves : (deliver v k).Moves p s' p')
    (hOther : base ≠ k) (h : Stack.Rebased base base' (.eval k) (.eval l)) :
    ∃ u, (deliver v l).Moves p u p' ∧ s'.Rebased base base' u := by
  cases k with
  | halt => cases hMoves
  | escape shift k =>
    obtain ⟨l, rfl, hRest⟩ := h.of_escape hOther
    cases hMoves with
    | deliverEscape => exact ⟨_, .deliverEscape _ _ l, .emit _ _ hRest⟩
  | push frame k =>
    obtain ⟨l, rfl, hRest⟩ := h.of_evalFrame hOther
    cases hMoves with
    | deliverApplyTo => exact ⟨_, .deliverApplyTo _ _ _ l, .eval _ _ (hRest.evalFrame _)⟩
    | deliverCall =>
      exact ⟨_, .deliverCall _ _ _ l, .eval _ _ ((hRest.enter _ _).evalFrame _)⟩
    | deliverBind hLeave => exact ⟨_, .deliverBind hLeave, .deliver _ hRest⟩
    | deliverPrimNext hNext => exact ⟨_, .deliverPrimNext hNext, .eval _ _ (hRest.evalFrame _)⟩
    | deliverPrimLast hLast hApply => exact ⟨_, .deliverPrimLast hLast hApply, .deliver _ hRest⟩
    | deliverBranch => exact ⟨_, .deliverBranch _ _ _ _ l, .eval _ _ hRest⟩
    | deliverLogicSettled => exact ⟨_, .deliverLogicSettled _ _ _ l, .deliver _ hRest⟩
    | deliverLogicLeft hOpen => exact ⟨_, .deliverLogicLeft hOpen, .eval _ _ (hRest.evalFrame _)⟩
    | deliverLogicRight => exact ⟨_, .deliverLogicRight _ _ l, .deliver _ hRest⟩
    | deliverLet => exact ⟨_, .deliverLet _ _ _ _ l, .eval _ _ (hRest.evalFrame _)⟩
    | deliverRun => exact ⟨_, .deliverRun _ l, .eval _ _ hRest⟩

theorem Moves.rebase_emit {k l : BuildStack} (hMoves : (emit level c k).Moves p s' p')
    (h : Stack.Rebased base base' (.build k) (.build l)) :
    ∃ u, (emit level c l).Moves p u p' ∧ s'.Rebased base base' u := by
  cases k with
  | close k =>
    obtain ⟨l, rfl, hRest⟩ := h.of_close
    cases hMoves with
    | emitClose => exact ⟨_, .emitClose _ l, .deliver _ hRest⟩
  | push frame k =>
    obtain ⟨l, rfl, hRest⟩ := h.of_buildFrame
    cases hMoves with
    | emitLam => exact ⟨_, .emitLam _ _ _ l, .emit _ _ hRest⟩
    | emitFix => exact ⟨_, .emitFix _ _ _ l, .emit _ _ hRest⟩
    | emitApplyTo => exact ⟨_, .emitApplyTo _ _ _ _ l, .build _ _ _ (hRest.buildFrame _)⟩
    | emitApplied => exact ⟨_, .emitApplied _ _ _ l, .emit _ _ hRest⟩
    | emitPrimNext hNext => exact ⟨_, .emitPrimNext hNext, .build _ _ _ (hRest.buildFrame _)⟩
    | emitPrimLast hLast => exact ⟨_, .emitPrimLast hLast, .emit _ _ hRest⟩
    | emitIteCond => exact ⟨_, .emitIteCond _ _ _ _ _ l, .build _ _ _ (hRest.buildFrame _)⟩
    | emitIteYes => exact ⟨_, .emitIteYes _ _ _ _ _ l, .build _ _ _ (hRest.buildFrame _)⟩
    | emitIteNo => exact ⟨_, .emitIteNo _ _ _ _ l, .emit _ _ hRest⟩
    | emitLogicLeft => exact ⟨_, .emitLogicLeft _ _ _ _ _ l, .build _ _ _ (hRest.buildFrame _)⟩
    | emitLogicRight => exact ⟨_, .emitLogicRight _ _ _ _ l, .emit _ _ hRest⟩
    | emitLetBound => exact ⟨_, .emitLetBound _ _ _ _ _ l, .build _ _ _ (hRest.buildFrame _)⟩
    | emitLetBody => exact ⟨_, .emitLetBody _ _ _ _ l, .emit _ _ hRest⟩
    | emitQuote hLevel => exact ⟨_, .emitQuote hLevel, .emit _ _ hRest⟩
    | emitSplice hRaise hShift => exact ⟨_, .emitSplice hRaise hShift, .emit _ _ hRest⟩

/-- **A transition above the bottom is a transition above another bottom** that has the same
bindings. -/
theorem Rebased.moves {u : State} (hBase : ∀ c, base.lookup c = base'.lookup c)
    (h : s.Rebased base base' u) (hOpen : s.hands? ≠ some (.eval base))
    (hMoves : s.Moves p s' p') : ∃ u', u.Moves p u' p' ∧ s'.Rebased base base' u' := by
  cases h with
  | eval _ _ h => exact hMoves.rebase_eval hBase h
  | build _ _ _ h => exact hMoves.rebase_build h
  | deliver _ h => exact hMoves.rebase_deliver (fun hSame => hOpen (hSame ▸ rfl)) h
  | emit _ _ h => exact hMoves.rebase_emit h

theorem Faults.rebase_deliver {f : Fault} {k l : EvalStack} (hFaults : (deliver v k).Faults f)
    (hOther : base ≠ k) (h : Stack.Rebased base base' (.eval k) (.eval l)) :
    (deliver v l).Faults f := by
  cases k with
  | halt =>
    cases h with
    | base => exact absurd rfl hOther
  | escape shift k =>
    obtain ⟨l, rfl, -⟩ := h.of_escape hOther
    cases hFaults with
    | deliverEscape hFragment => exact .deliverEscape hFragment
  | push frame k =>
    obtain ⟨l, rfl, -⟩ := h.of_evalFrame hOther
    cases hFaults with
    | deliverCall hKind => exact .deliverCall hKind
    | deliverBind hLeave => exact .deliverBind hLeave
    | deliverPrim hLast hApply => exact .deliverPrim hLast hApply
    | deliverBranch hTruth => exact .deliverBranch hTruth
    | deliverLogicLeft hTruth => exact .deliverLogicLeft hTruth
    | deliverLogicRight hTruth => exact .deliverLogicRight hTruth
    | deliverRun hFragment => exact .deliverRun hFragment

/-- **A fault above the bottom is a fault above another bottom** that has the same bindings. -/
theorem Rebased.faults {f : Fault} {u : State} (hBase : ∀ c, base.lookup c = base'.lookup c)
    (h : s.Rebased base base' u) (hOpen : s.hands? ≠ some (.eval base)) (hFaults : s.Faults f) :
    u.Faults f := by
  cases h with
  | eval _ _ h =>
    cases hFaults with
    | evalUnresolved hName => exact .evalUnresolved hName
    | evalAbsent hName hAbsent =>
      exact .evalAbsent hName ((h.lookup_eq hBase _).symm.trans hAbsent)
    | evalFuture hName hFuture =>
      exact .evalFuture hName ((h.lookup_eq hBase _).symm.trans hFuture)
    | evalFix hBody => exact .evalFix hBody
    | evalPrim hFirst => exact .evalPrim hFirst
    | evalSplice hStages => exact .evalSplice hStages
  | build _ _ _ h =>
    cases hFaults with
    | buildUnresolved hName => exact .buildUnresolved hName
    | buildFix hBody => exact .buildFix hBody
    | buildPrim hFirst => exact .buildPrim hFirst
    | buildQuote hRaise => exact .buildQuote hRaise
    | buildSplice hStages => exact .buildSplice hStages
  | deliver _ h => exact hFaults.rebase_deliver (fun hSame => hOpen (hSame ▸ rfl)) h
  | emit _ _ h =>
    cases hFaults with
    | emitClose hLevel =>
      obtain ⟨l, rfl, -⟩ := h.of_close
      exact .emitClose hLevel
    | emitQuote hLevel =>
      obtain ⟨l, rfl, -⟩ := h.of_buildFrame
      exact .emitQuote hLevel
    | emitRaise hRaise =>
      obtain ⟨l, rfl, -⟩ := h.of_buildFrame
      exact .emitRaise hRaise
    | emitSplice hRaise hShift =>
      obtain ⟨l, rfl, -⟩ := h.of_buildFrame
      exact .emitSplice hRaise hShift

/-- A state that goes on does not hand a value to the empty stack. -/
theorem Moves.hands?_ne_halt (h : s.Moves p s' p') : s.hands? ≠ some (.eval .halt) := by
  cases h <;> exact nofun

end State

/-! ### Runs -/

/-- **A run on the empty stack goes on in the same way above any stack without bindings**, whatever
the number of transitions before it. -/
theorem Machine.Reaches.rebase {base : EvalStack} (hBase : ∀ c, base.lookup c = .absent)
    {m m' n : Machine} {s s' u : State} (hPalette : m.palette = n.palette)
    (h : s.Rebased .halt base u) (hReach : m.Reaches s m' s') :
    ∃ n' u', n.Reaches u n' u' ∧ m'.palette = n'.palette ∧ s'.Rebased .halt base u' := by
  induction hReach with
  | refl => exact ⟨n, u, .refl, hPalette, h⟩
  | @tail m₁ m₂ s₁ s₂ _ hStep ih =>
    obtain ⟨n₁, u₁, hPrior, hSame, hRebased⟩ := ih
    have hMoves := (step_eq_ok_iff.mp hStep).1
    have hLookup : ∀ c, EvalStack.halt.lookup c = base.lookup c := fun c => (hBase c).symm
    obtain ⟨u₂, hMoves', hNext⟩ := hRebased.moves hLookup hMoves.hands?_ne_halt hMoves
    rw [hSame] at hMoves'
    exact ⟨_, u₂, .tail hPrior (step_of_moves hMoves'), rfl, hNext⟩

end StagedLambda
