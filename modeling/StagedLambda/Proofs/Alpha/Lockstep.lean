import StagedLambda.Proofs.Alpha.Mirrors
import StagedLambda.Proofs.Machine.Reach

/-!
# Mirroring states go in lockstep

From two states that mirror each other the two runs go on by the same rule, color binders at the
same time, and get to states that mirror each other again (`State.Mirrors.moves`), or they fail
for the same reason (`State.Mirrors.faults`).  No transition looks at a name: every question that
it asks of an identifier is a comparison of colors, and these correspond one-to-one.

* `Machine.runFor_mirrors`: with any budget the two runs end alike.
-/

namespace StagedLambda

/-- The fault without the identifier that it names. -/
def Fault.anonymous : Fault → Fault
  | .unbound _ => .unbound (.raw "")
  | .futureBinding _ => .futureBinding (.raw "")
  | .malformedFixpoint _ => .malformedFixpoint (.raw "")
  | .scopeExtrusion _ => .scopeExtrusion (.raw "")
  | f => f

/-! ### The checks -/

section

variable {R : Ident → Ident → Prop}

/-- The operands are counted, not looked at. -/
theorem Step.firstOperand_mirrors {P : Term → Term → Prop} (op : PrimOp) {as bs : List Term}
    (h : List.Forall₂ P as bs) :
    (∀ a, Step.firstOperand op as = .ok a → ∃ b, Step.firstOperand op bs = .ok b ∧ P a b) ∧
      ∀ f, Step.firstOperand op as = .error f → Step.firstOperand op bs = .error f := by
  cases h with
  | nil =>
    refine ⟨?_, fun _ h => h⟩
    rintro _ ⟨⟩
  | @cons a b as bs hab hRest =>
    have hLength : (b :: bs).length = (a :: as).length := by simp [hRest.length_eq]
    rw [Step.firstOperand, Step.firstOperand, hLength]
    by_cases hArity : (a :: as).length = op.arity
    · rw [if_pos hArity, if_pos hArity]
      constructor
      · rintro _ ⟨⟩
        exact ⟨b, rfl, hab⟩
      · rintro _ ⟨⟩
    · rw [if_neg hArity, if_neg hArity]
      refine ⟨?_, fun _ h => h⟩
      rintro _ ⟨⟩

theorem getElem?_mirrors {α β : Type} {P : α → β → Prop} {as : List α} {bs : List β}
    (h : List.Forall₂ P as bs) (n : Nat) :
    (∀ a, as[n]? = some a → ∃ b, bs[n]? = some b ∧ P a b) ∧ (as[n]? = none → bs[n]? = none) := by
  induction h generalizing n with
  | nil => exact ⟨nofun, fun _ => rfl⟩
  | cons hab _ ih =>
    cases n with
    | zero =>
      refine ⟨?_, nofun⟩
      rintro _ ⟨⟩
      exact ⟨_, rfl, hab⟩
    | succ n => exact ih n

theorem Value.Mirrors.eq_of_isOf {v w : Value} (h : v.Mirrors R w) {kind : BaseKind}
    (hKind : v.isOf kind = true) : w = v := by
  cases h with
  | int | bool => rfl
  | code | closure | captured => cases kind <;> cases hKind

/-- **A primitive does the same to operands that mirror each other.** -/
theorem Arithmetic.apply_mirrors {vs ws : List Value} (h : List.Forall₂ (Value.Mirrors R) vs ws)
    (op : PrimOp) : Arithmetic.apply op ws = Arithmetic.apply op vs :=
  Arithmetic.apply_congr (h.imp fun _ _ hvw => ⟨hvw.kind_eq, fun _ => hvw.eq_of_isOf⟩) op

theorem Value.Mirrors.truth_eq_error {v w : Value} (h : v.Mirrors R w) {consumer : Consumer}
    {f : Fault} (hTruth : Step.truth consumer v = .error f) :
    Step.truth consumer w = .error f := by
  cases h <;> exact hTruth

theorem Value.Mirrors.fragment_eq_error {v w : Value} (h : v.Mirrors R w) {consumer : Consumer}
    {f : Fault} (hFragment : Step.fragment consumer v = .error f) :
    Step.fragment consumer w = .error f := by
  cases h with
  | code => cases hFragment
  | int | bool | closure | captured => exact hFragment

/-- A value leaves a binding behind alike: functions pick it up, and code mentions it or not. -/
theorem Step.leave_mirrors (hR : Relator.BiUnique R) {c d : Ident} (hcd : R c d)
    {bound bound' v w : Value} (hBound : bound.Mirrors R bound') (h : v.Mirrors R w) :
    (∀ v', Step.leave c bound v = .ok v' →
      ∃ w', Step.leave d bound' w = .ok w' ∧ v'.Mirrors R w') ∧
    ∀ f, Step.leave c bound v = .error f →
      ∃ g, Step.leave d bound' w = .error g ∧ f.anonymous = g.anonymous := by
  cases h with
  | int n =>
    constructor
    · rintro _ ⟨⟩
      exact ⟨_, rfl, .int n⟩
    · rintro _ ⟨⟩
  | bool b =>
    constructor
    · rintro _ ⟨⟩
      exact ⟨_, rfl, .bool b⟩
    · rintro _ ⟨⟩
  | closure hSelf hBody =>
    constructor
    · rintro _ ⟨⟩
      exact ⟨_, rfl, .captured hcd hBound (.closure hSelf hBody)⟩
    · rintro _ ⟨⟩
  | captured hColor hHere hRest =>
    constructor
    · rintro _ ⟨⟩
      exact ⟨_, rfl, .captured hcd hBound (.captured hColor hHere hRest)⟩
    · rintro _ ⟨⟩
  | @code s t h =>
    have hFree := h.occursFree_eq hR hcd
    rw [Step.leave, Step.leave, ← hFree]
    cases s.occursFree c with
    | true =>
      constructor
      · rintro _ ⟨⟩
      · rintro _ ⟨⟩
        exact ⟨_, rfl, rfl⟩
    | false =>
      constructor
      · rintro _ ⟨⟩
        exact ⟨_, rfl, .code h⟩
      · rintro _ ⟨⟩

end

/-! ### Transitions -/

section

variable {R : Ident → Ident → Prop} {p p' q : Palette} {env : Renaming} {s' t : State}

/-- The other run goes on as well, to a state that mirrors `s'`. -/
def Accompanies (p q : Palette) (R : Ident → Ident → Prop) (t s' : State) (p' : Palette) : Prop :=
  ∃ t' q' R', t.Moves q t' q' ∧ Grows p q R p' q' R' ∧ s'.Mirrors R' t'

theorem Accompanies.same {t' : State} (hMoves : t.Moves q t' q) (h : s'.Mirrors R t') :
    Accompanies p q R t s' p := ⟨t', q, R, hMoves, .same, h⟩

theorem Accompanies.color {t' : State} (x y : Ident) (hMoves : t.Moves q t' q.advance)
    (h : s'.Mirrors (Joined R (p.tint x) (q.tint y)) t') : Accompanies p q R t s' p.advance :=
  ⟨t', q.advance, _, hMoves, .color .same x y, h⟩

theorem joined_of_rel {c d : Ident} : ∀ a b, R a b → Joined R c d a b := fun _ _ h => .inr h

theorem joined_self (c d : Ident) : Joined R c d c d := .inl ⟨rfl, rfl⟩

theorem Waiting.ite {env env' : Renaming} {b : Bool} {s s' t t' : Term}
    (hYes : Waiting R (env, s) (env', t)) (hNo : Waiting R (env, s') (env', t')) :
    Waiting R (env, if b then s else s') (env', if b then t else t') := by
  cases b
  · exact hNo
  · exact hYes

theorem State.Mirrors.of_eval {e : Term} {k : EvalStack} (hSync : Synced p q R)
    (h : (State.eval env e k).Mirrors R t) (hMoves : (State.eval env e k).Moves p s' p') :
    Accompanies p q R t s' p' := by
  cases h with
  | eval hTerm hStack =>
    cases hMoves with
    | evalVar hName hFound =>
      cases hTerm with
      | var hRefer =>
        obtain ⟨d, hName', hColor⟩ := hRefer.resolve_some hName
        have hLookup := hStack.lookup hSync.biUnique hColor
        rw [hFound] at hLookup
        obtain ⟨w, hFound', hValue⟩ := hLookup.eq_found
        exact .same (.evalVar hName' hFound') (.deliver hValue hStack)
    | evalLam =>
      cases hTerm with
      | lam h => exact .same (.evalLam _ _ _ _) (.deliver (.closure .none (.lam h)) hStack)
    | evalFix env x param body k =>
      cases hTerm with
      | @fix _ _ y _ _ h =>
        cases h with
        | lam h =>
          refine .color x y (.evalFix _ _ _ _ _) (.deliver (.closure ?_ ?_)
            (hStack.mono joined_of_rel))
          · exact .some (joined_self _ _)
          · exact .of_under joined_of_rel (joined_self _ _) (.lam h)
    | evalApp =>
      cases hTerm with
      | app hFn hArg => exact .same (.evalApp _ _ _ _) (.eval hFn (.push (.applyTo hArg) hStack))
    | evalInt =>
      cases hTerm with
      | int => exact .same (.evalInt _ _ _) (.deliver (.int _) hStack)
    | evalBool =>
      cases hTerm with
      | bool => exact .same (.evalBool _ _ _) (.deliver (.bool _) hStack)
    | evalPrim hFirst =>
      have hArgs := hTerm
      cases hTerm with
      | prim =>
        obtain ⟨b, hFirst', hab⟩ := (Step.firstOperand_mirrors _ hArgs.forall₂).1 _ hFirst
        exact .same (.evalPrim hFirst') (.eval hab (.push (.prim .nil hArgs.forall₂) hStack))
    | evalIte =>
      cases hTerm with
      | ite hCond hYes hNo =>
        exact .same (.evalIte _ _ _ _ _) (.eval hCond (.push (.branch hYes hNo) hStack))
    | evalLogic =>
      cases hTerm with
      | logic hLeft hRight =>
        exact .same (.evalLogic _ _ _ _ _) (.eval hLeft (.push (.logicLeft hRight) hStack))
    | evalQuote =>
      cases hTerm with
      | quote h => exact .same (.evalQuote _ _ _) (.build h (.close hStack))
    | evalSplice hStages =>
      cases hTerm with
      | splice h => exact .same (.evalSplice hStages) (.eval h (.push .run hStack))
    | evalLet =>
      cases hTerm with
      | letIn hBound hBody =>
        exact .same (.evalLet _ _ _ _ _) (.eval hBound (.push (.letBody (.lam hBody)) hStack))

theorem State.Mirrors.of_build {level : UInt64} {e : Term} {k : BuildStack}
    (h : (State.build level env e k).Mirrors R t)
    (hMoves : (State.build level env e k).Moves p s' p') : Accompanies p q R t s' p' := by
  cases h with
  | build hTerm hStack =>
    cases hMoves with
    | buildVar hName =>
      cases hTerm with
      | var hRefer =>
        obtain ⟨d, hName', hColor⟩ := hRefer.resolve_some hName
        exact .same (.buildVar hName') (.emit (.var hColor) hStack)
    | buildLam level env x body k =>
      cases hTerm with
      | @lam _ _ y _ _ h =>
        exact .color x y (.buildLam _ _ _ _ _)
          (.build (.of_under joined_of_rel (joined_self _ _) h)
            (.push (.lam (joined_self _ _)) (hStack.mono joined_of_rel)))
    | @buildFix _ _ x body _ hBody =>
      cases hTerm with
      | @fix _ _ y _ body' h =>
        have hBody' : Step.maybeFunction body' = true := by
          cases h <;> first | rfl | cases hBody
        exact .color x y (.buildFix hBody')
          (.build (.of_under joined_of_rel (joined_self _ _) h)
            (.push (.fix (joined_self _ _)) (hStack.mono joined_of_rel)))
    | buildApp =>
      cases hTerm with
      | app hFn hArg =>
        exact .same (.buildApp _ _ _ _ _) (.build hFn (.push (.applyTo hArg) hStack))
    | buildInt =>
      cases hTerm with
      | int => exact .same (.buildInt _ _ _ _) (.emit (.int _) hStack)
    | buildBool =>
      cases hTerm with
      | bool => exact .same (.buildBool _ _ _ _) (.emit (.bool _) hStack)
    | buildPrim hFirst =>
      have hArgs := hTerm
      cases hTerm with
      | prim =>
        obtain ⟨b, hFirst', hab⟩ := (Step.firstOperand_mirrors _ hArgs.forall₂).1 _ hFirst
        exact .same (.buildPrim hFirst')
          (.build hab (.push (.prim .nil hArgs.forall₂) hStack))
    | buildIte =>
      cases hTerm with
      | ite hCond hYes hNo =>
        exact .same (.buildIte _ _ _ _ _ _)
          (.build hCond (.push (.iteCond hYes hNo) hStack))
    | buildLogic =>
      cases hTerm with
      | logic hLeft hRight =>
        exact .same (.buildLogic _ _ _ _ _ _)
          (.build hLeft (.push (.logicLeft hRight) hStack))
    | buildQuote hRaise =>
      cases hTerm with
      | quote h => exact .same (.buildQuote hRaise) (.build h (.push .quote hStack))
    | buildEscape hStages =>
      cases hTerm with
      | splice h => exact .same (.buildEscape hStages) (.eval h (.escape level hStack))
    | buildSplice hStages hAbove =>
      cases hTerm with
      | splice h =>
        exact .same (.buildSplice hStages hAbove) (.build h (.push (.splice _) hStack))
    | buildLet =>
      cases hTerm with
      | letIn hBound hBody =>
        exact .same (.buildLet _ _ _ _ _ _)
          (.build hBound (.push (.letBound (.lam hBody)) hStack))

theorem State.Mirrors.of_deliver {v : Value} {k : EvalStack} (hSync : Synced p q R)
    (h : (State.deliver v k).Mirrors R t) (hMoves : (State.deliver v k).Moves p s' p') :
    Accompanies p q R t s' p' := by
  cases h with
  | deliver hValue hStack =>
    cases hMoves with
    | deliverEscape =>
      cases hValue with
      | code hCode =>
        cases hStack with
        | escape shift hOuter => exact .same (.deliverEscape _ _ _) (.emit hCode hOuter)
    | deliverApplyTo =>
      cases hStack with
      | push hFrame hRest =>
        cases hFrame with
        | applyTo hArg =>
          exact .same (.deliverApplyTo _ _ _ _) (.eval hArg (.push (.applied hValue) hRest))
    | deliverCall fn captured =>
      cases hStack with
      | push hFrame hRest =>
        cases hFrame with
        | @applied _ w hFn =>
          obtain ⟨gn, captured', rfl⟩ : ∃ gn captured', w = .closure gn captured' := by
            cases hFn <;> exact ⟨_, _, rfl⟩
          obtain ⟨hEnter, hBody⟩ := hRest.enter hFn
          refine .color fn.param gn.param (.deliverCall gn captured' _ _) (.eval ?_ (.push ?_ ?_))
          · exact hBody.enter joined_of_rel (joined_self _ _)
          · exact .bind (joined_self _ _) (hValue.mono joined_of_rel)
          · exact hEnter.mono joined_of_rel
    | deliverBind hLeave =>
      cases hStack with
      | push hFrame hRest =>
        cases hFrame with
        | bind hColor hBound =>
          obtain ⟨w', hLeave', hLeft⟩ :=
            (Step.leave_mirrors hSync.biUnique hColor hBound hValue).1 _ hLeave
          exact .same (.deliverBind hLeave') (.deliver hLeft hRest)
    | deliverPrimNext hNext =>
      cases hStack with
      | push hFrame hRest =>
        cases hFrame with
        | prim hDone hArgs =>
          have hDone' := List.rel_append hDone (.cons hValue .nil)
          obtain ⟨next, hNext', hTerm⟩ := (getElem?_mirrors hArgs _).1 _ hNext
          rw [hDone'.length_eq] at hNext'
          exact .same (.deliverPrimNext hNext') (.eval hTerm (.push (.prim hDone' hArgs) hRest))
    | deliverPrimLast hLast hApply =>
      cases hStack with
      | push hFrame hRest =>
        cases hFrame with
        | prim hDone hArgs =>
          have hDone' := List.rel_append hDone (.cons hValue .nil)
          have hLast' := (getElem?_mirrors hArgs _).2 hLast
          rw [hDone'.length_eq] at hLast'
          have hApply' := (Arithmetic.apply_mirrors hDone' _).trans hApply
          refine .same (.deliverPrimLast hLast' hApply') (.deliver ?_ hRest)
          rcases Arithmetic.apply_eq_ok hApply with ⟨n, rfl⟩ | ⟨b, rfl⟩
          · exact .int n
          · exact .bool b
    | deliverBranch =>
      cases hValue with
      | bool =>
        cases hStack with
        | push hFrame hRest =>
          cases hFrame with
          | branch hYes hNo => exact .same (.deliverBranch _ _ _ _ _) (.eval (.ite hYes hNo) hRest)
    | deliverLogicSettled =>
      cases hValue with
      | bool =>
        cases hStack with
        | push hFrame hRest =>
          cases hFrame with
          | logicLeft => exact .same (.deliverLogicSettled _ _ _ _) (.deliver (.bool _) hRest)
    | deliverLogicLeft hOpen =>
      cases hValue with
      | bool =>
        cases hStack with
        | push hFrame hRest =>
          cases hFrame with
          | logicLeft h =>
            exact .same (.deliverLogicLeft hOpen) (.eval h (.push (.logicRight _) hRest))
    | deliverLogicRight =>
      cases hValue with
      | bool =>
        cases hStack with
        | push hFrame hRest =>
          cases hFrame with
          | logicRight => exact .same (.deliverLogicRight _ _ _) (.deliver (.bool _) hRest)
    | deliverLet v x =>
      cases hStack with
      | push hFrame hRest =>
        cases hFrame with
        | @letBody _ y _ _ _ _ h =>
          refine .color x y (.deliverLet _ _ _ _ _) (.eval ?_ (.push ?_ ?_))
          · exact h.enter joined_of_rel (joined_self _ _)
          · exact .bind (joined_self _ _) (hValue.mono joined_of_rel)
          · exact hRest.mono joined_of_rel
    | deliverRun =>
      cases hValue with
      | code hCode =>
        cases hStack with
        | push hFrame hRest =>
          cases hFrame with
          | run => exact .same (.deliverRun _ _) (.eval (hSync.waiting hCode) hRest)

theorem State.Mirrors.of_emit {level : UInt64} {c : Term} {k : BuildStack}
    (h : (State.emit level c k).Mirrors R t) (hMoves : (State.emit level c k).Moves p s' p') :
    Accompanies p q R t s' p' := by
  cases h with
  | emit hCode hStack =>
    cases hStack with
    | close hOuter =>
      cases hMoves with
      | emitClose => exact .same (.emitClose _ _) (.deliver (.code hCode) hOuter)
    | push hFrame hRest =>
      cases hFrame with
      | lam hBinder =>
        cases hMoves with
        | emitLam => exact .same (.emitLam _ _ _ _) (.emit (.lam hBinder hCode) hRest)
      | fix hBinder =>
        cases hMoves with
        | emitFix => exact .same (.emitFix _ _ _ _) (.emit (.fix hBinder hCode) hRest)
      | applyTo h =>
        cases hMoves with
        | emitApplyTo =>
          exact .same (.emitApplyTo _ _ _ _ _) (.build h (.push (.applied hCode) hRest))
      | applied hFn =>
        cases hMoves with
        | emitApplied => exact .same (.emitApplied _ _ _ _) (.emit (.app hFn hCode) hRest)
      | prim hDone hArgs =>
        have hDone' := List.rel_append hDone (.cons hCode .nil)
        cases hMoves with
        | emitPrimNext hNext =>
          obtain ⟨next, hNext', hTerm⟩ := (getElem?_mirrors hArgs _).1 _ hNext
          rw [hDone'.length_eq] at hNext'
          exact .same (.emitPrimNext hNext')
            (.build hTerm (.push (.prim hDone' hArgs) hRest))
        | emitPrimLast hLast =>
          have hLast' := (getElem?_mirrors hArgs _).2 hLast
          rw [hDone'.length_eq] at hLast'
          exact .same (.emitPrimLast hLast') (.emit (.of_forall₂ hDone') hRest)
      | iteCond hYes hNo =>
        cases hMoves with
        | emitIteCond =>
          exact .same (.emitIteCond _ _ _ _ _ _)
            (.build hYes (.push (.iteYes hCode hNo) hRest))
      | iteYes hCond hNo =>
        cases hMoves with
        | emitIteYes =>
          exact .same (.emitIteYes _ _ _ _ _ _)
            (.build hNo (.push (.iteNo hCond hCode) hRest))
      | iteNo hCond hYes =>
        cases hMoves with
        | emitIteNo =>
          exact .same (.emitIteNo _ _ _ _ _) (.emit (.ite hCond hYes hCode) hRest)
      | logicLeft h =>
        cases hMoves with
        | emitLogicLeft =>
          exact .same (.emitLogicLeft _ _ _ _ _ _)
            (.build h (.push (.logicRight hCode) hRest))
      | logicRight hLeft =>
        cases hMoves with
        | emitLogicRight =>
          exact .same (.emitLogicRight _ _ _ _ _) (.emit (.logic hLeft hCode) hRest)
      | @letBound x y _ _ _ _ h =>
        cases hMoves with
        | emitLetBound =>
          exact .color x y (.emitLetBound _ _ _ _ _ _)
            (.build (h.enter joined_of_rel (joined_self _ _))
              (.push (.letBody (joined_self _ _) (hCode.mono joined_of_rel))
                (hRest.mono joined_of_rel)))
      | letBody hBinder hBound =>
        cases hMoves with
        | emitLetBody =>
          exact .same (.emitLetBody _ _ _ _ _) (.emit (.letIn hBinder hBound hCode) hRest)
      | quote =>
        cases hMoves with
        | emitQuote hLevel => exact .same (.emitQuote hLevel) (.emit (.quote hCode) hRest)
      | splice shift =>
        cases hMoves with
        | emitSplice hRaise hShift =>
          exact .same (.emitSplice hRaise hShift) (.emit (.splice hCode) hRest)

/-- **Mirroring states go on by the same rule.** -/
theorem State.Mirrors.moves {s : State} (hSync : Synced p q R) (h : s.Mirrors R t)
    (hMoves : s.Moves p s' p') : Accompanies p q R t s' p' := by
  cases s with
  | eval => exact h.of_eval hSync hMoves
  | build => exact h.of_build hMoves
  | deliver => exact h.of_deliver hSync hMoves
  | emit => exact h.of_emit hMoves

/-- The other run fails as well, for the same reason. -/
def FailsAlike (t : State) (f : Fault) : Prop := ∃ g, t.Faults g ∧ f.anonymous = g.anonymous

theorem FailsAlike.same {f : Fault} (h : t.Faults f) : FailsAlike t f := ⟨f, h, rfl⟩

theorem State.Mirrors.eval_faults {e : Term} {k : EvalStack} {f : Fault} (hSync : Synced p q R)
    (h : (State.eval env e k).Mirrors R t) (hFault : (State.eval env e k).Faults f) :
    FailsAlike t f := by
  cases h with
  | eval hTerm hStack =>
    cases hFault with
    | evalUnresolved hName =>
      cases hTerm with
      | var hRefer => exact ⟨_, .evalUnresolved (hRefer.resolve_none hName), rfl⟩
    | evalAbsent hName hAbsent =>
      cases hTerm with
      | var hRefer =>
        obtain ⟨d, hName', hColor⟩ := hRefer.resolve_some hName
        have hLookup := hStack.lookup hSync.biUnique hColor
        rw [hAbsent] at hLookup
        exact ⟨_, .evalAbsent hName' hLookup.eq_absent, rfl⟩
    | evalFuture hName hFuture =>
      cases hTerm with
      | var hRefer =>
        obtain ⟨d, hName', hColor⟩ := hRefer.resolve_some hName
        have hLookup := hStack.lookup hSync.biUnique hColor
        rw [hFuture] at hLookup
        exact ⟨_, .evalFuture hName' hLookup.eq_future, rfl⟩
    | evalFix hBody =>
      cases hTerm with
      | @fix _ _ _ _ body' h =>
        have hBody' : body'.isLam = false := by
          cases h <;> first | rfl | cases hBody
        exact ⟨_, .evalFix hBody', rfl⟩
    | evalPrim hFirst =>
      have hArgs := hTerm
      cases hTerm with
      | prim =>
        exact .same (.evalPrim ((Step.firstOperand_mirrors _ hArgs.forall₂).2 _ hFirst))
    | evalSplice hStages =>
      cases hTerm with
      | splice => exact .same (.evalSplice hStages)

theorem State.Mirrors.build_faults {level : UInt64} {e : Term} {k : BuildStack} {f : Fault}
    (h : (State.build level env e k).Mirrors R t)
    (hFault : (State.build level env e k).Faults f) : FailsAlike t f := by
  cases h with
  | build hTerm hStack =>
    cases hFault with
    | buildUnresolved hName =>
      cases hTerm with
      | var hRefer => exact ⟨_, .buildUnresolved (hRefer.resolve_none hName), rfl⟩
    | buildFix hBody =>
      cases hTerm with
      | @fix _ _ _ _ body' h =>
        have hBody' : Step.maybeFunction body' = false := by
          cases h <;> first | rfl | cases hBody
        exact ⟨_, .buildFix hBody', rfl⟩
    | buildPrim hFirst =>
      have hArgs := hTerm
      cases hTerm with
      | prim =>
        exact .same (.buildPrim ((Step.firstOperand_mirrors _ hArgs.forall₂).2 _ hFirst))
    | buildQuote hRaise =>
      cases hTerm with
      | quote => exact .same (.buildQuote hRaise)
    | buildSplice hStages =>
      cases hTerm with
      | splice => exact .same (.buildSplice hStages)

theorem State.Mirrors.deliver_faults {v : Value} {k : EvalStack} {f : Fault}
    (hSync : Synced p q R) (h : (State.deliver v k).Mirrors R t)
    (hFault : (State.deliver v k).Faults f) : FailsAlike t f := by
  cases h with
  | deliver hValue hStack =>
    cases hStack with
    | halt =>
      cases hFault with
      | deliverHalt => exact .same (.deliverHalt _)
    | escape =>
      cases hFault with
      | deliverEscape hFragment => exact .same (.deliverEscape (hValue.fragment_eq_error hFragment))
    | push hFrame hRest =>
      cases hFault with
      | deliverCall hKind =>
        cases hFrame with
        | applied hFn =>
          have hKind' := hFn.kind_eq ▸ hKind
          exact ⟨_, .deliverCall hKind', by rw [hFn.kind_eq]⟩
      | deliverBind hLeave =>
        cases hFrame with
        | bind hColor hBound =>
          obtain ⟨g, hLeave', hSame⟩ :=
            (Step.leave_mirrors hSync.biUnique hColor hBound hValue).2 _ hLeave
          exact ⟨g, .deliverBind hLeave', hSame⟩
      | deliverPrim hLast hApply =>
        cases hFrame with
        | prim hDone hArgs =>
          have hDone' := List.rel_append hDone (.cons hValue .nil)
          have hLast' := (getElem?_mirrors hArgs _).2 hLast
          rw [hDone'.length_eq] at hLast'
          exact .same (.deliverPrim hLast' ((Arithmetic.apply_mirrors hDone' _).trans hApply))
      | deliverBranch hTruth =>
        cases hFrame with
        | branch => exact .same (.deliverBranch (hValue.truth_eq_error hTruth))
      | deliverLogicLeft hTruth =>
        cases hFrame with
        | logicLeft => exact .same (.deliverLogicLeft (hValue.truth_eq_error hTruth))
      | deliverLogicRight hTruth =>
        cases hFrame with
        | logicRight => exact .same (.deliverLogicRight (hValue.truth_eq_error hTruth))
      | deliverRun hFragment =>
        cases hFrame with
        | run => exact .same (.deliverRun (hValue.fragment_eq_error hFragment))

theorem State.Mirrors.emit_faults {level : UInt64} {c : Term} {k : BuildStack} {f : Fault}
    (h : (State.emit level c k).Mirrors R t) (hFault : (State.emit level c k).Faults f) :
    FailsAlike t f := by
  cases h with
  | emit hCode hStack =>
    cases hStack with
    | close hOuter =>
      cases hFault with
      | emitClose hLevel => exact .same (.emitClose hLevel)
    | push hFrame hRest =>
      cases hFault with
      | emitQuote hLevel =>
        cases hFrame with
        | quote => exact .same (.emitQuote hLevel)
      | emitRaise hRaise =>
        cases hFrame with
        | splice => exact .same (.emitRaise hRaise)
      | emitSplice hRaise hShift =>
        cases hFrame with
        | splice => exact .same (.emitSplice hRaise hShift)

/-- **Mirroring states fail for the same reason.** -/
theorem State.Mirrors.faults {s : State} {f : Fault} (hSync : Synced p q R) (h : s.Mirrors R t)
    (hFault : s.Faults f) : FailsAlike t f := by
  cases s with
  | eval => exact h.eval_faults hSync hFault
  | build => exact h.build_faults hFault
  | deliver => exact h.deliver_faults hSync hFault
  | emit => exact h.emit_faults hFault

end

/-! ### Runs -/

/-- The runs have come to the same but for the colors of binders. -/
inductive Outcome.Mirrors (R : Ident → Ident → Prop) : Outcome → Outcome → Prop
  | finished {v w : Value} (h : v.Mirrors R w) : Mirrors R (.finished v) (.finished w)
  | suspended {s t : State} (h : s.Mirrors R t) : Mirrors R (.suspended s) (.suspended t)
  | failed {f g : Fault} (h : f.anonymous = g.anonymous) : Mirrors R (.failed f) (.failed g)

section

variable {R : Ident → Ident → Prop}

/-- States that mirror each other have a result together. -/
theorem State.Mirrors.result? {s t : State} (h : s.Mirrors R t) :
    Option.Rel (Value.Mirrors R) s.result? t.result? := by
  cases h with
  | deliver hValue hStack =>
    cases hStack with
    | halt => exact .some hValue
    | escape | push => exact .none
  | eval | build | emit => exact .none

/-- **Mirroring states end alike** within any budget, and with the same budget left. -/
theorem Machine.runFor_mirrors (budget : Nat) {m n : Machine} {s t : State}
    (hSync : Synced m.palette n.palette R) (h : s.Mirrors R t) :
    ∃ R', Grows m.palette n.palette R (m.runFor budget s).machine.palette
        (n.runFor budget t).machine.palette R' ∧
      (m.runFor budget s).outcome.Mirrors R' (n.runFor budget t).outcome ∧
      (m.runFor budget s).left = (n.runFor budget t).left := by
  induction budget generalizing R m n s t with
  | zero =>
    have hResult := h.result?
    cases hs : s.result? <;> cases ht : t.result? <;> rw [hs, ht] at hResult <;> cases hResult
    · rw [runFor_zero hs, runFor_zero ht]
      exact ⟨R, .same, .suspended h, rfl⟩
    · rename_i hValue
      rw [runFor_of_result hs, runFor_of_result ht]
      exact ⟨R, .same, .finished hValue, rfl⟩
  | succ budget ih =>
    have hResult := h.result?
    cases hs : s.result? <;> cases ht : t.result? <;> rw [hs, ht] at hResult <;> cases hResult
    · rw [runFor_succ hs, runFor_succ ht]
      rcases hStep : m.step s with ⟨f | s', m'⟩
      · obtain ⟨hFault, rfl⟩ := step_eq_error_iff.mp hStep
        obtain ⟨g, hFault', hSame⟩ := h.faults hSync hFault
        rw [step_eq_error_iff.mpr ⟨hFault', rfl⟩]
        exact ⟨R, .same, .failed hSame, rfl⟩
      · obtain ⟨hMoves, -⟩ := step_eq_ok_iff.mp hStep
        obtain ⟨t', q', R', hMoves', hGrows, hNext⟩ := h.moves hSync hMoves
        rw [step_of_moves hMoves']
        obtain ⟨R'', hGrows', hEnd⟩ := ih (n := ⟨q', n.steps + 1⟩) (hSync.grow hGrows) hNext
        exact ⟨R'', hGrows.trans hGrows', hEnd⟩
    · rename_i hValue
      rw [runFor_of_result hs, runFor_of_result ht]
      exact ⟨R, .same, .finished hValue, rfl⟩

/-! ### Ends -/

variable {o o' : Outcome} {r : Except Fault Value}

theorem Outcome.Mirrors.ending_right (h : (Machine.ending r).Mirrors R o') :
    ∃ r', o' = Machine.ending r' := by
  rcases r with f | v
  · cases h
    exact ⟨.error _, rfl⟩
  · cases h
    exact ⟨.ok _, rfl⟩

theorem Outcome.Mirrors.ending_left (h : o.Mirrors R (Machine.ending r)) :
    ∃ r', o = Machine.ending r' := by
  rcases r with f | v
  · cases h
    exact ⟨.error _, rfl⟩
  · cases h
    exact ⟨.ok _, rfl⟩

theorem Outcome.Mirrors.suspended_iff (h : o.Mirrors R o') :
    (∃ s, o = .suspended s) ↔ ∃ t, o' = .suspended t := by
  cases h with
  | suspended => exact ⟨fun _ => ⟨_, rfl⟩, fun _ => ⟨_, rfl⟩⟩
  | finished | failed => exact ⟨nofun, nofun⟩

end

end StagedLambda
