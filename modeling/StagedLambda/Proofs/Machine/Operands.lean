import StagedLambda.Proofs.Machine.Frames
import StagedLambda.Proofs.Machine.Reach
import StagedLambda.Proofs.Term.Plain

/-!
# Primitives keep their operands

In a saturated term every primitive has as many operands as it takes.  All terms that a run of a
saturated program holds are saturated: those that wait, the bodies of functions, also of functions
that other functions have picked up, and the code that is built.  Code is put together operand by
operand, so of a primitive that is being built the number of operands that are done and of those
that still wait is part of the invariant (`BuildFrame.Counted`).

* `State.Saturated.moves`: transitions keep all terms saturated.
* `Machine.Reaches.operands_counted`: no run of a saturated program fails for a number of operands.
-/

namespace StagedLambda

namespace Term

variable {a b c : Term}

@[simp] theorem saturated_lam {x : Ident} : (lam x b).saturated = b.saturated := rfl

@[simp] theorem saturated_fix {x : Ident} : (fix x b).saturated = b.saturated := rfl

@[simp] theorem saturated_quote : (quote b).saturated = b.saturated := rfl

@[simp] theorem saturated_splice {shift : Int64} : (splice shift b).saturated = b.saturated := rfl

@[simp] theorem saturated_app :
    (app a b).saturated = true ↔ a.saturated = true ∧ b.saturated = true := Bool.and_eq_true_iff

@[simp] theorem saturated_logic {op : LogicOp} :
    (logic op a b).saturated = true ↔ a.saturated = true ∧ b.saturated = true :=
  Bool.and_eq_true_iff

@[simp] theorem saturated_letIn {x : Ident} :
    (letIn x a b).saturated = true ↔ a.saturated = true ∧ b.saturated = true :=
  Bool.and_eq_true_iff

@[simp] theorem saturated_ite :
    (ite a b c).saturated = true ↔ a.saturated = true ∧ b.saturated = true ∧ c.saturated = true :=
  Bool.and_eq_true_iff.trans (and_congr_right fun _ => Bool.and_eq_true_iff)

@[simp] theorem saturated_prim {op : PrimOp} {args : List Term} :
    (prim op args).saturated = true ↔
      args.length = op.arity ∧ ∀ a ∈ args, a.saturated = true := by
  simp only [saturated, every, Bool.and_eq_true, everyAll_iff, decide_eq_true_iff]

end Term

/-! ### Saturated states -/

/-- The code and the bodies of functions that a value holds, at any depth, are saturated. -/
inductive Value.Saturated : Value → Prop
  | int (n : Int64) : Saturated (.int n)
  | bool (b : Bool) : Saturated (.bool b)
  | code {c : Term} (h : c.saturated = true) : Saturated (.code c)
  | closure {fn : Abstraction} {captured : List (Ident × Value)} (hBody : fn.body.saturated = true)
      (hBound : ∀ b ∈ captured, Saturated b.2) : Saturated (.closure fn captured)

theorem Value.saturated_code {c : Term} (h : (Value.code c).Saturated) : c.saturated = true := by
  cases h with
  | code h => exact h

theorem Value.Saturated.leave {id : Ident} {bound v v' : Value} (h : v.Saturated)
    (hBound : bound.Saturated) (hLeave : Step.leave id bound v = .ok v') : v'.Saturated := by
  rcases Step.leave_eq_ok hLeave with
    ⟨fn, captured, rfl, rfl⟩ | ⟨t, rfl, rfl, -⟩ | ⟨n, rfl, rfl⟩ | ⟨b, rfl, rfl⟩
  · cases h with
    | closure hBody hInner => exact .closure hBody (List.forall_mem_cons.mpr ⟨hBound, hInner⟩)
  all_goals exact h

/-- A primitive that is being built waits for one of its operands. -/
def BuildFrame.Counted : BuildFrame → Prop
  | .prim op done args _ => args.length = op.arity ∧ done.length < args.length
  | _ => True

def saturationRule : StackRule where
  eval frame _ := (∀ p ∈ frame.pending, p.2.saturated = true) ∧ ∀ v ∈ frame.values, v.Saturated
  build frame _ := (∀ p ∈ frame.pending, p.2.saturated = true) ∧
    (∀ c ∈ frame.fragments, c.saturated = true) ∧ frame.Counted

/-- The invariant of runs. -/
def State.Saturated : State → Prop
  | .eval _ t k => t.saturated = true ∧ k.Each saturationRule
  | .build _ _ t k => t.saturated = true ∧ k.Each saturationRule
  | .deliver v k => v.Saturated ∧ k.Each saturationRule
  | .emit _ c k => c.saturated = true ∧ k.Each saturationRule

/-! ### Transitions -/

section

variable {p p' : Palette} {s s' : State} {env : Renaming} {t c : Term} {level : UInt64} {v : Value}

theorem EvalStack.Each.bindAll_saturated {captured : List (Ident × Value)} {k : EvalStack}
    (hStack : k.Each saturationRule) (h : ∀ b ∈ captured, b.2.Saturated) :
    (k.bindAll captured).Each saturationRule := by
  induction captured generalizing k with
  | nil => exact hStack
  | cons b rest ih =>
    obtain ⟨hb, hRest⟩ := List.forall_mem_cons.mp h
    exact ih ⟨⟨nofun, List.forall_mem_singleton.mpr hb⟩, hStack⟩ hRest

theorem EvalStack.Each.enter_saturated {fn : Abstraction} {captured : List (Ident × Value)}
    {k : EvalStack} (hStack : k.Each saturationRule) (h : (Value.closure fn captured).Saturated) :
    fn.body.saturated = true ∧ (k.enter fn captured).Each saturationRule := by
  cases h with
  | closure hBody hBound =>
    refine ⟨hBody, ?_⟩
    have hAll := hStack.bindAll_saturated hBound
    rw [EvalStack.enter]
    cases fn.self? with
    | none => exact hAll
    | some self =>
      exact ⟨⟨List.forall_mem_nil _, List.forall_mem_singleton.mpr (.closure hBody hBound)⟩, hAll⟩

theorem State.Saturated.of_eval {k : EvalStack} (hs : (State.eval env t k).Saturated)
    (h : (State.eval env t k).Moves p s' p') : s'.Saturated := by
  obtain ⟨hTerm, hStack⟩ := hs
  cases h with
  | evalVar _ hFound =>
    obtain ⟨rest, hRule, -⟩ := hStack.found hFound
    exact ⟨hRule.2 _ List.mem_cons_self, hStack⟩
  | evalLam | evalFix => exact ⟨.closure hTerm nofun, hStack⟩
  | evalInt => exact ⟨.int _, hStack⟩
  | evalBool => exact ⟨.bool _, hStack⟩
  | evalQuote => exact ⟨hTerm, hStack⟩
  | evalSplice => exact ⟨hTerm, ⟨nofun, nofun⟩, hStack⟩
  | evalApp | evalLogic | evalLet =>
    simp only [Term.saturated_app, Term.saturated_logic, Term.saturated_letIn] at hTerm
    exact ⟨hTerm.1, ⟨List.forall_mem_singleton.mpr hTerm.2, nofun⟩, hStack⟩
  | evalIte =>
    obtain ⟨hCond, hYes, hNo⟩ := Term.saturated_ite.mp hTerm
    exact ⟨hCond, ⟨by simp [hYes, hNo], nofun⟩, hStack⟩
  | evalPrim hFirst =>
    obtain ⟨-, rest, rfl⟩ := Step.firstOperand_eq_ok hFirst
    have hArgs := (Term.saturated_prim.mp hTerm).2
    exact ⟨hArgs _ List.mem_cons_self, ⟨List.forall_mem_map.mpr hArgs, nofun⟩, hStack⟩

theorem State.Saturated.of_build {k : BuildStack} (hs : (State.build level env t k).Saturated)
    (h : (State.build level env t k).Moves p s' p') : s'.Saturated := by
  obtain ⟨hTerm, hStack⟩ := hs
  cases h with
  | buildVar | buildInt | buildBool => exact ⟨rfl, hStack⟩
  | buildLam | buildFix | buildQuote | buildSplice =>
    exact ⟨hTerm, ⟨nofun, nofun, trivial⟩, hStack⟩
  | buildEscape => exact ⟨hTerm, trivial, hStack⟩
  | buildApp | buildLogic | buildLet =>
    simp only [Term.saturated_app, Term.saturated_logic, Term.saturated_letIn] at hTerm
    exact ⟨hTerm.1, ⟨List.forall_mem_singleton.mpr hTerm.2, nofun, trivial⟩, hStack⟩
  | buildIte =>
    obtain ⟨hCond, hYes, hNo⟩ := Term.saturated_ite.mp hTerm
    exact ⟨hCond, ⟨by simp [hYes, hNo], nofun, trivial⟩, hStack⟩
  | buildPrim hFirst =>
    obtain ⟨hLength, rest, rfl⟩ := Step.firstOperand_eq_ok hFirst
    have hArgs := (Term.saturated_prim.mp hTerm).2
    exact ⟨hArgs _ List.mem_cons_self,
      ⟨List.forall_mem_map.mpr hArgs, nofun, hLength, Nat.succ_pos _⟩, hStack⟩

theorem State.Saturated.of_deliver {k : EvalStack} (hs : (State.deliver v k).Saturated)
    (h : (State.deliver v k).Moves p s' p') : s'.Saturated := by
  obtain ⟨hValue, hStack⟩ := hs
  cases h with
  | deliverEscape => exact ⟨Value.saturated_code hValue, hStack.2⟩
  | deliverRun => exact ⟨Value.saturated_code hValue, hStack.2⟩
  | deliverApplyTo =>
    exact ⟨hStack.1.1 _ List.mem_cons_self, ⟨nofun, List.forall_mem_singleton.mpr hValue⟩,
      hStack.2⟩
  | deliverCall =>
    obtain ⟨hBody, hEnter⟩ := hStack.2.enter_saturated (hStack.1.2 _ List.mem_cons_self)
    exact ⟨hBody, ⟨nofun, List.forall_mem_singleton.mpr hValue⟩, hEnter⟩
  | deliverBind hLeave => exact ⟨hValue.leave (hStack.1.2 _ List.mem_cons_self) hLeave, hStack.2⟩
  | deliverPrimNext hNext =>
    obtain ⟨⟨hPending, hDone⟩, hRest⟩ := hStack
    exact ⟨List.forall_mem_map.mp hPending _ (List.mem_of_getElem? hNext),
      ⟨hPending, List.forall_mem_append.mpr ⟨hDone, List.forall_mem_singleton.mpr hValue⟩⟩, hRest⟩
  | deliverPrimLast _ hApply =>
    refine ⟨?_, hStack.2⟩
    rcases Arithmetic.apply_eq_ok hApply with ⟨n, rfl⟩ | ⟨b, rfl⟩
    · exact .int n
    · exact .bool b
  | deliverBranch b yes no env k =>
    obtain ⟨⟨hPending, -⟩, hRest⟩ := hStack
    refine ⟨?_, hRest⟩
    cases b with
    | true => exact hPending (env, yes) (by simp)
    | false => exact hPending (env, no) (by simp)
  | deliverLogicSettled | deliverLogicRight => exact ⟨.bool _, hStack.2⟩
  | deliverLogicLeft => exact ⟨hStack.1.1 _ List.mem_cons_self, ⟨nofun, nofun⟩, hStack.2⟩
  | deliverLet =>
    exact ⟨hStack.1.1 _ List.mem_cons_self, ⟨nofun, List.forall_mem_singleton.mpr hValue⟩,
      hStack.2⟩

theorem State.Saturated.of_emit {k : BuildStack} (hs : (State.emit level c k).Saturated)
    (h : (State.emit level c k).Moves p s' p') : s'.Saturated := by
  obtain ⟨hCode, hStack⟩ := hs
  cases h with
  | emitClose => exact ⟨.code hCode, hStack⟩
  | emitLam | emitFix | emitQuote | emitSplice => exact ⟨hCode, hStack.2⟩
  | emitApplied => exact ⟨Term.saturated_app.mpr ⟨hStack.1.2.1 _ List.mem_cons_self, hCode⟩,
      hStack.2⟩
  | emitLogicRight => exact ⟨Term.saturated_logic.mpr ⟨hStack.1.2.1 _ List.mem_cons_self, hCode⟩,
      hStack.2⟩
  | emitLetBody => exact ⟨Term.saturated_letIn.mpr ⟨hStack.1.2.1 _ List.mem_cons_self, hCode⟩,
      hStack.2⟩
  | emitIteNo _ _ cond yes =>
    obtain ⟨⟨-, hFragments, -⟩, hRest⟩ := hStack
    exact ⟨Term.saturated_ite.mpr
      ⟨hFragments cond (by simp), hFragments yes (by simp), hCode⟩, hRest⟩
  | emitApplyTo | emitLogicLeft | emitLetBound =>
    exact ⟨hStack.1.1 _ List.mem_cons_self,
      ⟨nofun, List.forall_mem_singleton.mpr hCode, trivial⟩, hStack.2⟩
  | emitIteCond _ _ yes no env =>
    obtain ⟨⟨hPending, -, -⟩, hRest⟩ := hStack
    exact ⟨hPending (env, yes) (by simp),
      ⟨List.forall_mem_singleton.mpr (hPending (env, no) (by simp)),
        List.forall_mem_singleton.mpr hCode, trivial⟩, hRest⟩
  | emitIteYes =>
    obtain ⟨⟨hPending, hFragments, -⟩, hRest⟩ := hStack
    exact ⟨hPending _ List.mem_cons_self,
      ⟨nofun, List.forall_mem_cons.mpr ⟨hFragments _ List.mem_cons_self,
        List.forall_mem_singleton.mpr hCode⟩, trivial⟩, hRest⟩
  | emitPrimNext hNext =>
    obtain ⟨⟨hPending, hDone, hLength, -⟩, hRest⟩ := hStack
    exact ⟨List.forall_mem_map.mp hPending _ (List.mem_of_getElem? hNext),
      ⟨hPending, List.forall_mem_append.mpr ⟨hDone, List.forall_mem_singleton.mpr hCode⟩, hLength,
        (List.getElem?_eq_some_iff.mp hNext).1⟩, hRest⟩
  | @emitPrimLast _ _ op done args _ _ hLast =>
    obtain ⟨⟨-, hDone, hLength, hWaits⟩, hRest⟩ := hStack
    -- Nothing waits behind the last operand, and it was one of those that the primitive takes.
    have hEnd := List.getElem?_eq_none_iff.mp hLast
    rw [List.length_append, List.length_singleton] at hEnd
    refine ⟨Term.saturated_prim.mpr ⟨?_, ?_⟩, hRest⟩
    · rw [List.length_append, List.length_singleton]
      omega
    · exact List.forall_mem_append.mpr ⟨hDone, List.forall_mem_singleton.mpr hCode⟩

/-- **Transitions keep all terms saturated.** -/
theorem State.Saturated.moves (hs : s.Saturated) (h : s.Moves p s' p') : s'.Saturated := by
  cases s with
  | eval => exact hs.of_eval h
  | build => exact hs.of_build h
  | deliver => exact hs.of_deliver h
  | emit => exact hs.of_emit h

/-- A fault for the number of operands of a primitive. -/
def Fault.miscounts : Fault → Bool
  | .arity _ _ | .noOperands _ => true
  | _ => false

theorem Step.firstOperand_of_saturated {op : PrimOp} {args : List Term}
    (h : (Term.prim op args).saturated = true) (f : Fault) : firstOperand op args ≠ .error f := by
  obtain ⟨hLength, -⟩ := Term.saturated_prim.mp h
  cases args with
  | nil => exact absurd hLength (Nat.ne_of_lt op.arity_pos)
  | cons first rest =>
    rw [firstOperand, if_pos hLength]
    intro hError
    cases hError

/-- **With saturated terms no primitive is refused for the number of its operands.** -/
theorem State.Saturated.faults {f : Fault} (hs : s.Saturated) (h : s.Faults f) :
    f.miscounts = false := by
  cases h with
  | evalPrim hFirst | buildPrim hFirst =>
    exact absurd hFirst (Step.firstOperand_of_saturated hs.1 f)
  | buildQuote hRaise | emitRaise hRaise =>
    rw [(Step.raise_eq_error hRaise).1]
    rfl
  | evalSplice hStages | buildSplice hStages =>
    rcases Step.stages_eq_error hStages with rfl | rfl <;> rfl
  | deliverEscape hFragment | deliverRun hFragment =>
    rw [Step.fragment_eq_error hFragment]
    rfl
  | deliverBind hLeave =>
    rw [(Step.leave_eq_error hLeave).1]
    rfl
  | deliverPrim _ hApply =>
    rcases Arithmetic.apply_eq_error hApply with
      ⟨_, _, rfl⟩ | ⟨_, rfl | rfl⟩ | ⟨rfl, -⟩ <;> rfl
  | deliverBranch hTruth | deliverLogicLeft hTruth | deliverLogicRight hTruth =>
    rw [Step.truth_eq_error hTruth]
    rfl
  | _ => rfl

end

/-! ### Runs -/

theorem Machine.Reaches.saturated {m m' : Machine} {e : Term} {s : State}
    (h : e.saturated = true) (hReach : m.Reaches (.initial e) m' s) : s.Saturated := by
  have hStart : (State.initial e).Saturated := ⟨h, trivial⟩
  exact hReach.preserves (I := fun _ s => s.Saturated)
    (fun hs hStep => hs.moves (Machine.step_eq_ok_iff.mp hStep).1) hStart

/-- **No run of a saturated program fails for a number of operands.** -/
theorem Machine.Reaches.operands_counted {m m' m'' : Machine} {e : Term} {s : State} {f : Fault}
    (h : e.saturated = true) (hReach : m.Reaches (.initial e) m' s)
    (hStep : m'.step s = (.error f, m'')) : f.miscounts = false :=
  (hReach.saturated h).faults (Machine.step_eq_error_iff.mp hStep).1

end StagedLambda
