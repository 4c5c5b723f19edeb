import StagedLambda.Proofs.Level.Splices
import StagedLambda.Proofs.Machine.Frames
import StagedLambda.Proofs.Machine.Reach

/-!
# Level discipline

The level at which code is built can be read off the build stack: one, and one more for each
quote on the way down to the quote that was entered from stage 0, less the shifts of the splices
that are kept.  The machine carries the level along as a word of its own.  This file shows that
the two agree in every state of a run, also where a run drops to stage 0 in a splice and comes
back, and that all code in a state has its splices in range.

The invariant `State.Leveled n` carries a bound `n` on the levels.  Each transition opens at most
one quote, so it leads from the bound `n` to `n + 1` (`State.Leveled.moves`), and on runs of fewer
than `2 ^ 63` transitions no level is too large for a word.

* `Machine.level_discipline`: none of the breaches happens and no level leaves the words, only a
  result meets the empty stack, levels and escapes agree with the stacks, and the splices of all
  code values are in range.
-/

namespace StagedLambda

/-! ### Levels of stacks -/

/-- The number of quotes that a frame opens. -/
@[simp] def BuildFrame.raised : BuildFrame → Nat
  | .quote => 1
  | _ => 0

/-- The number of stages that a frame crosses. -/
@[simp] def BuildFrame.lowered : BuildFrame → Nat
  | .splice shift => shift.toNat
  | _ => 0

namespace BuildStack

/-- The quotes inside the one entered from stage 0. -/
def quotes : BuildStack → Nat
  | .close _ => 0
  | .push frame rest => frame.raised + rest.quotes

/-- The sum of the shifts of the splices that are kept. -/
def shifts : BuildStack → Nat
  | .close _ => 0
  | .push frame rest => frame.lowered + rest.shifts

/-- The level of the fragment that a stack waits for. -/
def level (k : BuildStack) : Int := 1 + k.quotes - k.shifts

@[simp] theorem level_close (outer : EvalStack) : (close outer).level = 1 := rfl

@[simp] theorem level_push (frame : BuildFrame) (rest : BuildStack) :
    (push frame rest).level = rest.level + frame.raised - frame.lowered := by
  simp only [level, quotes, shifts]
  omega

end BuildStack

/-! ### Code and escapes in states -/

mutual

/-- All code in a value, also in the bindings of functions. -/
def Value.codes : Value → List Term
  | .int _ | .bool _ => []
  | .code c => [c]
  | .closure _ captured => Value.codesOfBindings captured

def Value.codesOfBindings : List (Ident × Value) → List Term
  | [] => []
  | (_, v) :: rest => v.codes ++ Value.codesOfBindings rest

end

mutual

/-- All code values along a chain of stacks. -/
def EvalStack.codes : EvalStack → List Term
  | .halt => []
  | .escape _ outer => outer.codes
  | .push frame rest => frame.values.flatMap Value.codes ++ rest.codes

def BuildStack.codes : BuildStack → List Term
  | .close outer => outer.codes
  | .push _ rest => rest.codes

end

mutual

/-- The escapes along a chain of stacks, each with the stack it returns to. -/
def EvalStack.escapes : EvalStack → List (UInt64 × BuildStack)
  | .halt => []
  | .escape shift outer => (shift, outer) :: outer.escapes
  | .push _ rest => rest.escapes

def BuildStack.escapes : BuildStack → List (UInt64 × BuildStack)
  | .close outer => outer.escapes
  | .push _ rest => rest.escapes

end

namespace State

/-- All code values in a state. -/
def codes : State → List Term
  | .eval _ _ k => k.codes
  | .build _ _ _ k | .emit _ _ k => k.codes
  | .deliver v k => v.codes ++ k.codes

/-- All escapes in a state. -/
def escapes : State → List (UInt64 × BuildStack)
  | .eval _ _ k | .deliver _ k => k.escapes
  | .build _ _ _ k | .emit _ _ k => k.escapes

/-- The build stack of a state above stage 0. -/
def buildStack? : State → Option BuildStack
  | .eval _ _ _ | .deliver _ _ => none
  | .build _ _ _ k | .emit _ _ k => some k

end State

/-! ### Leveled states -/

/-- A primitive that waits for an operand has the declared number of them and is not done. -/
def EvalFrame.Counted : EvalFrame → Prop
  | .prim op done args _ => args.length = op.arity ∧ done.length < args.length
  | _ => True

/-- The splices of all code in a value are in range. -/
def Value.Leveled (v : Value) : Prop := ∀ c ∈ v.codes, c.splicesWithin 1 = true

theorem Value.leveled_int (n : Int64) : (Value.int n).Leveled := nofun

theorem Value.leveled_bool (b : Bool) : (Value.bool b).Leveled := nofun

theorem Value.leveled_code {c : Term} : (Value.code c).Leveled ↔ c.splicesWithin 1 = true :=
  List.forall_mem_singleton

/-- Above stage 0 the level is at least one and no more than `n` quotes are open inside the one
that was entered from stage 0.  A splice that lands on stage 0 notes the level to return to. -/
def levelRule (n : Nat) : StackRule where
  eval frame _ := (∀ v ∈ frame.values, v.Leveled) ∧ frame.Counted
  build frame rest := (1 ≤ (BuildStack.push frame rest).level ∧
    (BuildStack.push frame rest).level ≤ n + 1) ∧
    ∀ c ∈ frame.fragments, c.splicesWithin rest.level = true
  escape shift outer := (shift.toNat : Int) = outer.level

theorem levelRule_mono {n n' : Nat} (h : n ≤ n') : (levelRule n).Implies (levelRule n') where
  eval _ _ hFrame := hFrame
  build _ _ hFrame := ⟨⟨hFrame.1.1, by have := hFrame.1.2; omega⟩, hFrame.2⟩
  escape _ _ hEscape := hEscape

/-- The invariant of runs of at most `n` transitions. -/
def State.Leveled (n : Nat) : State → Prop
  | .eval _ _ k => k.Each (levelRule n)
  | .build level _ _ k => (level.toNat : Int) = k.level ∧ k.Each (levelRule n)
  | .deliver v k => v.Leveled ∧ k.Each (levelRule n)
  | .emit level c k => (level.toNat : Int) = k.level ∧ c.splicesWithin k.level = true ∧
      k.Each (levelRule n)

section

variable {n : Nat}

theorem BuildStack.Each.level_bounds {k : BuildStack} (h : k.Each (levelRule n)) :
    1 ≤ k.level ∧ k.level ≤ n + 1 := by
  cases k with
  | close outer =>
    rw [BuildStack.level_close]
    omega
  | push frame rest => exact h.1.1

theorem State.Leveled.mono {n' : Nat} (hn : n ≤ n') {s : State} (h : s.Leveled n) :
    s.Leveled n' := by
  cases s with
  | eval => exact EvalStack.Each.mono (levelRule_mono hn) h
  | build => exact ⟨h.1, h.2.mono (levelRule_mono hn)⟩
  | deliver => exact ⟨h.1, h.2.mono (levelRule_mono hn)⟩
  | emit => exact ⟨h.1, h.2.1, h.2.2.mono (levelRule_mono hn)⟩

mutual

/-- All code along a leveled stack has its splices in range. -/
theorem EvalStack.Each.codes_within : ∀ {k : EvalStack}, k.Each (levelRule n) →
    ∀ c ∈ k.codes, c.splicesWithin 1 = true
  | .halt, _ => nofun
  | .escape _ _, ⟨_, hOuter⟩ => BuildStack.Each.codes_within hOuter
  | .push _ _, ⟨hFrame, hRest⟩ => by
    intro c hc
    rcases List.mem_append.mp hc with hHere | hBelow
    · obtain ⟨v, hv, hCode⟩ := List.mem_flatMap.mp hHere
      exact hFrame.1 v hv c hCode
    · exact EvalStack.Each.codes_within hRest c hBelow

theorem BuildStack.Each.codes_within : ∀ {k : BuildStack}, k.Each (levelRule n) →
    ∀ c ∈ k.codes, c.splicesWithin 1 = true
  | .close _, hOuter => EvalStack.Each.codes_within hOuter
  | .push _ _, ⟨_, hRest⟩ => fun c hc => BuildStack.Each.codes_within hRest c hc

end

mutual

/-- All escapes along a leveled stack agree with the stacks they return to. -/
theorem EvalStack.Each.escape_level {shift : UInt64} {outer : BuildStack} :
    ∀ {k : EvalStack}, k.Each (levelRule n) → (shift, outer) ∈ k.escapes →
      (shift.toNat : Int) = outer.level
  | .halt, _, h => by cases h
  | .escape _ _, ⟨hEscape, hOuter⟩, h => by
    rcases List.mem_cons.mp h with hHere | hBelow
    · cases hHere
      exact hEscape
    · exact BuildStack.Each.escape_level hOuter hBelow
  | .push _ _, ⟨_, hRest⟩, h => EvalStack.Each.escape_level hRest h

theorem BuildStack.Each.escape_level {shift : UInt64} {outer : BuildStack} :
    ∀ {k : BuildStack}, k.Each (levelRule n) → (shift, outer) ∈ k.escapes →
      (shift.toNat : Int) = outer.level
  | .close _, hOuter, h => EvalStack.Each.escape_level hOuter h
  | .push _ _, ⟨_, hRest⟩, h => BuildStack.Each.escape_level hRest h

end

/-! ### Transitions preserve levels -/

theorem Value.mem_codesOfBindings {bindings : List (Ident × Value)} {c : Term} :
    c ∈ Value.codesOfBindings bindings ↔ ∃ b ∈ bindings, c ∈ b.2.codes := by
  induction bindings with
  | nil => simp [Value.codesOfBindings]
  | cons b rest ih => simp [Value.codesOfBindings, ih]

/-- A function is leveled when the bindings it has picked up are. -/
theorem Value.leveled_closure {fn : Abstraction} {captured : List (Ident × Value)} :
    (Value.closure fn captured).Leveled ↔ ∀ b ∈ captured, b.2.Leveled := by
  constructor
  · intro h b hb c hc
    exact h c (Value.mem_codesOfBindings.mpr ⟨b, hb, hc⟩)
  · intro h c hc
    obtain ⟨b, hb, hCode⟩ := Value.mem_codesOfBindings.mp hc
    exact h b hb c hCode

theorem EvalStack.Each.bindAll_leveled {captured : List (Ident × Value)} {k : EvalStack}
    (hStack : k.Each (levelRule n)) (h : ∀ b ∈ captured, b.2.Leveled) :
    (k.bindAll captured).Each (levelRule n) := by
  induction captured generalizing k with
  | nil => exact hStack
  | cons b rest ih =>
    obtain ⟨hb, hRest⟩ := List.forall_mem_cons.mp h
    exact ih ⟨⟨List.forall_mem_singleton.mpr hb, trivial⟩, hStack⟩ hRest

theorem EvalStack.Each.enter_leveled {fn : Abstraction} {captured : List (Ident × Value)}
    {k : EvalStack} (hStack : k.Each (levelRule n)) (h : (Value.closure fn captured).Leveled) :
    (k.enter fn captured).Each (levelRule n) := by
  have hAll := hStack.bindAll_leveled (Value.leveled_closure.mp h)
  rw [EvalStack.enter]
  cases fn.self? with
  | none => exact hAll
  | some self => exact ⟨⟨List.forall_mem_singleton.mpr h, trivial⟩, hAll⟩

theorem Value.Leveled.leave {id : Ident} {bound v v' : Value} (h : v.Leveled)
    (hBound : bound.Leveled) (hLeave : Step.leave id bound v = .ok v') : v'.Leveled := by
  rcases Step.leave_eq_ok hLeave with
    ⟨fn, captured, rfl, rfl⟩ | ⟨t, rfl, rfl, -⟩ | ⟨n, rfl, rfl⟩ | ⟨b, rfl, rfl⟩
  · rw [Value.leveled_closure] at h ⊢
    exact List.forall_mem_cons.mpr ⟨hBound, h⟩
  all_goals exact h

/-- Going on to a part over a new frame that is neither a quote nor a splice. -/
theorem State.Leveled.build_push {level : UInt64} {env : Renaming} {t : Term}
    {frame : BuildFrame} {k : BuildStack} (hRaised : frame.raised = 0)
    (hLowered : frame.lowered = 0) (hLevel : (level.toNat : Int) = k.level)
    (hFragments : ∀ c ∈ frame.fragments, c.splicesWithin k.level = true)
    (hStack : k.Each (levelRule n)) : (State.build level env t (.push frame k)).Leveled n := by
  have hSame : (BuildStack.push frame k).level = k.level := by
    rw [BuildStack.level_push, hRaised, hLowered]
    omega
  refine ⟨hLevel.trans hSame.symm, ⟨?_, hFragments⟩, hStack⟩
  rw [hSame]
  exact hStack.level_bounds

/-- The fragment that a frame waits for stands at the level of the stack below it, unless the
frame is a quote or a splice. -/
theorem State.Leveled.emit_pop {level : UInt64} {c : Term} {frame : BuildFrame} {k : BuildStack}
    (h : (State.emit level c (.push frame k)).Leveled n) (hRaised : frame.raised = 0)
    (hLowered : frame.lowered = 0) :
    (level.toNat : Int) = k.level ∧ c.splicesWithin k.level = true ∧
      (∀ c ∈ frame.fragments, c.splicesWithin k.level = true) ∧ k.Each (levelRule n) := by
  obtain ⟨hLevel, hCode, hFrame, hStack⟩ := h
  have hSame : (BuildStack.push frame k).level = k.level := by
    rw [BuildStack.level_push, hRaised, hLowered]
    omega
  rw [hSame] at hLevel hCode
  exact ⟨hLevel, hCode, hFrame.2, hStack⟩

theorem State.Leveled.of_eval {env : Renaming} {t : Term} {k : EvalStack} {p p' : Palette}
    {s' : State} (hs : (State.eval env t k).Leveled n)
    (h : (State.eval env t k).Moves p s' p') : s'.Leveled n := by
  have hStack : k.Each (levelRule n) := hs
  cases h with
  | evalVar _ hFound =>
    obtain ⟨rest, hFrame, -⟩ := hStack.found hFound
    exact ⟨hFrame.1 _ List.mem_cons_self, hStack⟩
  | evalLam | evalFix => exact ⟨Value.leveled_closure.mpr nofun, hStack⟩
  | evalInt => exact ⟨Value.leveled_int _, hStack⟩
  | evalBool => exact ⟨Value.leveled_bool _, hStack⟩
  | evalPrim hFirst =>
    obtain ⟨hArity, rest, rfl⟩ := Step.firstOperand_eq_ok hFirst
    exact ⟨⟨nofun, hArity, Nat.succ_pos _⟩, hStack⟩
  | evalQuote => exact ⟨rfl, hStack⟩
  | evalApp | evalIte | evalLogic | evalSplice | evalLet => exact ⟨⟨nofun, trivial⟩, hStack⟩

/-- Only a quote raises the level, so only here the bound goes up. -/
theorem State.Leveled.of_build {level : UInt64} {env : Renaming} {t : Term} {k : BuildStack}
    {p p' : Palette} {s' : State} (hs : (State.build level env t k).Leveled n)
    (h : (State.build level env t k).Moves p s' p') : s'.Leveled (n + 1) := by
  obtain ⟨hLevel, hStack⟩ := hs
  obtain ⟨hLow, hHigh⟩ := hStack.level_bounds
  have hGrown := hStack.mono (levelRule_mono (Nat.le_add_right n 1))
  cases h with
  | buildVar | buildInt | buildBool => exact ⟨hLevel, rfl, hGrown⟩
  | buildLam | buildFix | buildApp | buildIte | buildLogic | buildLet | buildPrim =>
    exact .build_push rfl rfl hLevel nofun hGrown
  | @buildQuote _ inside _ _ _ hRaise =>
    have hNext : (inside.toNat : Int) = k.level + 1 := by
      rw [(Step.raise_eq_ok hRaise).2, UInt64.toNat_one]
      omega
    have hPush : (BuildStack.push .quote k).level = k.level + 1 := by simp
    refine ⟨hNext.trans hPush.symm, ⟨?_, nofun⟩, hGrown⟩
    rw [hPush]
    omega
  | buildEscape => exact ⟨hLevel, hGrown⟩
  | @buildSplice _ crossed _ _ _ _ hStages hAbove =>
    obtain ⟨-, hBelow⟩ := Step.stages_eq_ok hStages
    have hStrict : crossed.toNat ≠ level.toNat := fun h => hAbove (UInt64.toNat_inj.mp h)
    have hNext : ((level - crossed).toNat : Int) = k.level - crossed.toNat := by
      rw [UInt64.toNat_sub_of_le _ _ (UInt64.le_iff_toNat_le.mpr hBelow)]
      omega
    have hPush : (BuildStack.push (.splice crossed) k).level = k.level - crossed.toNat := by simp
    refine ⟨hNext.trans hPush.symm, ⟨?_, nofun⟩, hGrown⟩
    rw [hPush]
    omega

theorem State.Leveled.of_deliver {v : Value} {k : EvalStack} {p p' : Palette} {s' : State}
    (hs : (State.deliver v k).Leveled n) (h : (State.deliver v k).Moves p s' p') :
    s'.Leveled n := by
  obtain ⟨hValue, hStack⟩ := hs
  cases h with
  | deliverEscape c shift outer =>
    -- The code comes out at the level of the splice, which may be above the one it was built at.
    obtain ⟨hEscape, hOuter⟩ := hStack
    exact ⟨hEscape, Term.splicesWithin_mono hOuter.level_bounds.1 (Value.leveled_code.mp hValue),
      hOuter⟩
  | deliverApplyTo =>
    exact ⟨⟨List.forall_mem_singleton.mpr hValue, trivial⟩, hStack.2⟩
  | deliverCall =>
    obtain ⟨hFrame, hRest⟩ := hStack
    exact ⟨⟨List.forall_mem_singleton.mpr hValue, trivial⟩,
      hRest.enter_leveled (hFrame.1 _ List.mem_cons_self)⟩
  | deliverBind hLeave =>
    obtain ⟨hFrame, hRest⟩ := hStack
    exact ⟨hValue.leave (hFrame.1 _ List.mem_cons_self) hLeave, hRest⟩
  | deliverPrimNext hNext =>
    obtain ⟨⟨hDone, hArity, -⟩, hRest⟩ := hStack
    obtain ⟨hLess, -⟩ := List.getElem?_eq_some_iff.mp hNext
    refine ⟨⟨?_, hArity, hLess⟩, hRest⟩
    exact List.forall_mem_append.mpr ⟨hDone, List.forall_mem_singleton.mpr hValue⟩
  | deliverPrimLast _ hApply =>
    refine ⟨?_, hStack.2⟩
    rcases Arithmetic.apply_eq_ok hApply with ⟨n, rfl⟩ | ⟨b, rfl⟩
    · exact Value.leveled_int n
    · exact Value.leveled_bool b
  | deliverBranch | deliverRun => exact hStack.2
  | deliverLogicSettled | deliverLogicRight => exact ⟨hValue, hStack.2⟩
  | deliverLogicLeft => exact ⟨⟨nofun, trivial⟩, hStack.2⟩
  | deliverLet => exact ⟨⟨List.forall_mem_singleton.mpr hValue, trivial⟩, hStack.2⟩

theorem State.Leveled.of_emit {level : UInt64} {c : Term} {k : BuildStack} {p p' : Palette}
    {s' : State} (hs : (State.emit level c k).Leveled n)
    (h : (State.emit level c k).Moves p s' p') : s'.Leveled n := by
  cases h with
  | emitClose => exact ⟨Value.leveled_code.mpr hs.2.1, hs.2.2⟩
  | emitLam | emitFix =>
    obtain ⟨hLevel, hCode, -, hRest⟩ := hs.emit_pop rfl rfl
    exact ⟨hLevel, hCode, hRest⟩
  | emitApplyTo | emitIteCond | emitLogicLeft | emitLetBound =>
    obtain ⟨hLevel, hCode, -, hRest⟩ := hs.emit_pop rfl rfl
    exact .build_push rfl rfl hLevel (List.forall_mem_singleton.mpr hCode) hRest
  | emitApplied | emitLogicRight | emitLetBody =>
    obtain ⟨hLevel, hCode, hFragments, hRest⟩ := hs.emit_pop rfl rfl
    have hFirst := hFragments _ List.mem_cons_self
    exact ⟨hLevel, Bool.and_eq_true_iff.mpr ⟨hFirst, hCode⟩, hRest⟩
  | emitPrimNext =>
    obtain ⟨hLevel, hCode, hDone, hRest⟩ := hs.emit_pop rfl rfl
    refine .build_push rfl rfl hLevel ?_ hRest
    exact List.forall_mem_append.mpr ⟨hDone, List.forall_mem_singleton.mpr hCode⟩
  | emitPrimLast =>
    obtain ⟨hLevel, hCode, hDone, hRest⟩ := hs.emit_pop rfl rfl
    refine ⟨hLevel, (Term.allSplicesWithin_iff _ _).mpr ?_, hRest⟩
    exact List.forall_mem_append.mpr ⟨hDone, List.forall_mem_singleton.mpr hCode⟩
  | emitIteYes =>
    obtain ⟨hLevel, hCode, hFragments, hRest⟩ := hs.emit_pop rfl rfl
    refine .build_push rfl rfl hLevel ?_ hRest
    exact List.forall_mem_cons.mpr
      ⟨hFragments _ List.mem_cons_self, List.forall_mem_singleton.mpr hCode⟩
  | emitIteNo level c cond yes =>
    obtain ⟨hLevel, hCode, hFragments, hRest⟩ := hs.emit_pop rfl rfl
    have hCond := hFragments cond (by simp)
    have hYes := hFragments yes (by simp)
    exact ⟨hLevel, by simp [Term.splicesWithin, hCond, hYes, hCode], hRest⟩
  | @emitQuote _ _ k hTwo =>
    obtain ⟨hLevel, hCode, -, hRest⟩ := hs
    have hPush : (BuildStack.push .quote k).level = k.level + 1 := by simp
    rw [hPush] at hLevel hCode
    refine ⟨?_, hCode, hRest⟩
    have hOne : (1 : UInt64) ≤ level := UInt64.le_trans (by decide) hTwo
    rw [UInt64.toNat_sub_of_le _ _ hOne, UInt64.toNat_one]
    have := UInt64.le_iff_toNat_le.mp hOne
    simp only [UInt64.toNat_one] at this
    omega
  | @emitSplice _ shift outside c k hRaise hShift =>
    obtain ⟨hLevel, hCode, ⟨⟨hLow, -⟩, -⟩, hRest⟩ := hs
    have hPush : (BuildStack.push (.splice shift) k).level = k.level - shift.toNat := by simp
    rw [hPush] at hLevel hCode hLow
    have hWord : shift.toInt64.toInt = shift.toNat :=
      toInt_toInt64_of_lt (UInt64.lt_iff_toNat_lt.mp hShift)
    refine ⟨?_, ?_, hRest⟩
    · rw [(Step.raise_eq_ok hRaise).2]
      omega
    · simp only [Term.splicesWithin, hWord, Bool.and_eq_true, decide_eq_true_eq]
      exact ⟨⟨by omega, by omega⟩, hCode⟩

/-- **A transition preserves levels and raises their bound by at most one.** -/
theorem State.Leveled.moves {s s' : State} {p p' : Palette} (hs : s.Leveled n)
    (h : s.Moves p s' p') : s'.Leveled (n + 1) := by
  cases s with
  | eval => exact (hs.of_eval h).mono (Nat.le_add_right n 1)
  | build => exact hs.of_build h
  | deliver => exact (hs.of_deliver h).mono (Nat.le_add_right n 1)
  | emit => exact (hs.of_emit h).mono (Nat.le_add_right n 1)

/-! ### Breaches and runs -/

/-- In a leveled state there is no breach, no level leaves the words, and only a result meets the
empty stack. -/
theorem State.Leveled.faults {s : State} {f : Fault} (hn : n < 2 ^ 63) (hs : s.Leveled n)
    (h : s.Faults f) :
    (∀ breach, f ≠ .impossible breach) ∧ (∀ trap, f ≠ .trap trap) ∧
      (f = .emptyStack → s.isTerminal = true) := by
  cases h with
  | evalUnresolved | evalAbsent | evalFuture | evalFix | buildUnresolved | buildFix
  | deliverCall => exact ⟨nofun, nofun, nofun⟩
  | evalPrim hFirst | buildPrim hFirst =>
    rcases Step.firstOperand_eq_error hFirst with rfl | rfl <;> exact ⟨nofun, nofun, nofun⟩
  | @buildQuote level _ _ k _ hRaise =>
    have hBounds := hs.2.level_bounds
    have hHere := hs.1
    have hOver := (Step.raise_eq_error hRaise).2
    simp only [UInt64.size, UInt64.toNat_one] at hOver
    omega
  | evalSplice hStages | buildSplice hStages =>
    rcases Step.stages_eq_error hStages with rfl | rfl <;> exact ⟨nofun, nofun, nofun⟩
  | deliverHalt => exact ⟨nofun, nofun, fun _ => rfl⟩
  | deliverEscape hFragment | deliverRun hFragment =>
    rw [Step.fragment_eq_error hFragment]
    exact ⟨nofun, nofun, nofun⟩
  | deliverBind hLeave =>
    rw [(Step.leave_eq_error hLeave).1]
    exact ⟨nofun, nofun, nofun⟩
  | @deliverPrim v _ done args _ _ _ hLast hApply =>
    rcases Arithmetic.apply_eq_error hApply with ⟨_, _, rfl⟩ | ⟨_, rfl | rfl⟩ | ⟨rfl, hCount⟩
    · exact ⟨nofun, nofun, nofun⟩
    · exact ⟨nofun, nofun, nofun⟩
    · exact ⟨nofun, nofun, nofun⟩
    · obtain ⟨-, ⟨-, hArity, hLess⟩, -⟩ := hs
      have hAll := List.getElem?_eq_none_iff.mp hLast
      rw [List.length_append, List.length_singleton] at hAll hCount
      omega
  | deliverBranch hTruth | deliverLogicLeft hTruth | deliverLogicRight hTruth =>
    rw [Step.truth_eq_error hTruth]
    exact ⟨nofun, nofun, nofun⟩
  | emitClose hLevel =>
    have hOne := hs.1
    rw [BuildStack.level_close] at hOne
    exact absurd (UInt64.toNat_inj.mp (Int.ofNat_inj.mp hOne)) hLevel
  | @emitQuote level c k hLevel =>
    have hTwo := hs.1
    have hBounds := hs.2.2.2.level_bounds
    simp only [BuildStack.level_push, BuildFrame.raised, BuildFrame.lowered] at hTwo
    refine absurd (UInt64.le_iff_toNat_le.mpr ?_) hLevel
    show 2 ≤ level.toNat
    omega
  | @emitRaise level shift c k _ hRaise =>
    have hHere := hs.1
    have hBounds := hs.2.2.2.level_bounds
    have hOver := (Step.raise_eq_error hRaise).2
    simp only [BuildStack.level_push, BuildFrame.raised, BuildFrame.lowered] at hHere
    simp only [UInt64.size] at hOver
    omega
  | @emitSplice level shift _ c k _ hShift =>
    have hHere := hs.2.2.level_bounds
    have hBounds := hs.2.2.2.level_bounds
    simp only [BuildStack.level_push, BuildFrame.raised, BuildFrame.lowered] at hHere
    refine absurd (UInt64.lt_iff_toNat_lt.mpr ?_) hShift
    show shift.toNat < 2 ^ 63
    omega

end

theorem Machine.Reaches.leveled {m m' : Machine} {e : Term} {s : State}
    (hReach : m.Reaches (.initial e) m' s) (hShort : m'.steps < m.steps + 2 ^ 63) :
    s.Leveled (m'.steps - m.steps) := by
  induction hReach with
  | refl => exact trivial
  | @tail m₁ m₂ s₁ s₂ prior hLast ih =>
    obtain ⟨hMoves, hCount⟩ := Machine.step_eq_ok_iff.mp hLast
    have hLength := prior.steps_le
    have hNext := (ih (by omega)).moves hMoves
    rwa [show m₁.steps - m.steps + 1 = m₂.steps - m.steps by omega] at hNext

/-- **Level discipline.**  In every state of a run of fewer than `2 ^ 63` transitions, of any
term: no breach happens, no level leaves the words, and only a result meets the empty stack;
above stage 0 the level is at least one and agrees with the frames down to the quote entered from stage 0; every escape notes
the level it returns to; and the splices of all code values are in range. -/
theorem Machine.level_discipline {e : Term} {m m' : Machine} {s : State}
    (hReach : m.Reaches (.initial e) m' s) (hShort : m'.steps < m.steps + 2 ^ 63) :
    (∀ f m'', m'.step s = (.error f, m'') →
      (∀ breach, f ≠ .impossible breach) ∧ (∀ trap, f ≠ .trap trap) ∧
        (f = .emptyStack → s.isTerminal = true)) ∧
    (∀ k, s.buildStack? = some k →
      1 ≤ s.level.toNat ∧ (s.level.toNat : Int) = 1 + k.quotes - k.shifts) ∧
    (∀ shift outer, (shift, outer) ∈ s.escapes →
      (shift.toNat : Int) = 1 + outer.quotes - outer.shifts) ∧
    ∀ c ∈ s.codes, c.splicesWithin 1 = true := by
  have hLeveled := hReach.leveled hShort
  refine ⟨?_, ?_, ?_, ?_⟩
  · intro f m'' hStep
    exact hLeveled.faults (by omega) (Machine.step_eq_error_iff.mp hStep).1
  · intro k hk
    have hBoth : (s.level.toNat : Int) = k.level ∧ 1 ≤ k.level := by
      cases s with
      | eval | deliver => cases hk
      | build =>
        cases hk
        exact ⟨hLeveled.1, hLeveled.2.level_bounds.1⟩
      | emit =>
        cases hk
        exact ⟨hLeveled.1, hLeveled.2.2.level_bounds.1⟩
    exact ⟨by omega, hBoth.1⟩
  · intro shift outer hEscape
    cases s with
    | eval => exact EvalStack.Each.escape_level hLeveled hEscape
    | build => exact hLeveled.2.escape_level hEscape
    | deliver => exact hLeveled.2.escape_level hEscape
    | emit => exact hLeveled.2.2.escape_level hEscape
  · intro c hCode
    cases s with
    | eval => exact EvalStack.Each.codes_within hLeveled c hCode
    | build => exact hLeveled.2.codes_within c hCode
    | deliver v k =>
      rcases List.mem_append.mp hCode with hHere | hBelow
      · exact hLeveled.1 c hHere
      · exact hLeveled.2.codes_within c hBelow
    | emit => exact hLeveled.2.2.codes_within c hCode

/-- A splice inside two quotes is kept and the one inside it escapes; the code that returns to
it has kept a splice of its own. -/
theorem Machine.level_discipline_escape_under_splice :
    ∃ m, ({} : Machine).Reaches
        (.initial (.quote (.quote (.splice 1 (.splice 1 (.quote (.splice 0 (.int 1))))))))
        m (.deliver (.code (.splice 0 (.int 1)))
          (.escape 1 (.push (.splice 1) (.push .quote (.close .halt))))) ∧
      (∀ f m', m.step (.deliver (.code (.splice 0 (.int 1)))
          (.escape 1 (.push (.splice 1) (.push .quote (.close .halt))))) = (.error f, m') →
        ∀ breach, f ≠ .impossible breach) ∧
      (Term.splice 0 (.int 1)).splicesWithin 1 = true := by
  have hReach : ({} : Machine).Reaches
      (.initial (.quote (.quote (.splice 1 (.splice 1 (.quote (.splice 0 (.int 1))))))))
      ⟨{}, 9⟩ (.deliver (.code (.splice 0 (.int 1)))
        (.escape 1 (.push (.splice 1) (.push .quote (.close .halt))))) :=
    .tail (.tail (.tail (.tail (.tail (.tail (.tail (.tail (.tail .refl rfl) rfl) rfl) rfl) rfl)
      rfl) rfl) rfl) rfl
  obtain ⟨hFaults, -, -, hCodes⟩ := Machine.level_discipline hReach (by decide)
  exact ⟨_, hReach, fun f m' h => (hFaults f m' h).1, hCodes _ (List.mem_cons_self)⟩

end StagedLambda
