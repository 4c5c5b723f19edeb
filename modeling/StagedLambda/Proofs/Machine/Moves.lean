import StagedLambda.Proofs.Machine.Checks

/-!
# The transitions as rules

`State.step` computes the next state.  This file says the same as two relations with one rule for
each way to go on and each way to fail, so that a property of all transitions is shown rule by
rule and no later proof opens the computation again.

* `State.step_eq_ok_iff`: a transition succeeds exactly by one of the rules of `State.Moves`.
* `State.step_eq_error_iff`: it fails exactly by one of the rules of `State.Faults`.

The checks a rule depends on appear in it as equations.  Only the lowering of a level does not: the
checks in front of it leave it no way to fail, so the rules subtract.
-/

namespace StagedLambda

/-- The stack on which the body of a called function starts, short of its argument. -/
def EvalStack.enter (k : EvalStack) (fn : Abstraction) (captured : List (Ident × Value)) :
    EvalStack :=
  match fn.self? with
  | some self => .push (.bind self (.closure fn captured)) (k.bindAll captured)
  | none => k.bindAll captured

/-- A call only pushes bindings. -/
theorem EvalStack.enter_eq_bindAll (k : EvalStack) (fn : Abstraction)
    (captured : List (Ident × Value)) (c : Ident) (v : Value) :
    ∃ bindings, EvalStack.push (.bind c v) (k.enter fn captured) = k.bindAll bindings := by
  rw [EvalStack.enter]
  cases fn.self? with
  | none =>
    refine ⟨captured ++ [(c, v)], ?_⟩
    rw [EvalStack.bindAll, EvalStack.bindAll, List.foldl_append]
    rfl
  | some self =>
    refine ⟨captured ++ [(self, .closure fn captured), (c, v)], ?_⟩
    rw [EvalStack.bindAll, EvalStack.bindAll, List.foldl_append]
    rfl

/-! ### Rules -/

namespace State

/-- `Moves p s s' p'`: from `s`, with the palette `p`, the machine goes on to `s'` with `p'`. -/
inductive Moves (p : Palette) : State → State → Palette → Prop
  -- Evaluation at stage 0.
  | evalVar {env : Renaming} {id color : Ident} {k : EvalStack} {v : Value}
      (hName : env.resolve id = some color) (hFound : k.lookup color = .found v) :
      Moves p (.eval env (.var id) k) (.deliver v k) p
  | evalLam (env : Renaming) (param : Ident) (body : Term) (k : EvalStack) :
      Moves p (.eval env (.lam param body) k)
        (.deliver (.closure ⟨none, param, body, env⟩ []) k) p
  | evalFix (env : Renaming) (self param : Ident) (body : Term) (k : EvalStack) :
      Moves p (.eval env (.fix self (.lam param body)) k)
        (.deliver
          (.closure ⟨some (p.tint self), param, body, env.bind self (p.tint self)⟩ []) k)
        p.advance
  | evalApp (env : Renaming) (fn arg : Term) (k : EvalStack) :
      Moves p (.eval env (.app fn arg) k) (.eval env fn (.push (.applyTo arg env) k)) p
  | evalInt (env : Renaming) (n : Int64) (k : EvalStack) :
      Moves p (.eval env (.int n) k) (.deliver (.int n) k) p
  | evalBool (env : Renaming) (b : Bool) (k : EvalStack) :
      Moves p (.eval env (.bool b) k) (.deliver (.bool b) k) p
  | evalPrim {env : Renaming} {op : PrimOp} {args : List Term} {first : Term} {k : EvalStack}
      (hFirst : Step.firstOperand op args = .ok first) :
      Moves p (.eval env (.prim op args) k) (.eval env first (.push (.prim op [] args env) k)) p
  | evalIte (env : Renaming) (cond yes no : Term) (k : EvalStack) :
      Moves p (.eval env (.ite cond yes no) k) (.eval env cond (.push (.branch yes no env) k)) p
  | evalLogic (env : Renaming) (op : LogicOp) (left right : Term) (k : EvalStack) :
      Moves p (.eval env (.logic op left right) k)
        (.eval env left (.push (.logicLeft op right env) k)) p
  | evalQuote (env : Renaming) (body : Term) (k : EvalStack) :
      Moves p (.eval env (.quote body) k) (.build 1 env body (.close k)) p
  | evalSplice {env : Renaming} {shift : Int64} {crossed : UInt64} {body : Term} {k : EvalStack}
      (hStages : Step.stages shift 0 = .ok crossed) :
      Moves p (.eval env (.splice shift body) k) (.eval env body (.push .run k)) p
  | evalLet (env : Renaming) (id : Ident) (bound body : Term) (k : EvalStack) :
      Moves p (.eval env (.letIn id bound body) k)
        (.eval env bound (.push (.letBody id body env) k)) p
  -- Building code.
  | buildVar {level : UInt64} {env : Renaming} {id color : Ident} {k : BuildStack}
      (hName : env.resolve id = some color) :
      Moves p (.build level env (.var id) k) (.emit level (.var color) k) p
  | buildLam (level : UInt64) (env : Renaming) (param : Ident) (body : Term) (k : BuildStack) :
      Moves p (.build level env (.lam param body) k)
        (.build level (env.bind param (p.tint param)) body (.push (.lam (p.tint param)) k))
        p.advance
  | buildFix {level : UInt64} {env : Renaming} {self : Ident} {body : Term} {k : BuildStack}
      (hBody : Step.maybeFunction body = true) :
      Moves p (.build level env (.fix self body) k)
        (.build level (env.bind self (p.tint self)) body (.push (.fix (p.tint self)) k))
        p.advance
  | buildApp (level : UInt64) (env : Renaming) (fn arg : Term) (k : BuildStack) :
      Moves p (.build level env (.app fn arg) k)
        (.build level env fn (.push (.applyTo arg env) k)) p
  | buildInt (level : UInt64) (env : Renaming) (n : Int64) (k : BuildStack) :
      Moves p (.build level env (.int n) k) (.emit level (.int n) k) p
  | buildBool (level : UInt64) (env : Renaming) (b : Bool) (k : BuildStack) :
      Moves p (.build level env (.bool b) k) (.emit level (.bool b) k) p
  | buildPrim {level : UInt64} {env : Renaming} {op : PrimOp} {args : List Term} {first : Term}
      {k : BuildStack} (hFirst : Step.firstOperand op args = .ok first) :
      Moves p (.build level env (.prim op args) k)
        (.build level env first (.push (.prim op [] args env) k)) p
  | buildIte (level : UInt64) (env : Renaming) (cond yes no : Term) (k : BuildStack) :
      Moves p (.build level env (.ite cond yes no) k)
        (.build level env cond (.push (.iteCond yes no env) k)) p
  | buildLogic (level : UInt64) (env : Renaming) (op : LogicOp) (left right : Term)
      (k : BuildStack) :
      Moves p (.build level env (.logic op left right) k)
        (.build level env left (.push (.logicLeft op right env) k)) p
  | buildQuote {level inside : UInt64} {env : Renaming} {body : Term} {k : BuildStack}
      (hRaise : Step.raise level 1 = .ok inside) :
      Moves p (.build level env (.quote body) k) (.build inside env body (.push .quote k)) p
  | buildEscape {level : UInt64} {env : Renaming} {shift : Int64} {body : Term} {k : BuildStack}
      (hStages : Step.stages shift level = .ok level) :
      Moves p (.build level env (.splice shift body) k) (.eval env body (.escape level k)) p
  | buildSplice {level crossed : UInt64} {env : Renaming} {shift : Int64} {body : Term}
      {k : BuildStack} (hStages : Step.stages shift level = .ok crossed)
      (hAbove : crossed ≠ level) :
      Moves p (.build level env (.splice shift body) k)
        (.build (level - crossed) env body (.push (.splice crossed) k)) p
  | buildLet (level : UInt64) (env : Renaming) (id : Ident) (bound body : Term)
      (k : BuildStack) :
      Moves p (.build level env (.letIn id bound body) k)
        (.build level env bound (.push (.letBound id body env) k)) p
  -- Delivering values.
  | deliverEscape (c : Term) (shift : UInt64) (outer : BuildStack) :
      Moves p (.deliver (.code c) (.escape shift outer)) (.emit shift c outer) p
  | deliverApplyTo (v : Value) (arg : Term) (env : Renaming) (k : EvalStack) :
      Moves p (.deliver v (.push (.applyTo arg env) k)) (.eval env arg (.push (.applied v) k)) p
  | deliverCall (fn : Abstraction) (captured : List (Ident × Value)) (arg : Value)
      (k : EvalStack) :
      Moves p (.deliver arg (.push (.applied (.closure fn captured)) k))
        (.eval (fn.env.bind fn.param (p.tint fn.param)) fn.body
          (.push (.bind (p.tint fn.param) arg) (k.enter fn captured)))
        p.advance
  | deliverBind {v v' bound : Value} {id : Ident} {k : EvalStack}
      (hLeave : Step.leave id bound v = .ok v') :
      Moves p (.deliver v (.push (.bind id bound) k)) (.deliver v' k) p
  | deliverPrimNext {v : Value} {op : PrimOp} {done : List Value} {args : List Term}
      {env : Renaming} {k : EvalStack} {next : Term}
      (hNext : args[(done ++ [v]).length]? = some next) :
      Moves p (.deliver v (.push (.prim op done args env) k))
        (.eval env next (.push (.prim op (done ++ [v]) args env) k)) p
  | deliverPrimLast {v v' : Value} {op : PrimOp} {done : List Value} {args : List Term}
      {env : Renaming} {k : EvalStack} (hLast : args[(done ++ [v]).length]? = none)
      (hApply : Arithmetic.apply op (done ++ [v]) = .ok v') :
      Moves p (.deliver v (.push (.prim op done args env) k)) (.deliver v' k) p
  | deliverBranch (b : Bool) (yes no : Term) (env : Renaming) (k : EvalStack) :
      Moves p (.deliver (.bool b) (.push (.branch yes no env) k))
        (.eval env (if b then yes else no) k) p
  | deliverLogicSettled (op : LogicOp) (right : Term) (env : Renaming) (k : EvalStack) :
      Moves p (.deliver (.bool op.settling) (.push (.logicLeft op right env) k))
        (.deliver (.bool op.settling) k) p
  | deliverLogicLeft {b : Bool} {op : LogicOp} {right : Term} {env : Renaming} {k : EvalStack}
      (hOpen : b ≠ op.settling) :
      Moves p (.deliver (.bool b) (.push (.logicLeft op right env) k))
        (.eval env right (.push (.logicRight op) k)) p
  | deliverLogicRight (b : Bool) (op : LogicOp) (k : EvalStack) :
      Moves p (.deliver (.bool b) (.push (.logicRight op) k)) (.deliver (.bool b) k) p
  | deliverLet (v : Value) (id : Ident) (body : Term) (env : Renaming) (k : EvalStack) :
      Moves p (.deliver v (.push (.letBody id body env) k))
        (.eval (env.bind id (p.tint id)) body (.push (.bind (p.tint id) v) k)) p.advance
  | deliverRun (c : Term) (k : EvalStack) :
      Moves p (.deliver (.code c) (.push .run k)) (.eval .empty c k) p
  -- Emitting fragments.
  | emitClose (c : Term) (outer : EvalStack) :
      Moves p (.emit 1 c (.close outer)) (.deliver (.code c) outer) p
  | emitLam (level : UInt64) (c : Term) (param : Ident) (k : BuildStack) :
      Moves p (.emit level c (.push (.lam param) k)) (.emit level (.lam param c) k) p
  | emitFix (level : UInt64) (c : Term) (self : Ident) (k : BuildStack) :
      Moves p (.emit level c (.push (.fix self) k)) (.emit level (.fix self c) k) p
  | emitApplyTo (level : UInt64) (c arg : Term) (env : Renaming) (k : BuildStack) :
      Moves p (.emit level c (.push (.applyTo arg env) k))
        (.build level env arg (.push (.applied c) k)) p
  | emitApplied (level : UInt64) (c fn : Term) (k : BuildStack) :
      Moves p (.emit level c (.push (.applied fn) k)) (.emit level (.app fn c) k) p
  | emitPrimNext {level : UInt64} {c : Term} {op : PrimOp} {done args : List Term}
      {env : Renaming} {k : BuildStack} {next : Term}
      (hNext : args[(done ++ [c]).length]? = some next) :
      Moves p (.emit level c (.push (.prim op done args env) k))
        (.build level env next (.push (.prim op (done ++ [c]) args env) k)) p
  | emitPrimLast {level : UInt64} {c : Term} {op : PrimOp} {done args : List Term}
      {env : Renaming} {k : BuildStack} (hLast : args[(done ++ [c]).length]? = none) :
      Moves p (.emit level c (.push (.prim op done args env) k))
        (.emit level (.prim op (done ++ [c])) k) p
  | emitIteCond (level : UInt64) (c yes no : Term) (env : Renaming) (k : BuildStack) :
      Moves p (.emit level c (.push (.iteCond yes no env) k))
        (.build level env yes (.push (.iteYes c no env) k)) p
  | emitIteYes (level : UInt64) (c cond no : Term) (env : Renaming) (k : BuildStack) :
      Moves p (.emit level c (.push (.iteYes cond no env) k))
        (.build level env no (.push (.iteNo cond c) k)) p
  | emitIteNo (level : UInt64) (c cond yes : Term) (k : BuildStack) :
      Moves p (.emit level c (.push (.iteNo cond yes) k)) (.emit level (.ite cond yes c) k) p
  | emitLogicLeft (level : UInt64) (c : Term) (op : LogicOp) (right : Term) (env : Renaming)
      (k : BuildStack) :
      Moves p (.emit level c (.push (.logicLeft op right env) k))
        (.build level env right (.push (.logicRight op c) k)) p
  | emitLogicRight (level : UInt64) (c : Term) (op : LogicOp) (left : Term) (k : BuildStack) :
      Moves p (.emit level c (.push (.logicRight op left) k))
        (.emit level (.logic op left c) k) p
  | emitLetBound (level : UInt64) (c : Term) (id : Ident) (body : Term) (env : Renaming)
      (k : BuildStack) :
      Moves p (.emit level c (.push (.letBound id body env) k))
        (.build level (env.bind id (p.tint id)) body (.push (.letBody (p.tint id) c) k))
        p.advance
  | emitLetBody (level : UInt64) (c : Term) (id : Ident) (bound : Term) (k : BuildStack) :
      Moves p (.emit level c (.push (.letBody id bound) k))
        (.emit level (.letIn id bound c) k) p
  | emitQuote {level : UInt64} {c : Term} {k : BuildStack} (hLevel : 2 ≤ level) :
      Moves p (.emit level c (.push .quote k)) (.emit (level - 1) (.quote c) k) p
  | emitSplice {level shift outside : UInt64} {c : Term} {k : BuildStack}
      (hRaise : Step.raise level shift = .ok outside) (hShift : shift < 0x8000000000000000) :
      Moves p (.emit level c (.push (.splice shift) k))
        (.emit outside (.splice shift.toInt64 c) k) p

/-- `Faults s f`: from `s` the machine fails with `f`, whatever the palette. -/
inductive Faults : State → Fault → Prop
  | evalUnresolved {env : Renaming} {id : Ident} {k : EvalStack}
      (hName : env.resolve id = none) : Faults (.eval env (.var id) k) (.unbound id)
  | evalAbsent {env : Renaming} {id color : Ident} {k : EvalStack}
      (hName : env.resolve id = some color) (hAbsent : k.lookup color = .absent) :
      Faults (.eval env (.var id) k) (.unbound id)
  | evalFuture {env : Renaming} {id color : Ident} {k : EvalStack}
      (hName : env.resolve id = some color) (hFuture : k.lookup color = .future) :
      Faults (.eval env (.var id) k) (.futureBinding id)
  | evalFix {env : Renaming} {self : Ident} {body : Term} {k : EvalStack}
      (hBody : body.isLam = false) : Faults (.eval env (.fix self body) k) (.malformedFixpoint self)
  | evalPrim {env : Renaming} {op : PrimOp} {args : List Term} {k : EvalStack} {f : Fault}
      (hFirst : Step.firstOperand op args = .error f) : Faults (.eval env (.prim op args) k) f
  | evalSplice {env : Renaming} {shift : Int64} {body : Term} {k : EvalStack} {f : Fault}
      (hStages : Step.stages shift 0 = .error f) : Faults (.eval env (.splice shift body) k) f
  | buildUnresolved {level : UInt64} {env : Renaming} {id : Ident} {k : BuildStack}
      (hName : env.resolve id = none) : Faults (.build level env (.var id) k) (.unbound id)
  | buildFix {level : UInt64} {env : Renaming} {self : Ident} {body : Term} {k : BuildStack}
      (hBody : Step.maybeFunction body = false) :
      Faults (.build level env (.fix self body) k) (.malformedFixpoint self)
  | buildPrim {level : UInt64} {env : Renaming} {op : PrimOp} {args : List Term}
      {k : BuildStack} {f : Fault} (hFirst : Step.firstOperand op args = .error f) :
      Faults (.build level env (.prim op args) k) f
  | buildQuote {level : UInt64} {env : Renaming} {body : Term} {k : BuildStack} {f : Fault}
      (hRaise : Step.raise level 1 = .error f) : Faults (.build level env (.quote body) k) f
  | buildSplice {level : UInt64} {env : Renaming} {shift : Int64} {body : Term}
      {k : BuildStack} {f : Fault} (hStages : Step.stages shift level = .error f) :
      Faults (.build level env (.splice shift body) k) f
  | deliverHalt (v : Value) : Faults (.deliver v .halt) .emptyStack
  | deliverEscape {v : Value} {shift : UInt64} {outer : BuildStack} {f : Fault}
      (hFragment : Step.fragment .splice v = .error f) :
      Faults (.deliver v (.escape shift outer)) f
  | deliverCall {fn arg : Value} {k : EvalStack} (hKind : fn.kind ≠ .function) :
      Faults (.deliver arg (.push (.applied fn) k)) (.mismatch .application .function fn.kind)
  | deliverBind {v bound : Value} {id : Ident} {k : EvalStack} {f : Fault}
      (hLeave : Step.leave id bound v = .error f) : Faults (.deliver v (.push (.bind id bound) k)) f
  | deliverPrim {v : Value} {op : PrimOp} {done : List Value} {args : List Term}
      {env : Renaming} {k : EvalStack} {f : Fault}
      (hLast : args[(done ++ [v]).length]? = none)
      (hApply : Arithmetic.apply op (done ++ [v]) = .error f) :
      Faults (.deliver v (.push (.prim op done args env) k)) f
  | deliverBranch {v : Value} {yes no : Term} {env : Renaming} {k : EvalStack} {f : Fault}
      (hTruth : Step.truth .conditional v = .error f) :
      Faults (.deliver v (.push (.branch yes no env) k)) f
  | deliverLogicLeft {v : Value} {op : LogicOp} {right : Term} {env : Renaming}
      {k : EvalStack} {f : Fault} (hTruth : Step.truth (.connective op) v = .error f) :
      Faults (.deliver v (.push (.logicLeft op right env) k)) f
  | deliverLogicRight {v : Value} {op : LogicOp} {k : EvalStack} {f : Fault}
      (hTruth : Step.truth (.connective op) v = .error f) :
      Faults (.deliver v (.push (.logicRight op) k)) f
  | deliverRun {v : Value} {k : EvalStack} {f : Fault}
      (hFragment : Step.fragment .run v = .error f) : Faults (.deliver v (.push .run k)) f
  | emitClose {level : UInt64} {c : Term} {outer : EvalStack} (hLevel : level ≠ 1) :
      Faults (.emit level c (.close outer)) (.impossible .closedAboveOne)
  | emitQuote {level : UInt64} {c : Term} {k : BuildStack} (hLevel : ¬2 ≤ level) :
      Faults (.emit level c (.push .quote k)) (.impossible .nestedAtOne)
  | emitRaise {level shift : UInt64} {c : Term} {k : BuildStack} {f : Fault}
      (hRaise : Step.raise level shift = .error f) :
      Faults (.emit level c (.push (.splice shift) k)) f
  | emitSplice {level shift outside : UInt64} {c : Term} {k : BuildStack}
      (hRaise : Step.raise level shift = .ok outside)
      (hShift : ¬shift < 0x8000000000000000) :
      Faults (.emit level c (.push (.splice shift) k)) (.impossible .shiftRange)

theorem eq_deliver_of_result? {s : State} {v : Value} (h : s.result? = some v) :
    s = .deliver v .halt := by
  cases s with
  | deliver w k =>
    cases k with
    | halt => rw [Option.some.inj h]
    | escape | push => cases h
  | eval | build | emit => cases h

/-- Where there is a result, nothing is left to do. -/
theorem Moves.result?_eq_none {p p' : Palette} {s s' : State} (h : s.Moves p s' p') :
    s.result? = none := by
  cases h <;> rfl

/-! ### The computation follows the rules

A transition is opened once here, kind of state by kind of state: it either goes on by a rule of
`Moves` or fails by a rule of `Faults`. -/

/-- A splice that crosses fewer stages than there are stays above stage 0. -/
theorem sub_ne_zero_of_ne {level crossed : UInt64} (h : crossed ≠ level) :
    level - crossed ≠ 0 := by
  intro hZero
  have hSum := UInt64.sub_add_cancel level crossed
  rw [hZero, UInt64.zero_add] at hSum
  exact h hSum

/-- What a computed transition says in terms of the rules. -/
def Follows (p : Palette) (s : State) (t : Transition) : Prop :=
  match t.run.run p with
  | (.ok s', p') => s.Moves p s' p'
  | (.error f, p') => s.Faults f ∧ p' = p

theorem follows_eval (p : Palette) (env : Renaming) (t : Term) (k : EvalStack) :
    Follows p (.eval env t k) (Step.eval env t k) := by
  cases t with
  | var id =>
    cases hName : env.resolve id with
    | none =>
      simp only [Step.eval, hName]
      exact ⟨Faults.evalUnresolved hName, rfl⟩
    | some color =>
      cases hFound : k.lookup color with
      | found v =>
        simp only [Step.eval, hName, hFound]
        exact Moves.evalVar hName hFound
      | future =>
        simp only [Step.eval, hName, hFound]
        exact ⟨Faults.evalFuture hName hFound, rfl⟩
      | absent =>
        simp only [Step.eval, hName, hFound]
        exact ⟨Faults.evalAbsent hName hFound, rfl⟩
  | lam param body => exact .evalLam env param body k
  | fix self body =>
    cases body with
    | lam param body => exact .evalFix env self param body k
    | _ => exact ⟨Faults.evalFix rfl, rfl⟩
  | app fn arg => exact .evalApp env fn arg k
  | int n => exact .evalInt env n k
  | bool b => exact .evalBool env b k
  | prim op args =>
    cases hFirst : Step.firstOperand op args with
    | ok first =>
      simp only [Step.eval, hFirst]
      exact Moves.evalPrim hFirst
    | error f =>
      simp only [Step.eval, hFirst]
      exact ⟨Faults.evalPrim hFirst, rfl⟩
  | ite cond yes no => exact .evalIte env cond yes no k
  | logic op left right => exact .evalLogic env op left right k
  | quote body => exact .evalQuote env body k
  | splice shift body =>
    cases hStages : Step.stages shift 0 with
    | ok crossed =>
      simp only [Step.eval, hStages]
      exact Moves.evalSplice hStages
    | error f =>
      simp only [Step.eval, hStages]
      exact ⟨Faults.evalSplice hStages, rfl⟩
  | letIn id bound body => exact .evalLet env id bound body k

theorem follows_build (p : Palette) (level : UInt64) (env : Renaming) (t : Term)
    (k : BuildStack) : Follows p (.build level env t k) (Step.build level env t k) := by
  cases t with
  | var id =>
    cases hName : env.resolve id with
    | none =>
      simp only [Step.build, hName]
      exact ⟨Faults.buildUnresolved hName, rfl⟩
    | some color =>
      simp only [Step.build, hName]
      exact Moves.buildVar hName
  | lam param body => exact .buildLam level env param body k
  | fix self body =>
    cases hBody : Step.maybeFunction body with
    | true =>
      rw [Step.build, if_pos hBody]
      exact Moves.buildFix hBody
    | false =>
      rw [Step.build, if_neg (by rw [hBody]; decide)]
      exact ⟨Faults.buildFix hBody, rfl⟩
  | app fn arg => exact .buildApp level env fn arg k
  | int n => exact .buildInt level env n k
  | bool b => exact .buildBool level env b k
  | prim op args =>
    cases hFirst : Step.firstOperand op args with
    | ok first =>
      simp only [Step.build, hFirst]
      exact Moves.buildPrim hFirst
    | error f =>
      simp only [Step.build, hFirst]
      exact ⟨Faults.buildPrim hFirst, rfl⟩
  | ite cond yes no => exact .buildIte level env cond yes no k
  | logic op left right => exact .buildLogic level env op left right k
  | quote body =>
    cases hRaise : Step.raise level 1 with
    | ok inside =>
      simp only [Step.build, hRaise]
      exact Moves.buildQuote hRaise
    | error f =>
      simp only [Step.build, hRaise]
      exact ⟨Faults.buildQuote hRaise, rfl⟩
  | splice shift body =>
    cases hStages : Step.stages shift level with
    | error f =>
      simp only [Step.build, hStages]
      exact ⟨Faults.buildSplice hStages, rfl⟩
    | ok crossed =>
      simp only [Step.build, hStages, Step.lower_of_stages hStages, Step.liftM_ok_bind]
      by_cases hAll : crossed = level
      · subst hAll
        rw [UInt64.sub_self, if_pos rfl]
        exact Moves.buildEscape hStages
      · rw [if_neg (sub_ne_zero_of_ne hAll)]
        exact Moves.buildSplice hStages hAll
  | letIn id bound body => exact .buildLet level env id bound body k

theorem follows_deliver (p : Palette) (v : Value) (k : EvalStack) :
    Follows p (.deliver v k) (Step.deliver v k) := by
  cases k with
  | halt => exact ⟨Faults.deliverHalt v, rfl⟩
  | escape shift outer =>
    cases v with
    | code c => exact Moves.deliverEscape c shift outer
    | int | bool | closure => exact ⟨Faults.deliverEscape rfl, rfl⟩
  | push frame k =>
    cases frame with
    | applyTo arg env => exact .deliverApplyTo v arg env k
    | applied fn =>
      cases fn with
      | closure fn captured => exact Moves.deliverCall fn captured v k
      | int | bool | code => exact ⟨Faults.deliverCall nofun, rfl⟩
    | bind id bound =>
      cases hLeave : Step.leave id bound v with
      | ok v' =>
        simp only [Step.deliver, hLeave]
        exact Moves.deliverBind hLeave
      | error f =>
        simp only [Step.deliver, hLeave]
        exact ⟨Faults.deliverBind hLeave, rfl⟩
    | prim op done args env =>
      cases hNext : args[(done ++ [v]).length]? with
      | some next =>
        simp only [Step.deliver, hNext]
        exact Moves.deliverPrimNext hNext
      | none =>
        cases hApply : Arithmetic.apply op (done ++ [v]) with
        | ok v' =>
          simp only [Step.deliver, hNext, hApply]
          exact Moves.deliverPrimLast hNext hApply
        | error f =>
          simp only [Step.deliver, hNext, hApply]
          exact ⟨Faults.deliverPrim hNext hApply, rfl⟩
    | branch yes no env =>
      cases v with
      | bool b => exact Moves.deliverBranch b yes no env k
      | int | closure | code => exact ⟨Faults.deliverBranch rfl, rfl⟩
    | logicLeft op right env =>
      cases v with
      | bool b =>
        by_cases hSettled : b = op.settling
        · subst hSettled
          simp only [Step.deliver, Step.truth, Step.liftM_ok_bind, if_true]
          exact Moves.deliverLogicSettled op right env k
        · simp only [Step.deliver, Step.truth, Step.liftM_ok_bind, if_neg hSettled]
          exact Moves.deliverLogicLeft hSettled
      | int | closure | code => exact ⟨Faults.deliverLogicLeft rfl, rfl⟩
    | logicRight op =>
      cases v with
      | bool b => exact Moves.deliverLogicRight b op k
      | int | closure | code => exact ⟨Faults.deliverLogicRight rfl, rfl⟩
    | letBody id body env => exact .deliverLet v id body env k
    | run =>
      cases v with
      | code c => exact Moves.deliverRun c k
      | int | bool | closure => exact ⟨Faults.deliverRun rfl, rfl⟩

theorem follows_emit (p : Palette) (level : UInt64) (c : Term) (k : BuildStack) :
    Follows p (.emit level c k) (Step.emit level c k) := by
  cases k with
  | close outer =>
    by_cases hLevel : level = 1
    · subst hLevel
      exact Moves.emitClose c outer
    · rw [Step.emit, if_neg hLevel]
      exact ⟨Faults.emitClose hLevel, rfl⟩
  | push frame k =>
    cases frame with
    | lam param => exact .emitLam level c param k
    | fix self => exact .emitFix level c self k
    | applyTo arg env => exact .emitApplyTo level c arg env k
    | applied fn => exact .emitApplied level c fn k
    | prim op done args env =>
      cases hNext : args[(done ++ [c]).length]? with
      | some next =>
        simp only [Step.emit, hNext]
        exact Moves.emitPrimNext hNext
      | none =>
        simp only [Step.emit, hNext]
        exact Moves.emitPrimLast hNext
    | iteCond yes no env => exact .emitIteCond level c yes no env k
    | iteYes cond no env => exact .emitIteYes level c cond no env k
    | iteNo cond yes => exact .emitIteNo level c cond yes k
    | logicLeft op right env => exact .emitLogicLeft level c op right env k
    | logicRight op left => exact .emitLogicRight level c op left k
    | letBound id body env => exact .emitLetBound level c id body env k
    | letBody id bound => exact .emitLetBody level c id bound k
    | quote =>
      by_cases hLevel : 2 ≤ level
      · simp only [Step.emit, if_pos hLevel, Step.lower_one hLevel]
        exact Moves.emitQuote hLevel
      · simp only [Step.emit, if_neg hLevel]
        exact ⟨Faults.emitQuote hLevel, rfl⟩
    | splice shift =>
      cases hRaise : Step.raise level shift with
      | error f =>
        simp only [Step.emit, hRaise]
        exact ⟨Faults.emitRaise hRaise, rfl⟩
      | ok outside =>
        by_cases hShift : shift < 0x8000000000000000
        · simp only [Step.emit, hRaise, if_pos hShift]
          exact Moves.emitSplice hRaise hShift
        · simp only [Step.emit, hRaise, if_neg hShift]
          exact ⟨Faults.emitSplice hRaise hShift, rfl⟩

theorem follows_transition (p : Palette) (s : State) : Follows p s s.transition := by
  cases s with
  | eval env t k => exact follows_eval p env t k
  | build level env t k => exact follows_build p level env t k
  | deliver v k => exact follows_deliver p v k
  | emit level c k => exact follows_emit p level c k

theorem Moves.step_eq {p p' : Palette} {s s' : State} (h : s.Moves p s' p') :
    s.step p = (.ok s', p') := by
  cases h with
  | evalVar hName hFound => simp only [step, transition, Step.eval, hName, hFound]; rfl
  | evalPrim hFirst => simp only [step, transition, Step.eval, hFirst]; rfl
  | evalSplice hStages => simp only [step, transition, Step.eval, hStages]; rfl
  | buildVar hName => simp only [step, transition, Step.build, hName]; rfl
  | buildFix hBody => simp only [step, transition, Step.build, hBody]; rfl
  | buildPrim hFirst => simp only [step, transition, Step.build, hFirst]; rfl
  | buildQuote hRaise => simp only [step, transition, Step.build, hRaise]; rfl
  | buildEscape hStages =>
    simp only [step, transition, Step.build, hStages, Step.lower_of_stages hStages,
      Step.liftM_ok_bind, UInt64.sub_self, if_true]; rfl
  | buildSplice hStages hAbove =>
    simp only [step, transition, Step.build, hStages, Step.lower_of_stages hStages,
      Step.liftM_ok_bind, if_neg (sub_ne_zero_of_ne hAbove)]; rfl
  | deliverBind hLeave => simp only [step, transition, Step.deliver, hLeave]; rfl
  | deliverPrimNext hNext => simp only [step, transition, Step.deliver, hNext]; rfl
  | deliverPrimLast hLast hApply => simp only [step, transition, Step.deliver, hLast, hApply]; rfl
  | deliverLogicSettled =>
    simp only [step, transition, Step.deliver, Step.truth, Step.liftM_ok_bind, if_true]; rfl
  | deliverLogicLeft hOpen =>
    simp only [step, transition, Step.deliver, Step.truth, Step.liftM_ok_bind, if_neg hOpen]; rfl
  | emitPrimNext hNext => simp only [step, transition, Step.emit, hNext]; rfl
  | emitPrimLast hLast => simp only [step, transition, Step.emit, hLast]; rfl
  | emitQuote hLevel =>
    simp only [step, transition, Step.emit, if_pos hLevel, Step.lower_one hLevel]; rfl
  | emitSplice hRaise hShift =>
    simp only [step, transition, Step.emit, hRaise, if_pos hShift]; rfl
  | _ => rfl

theorem Faults.step_eq {s : State} {f : Fault} (h : s.Faults f) (p : Palette) :
    s.step p = (.error f, p) := by
  cases h with
  | evalUnresolved hName => simp only [step, transition, Step.eval, hName]; rfl
  | evalAbsent hName hAbsent => simp only [step, transition, Step.eval, hName, hAbsent]; rfl
  | evalFuture hName hFuture => simp only [step, transition, Step.eval, hName, hFuture]; rfl
  | @evalFix _ _ body _ hBody =>
    cases body with
    | lam => cases hBody
    | _ => rfl
  | evalPrim hFirst => simp only [step, transition, Step.eval, hFirst]; rfl
  | evalSplice hStages => simp only [step, transition, Step.eval, hStages]; rfl
  | buildUnresolved hName => simp only [step, transition, Step.build, hName]; rfl
  | buildFix hBody => simp only [step, transition, Step.build, hBody]; rfl
  | buildPrim hFirst => simp only [step, transition, Step.build, hFirst]; rfl
  | buildQuote hRaise => simp only [step, transition, Step.build, hRaise]; rfl
  | buildSplice hStages => simp only [step, transition, Step.build, hStages]; rfl
  | deliverHalt => rfl
  | deliverEscape hFragment => simp only [step, transition, Step.deliver, hFragment]; rfl
  | @deliverCall fn _ _ hKind =>
    cases fn with
    | closure => exact absurd rfl hKind
    | int | bool | code => rfl
  | deliverBind hLeave => simp only [step, transition, Step.deliver, hLeave]; rfl
  | deliverPrim hLast hApply => simp only [step, transition, Step.deliver, hLast, hApply]; rfl
  | deliverBranch hTruth | deliverLogicLeft hTruth | deliverLogicRight hTruth =>
    simp only [step, transition, Step.deliver, hTruth]; rfl
  | deliverRun hFragment => simp only [step, transition, Step.deliver, hFragment]; rfl
  | emitClose hLevel | emitQuote hLevel => simp only [step, transition, Step.emit, if_neg hLevel]; rfl
  | emitRaise hRaise => simp only [step, transition, Step.emit, hRaise]; rfl
  | emitSplice hRaise hShift =>
    simp only [step, transition, Step.emit, hRaise, if_neg hShift]; rfl

/-- **A transition succeeds exactly by a rule of `Moves`.** -/
theorem step_eq_ok_iff {p p' : Palette} {s s' : State} :
    s.step p = (.ok s', p') ↔ s.Moves p s' p' := by
  refine ⟨fun h => ?_, Moves.step_eq⟩
  have hFollows := follows_transition p s
  rw [Follows, ← State.step, h] at hFollows
  exact hFollows

/-- **A transition fails exactly by a rule of `Faults`**, and then no color has been drawn. -/
theorem step_eq_error_iff {p p' : Palette} {s : State} {f : Fault} :
    s.step p = (.error f, p') ↔ s.Faults f ∧ p' = p := by
  constructor
  · intro h
    have hFollows := follows_transition p s
    rw [Follows, ← State.step, h] at hFollows
    exact hFollows
  · rintro ⟨h, rfl⟩
    exact h.step_eq p'

end State

end StagedLambda
