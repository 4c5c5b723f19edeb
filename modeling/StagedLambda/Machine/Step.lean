import StagedLambda.Machine.Arithmetic
import StagedLambda.Machine.State
import StagedLambda.Term.Scope

/-!
# Transitions

One transition of the machine for each kind of state. Entering a binder colors it: the binders of
code when the code is built, a parameter when its function is called, a fixpoint when its
function value is made, and a local definition when its value is known. A color is drawn from the
palette at once, and it stays drawn whatever becomes of the transition; so all checks of a
transition come before its colors.
-/

namespace StagedLambda

/-- A computation that draws colors from the palette and can fail. -/
abbrev Drawing := ExceptT Fault (StateM Palette)

/-- A transition comes to the next state or to a fault, and in both cases leaves a palette. -/
abbrev Transition := Drawing State

namespace Step

/-- The next color for the binder `id`. -/
def color (id : Ident) : Drawing Ident := modifyGet (·.color id)

/-- A check that passes leaves the outcome to what comes after it. -/
theorem liftM_ok_bind {α β : Type} (a : α) (rest : α → Drawing β) :
    ((liftM (Except.ok a : Except Fault α) : Drawing α) >>= rest) = rest a := rfl

/-! ### Checks -/

/-- The first operand of a primitive with the right number of them. -/
def firstOperand (op : PrimOp) : List Term → Except Fault Term
  | [] => .error (.noOperands op)
  | first :: rest =>
    if (first :: rest).length = op.arity then .ok first
    else .error (.arity op (first :: rest).length)

/-- The shift of a splice at `level` as a number of stages, if it may cross that many. -/
def stages (shift : Int64) (level : UInt64) : Except Fault UInt64 :=
  if shift < 0 then .error (.invalidShift shift level)
  else if level = 0 ∧ 0 < shift.toUInt64 then .error (.belowStageZero shift)
  else if level < shift.toUInt64 then .error (.invalidShift shift level)
  else .ok shift.toUInt64

/-- The level so many stages above another. Levels are words. -/
def raise (level stages : UInt64) : Except Fault UInt64 :=
  Trap.add.guard (if level.toNat + stages.toNat < UInt64.size then some (level + stages) else none)

/-- The level so many stages below another. -/
def lower (level stages : UInt64) : Except Fault UInt64 :=
  Trap.sub.guard (if stages ≤ level then some (level - stages) else none)

def truth (consumer : Consumer) : Value → Except Fault Bool
  | .bool b => .ok b
  | v => .error (.mismatch consumer .bool v.kind)

def fragment (consumer : Consumer) : Value → Except Fault Term
  | .code c => .ok c
  | v => .error (.mismatch consumer .code v.kind)

/-- A value on its way out of the scope of `id`. A function takes the binding along; code that
still mentions `id` would outlive it. -/
def leave (id : Ident) (bound : Value) : Value → Except Fault Value
  | .closure fn captured => .ok (.closure fn ((id, bound) :: captured))
  | .code c => if c.occursFree id then .error (.scopeExtrusion id) else .ok (.code c)
  | v => .ok v

/-! ### Evaluation at stage 0 -/

def eval (env : Renaming) (term : Term) (k : EvalStack) : Transition := do
  match term with
  | .var id =>
    match env.resolve id with
    | none => throw (.unbound id)
    | some target =>
      match k.lookup target with
      | .found value => return .deliver value k
      | .future => throw (.futureBinding id)
      | .absent => throw (.unbound id)
  | .lam param body => return .deliver (.closure ⟨none, param, body, env⟩ []) k
  | .fix self (.lam param body) =>
    let color ← color self
    return .deliver (.closure ⟨some color, param, body, env.bind self color⟩ []) k
  | .fix self _ => throw (.malformedFixpoint self)
  | .app fn arg => return .eval env fn (.push (.applyTo arg env) k)
  | .int n => return .deliver (.int n) k
  | .bool b => return .deliver (.bool b) k
  | .prim op args =>
    let first ← firstOperand op args
    return .eval env first (.push (.prim op [] args env) k)
  | .ite cond yes no => return .eval env cond (.push (.branch yes no env) k)
  | .logic op left right => return .eval env left (.push (.logicLeft op right env) k)
  | .quote body => return .build 1 env body (.close k)
  | .splice shift body =>
    let _ ← stages shift 0
    return .eval env body (.push .run k)
  | .letIn id bound body => return .eval env bound (.push (.letBody id body env) k)

/-! ### Building code -/

/-- Whether a term may stand as the body of a fixpoint in code. A spliced body can only be checked
when it has been run. -/
def maybeFunction : Term → Bool
  | .lam _ _ | .splice _ _ => true
  | _ => false

def build (level : UInt64) (env : Renaming) (term : Term) (k : BuildStack) : Transition := do
  match term with
  | .var id =>
    match env.resolve id with
    | none => throw (.unbound id)
    | some target => return .emit level (.var target) k
  | .lam param body =>
    let color ← color param
    return .build level (env.bind param color) body (.push (.lam color) k)
  | .fix self body =>
    if maybeFunction body then
      let color ← color self
      return .build level (env.bind self color) body (.push (.fix color) k)
    else throw (.malformedFixpoint self)
  | .app fn arg => return .build level env fn (.push (.applyTo arg env) k)
  | .int n => return .emit level (.int n) k
  | .bool b => return .emit level (.bool b) k
  | .prim op args =>
    let first ← firstOperand op args
    return .build level env first (.push (.prim op [] args env) k)
  | .ite cond yes no => return .build level env cond (.push (.iteCond yes no env) k)
  | .logic op left right =>
    return .build level env left (.push (.logicLeft op right env) k)
  | .quote body =>
    let inside ← raise level 1
    return .build inside env body (.push .quote k)
  | .splice shift body =>
    let crossed ← stages shift level
    let inside ← lower level crossed
    if inside = 0 then return .eval env body (.escape crossed k)
    else return .build inside env body (.push (.splice crossed) k)
  | .letIn id bound body =>
    return .build level env bound (.push (.letBound id body env) k)

/-! ### Delivering values -/

/-- Enters the body of a function: its bindings go back on the stack, then the binding of a
fixpoint to itself, then the argument under a fresh color of the parameter. -/
def call (fn arg : Value) (k : EvalStack) : Transition := do
  match fn with
  | .closure f captured =>
    let k := k.bindAll captured
    let k := match f.self? with
      | some self => .push (.bind self (.closure f captured)) k
      | none => k
    let color ← color f.param
    return .eval (f.env.bind f.param color) f.body (.push (.bind color arg) k)
  | v => throw (.mismatch .application .function v.kind)

def deliver (value : Value) : EvalStack → Transition
  | .halt => throw .emptyStack
  | .escape shift outer => do
    let c ← fragment .splice value
    return .emit shift c outer
  | .push frame k => do
    match frame with
    | .applyTo arg env => return .eval env arg (.push (.applied value) k)
    | .applied fn => call fn value k
    | .bind id bound =>
      let value ← leave id bound value
      return .deliver value k
    | .prim op done args env =>
      let done := done ++ [value]
      match args[done.length]? with
      | some next => return .eval env next (.push (.prim op done args env) k)
      | none =>
        let value ← Arithmetic.apply op done
        return .deliver value k
    | .branch yes no env =>
      let b ← truth .conditional value
      return .eval env (if b then yes else no) k
    | .logicLeft op right env =>
      let b ← truth (.connective op) value
      if b = op.settling then return .deliver value k
      else return .eval env right (.push (.logicRight op) k)
    | .logicRight op =>
      let _ ← truth (.connective op) value
      return .deliver value k
    | .letBody id body env =>
      let color ← color id
      return .eval (env.bind id color) body (.push (.bind color value) k)
    | .run =>
      -- Code is fully colored, so it starts without renamings of its own.
      let c ← fragment .run value
      return .eval .empty c k

/-! ### Emitting fragments -/

def emit (level : UInt64) (code : Term) : BuildStack → Transition
  | .close outer =>
    if level = 1 then return .deliver (.code code) outer
    else throw (.impossible .closedAboveOne)
  | .push frame k => do
    match frame with
    | .lam param => return .emit level (.lam param code) k
    | .fix self => return .emit level (.fix self code) k
    | .applyTo arg env => return .build level env arg (.push (.applied code) k)
    | .applied fn => return .emit level (.app fn code) k
    | .prim op done args env =>
      let done := done ++ [code]
      match args[done.length]? with
      | some next => return .build level env next (.push (.prim op done args env) k)
      | none => return .emit level (.prim op done) k
    | .iteCond yes no env => return .build level env yes (.push (.iteYes code no env) k)
    | .iteYes cond no env => return .build level env no (.push (.iteNo cond code) k)
    | .iteNo cond yes => return .emit level (.ite cond yes code) k
    | .logicLeft op right env =>
      return .build level env right (.push (.logicRight op code) k)
    | .logicRight op left => return .emit level (.logic op left code) k
    | .letBound id body env =>
      let color ← color id
      return .build level (env.bind id color) body (.push (.letBody color code) k)
    | .letBody id bound => return .emit level (.letIn id bound code) k
    | .quote =>
      if 2 ≤ level then
        let outside ← lower level 1
        return .emit outside (.quote code) k
      else throw (.impossible .nestedAtOne)
    | .splice shift =>
      let outside ← raise level shift
      if shift < 0x8000000000000000 then return .emit outside (.splice shift.toInt64 code) k
      else throw (.impossible .shiftRange)

end Step

namespace State

def transition : State → Transition
  | .eval env term k => Step.eval env term k
  | .build level env term k => Step.build level env term k
  | .deliver value k => Step.deliver value k
  | .emit level code k => Step.emit level code k

/-- One transition: what it comes to, and the palette after it. -/
def step (palette : Palette) (s : State) : Except Fault State × Palette :=
  s.transition.run.run palette

end State

end StagedLambda
