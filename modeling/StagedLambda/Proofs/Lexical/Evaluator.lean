import StagedLambda.Machine.Fault
import StagedLambda.Machine.Arithmetic

/-!
# A lexically scoped evaluator

The textbook semantics of the unstaged language, against which the machine is measured.  There
are no stacks and no colors: an environment gives values to the identifiers in scope, a function
keeps the whole environment of the place where it was made, and a call evaluates the body there.

Evaluation is call by value.  Operands and the two parts of an application are evaluated from left
to right; the number of operands is checked before the first of them, and the kind of a function
after its argument.  A function may call itself without end, so evaluation gets an amount of fuel
that bounds its depth, and an answer may be *unfinished*.
-/

namespace StagedLambda.Lexical

/-- What evaluation comes to. -/
inductive Answer (α : Type)
  | done (result : α)
  | failed (fault : Fault)
  /-- The fuel did not suffice. -/
  | unfinished

namespace Answer

variable {α β γ : Type}

def bind : Answer α → (α → Answer β) → Answer β
  | done a, next => next a
  | failed f, _ => failed f
  | unfinished, _ => unfinished

instance : Monad Answer where
  pure := done
  bind := bind

@[simp] theorem pure_eq (a : α) : (pure a : Answer α) = done a := rfl

@[simp] theorem done_bind (a : α) (next : α → Answer β) : (done a >>= next) = next a := rfl

@[simp] theorem failed_bind (f : Fault) (next : α → Answer β) :
    (failed f >>= next) = failed f := rfl

@[simp] theorem unfinished_bind (next : α → Answer β) : (unfinished >>= next) = unfinished := rfl

theorem bind_assoc (x : Answer α) (next : α → Answer β) (last : β → Answer γ) :
    (x >>= next >>= last) = x >>= fun a => next a >>= last := by
  cases x <;> rfl

def ofExcept : Except Fault α → Answer α
  | .ok a => done a
  | .error f => failed f

end Answer

/-- The results of evaluation. -/
inductive Result
  | int (value : Int64)
  | bool (value : Bool)
  /-- A function with the environment it was made in; a fixpoint also knows its own name. -/
  | function (self? : Option Ident) (param : Ident) (body : Term) (env : List (Ident × Result))

/-- The values of the identifiers in scope, innermost first. -/
abbrev Env := List (Ident × Result)

namespace Result

def kind : Result → Kind
  | .int _ => .int
  | .bool _ => .bool
  | .function _ _ _ _ => .function

def asInt (consumer : Consumer) : Result → Answer Int64
  | .int n => .done n
  | r => .failed (.mismatch consumer .int r.kind)

def asBool (consumer : Consumer) : Result → Answer Bool
  | .bool b => .done b
  | r => .failed (.mismatch consumer .bool r.kind)

end Result

/-- Binds a function to its own name, if it has one. -/
def bindSelf {α : Type} (self? : Option Ident) (fn : α) (scope : List (Ident × α)) :
    List (Ident × α) :=
  match self? with
  | some self => (self, fn) :: scope
  | none => scope

/-- Applies a primitive to its operands, which are checked from left to right. -/
def operate (op : PrimOp) : List Result → Answer Result
  | [x] =>
    match op with
    | .negate => do
      let b ← x.asBool (.primitive op)
      pure (.bool !b)
    | .arith _ | .compare _ => .failed (.arity op 1)
  | [x, y] =>
    match op with
    | .arith o => do
      let a ← x.asInt (.primitive op)
      let b ← y.asInt (.primitive op)
      let n ← Answer.ofExcept (Arithmetic.compute o a b)
      pure (.int n)
    | .compare o => do
      let a ← x.asInt (.primitive op)
      let b ← y.asInt (.primitive op)
      pure (.bool (Arithmetic.holds o a b))
    | .negate => .failed (.arity op 2)
  | args => .failed (.arity op args.length)

/-- Evaluates terms from left to right. -/
def evalAll (eval : Term → Answer Result) : List Term → Answer (List Result)
  | [] => pure []
  | t :: ts => do
    let r ← eval t
    let rs ← evalAll eval ts
    pure (r :: rs)

/-- Evaluates the body of a function where the function was made. -/
def call (eval : Env → Term → Answer Result) (fn arg : Result) : Answer Result :=
  match fn with
  | .function self? param body scope => eval ((param, arg) :: bindSelf self? fn scope) body
  | _ => .failed (.mismatch .application .function fn.kind)

/-- Evaluates an unstaged term.  There is no rule for quotes and splices. -/
def eval : Nat → Env → Term → Answer Result
  | 0, _, _ => .unfinished
  | fuel + 1, env, t =>
    match t with
    | .var id =>
      match env.lookup id with
      | some r => pure r
      | none => .failed (.unbound id)
    | .int n => pure (.int n)
    | .bool b => pure (.bool b)
    | .lam param body => pure (.function none param body env)
    | .fix self body =>
      match body with
      | .lam param body => pure (.function (some self) param body env)
      | _ => .failed (.malformedFixpoint self)
    | .app fn arg => do
      let f ← eval fuel env fn
      let a ← eval fuel env arg
      call (eval fuel) f a
    | .prim op [] => .failed (.noOperands op)
    | .prim op args =>
      if args.length = op.arity then do
        let rs ← evalAll (eval fuel env) args
        operate op rs
      else .failed (.arity op args.length)
    | .logic op left right => do
      let b ← (← eval fuel env left).asBool (.connective op)
      if b = op.settling then pure (.bool b)
      else do
        let c ← (← eval fuel env right).asBool (.connective op)
        pure (.bool c)
    | .ite cond yes no => do
      let b ← (← eval fuel env cond).asBool .conditional
      if b then eval fuel env yes else eval fuel env no
    | .letIn id bound body => do
      let r ← eval fuel env bound
      eval fuel ((id, r) :: env) body
    | .quote _ | .splice _ _ => .unfinished

end StagedLambda.Lexical
