import StagedLambda.Machine.Stack

/-!
# States

A state is a term to be evaluated at stage 0, a term to be built into code at a level above it, a
value on its way to a stack of evaluation frames, or a fragment on its way to a stack of build
frames. A value that meets an empty stack is the result.
-/

namespace StagedLambda

inductive State
  | eval (env : Renaming) (term : Term) (stack : EvalStack)
  | build (level : UInt64) (env : Renaming) (term : Term) (stack : BuildStack)
  | deliver (value : Value) (stack : EvalStack)
  | emit (level : UInt64) (code : Term) (stack : BuildStack)

namespace State

/-- Evaluation from scratch: stage 0, nothing renamed, nothing to return to. -/
def initial (term : Term) : State := .eval .empty term .halt

def level : State → UInt64
  | .eval _ _ _ | .deliver _ _ => 0
  | .build level _ _ _ | .emit level _ _ => level

def depth : State → Nat
  | .eval _ _ stack | .deliver _ stack => stack.depth
  | .build _ _ _ stack | .emit _ _ stack => stack.depth

/-- The value of a state that has nothing left to do. -/
def result? : State → Option Value
  | .deliver value .halt => some value
  | _ => none

def isTerminal (s : State) : Bool := s.result?.isSome

def text (s : State) : String :=
  let level := "[" ++ Decimal.ofNat s.level.toNat ++ "] "
  match s with
  | .eval _ term _ | .build _ _ term _ => "eval" ++ level ++ term.text
  | .deliver value _ => "value " ++ value.text
  | .emit _ code _ => "code" ++ level ++ code.text

end State

end StagedLambda
