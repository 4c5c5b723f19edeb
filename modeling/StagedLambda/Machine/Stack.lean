import StagedLambda.Machine.Value

/-!
# Stacks

What remains to be done, as frames. Evaluation at stage 0 hands values to the frames of an
`EvalStack`; building code hands fragments to the frames of a `BuildStack`. The two alternate at
the stage boundaries. A quote entered from stage 0 starts a build stack whose bottom closes the
quote over the evaluation stack it came from. A splice that lands on stage 0 starts an evaluation
stack whose bottom escapes back into the build stack around the splice.
-/

namespace StagedLambda

/-- What waits for a value at stage 0. -/
inductive EvalFrame
  /-- The function is being evaluated; the argument comes next. -/
  | applyTo (arg : Term) (env : Renaming)
  /-- The argument is being evaluated. -/
  | applied (fn : Value)
  /-- The value of a variable, for everything above this frame. -/
  | bind (id : Ident) (value : Value)
  /-- The operands before the one being evaluated are in `done`. -/
  | prim (op : PrimOp) (done : List Value) (args : List Term) (env : Renaming)
  | branch (yes no : Term) (env : Renaming)
  | logicLeft (op : LogicOp) (right : Term) (env : Renaming)
  | logicRight (op : LogicOp)
  | letBody (id : Ident) (body : Term) (env : Renaming)
  /-- The value is code to be run right here. -/
  | run

/-- What waits for a fragment above stage 0: the parts of a construct that are built, and what
is needed to build the others. -/
inductive BuildFrame
  | lam (param : Ident)
  | fix (self : Ident)
  | applyTo (arg : Term) (env : Renaming)
  | applied (fn : Term)
  | prim (op : PrimOp) (done args : List Term) (env : Renaming)
  | iteCond (yes no : Term) (env : Renaming)
  | iteYes (cond no : Term) (env : Renaming)
  | iteNo (cond yes : Term)
  | logicLeft (op : LogicOp) (right : Term) (env : Renaming)
  | logicRight (op : LogicOp) (left : Term)
  | letBound (id : Ident) (body : Term) (env : Renaming)
  | letBody (id : Ident) (bound : Term)
  /-- A quote inside code: the fragment is one level above the frame. -/
  | quote
  /-- A splice kept in the code: the fragment is `shift` levels below the frame. -/
  | splice (shift : UInt64)

/-- The identifier that a frame binds for the fragment built above it. -/
def BuildFrame.binder? : BuildFrame → Option Ident
  | .lam id | .fix id | .letBody id _ => some id
  | _ => none

mutual

/-- The frames below a value at stage 0, innermost first. -/
inductive EvalStack
  | halt
  /-- The bottom of a stage-0 region spliced into code at level `shift`. -/
  | escape (shift : UInt64) (outer : BuildStack)
  | push (frame : EvalFrame) (rest : EvalStack)

/-- The frames below a fragment above stage 0, innermost first. -/
inductive BuildStack
  /-- The bottom of a quote entered from stage 0. -/
  | close (outer : EvalStack)
  | push (frame : BuildFrame) (rest : BuildStack)

end

/-- What a search for an identifier comes to. -/
inductive Lookup
  | found (value : Value)
  /-- Bound by code that is still being built, so without a value at stage 0. -/
  | future
  | absent

mutual

/-- The number of frames of both kinds, every quote that is still open counting as one. -/
def EvalStack.depth : EvalStack → Nat
  | .halt => 0
  | .escape _ outer => outer.depth
  | .push _ rest => rest.depth + 1

def BuildStack.depth : BuildStack → Nat
  | .close outer => outer.depth + 1
  | .push _ rest => rest.depth + 1

end

mutual

/-- Searches the frames from the top down, across stages: a binding frame gives the value, and a
binder of the code being built makes the identifier one of a later stage. -/
def EvalStack.lookup (id : Ident) : EvalStack → Lookup
  | .halt => .absent
  | .escape _ outer => outer.lookup id
  | .push (.bind x value) rest => if x = id then .found value else rest.lookup id
  | .push _ rest => rest.lookup id

def BuildStack.lookup (id : Ident) : BuildStack → Lookup
  | .close outer => outer.lookup id
  | .push frame rest => if frame.binder? = some id then .future else rest.lookup id

end

namespace EvalStack

def isHalt : EvalStack → Bool
  | .halt => true
  | .escape _ _ | .push _ _ => false

/-- Pushes the bindings of a function, the latest one first. -/
def bindAll (stack : EvalStack) (bindings : List (Ident × Value)) : EvalStack :=
  bindings.foldl (fun stack b => .push (.bind b.1 b.2) stack) stack

@[simp] theorem bindAll_nil (stack : EvalStack) : stack.bindAll [] = stack := rfl

@[simp] theorem bindAll_cons (stack : EvalStack) (b : Ident × Value) (bs : List (Ident × Value)) :
    stack.bindAll (b :: bs) = (push (.bind b.1 b.2) stack).bindAll bs := rfl

end EvalStack

end StagedLambda
