import StagedLambda.Machine.Value
import StagedLambda.Wording

/-!
# Faults

Every way in which a run can fail, with the message that reports it.
-/

namespace StagedLambda

/-- The construct that refused a value of the wrong kind. -/
inductive Consumer
  | primitive (op : PrimOp)
  | conditional
  | connective (op : LogicOp)
  | application
  /-- A splice that crosses no stage at stage 0 and runs its code. -/
  | run
  /-- A splice that lands on stage 0 from inside code. -/
  | splice
deriving DecidableEq

/-- What must not happen in a run that starts from a program. Stacks built by hand can do it. -/
inductive Breach
  | operandCount
  | closedAboveOne
  | nestedAtOne
  | shiftRange
deriving DecidableEq

/-- Arithmetic on words whose exact result is no word. -/
inductive Trap
  | add
  | sub
  | rem
deriving DecidableEq

inductive Fault
  | unbound (id : Ident)
  | futureBinding (id : Ident)
  /-- A value has nowhere left to go. -/
  | emptyStack
  | malformedFixpoint (self : Ident)
  | arity (op : PrimOp) (found : Nat)
  | noOperands (op : PrimOp)
  | mismatch (consumer : Consumer) (expected found : Kind)
  | invalidShift (shift : Int64) (level : UInt64)
  | belowStageZero (shift : Int64)
  /-- Code that mentions a variable leaves the scope of its binding. -/
  | scopeExtrusion (id : Ident)
  | divisionByZero (op : ArithOp)
  | overflow (op : ArithOp)
  | impossible (breach : Breach)
  /-- The program does not report this: it stops on the spot. -/
  | trap (cause : Trap)
deriving DecidableEq

/-- An operation on words that traps where it has no result. -/
def Trap.guard {α : Type} (trap : Trap) : Option α → Except Fault α
  | some a => .ok a
  | none => .error (.trap trap)

def Consumer.text : Consumer → String
  | .primitive op => backquoted op.symbol
  | .conditional => backquoted "if"
  | .connective op => backquoted op.symbol
  | .application => "application"
  | .run => backquoted "~0\x7b\x7d"
  | .splice => "splice"

def Breach.text : Breach → String
  | .operandCount => "primitive applied to the wrong number of operands"
  | .closedAboveOne => "quote closed above level 1"
  | .nestedAtOne => "nested quote closed at level 1"
  | .shiftRange => "splice shift out of range"

def Trap.text : Trap → String
  | .add => "attempt to add with overflow"
  | .sub => "attempt to subtract with overflow"
  | .rem => "attempt to calculate the remainder with overflow"

def Fault.message : Fault → String
  | .unbound id => Wording.unbound id
  | .futureBinding id => backquoted id.text ++ " is bound by code that is still being built"
  | .emptyStack => "no continuation left to step"
  | .malformedFixpoint self => Wording.malformedFixpoint self
  | .arity op found => Wording.arity op found
  | .noOperands op => backquoted op.symbol ++ " applied to no operands"
  | .mismatch consumer expected found =>
    consumer.text ++ " expected " ++ expected.text ++ ", found " ++ found.text
  | .invalidShift shift level =>
    "cannot splice across " ++ Decimal.ofInt shift.toInt ++ " stage(s) at level "
      ++ Decimal.ofNat level.toNat
  | .belowStageZero shift =>
    "cannot splice below stage 0 (shift " ++ Decimal.ofInt shift.toInt ++ ")"
  | .scopeExtrusion id =>
    "code referring to " ++ backquoted id.text ++ " escapes the scope of its binding"
  | .divisionByZero op => "division by zero in " ++ backquoted op.symbol
  | .overflow op => "integer overflow in " ++ backquoted op.symbol
  | .impossible breach => "machine invariant violated: " ++ breach.text
  | .trap cause => cause.text

end StagedLambda
