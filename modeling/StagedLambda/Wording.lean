import StagedLambda.Ident
import StagedLambda.Operator

/-!
# Wording of messages

The phrases that more than one kind of report uses.
-/

namespace StagedLambda

/-- A piece of program text inside a message. -/
def backquoted (s : String) : String := "\x60" ++ s ++ "\x60"

namespace Wording

def unbound (id : Ident) : String := "unbound variable " ++ backquoted id.text

/-- A fixpoint whose body is no function. -/
def malformedFixpoint (self : Ident) : String :=
  "the body of " ++ backquoted ("fix " ++ self.text) ++ " must be a function"

/-- A primitive with a wrong number of operands. -/
def arity (op : PrimOp) (found : Nat) : String :=
  backquoted op.symbol ++ " takes " ++ Decimal.ofNat op.arity ++ " operand(s), found "
    ++ Decimal.ofNat found

end Wording

end StagedLambda
