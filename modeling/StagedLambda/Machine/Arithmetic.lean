import StagedLambda.Machine.Fault

/-!
# Primitive arithmetic

Integers are 64-bit words with a sign. Addition, subtraction and multiplication are refused when
the exact result does not fit; division rounds toward negative infinity and the remainder takes
the sign of the divisor.

The operations on words are partial: `none` stands for a result that is no word. A primitive turns
it into a fault of its operator where it expects it, and elsewhere it is a trap.
-/

namespace StagedLambda.Arithmetic

def add? (a b : Int64) : Option Int64 :=
  if a.toBitVec.saddOverflow b.toBitVec then none else some (a + b)

def sub? (a b : Int64) : Option Int64 :=
  if a.toBitVec.ssubOverflow b.toBitVec then none else some (a - b)

def mul? (a b : Int64) : Option Int64 :=
  if a.toBitVec.smulOverflow b.toBitVec then none else some (a * b)

/-- The quotient cut toward zero. -/
def div? (a b : Int64) : Option Int64 :=
  if b = 0 ∨ (a = Int64.minValue ∧ b = -1) then none else some (a / b)

/-- The remainder of the quotient cut toward zero. It is computed together with the quotient, so it
is refused with it, also where it would be a word. -/
def rem? (a b : Int64) : Option Int64 :=
  if b = 0 ∨ (a = Int64.minValue ∧ b = -1) then none else some (a % b)

/-- The quotient rounded down, for a divisor other than zero. The machine's division cuts toward
zero, so a quotient of operands with different signs is lowered unless it is exact. -/
def floorDiv? (a b : Int64) : Except Fault (Option Int64) := do
  match div? a b with
  | none => return none
  | some quotient =>
    let remainder ← Trap.rem.guard (rem? a b)
    if remainder ≠ 0 ∧ ¬(a < 0 ↔ b < 0) then
      let lowered ← Trap.sub.guard (sub? quotient 1)
      return some lowered
    else return some quotient

/-- The remainder that goes with `floorDiv?`: zero or of the divisor's sign. Where the quotient is
no word it is zero. -/
def floorMod (a b : Int64) : Except Fault Int64 :=
  let remainder := (rem? a b).getD 0
  if remainder ≠ 0 ∧ ¬(remainder < 0 ↔ b < 0) then Trap.add.guard (add? remainder b)
  else .ok remainder

/-- A result that does not fit is a fault of its operator. -/
def fits (op : ArithOp) : Option Int64 → Except Fault Int64
  | some n => .ok n
  | none => .error (.overflow op)

def compute (op : ArithOp) (a b : Int64) : Except Fault Int64 :=
  match op with
  | .add => fits op (add? a b)
  | .sub => fits op (sub? a b)
  | .mul => fits op (mul? a b)
  | .div => if b = 0 then .error (.divisionByZero op) else floorDiv? a b >>= fits op
  | .mod => if b = 0 then .error (.divisionByZero op) else floorMod a b

def holds (op : CompareOp) (a b : Int64) : Bool :=
  match op with
  | .eq => a = b
  | .ne => a ≠ b
  | .lt => a < b
  | .le => a ≤ b
  | .gt => b < a
  | .ge => b ≤ a

/-- The first operand that is not of the declared kind. -/
def misfit? (op : PrimOp) (args : List Value) : Option (BaseKind × Value) :=
  (op.operands.zip args).find? fun p => !p.2.isOf p.1

/-- Applies a primitive to values. Their kinds are checked first, from left to right; their number
has been checked when the primitive was entered. -/
def apply (op : PrimOp) (args : List Value) : Except Fault Value :=
  match misfit? op args with
  | some (kind, v) => .error (.mismatch (.primitive op) kind.toKind v.kind)
  | none =>
    match op, args with
    | .negate, [.bool b] => .ok (.bool !b)
    | .arith op, [.int a, .int b] => (compute op a b).map .int
    | .compare op, [.int a, .int b] => .ok (.bool (holds op a b))
    | _, _ => .error (.impossible .operandCount)

end StagedLambda.Arithmetic
