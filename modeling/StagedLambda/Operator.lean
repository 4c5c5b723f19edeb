/-!
# Operators

The primitive operators of the language with their signatures and spellings, and the two
short-circuiting connectives. A primitive is arithmetic on two integers, a comparison of two
integers, or boolean negation; the split keeps every later table free of impossible cases.
-/

namespace StagedLambda

/-- The kinds of operand and result that an operator can declare. -/
inductive BaseKind
  | int
  | bool
deriving DecidableEq

inductive ArithOp
  | add
  | sub
  | mul
  /-- Rounds toward negative infinity. -/
  | div
  /-- Takes the sign of the divisor. -/
  | mod
deriving DecidableEq

inductive CompareOp
  | eq
  | ne
  | lt
  | le
  | gt
  | ge
deriving DecidableEq

inductive PrimOp
  | arith (op : ArithOp)
  | compare (op : CompareOp)
  /-- Boolean negation. -/
  | negate
deriving DecidableEq

inductive LogicOp
  | and
  | or
deriving DecidableEq

def BaseKind.text : BaseKind → String
  | .int => "integer"
  | .bool => "boolean"

def ArithOp.name : ArithOp → String
  | .add => "add"
  | .sub => "sub"
  | .mul => "mul"
  | .div => "div"
  | .mod => "mod"

def ArithOp.symbol : ArithOp → String
  | .add => "+"
  | .sub => "-"
  | .mul => "*"
  | .div => "/"
  | .mod => "%"

def CompareOp.name : CompareOp → String
  | .eq => "eq"
  | .ne => "ne"
  | .lt => "lt"
  | .le => "le"
  | .gt => "gt"
  | .ge => "ge"

def CompareOp.symbol : CompareOp → String
  | .eq => "=="
  | .ne => "!="
  | .lt => "<"
  | .le => "<="
  | .gt => ">"
  | .ge => ">="

namespace PrimOp

/-- Every primitive, in the order in which they are listed to a reader. -/
def all : List PrimOp :=
  [.arith .add, .arith .sub, .arith .mul, .arith .div, .arith .mod, .compare .eq, .compare .ne,
    .compare .lt, .compare .le, .compare .gt, .compare .ge, .negate]

/-- The operand kinds, in order. -/
def operands : PrimOp → List BaseKind
  | .arith _ | .compare _ => [.int, .int]
  | .negate => [.bool]

def result : PrimOp → BaseKind
  | .arith _ => .int
  | .compare _ | .negate => .bool

def arity (op : PrimOp) : Nat := op.operands.length

/-- The name of the function form, used for an application with a wrong number of operands. -/
def name : PrimOp → String
  | .arith op => op.name
  | .compare op => op.name
  | .negate => "neg"

/-- The spelling in a program. -/
def symbol : PrimOp → String
  | .arith op => op.symbol
  | .compare op => op.symbol
  | .negate => "not"

def ofName? (name : String) : Option PrimOp := all.find? (·.name == name)

theorem mem_all (op : PrimOp) : op ∈ all := by
  rcases op with (_ | _ | _ | _ | _) | (_ | _ | _ | _ | _ | _) | _ <;> decide

theorem arity_pos (op : PrimOp) : 0 < op.arity := by
  cases op <;> exact Nat.succ_pos _

end PrimOp

def LogicOp.symbol : LogicOp → String
  | .and => "&&"
  | .or => "||"

/-- The operand value that settles the connective without its right operand. -/
def LogicOp.settling : LogicOp → Bool
  | .and => false
  | .or => true

end StagedLambda
