import StagedLambda.Renaming
import StagedLambda.Term.Text

/-!
# Values

The results of stage-0 evaluation: integers, booleans, functions and code. A function is an
abstraction with the renaming of the place where it was made. The values of its free variables
are not captured then: they live in binding frames on the stack, and the function picks one up
when it is returned past that frame.
-/

namespace StagedLambda

/-- The fixed part of a function value. -/
structure Abstraction where
  /-- The color by which a fixpoint calls itself. -/
  self? : Option Ident := none
  param : Ident
  body : Term
  env : Renaming
deriving DecidableEq

inductive Value
  | int (value : Int64)
  | bool (value : Bool)
  /-- A function with the bindings it has picked up, the latest first. -/
  | closure (fn : Abstraction) (captured : List (Ident × Value))
  /-- A fully colored fragment of the next stage. -/
  | code (fragment : Term)

inductive Kind
  | int
  | bool
  | function
  | code
deriving DecidableEq

def Kind.text : Kind → String
  | .int => "integer"
  | .bool => "boolean"
  | .function => "function"
  | .code => "code"

def BaseKind.toKind : BaseKind → Kind
  | .int => .int
  | .bool => .bool

def Abstraction.text (fn : Abstraction) : String :=
  match fn.self? with
  | some self => "<fix " ++ self.text ++ " fn " ++ fn.param.text ++ ">"
  | none => "<fn " ++ fn.param.text ++ ">"

namespace Value

def kind : Value → Kind
  | .int _ => .int
  | .bool _ => .bool
  | .closure _ _ => .function
  | .code _ => .code

def text : Value → String
  | .int n => Decimal.ofInt n.toInt
  | .bool b => if b then "true" else "false"
  | .closure fn _ => fn.text
  | .code fragment => (Term.quote fragment).text

/-- Whether a value is of a base kind. -/
def isOf (v : Value) (kind : BaseKind) : Bool := v.kind = kind.toKind

end Value

end StagedLambda
