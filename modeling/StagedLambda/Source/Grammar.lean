import StagedLambda.Source.Token
import StagedLambda.Term.Basic

/-!
# The grammar

Terms are read from tokens by recursive descent, one reader for each tier of the grammar:

    expr  := fn binder -> expr | fix name -> expr | let binder = expr in expr
           | if expr then expr else expr | or
    or    := and (|| and)*            and   := cmp (&& cmp)*
    cmp   := sum (cmpop sum)?         sum   := term ((+|-) term)*
    term  := unary ((*|/|%) unary)*   unary := not unary | - unary | app
    app   := atom atom*
    atom  := integer | boolean | name | ( expr ) | quote expr } | ~ shift { expr }
    shift := (-? integer)?

The readers of the inner tiers take the reader of expressions as a parameter, and `expr` ties the
knot. Every nested expression stands behind a token that has been read before it, so the number
of tokens bounds the nesting: the bound of `expr` can only reach zero when no token is left, and
then an expression is missing anyway.

A wildcard binder is given the next tag of a counter, so no variable can refer to it.
-/

namespace StagedLambda

/-- What a reader could have gone on with. -/
inductive Expectation
  | token (t : Token)
  | identifier
  | expression
  | shiftAmount
  | endOfInput
deriving DecidableEq

def Expectation.text : Expectation → String
  | .token t => t.describe
  | .identifier => "an identifier"
  | .expression => "an expression"
  | .shiftAmount => "a shift amount"
  | .endOfInput => "end of input"

/-- Why reading stopped: what was expected in front of the tokens that are left. -/
structure Refusal where
  expected : Expectation
  rest : List Token
deriving DecidableEq

def Refusal.message (r : Refusal) : String :=
  "expected " ++ r.expected.text ++ ", found " ++
    match r.rest with
    | [] => "end of input"
    | t :: _ => t.describe

/-- The tokens still to be read and the number of wildcards seen so far. -/
structure Cursor where
  tokens : List Token
  wildcards : Nat := 0
deriving DecidableEq

namespace Grammar

/-- A reader takes tokens off the cursor or refuses the first one that does not fit. -/
abbrev Reader := StateT Cursor (Except Refusal)

/-! ### Single tokens -/

def refuse {α : Type} (expected : Expectation) : Reader α :=
  fun c => .error ⟨expected, c.tokens⟩

def expect (t : Token) : Reader Unit := fun c =>
  match c.tokens with
  | t' :: rest => if t' = t then .ok ((), { c with tokens := rest }) else refuse (.token t) c
  | [] => refuse (.token t) c

def name : Reader Ident := fun c =>
  match c.tokens with
  | .identifier x :: rest => .ok (.raw x, { c with tokens := rest })
  | _ => refuse .identifier c

/-- A name, or a wildcard that nothing can refer to. -/
def binder : Reader Ident := fun c =>
  match c.tokens with
  | .underscore :: rest => .ok (.generated c.wildcards, ⟨rest, c.wildcards + 1⟩)
  | _ => name c

/-- The stages a splice crosses: one unless a number says otherwise. -/
def shift : Reader Int64 := fun c =>
  match c.tokens with
  | .integer n :: rest => .ok (n, { c with tokens := rest })
  | .minus :: .integer n :: rest => .ok (-n, { c with tokens := rest })
  | .minus :: rest => refuse .shiftAmount { c with tokens := rest }
  | _ => .ok (1, c)

/-! ### Chains of operators -/

/-- Goes on with `left` as long as an operator follows, at most `bound` times. -/
def chainOn (op? : Token → Option (Term → Term → Term)) (operand : Reader Term) :
    Nat → Term → Reader Term
  | 0, left => pure left
  | bound + 1, left => fun c =>
    match c.tokens with
    | [] => .ok (left, c)
    | t :: rest =>
      match op? t with
      | none => .ok (left, c)
      | some combine => do
        let (right, c') ← operand { c with tokens := rest }
        chainOn op? operand bound (combine left right) c'

/-- Operands joined by operators, grouped to the left. -/
def chain (op? : Token → Option (Term → Term → Term)) (operand : Reader Term) : Reader Term := do
  let left ← operand
  chainOn op? operand (← get).tokens.length left

def orOp? : Token → Option (Term → Term → Term)
  | .orOr => some (.logic .or)
  | _ => none

def andOp? : Token → Option (Term → Term → Term)
  | .andAnd => some (.logic .and)
  | _ => none

def sumOp? : Token → Option (Term → Term → Term)
  | .plus => some fun a b => .prim (.arith .add) [a, b]
  | .minus => some fun a b => .prim (.arith .sub) [a, b]
  | _ => none

def productOp? : Token → Option (Term → Term → Term)
  | .star => some fun a b => .prim (.arith .mul) [a, b]
  | .slash => some fun a b => .prim (.arith .div) [a, b]
  | .percent => some fun a b => .prim (.arith .mod) [a, b]
  | _ => none

def compareOp? : Token → Option CompareOp
  | .equal => some .eq
  | .notEqual => some .ne
  | .less => some .lt
  | .lessEqual => some .le
  | .greater => some .gt
  | .greaterEqual => some .ge
  | _ => none

/-! ### The tiers -/

section Tiers

variable (expr : Reader Term)

/-- What follows an opening parenthesis. -/
def enclosed : Reader Term := do
  let inner ← expr
  expect .rightParen
  return inner

/-- What follows the opening of a quote. -/
def quotation : Reader Term := do
  let body ← expr
  expect .rightBrace
  return Term.quote body

/-- What follows the tilde of a splice. -/
def splicing : Reader Term := do
  let n ← shift
  expect .leftBrace
  let body ← expr
  expect .rightBrace
  return Term.splice n body

def atom : Reader Term := fun c =>
  match c.tokens with
  | .integer n :: rest => .ok (.int n, { c with tokens := rest })
  | .boolean b :: rest => .ok (.bool b, { c with tokens := rest })
  | .identifier x :: rest => .ok (.var (.raw x), { c with tokens := rest })
  | .leftParen :: rest => enclosed expr { c with tokens := rest }
  | .quoteOpen :: rest => quotation expr { c with tokens := rest }
  | .tilde :: rest => splicing expr { c with tokens := rest }
  | _ => refuse .expression c

/-- Applies `fn` to as many atoms as follow, at most `bound`. -/
def applyOn : Nat → Term → Reader Term
  | 0, fn => pure fn
  | bound + 1, fn => fun c =>
    if c.tokens.head?.any Token.startsAtom then do
      let (arg, c') ← atom expr c
      applyOn bound (.app fn arg) c'
    else .ok (fn, c)

def application : Reader Term := do
  let fn ← atom expr
  applyOn expr (← get).tokens.length fn

/-- An application behind at most `bound` signs. Minus is subtraction from zero. -/
def signed : Nat → Reader Term
  | 0 => application expr
  | bound + 1 => fun c =>
    match c.tokens with
    | .notWord :: rest => do
      let (a, c') ← signed bound { c with tokens := rest }
      return (.prim .negate [a], c')
    | .minus :: rest => do
      let (a, c') ← signed bound { c with tokens := rest }
      return (.prim (.arith .sub) [.int 0, a], c')
    | _ => application expr c

def unary : Reader Term := fun c => signed expr c.tokens.length c

def product : Reader Term := chain productOp? (unary expr)

def sum : Reader Term := chain sumOp? (product expr)

/-- Goes on with `left` if a comparison follows; comparisons do not chain. -/
def compareOn (left : Term) : Reader Term := fun c =>
  match c.tokens with
  | [] => .ok (left, c)
  | t :: rest =>
    match compareOp? t with
    | none => .ok (left, c)
    | some op => do
      let (right, c') ← sum expr { c with tokens := rest }
      return (.prim (.compare op) [left, right], c')

def comparison : Reader Term := do
  let left ← sum expr
  compareOn expr left

def conjunction : Reader Term := chain andOp? (comparison expr)

def disjunction : Reader Term := chain orOp? (conjunction expr)

/-- What follows the word `fn`. -/
def abstraction : Reader Term := do
  let param ← binder
  expect .arrow
  let body ← expr
  return Term.lam param body

/-- What follows the word `fix`. -/
def fixpoint : Reader Term := do
  let self ← name
  expect .arrow
  let body ← expr
  return Term.fix self body

/-- What follows the word `let`. -/
def binding : Reader Term := do
  let id ← binder
  expect .assign
  let bound ← expr
  expect .inWord
  let body ← expr
  return Term.letIn id bound body

/-- What follows the word `if`. -/
def conditional : Reader Term := do
  let cond ← expr
  expect .thenWord
  let yes ← expr
  expect .elseWord
  let no ← expr
  return Term.ite cond yes no

/-- The forms that reach as far to the right as they can, and the tier below them. -/
def form : Reader Term := fun c =>
  match c.tokens with
  | .fnWord :: rest => abstraction expr { c with tokens := rest }
  | .fixWord :: rest => fixpoint expr { c with tokens := rest }
  | .letWord :: rest => binding expr { c with tokens := rest }
  | .ifWord :: rest => conditional expr { c with tokens := rest }
  | _ => disjunction expr c

end Tiers

/-- Expressions nested at most `bound` deep. -/
def expr : Nat → Reader Term
  | 0 => refuse .expression
  | bound + 1 => form (expr bound)

/-- A whole program: one expression and nothing after it. -/
def program (tokens : List Token) : Except Refusal Term := do
  let (term, c) ← expr tokens.length ⟨tokens, 0⟩
  match c.tokens with
  | [] => return term
  | rest => throw ⟨.endOfInput, rest⟩

end Grammar

end StagedLambda
