import StagedLambda.Term.Basic

/-!
# The written form of terms

A term is written with as few parentheses as the grammar allows. Each construct belongs to a
tier, from the loosest to the tightest; a construct is put in parentheses exactly when it stands
where a tighter tier is asked for. A phrase is a written construct together with its tier, and
the phrase of a term is assembled from the phrases of its parts.

A primitive with a wrong number of operands has no infix form and is written as a call of its
name.
-/

namespace StagedLambda

/-- The tiers of the grammar, loosest first. -/
inductive Tier
  | expression
  | disjunction
  | conjunction
  | comparison
  | sum
  | product
  | unary
  | application
  | atom
deriving DecidableEq

namespace Tier

def rank : Tier → Nat
  | .expression => 0
  | .disjunction => 1
  | .conjunction => 2
  | .comparison => 3
  | .sum => 4
  | .product => 5
  | .unary => 6
  | .application => 7
  | .atom => 8

/-- The next tighter tier; an atom is as tight as it gets. -/
def tighter : Tier → Tier
  | .expression => .disjunction
  | .disjunction => .conjunction
  | .conjunction => .comparison
  | .comparison => .sum
  | .sum => .product
  | .product => .unary
  | .unary => .application
  | .application | .atom => .atom

end Tier

/-- The tier of an operator's infix form. -/
def ArithOp.tier : ArithOp → Tier
  | .add | .sub => .sum
  | .mul | .div | .mod => .product

def LogicOp.tier : LogicOp → Tier
  | .or => .disjunction
  | .and => .conjunction

/-- A written construct and the tier it belongs to. -/
structure Phrase where
  tier : Tier
  text : String

namespace Phrase

/-- The phrase as it stands in a place that asks for `context`. -/
def within (p : Phrase) (context : Tier) : String :=
  if p.tier.rank < context.rank then "(" ++ p.text ++ ")" else p.text

/-- Two operands around a spaced symbol. -/
def binary (tier left right : Tier) (symbol : String) (a b : Phrase) : Phrase :=
  ⟨tier, a.within left ++ " " ++ symbol ++ " " ++ b.within right⟩

/-- A binary operator that chains to the left. -/
def chained (tier : Tier) (symbol : String) (a b : Phrase) : Phrase :=
  binary tier tier tier.tighter symbol a b

/-- Phrases with commas between them. -/
def listed : List Phrase → String
  | [] => ""
  | [p] => p.within .expression
  | p :: ps => p.within .expression ++ ", " ++ listed ps

/-- A primitive applied to its operands. Comparisons do not chain, so both their operands are
asked to be sums. -/
def ofPrim : PrimOp → List Phrase → Phrase
  | .negate, [a] => ⟨.unary, "not " ++ a.within .unary⟩
  | .arith op, [a, b] => chained op.tier op.symbol a b
  | .compare op, [a, b] => binary .comparison .sum .sum op.symbol a b
  | op, ps => ⟨.atom, op.name ++ "(" ++ listed ps ++ ")"⟩

/-- A literal below zero is a unary form. -/
def ofInt (n : Int64) : Phrase :=
  ⟨if n < 0 then .unary else .atom, Decimal.ofInt n.toInt⟩

/-- A quoted or spliced body after its opening mark. -/
def braced (opening : String) (body : Phrase) : Phrase :=
  ⟨.atom, opening ++ "\x7b " ++ body.within .expression ++ " \x7d"⟩

/-- The opening mark of a splice; a shift of one is not written. -/
def spliceMark (shift : Int64) : String :=
  if shift = 1 then "~" else "~" ++ Decimal.ofInt shift.toInt

end Phrase

namespace Term

mutual

def phrase : Term → Phrase
  | .var id => ⟨.atom, id.text⟩
  | .int n => .ofInt n
  | .bool b => ⟨.atom, if b then "true" else "false"⟩
  | .lam param body =>
    ⟨.expression, "fn " ++ param.text ++ " -> " ++ body.phrase.within .expression⟩
  | .fix self body =>
    ⟨.expression, "fix " ++ self.text ++ " -> " ++ body.phrase.within .expression⟩
  | .letIn id bound body =>
    ⟨.expression, "let " ++ id.text ++ " = " ++ bound.phrase.within .expression ++ " in "
      ++ body.phrase.within .expression⟩
  | .ite cond yes no =>
    ⟨.expression, "if " ++ cond.phrase.within .expression ++ " then "
      ++ yes.phrase.within .expression ++ " else " ++ no.phrase.within .expression⟩
  | .app fn arg =>
    ⟨.application, fn.phrase.within .application ++ " " ++ arg.phrase.within .atom⟩
  | .logic op left right => .chained op.tier op.symbol left.phrase right.phrase
  | .prim op args => .ofPrim op (phrases args)
  | .quote body => .braced "\x60" body.phrase
  | .splice shift body => .braced (Phrase.spliceMark shift) body.phrase

def phrases : List Term → List Phrase
  | [] => []
  | t :: ts => t.phrase :: phrases ts

end

theorem phrases_eq_map (ts : List Term) : phrases ts = ts.map phrase := by
  induction ts with
  | nil => rfl
  | cons t ts ih => rw [phrases, ih, List.map_cons]

/-- The written form of a whole term. -/
def text (t : Term) : String := t.phrase.within .expression

theorem text_eq (t : Term) : t.text = t.phrase.text := by
  simp [text, Phrase.within, Tier.rank]

end Term

end StagedLambda
