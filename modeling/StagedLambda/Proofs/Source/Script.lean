import StagedLambda.Proofs.Term.Plain
import StagedLambda.Source.Token
import StagedLambda.Term.Text

/-!
# Terms as tokens

The tokens of a written term, laid out as the text is: a script is a list of tokens together with
the tier of the construct, and it is put in parentheses where a tighter tier is asked for.  The
text of a term spells its script, and the grammar reads the script; so the two halves of reading
what has been written meet here.

* `Script.within`: the tokens of a construct where a tier is asked for.
* `Term.reread`: the term that a script reads as.
-/

namespace StagedLambda

namespace Tier

theorem rank_injective {σ τ : Tier} (h : σ.rank = τ.rank) : σ = τ := by
  cases σ <;> cases τ <;> first | rfl | cases h

theorem rank_tighter {τ : Tier} (h : τ ≠ .atom) : τ.tighter.rank = τ.rank + 1 := by
  cases τ <;> first | rfl | exact absurd rfl h

theorem rank_le_tighter (τ : Tier) : τ.rank ≤ τ.tighter.rank := by
  cases τ <;> decide

theorem rank_le_atom (τ : Tier) : τ.rank ≤ Tier.atom.rank := by
  cases τ <;> decide

/-- From the tightest tier to looser ones. -/
theorem loosen {P : Tier → Prop} (atom : P .atom) (step : ∀ τ, τ ≠ .atom → P τ.tighter → P τ) :
    ∀ τ, P τ := by
  have hApplication := step .application nofun atom
  have hUnary := step .unary nofun hApplication
  have hProduct := step .product nofun hUnary
  have hSum := step .sum nofun hProduct
  have hComparison := step .comparison nofun hSum
  have hConjunction := step .conjunction nofun hComparison
  have hDisjunction := step .disjunction nofun hConjunction
  have hExpression := step .expression nofun hDisjunction
  intro τ
  cases τ <;> assumption

end Tier

/-! ### Tokens and tiers -/

namespace Token

def ofArith : ArithOp → Token
  | .add => .plus
  | .sub => .minus
  | .mul => .star
  | .div => .slash
  | .mod => .percent

def ofCompare : CompareOp → Token
  | .eq => .equal
  | .ne => .notEqual
  | .lt => .less
  | .le => .lessEqual
  | .gt => .greater
  | .ge => .greaterEqual

def ofLogic : LogicOp → Token
  | .and => .andAnd
  | .or => .orOr

/-- The tier of the constructs that start with the token. -/
def leads? : Token → Option Tier
  | .fnWord | .fixWord | .letWord | .ifWord => some .expression
  | .notWord | .minus => some .unary
  | t => if t.startsAtom then some .atom else none

/-- The tier of the construct that goes on with the token. -/
def joins? : Token → Option Tier
  | .orOr => some .disjunction
  | .andAnd => some .conjunction
  | .equal | .notEqual | .less | .lessEqual | .greater | .greaterEqual => some .comparison
  | .plus | .minus => some .sum
  | .star | .slash | .percent => some .product
  | t => if t.startsAtom then some .application else none

end Token

/-- What follows does not go on with a construct of the tier `τ` or of a tighter one. -/
def Stops (τ : Tier) (rest : List Token) : Prop :=
  ∀ t ∈ rest.head?, ∀ σ, t.joins? = some σ → σ.rank < τ.rank

theorem Stops.mono {σ τ : Tier} {rest : List Token} (h : Stops σ rest) (hRank : σ.rank ≤ τ.rank) :
    Stops τ rest :=
  fun t ht σ' hσ' => Nat.lt_of_lt_of_le (h t ht σ' hσ') hRank

theorem stops_nil (τ : Tier) : Stops τ [] := nofun

theorem stops_cons {τ : Tier} {t : Token} {rest : List Token} :
    Stops τ (t :: rest) ↔ ∀ σ, t.joins? = some σ → σ.rank < τ.rank := by
  simp [Stops]

/-! ### Scripts -/

structure Script where
  tier : Tier
  tokens : List Token

namespace Script

/-- The script as it stands in a place that asks for `context`. -/
def within (s : Script) (context : Tier) : List Token :=
  if s.tier.rank < context.rank then .leftParen :: (s.tokens ++ [.rightParen]) else s.tokens

def binary (tier left right : Tier) (symbol : Token) (a b : Script) : Script :=
  ⟨tier, a.within left ++ symbol :: b.within right⟩

def chained (tier : Tier) (symbol : Token) (a b : Script) : Script :=
  binary tier tier tier.tighter symbol a b

/-- The digits of a number, after a minus sign if it is below zero. -/
def numeral (n : Int64) : List Token :=
  if n < 0 then [.minus, .integer (-n)] else [.integer n]

/-- A primitive with a wrong number of operands is not part of the grammar. -/
def ofPrim : PrimOp → List Script → Script
  | .negate, [a] => ⟨.unary, .notWord :: a.within .unary⟩
  | .arith op, [a, b] => chained op.tier (.ofArith op) a b
  | .compare op, [a, b] => binary .comparison .sum .sum (.ofCompare op) a b
  | _, _ => ⟨.atom, []⟩

def ofInt (n : Int64) : Script := ⟨if n < 0 then .unary else .atom, numeral n⟩

def spliceMark (shift : Int64) : List Token :=
  if shift = 1 then [.tilde] else .tilde :: numeral shift

variable {s : Script}

theorem within_of_le {τ : Tier} (h : τ.rank ≤ s.tier.rank) : s.within τ = s.tokens :=
  if_neg (Nat.not_lt.mpr h)

theorem within_of_lt {τ : Tier} (h : s.tier.rank < τ.rank) :
    s.within τ = .leftParen :: (s.tokens ++ [.rightParen]) := if_pos h

@[simp] theorem within_expression (s : Script) : s.within .expression = s.tokens :=
  within_of_le (Nat.zero_le _)

theorem spliceMark_eq (shift : Int64) : spliceMark shift = .tilde :: (spliceMark shift).tail := by
  rw [spliceMark]
  split <;> rfl

end Script

namespace Term

mutual

def script : Term → Script
  | .var id => ⟨.atom, [.identifier id.text]⟩
  | .int n => .ofInt n
  | .bool b => ⟨.atom, [.boolean b]⟩
  | .lam param body =>
    ⟨.expression, .fnWord :: .identifier param.text :: .arrow :: body.script.tokens⟩
  | .fix self body =>
    ⟨.expression, .fixWord :: .identifier self.text :: .arrow :: body.script.tokens⟩
  | .letIn id bound body =>
    ⟨.expression, .letWord :: .identifier id.text :: .assign ::
      (bound.script.tokens ++ .inWord :: body.script.tokens)⟩
  | .ite cond yes no =>
    ⟨.expression, .ifWord :: (cond.script.tokens ++ .thenWord ::
      (yes.script.tokens ++ .elseWord :: no.script.tokens))⟩
  | .app fn arg => ⟨.application, fn.script.within .application ++ arg.script.within .atom⟩
  | .logic op left right => .chained op.tier (.ofLogic op) left.script right.script
  | .prim op args => .ofPrim op (scripts args)
  | .quote body => ⟨.atom, .quoteOpen :: (body.script.tokens ++ [.rightBrace])⟩
  | .splice shift body =>
    ⟨.atom, Script.spliceMark shift ++ .leftBrace :: (body.script.tokens ++ [.rightBrace])⟩

def scripts : List Term → List Script
  | [] => []
  | t :: ts => t.script :: scripts ts

end

mutual

/-- The term with its identifiers replaced and with every literal below zero as a subtraction from
zero. -/
def unsign (spell : Ident → Ident) : Term → Term
  | .var id => .var (spell id)
  | .int n => if n < 0 then .prim (.arith .sub) [.int 0, .int (-n)] else .int n
  | .bool b => .bool b
  | .lam param body => .lam (spell param) (body.unsign spell)
  | .fix self body => .fix (spell self) (body.unsign spell)
  | .letIn id bound body => .letIn (spell id) (bound.unsign spell) (body.unsign spell)
  | .ite cond yes no => .ite (cond.unsign spell) (yes.unsign spell) (no.unsign spell)
  | .app fn arg => .app (fn.unsign spell) (arg.unsign spell)
  | .logic op left right => .logic op (left.unsign spell) (right.unsign spell)
  | .prim op args => .prim op (unsignAll spell args)
  | .quote body => .quote (body.unsign spell)
  | .splice shift body => .splice shift (body.unsign spell)

def unsignAll (spell : Ident → Ident) : List Term → List Term
  | [] => []
  | t :: ts => t.unsign spell :: unsignAll spell ts

end

/-- What the written form of the term reads as: identifiers are taken by their texts. -/
def reread (t : Term) : Term := t.unsign fun id => .raw id.text

/-- The term without literals below zero. -/
def unsigned (t : Term) : Term := t.unsign id

theorem unsignAll_eq_map (spell : Ident → Ident) (ts : List Term) :
    unsignAll spell ts = ts.map (unsign spell) := by
  induction ts with
  | nil => rfl
  | cons t ts ih => rw [unsignAll, ih, List.map_cons]

/-- The operands of a primitive that has as many as it takes. -/
inductive Operands : PrimOp → List Term → Prop
  | one (a : Term) : Operands .negate [a]
  | arith (op : ArithOp) (a b : Term) : Operands (.arith op) [a, b]
  | compare (op : CompareOp) (a b : Term) : Operands (.compare op) [a, b]

theorem operands_of_length {op : PrimOp} {args : List Term} (h : args.length = op.arity) :
    Operands op args := by
  match op, args, h with
  | .negate, [a], _ => exact .one a
  | .arith op, [a, b], _ => exact .arith op a b
  | .compare op, [a, b], _ => exact .compare op a b

theorem operands_of_saturated {op : PrimOp} {args : List Term}
    (h : (Term.prim op args).saturated = true) :
    Operands op args ∧ ∀ a ∈ args, a.saturated = true := by
  simp only [saturated, every, Bool.and_eq_true, decide_eq_true_eq, everyAll_iff] at h
  exact ⟨operands_of_length h.1, h.2⟩

end Term

end StagedLambda
