import StagedLambda.Term.Basic

/-!
# Free identifiers and staging

An identifier occurs free in a term when some variable refers to it from outside every binder of
it, at whatever stage the variable stands. A term is staged when it holds a quote or a splice.
-/

namespace StagedLambda.Term

mutual

/-- Whether `id` occurs free, at any stage. -/
def occursFree (id : Ident) : Term → Bool
  | .var x => x = id
  | .lam param body => param ≠ id && body.occursFree id
  | .app fn arg => fn.occursFree id || arg.occursFree id
  | .int _ | .bool _ => false
  | .prim _ args => anyOccursFree id args
  | .logic _ left right => left.occursFree id || right.occursFree id
  | .ite cond yes no => cond.occursFree id || yes.occursFree id || no.occursFree id
  | .fix self body => self ≠ id && body.occursFree id
  | .quote body | .splice _ body => body.occursFree id
  | .letIn x bound body => bound.occursFree id || (x ≠ id && body.occursFree id)

def anyOccursFree (id : Ident) : List Term → Bool
  | [] => false
  | t :: ts => t.occursFree id || anyOccursFree id ts

end

theorem anyOccursFree_eq_any (id : Ident) (ts : List Term) :
    anyOccursFree id ts = ts.any (·.occursFree id) := by
  induction ts with
  | nil => rfl
  | cons t ts ih => rw [anyOccursFree, ih, List.any_cons]

mutual

/-- Whether the term holds a quote or a splice. -/
def isStaged : Term → Bool
  | .var _ | .int _ | .bool _ => false
  | .quote _ | .splice _ _ => true
  | .lam _ body | .fix _ body => body.isStaged
  | .app fn arg => fn.isStaged || arg.isStaged
  | .prim _ args => anyIsStaged args
  | .logic _ left right => left.isStaged || right.isStaged
  | .ite cond yes no => cond.isStaged || yes.isStaged || no.isStaged
  | .letIn _ bound body => bound.isStaged || body.isStaged

def anyIsStaged : List Term → Bool
  | [] => false
  | t :: ts => t.isStaged || anyIsStaged ts

end

theorem anyIsStaged_eq_any (ts : List Term) : anyIsStaged ts = ts.any isStaged := by
  induction ts with
  | nil => rfl
  | cons t ts ih => rw [anyIsStaged, ih, List.any_cons]

end StagedLambda.Term
