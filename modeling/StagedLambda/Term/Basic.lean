import StagedLambda.Operator
import StagedLambda.Ident

/-!
# Terms

The abstract form of programs and of code fragments. A primitive may carry any number of
operands: only evaluation compares their number with the operator's arity.

Primitives hold a list of terms, so induction goes by `Term.induct`, which hands out the
hypothesis for every operand in the list.
-/

namespace StagedLambda

inductive Term
  | var (id : Ident)
  | lam (param : Ident) (body : Term)
  | app (fn arg : Term)
  | int (value : Int64)
  | bool (value : Bool)
  | prim (op : PrimOp) (args : List Term)
  | logic (op : LogicOp) (left right : Term)
  | ite (cond yes no : Term)
  /-- A function that may call itself by the name `self`; the body has to be a `lam`. -/
  | fix (self : Ident) (body : Term)
  | quote (body : Term)
  /-- Crosses `shift` stage boundaries. The shift is signed: a senseless one is reported when the
  term is evaluated. -/
  | splice (shift : Int64) (body : Term)
  | letIn (id : Ident) (bound body : Term)

namespace Term

def isLam : Term → Bool
  | .lam _ _ => true
  | _ => false

@[induction_eliminator]
theorem induct {P : Term → Prop}
    (var : ∀ id, P (.var id))
    (lam : ∀ param body, P body → P (.lam param body))
    (app : ∀ fn arg, P fn → P arg → P (.app fn arg))
    (int : ∀ value, P (.int value))
    (bool : ∀ value, P (.bool value))
    (prim : ∀ op args, (∀ a ∈ args, P a) → P (.prim op args))
    (logic : ∀ op left right, P left → P right → P (.logic op left right))
    (ite : ∀ cond yes no, P cond → P yes → P no → P (.ite cond yes no))
    (fix : ∀ self body, P body → P (.fix self body))
    (quote : ∀ body, P body → P (.quote body))
    (splice : ∀ shift body, P body → P (.splice shift body))
    (letIn : ∀ id bound body, P bound → P body → P (.letIn id bound body)) : ∀ t, P t :=
  @Term.rec P (fun args => ∀ a ∈ args, P a) var lam app int bool prim logic ite fix quote splice
    letIn (fun _ ha => nomatch ha)
    fun _ _ hHead hTail _ ha => (List.mem_cons.mp ha).elim (fun h => h ▸ hHead) (hTail _)

/-! ### Equality -/

mutual

/-- Whether two terms are the same, identifiers and tags included. -/
def same : Term → Term → Bool
  | .var a, .var b => a = b
  | .lam x s, .lam y t => x = y && s.same t
  | .app f a, .app g b => f.same g && a.same b
  | .int m, .int n => m = n
  | .bool a, .bool b => a = b
  | .prim o as, .prim p bs => o = p && sameAll as bs
  | .logic o a b, .logic p c d => o = p && a.same c && b.same d
  | .ite a b c, .ite d e f => a.same d && b.same e && c.same f
  | .fix x s, .fix y t => x = y && s.same t
  | .quote s, .quote t => s.same t
  | .splice m s, .splice n t => m = n && s.same t
  | .letIn x a s, .letIn y b t => x = y && a.same b && s.same t
  | _, _ => false

def sameAll : List Term → List Term → Bool
  | [], [] => true
  | a :: as, b :: bs => a.same b && sameAll as bs
  | _, _ => false

end

theorem sameAll_iff {as : List Term} (h : ∀ a ∈ as, ∀ b, a.same b = true ↔ a = b) (bs : List Term) :
    sameAll as bs = true ↔ as = bs := by
  induction as generalizing bs with
  | nil => cases bs <;> simp [sameAll]
  | cons a as ih =>
    cases bs with
    | nil => simp [sameAll]
    | cons b bs =>
      simp [sameAll, h a (by simp) b, ih (fun x hx => h x (by simp [hx])) bs]

theorem same_iff (s t : Term) : s.same t = true ↔ s = t := by
  induction s generalizing t with
  | prim op args ih => cases t <;> simp [same, sameAll_iff ih]
  | var | int | bool => cases t <;> simp [same]
  | lam _ _ ih | fix _ _ ih | quote _ ih | splice _ _ ih => cases t <;> simp [same, ih]
  | app _ _ ih₁ ih₂ | logic _ _ _ ih₁ ih₂ | letIn _ _ _ ih₁ ih₂ =>
    cases t <;> simp [same, ih₁, ih₂, and_assoc]
  | ite _ _ _ ih₁ ih₂ ih₃ => cases t <;> simp [same, ih₁, ih₂, ih₃, and_assoc]

instance : DecidableEq Term := fun s t => decidable_of_iff _ (same_iff s t)

end Term

end StagedLambda
