import StagedLambda.Proofs.Lexical.Evaluator
import StagedLambda.Proofs.Machine.Checks
import StagedLambda.Proofs.Term.Plain

/-!
# Faults of plain terms

Evaluation of a plain term whose free identifiers are all in scope never finds fault with an
identifier: none is unbound, and no fixpoint is malformed (`Lexical.eval_unnamed`).  What can go
wrong is an operand of the wrong kind, or arithmetic.
-/

namespace StagedLambda

/-- The identifier that a fault is about. -/
def Fault.id? : Fault → Option Ident
  | .unbound id | .futureBinding id | .malformedFixpoint id | .scopeExtrusion id => some id
  | _ => none

namespace Lexical

/-- The identifiers in scope. -/
def Env.Covers (env : Env) (x : Ident) : Prop := ∃ r, env.lookup x = some r

/-- A function with a plain body, which has the free identifiers of the body in scope; the same
holds of everything in scope. -/
inductive Result.Sound : Result → Prop
  | int (n : Int64) : Result.Sound (.int n)
  | bool (b : Bool) : Result.Sound (.bool b)
  | function {self? : Option Ident} {param : Ident} {body : Term} {env : List (Ident × Result)}
      (hPlain : body.Plain)
      (hFree : (Term.lam param body).EachFree fun x => self? = some x ∨ Env.Covers env x)
      (hEnv : ∀ x r, env.lookup x = some r → Result.Sound r) :
      Result.Sound (.function self? param body env)

def Env.Sound (env : Env) : Prop := ∀ x r, env.lookup x = some r → r.Sound

/-- A result is as wanted; a fault is not about an identifier. -/
def Answer.Unnamed {α : Type} (Q : α → Prop) : Answer α → Prop
  | .done a => Q a
  | .failed f => f.id? = none
  | .unfinished => True

theorem Answer.Unnamed.bind {α β : Type} {Q : α → Prop} {Q' : β → Prop} {x : Answer α}
    {next : α → Answer β} (hx : x.Unnamed Q) (hNext : ∀ a, Q a → (next a).Unnamed Q') :
    (x >>= next).Unnamed Q' := by
  cases x with
  | done a => exact hNext a hx
  | failed f => exact hx
  | unfinished => trivial

theorem Result.asInt_unnamed (r : Result) (consumer : Consumer) :
    (r.asInt consumer).Unnamed fun _ => True := by
  cases r <;> trivial

theorem Result.asBool_unnamed (r : Result) (consumer : Consumer) :
    (r.asBool consumer).Unnamed fun _ => True := by
  cases r <;> trivial

theorem compute_unnamed (op : ArithOp) (a b : Int64) :
    (Answer.ofExcept (Arithmetic.compute op a b)).Unnamed fun _ => True := by
  cases hCompute : Arithmetic.compute op a b with
  | ok n => trivial
  | error f =>
    rcases Arithmetic.compute_eq_error hCompute with rfl | rfl
    · rfl
    · rfl

theorem operate_unnamed (op : PrimOp) (rs : List Result) :
    (operate op rs).Unnamed Result.Sound := by
  rcases rs with _ | ⟨x, _ | ⟨y, _ | ⟨z, rest⟩⟩⟩
  · rfl
  · cases op with
    | negate => exact (x.asBool_unnamed _).bind fun b _ => .bool _
    | arith | compare => rfl
  · cases op with
    | negate => rfl
    | arith o =>
      refine (x.asInt_unnamed _).bind fun a _ => (y.asInt_unnamed _).bind fun b _ => ?_
      exact (compute_unnamed o a b).bind fun n _ => .int n
    | compare o =>
      exact (x.asInt_unnamed _).bind fun a _ => (y.asInt_unnamed _).bind fun b _ => .bool _
  · rfl

theorem evalAll_unnamed {eval : Term → Answer Result} {args : List Term}
    (h : ∀ a ∈ args, (eval a).Unnamed Result.Sound) :
    (evalAll eval args).Unnamed fun _ => True := by
  induction args with
  | nil => trivial
  | cons a args ih =>
    refine (h a List.mem_cons_self).bind fun r _ => ?_
    exact (ih fun b hb => h b (List.mem_cons_of_mem a hb)).bind fun rs _ => trivial

/-! ### Scopes -/

section

variable {env : Env} {x y : Ident} {r : Result}

theorem Env.lookup_cons :
    ((y, r) :: env : Env).lookup x = if x = y then some r else env.lookup x := by
  rw [List.lookup_cons]
  by_cases h : x = y
  · simp [h]
  · simp [h, beq_false_of_ne h]

theorem Env.covers_cons : Env.Covers ((y, r) :: env) x ↔ x = y ∨ Env.Covers env x := by
  unfold Env.Covers
  rw [Env.lookup_cons]
  by_cases h : x = y
  · simp [h]
  · simp [h]

/-- A body under its binder. -/
theorem eachFree_cons {body : Term} (h : (Term.lam y body).EachFree (Env.Covers env)) :
    body.EachFree (Env.Covers ((y, r) :: env)) := by
  intro x hx
  rw [Env.covers_cons]
  by_cases hxy : x = y
  · exact .inl hxy
  · exact .inr (h x (Term.occursFree_lam.mpr ⟨Ne.symm hxy, hx⟩))

theorem Env.Sound.cons (hEnv : env.Sound) (hr : r.Sound) : Env.Sound ((y, r) :: env) := by
  intro x r' hx
  rw [Env.lookup_cons] at hx
  by_cases hxy : x = y
  · rw [if_pos hxy] at hx
    exact Option.some.inj hx ▸ hr
  · rw [if_neg hxy] at hx
    exact hEnv x r' hx

end

theorem call_unnamed {eval : Env → Term → Answer Result} {fn arg : Result} (hFn : fn.Sound)
    (hArg : arg.Sound)
    (hEval : ∀ {env : Env} {t : Term}, t.Plain → t.EachFree (Env.Covers env) →
      env.Sound → (eval env t).Unnamed Result.Sound) :
    (call eval fn arg).Unnamed Result.Sound := by
  cases hFn with
  | int | bool => rfl
  | @function self? param body env hPlain hFree hEnv =>
    cases self? with
    | none =>
      refine hEval hPlain (eachFree_cons ?_) (Env.Sound.cons hEnv hArg)
      intro x hx
      rcases hFree x hx with hSelf | hx
      · cases hSelf
      · exact hx
    | some self =>
      have hSelf := Env.Sound.cons (y := self) hEnv (.function hPlain hFree hEnv)
      refine hEval hPlain (eachFree_cons ?_) (hSelf.cons hArg)
      intro x hx
      refine Env.covers_cons.mpr ?_
      rcases hFree x hx with hSelf | hx
      · exact .inl (Option.some.inj hSelf).symm
      · exact .inr hx

/-- **Evaluation of a plain term does not find fault with an identifier**, if those that occur
free are in scope. -/
theorem eval_unnamed (fuel : Nat) {env : Env} {t : Term} (hPlain : t.Plain)
    (hFree : t.EachFree (Env.Covers env)) (hEnv : env.Sound) :
    (eval fuel env t).Unnamed Result.Sound := by
  induction fuel generalizing env t with
  | zero => trivial
  | succ fuel ih =>
    cases t with
    | var id =>
      obtain ⟨r, hr⟩ := hFree id (Term.occursFree_var.mpr rfl)
      simp only [eval, hr]
      exact hEnv id r hr
    | int n => exact .int n
    | bool b => exact .bool b
    | lam param body => exact .function hPlain.lam (hFree.mono fun _ hx => .inr hx) hEnv
    | fix self body =>
      obtain ⟨hLam, hBody⟩ := hPlain.fix
      cases body with
      | lam param body =>
        refine .function hBody.lam ?_ hEnv
        intro x hx
        by_cases hSelf : self = x
        · exact .inl (congrArg some hSelf)
        · exact .inr (hFree x (Term.occursFree_fix.mpr ⟨hSelf, hx⟩))
      | _ => cases hLam
    | app fn arg =>
      refine (ih hPlain.app.1 hFree.app.1 hEnv).bind fun f hf => ?_
      refine (ih hPlain.app.2 hFree.app.2 hEnv).bind fun a ha => ?_
      exact call_unnamed hf ha ih
    | prim op args =>
      obtain ⟨hLength, hArgs⟩ := hPlain.prim
      cases args with
      | nil => exact absurd hLength (Nat.ne_of_lt op.arity_pos)
      | cons first rest =>
        have hEval : eval (fuel + 1) env (.prim op (first :: rest)) =
            evalAll (eval fuel env) (first :: rest) >>= operate op := if_pos hLength
        rw [hEval]
        refine (evalAll_unnamed ?_).bind fun rs _ => operate_unnamed op rs
        exact fun a ha => ih (hArgs a ha) (hFree.prim a ha) hEnv
    | logic op left right =>
      refine (ih hPlain.logic.1 hFree.logic.1 hEnv).bind fun r _ => ?_
      refine (r.asBool_unnamed _).bind fun b _ => ?_
      by_cases hSettled : b = op.settling
      · rw [if_pos hSettled]
        exact .bool b
      · rw [if_neg hSettled]
        refine (ih hPlain.logic.2 hFree.logic.2 hEnv).bind fun r' _ => ?_
        exact (r'.asBool_unnamed _).bind fun c _ => .bool c
    | ite cond yes no =>
      refine (ih hPlain.ite.1 hFree.ite.1 hEnv).bind fun r _ => ?_
      refine (r.asBool_unnamed _).bind fun b _ => ?_
      cases b with
      | true => exact ih hPlain.ite.2.1 hFree.ite.2.1 hEnv
      | false => exact ih hPlain.ite.2.2 hFree.ite.2.2 hEnv
    | letIn id bound body =>
      refine (ih hPlain.letIn.1 hFree.letIn.1 hEnv).bind fun r hr => ?_
      exact ih hPlain.letIn.2 (eachFree_cons hFree.letIn.2) (hEnv.cons hr)
    | quote | splice => cases hPlain.unstaged

end Lexical

end StagedLambda
