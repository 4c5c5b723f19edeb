import StagedLambda.Term.Basic
import StagedLambda.Typing.Unification

/-!
# Type inference

Monomorphic inference for unstaged terms: every binder gets one type, found by unification.
Variables are numbered in the order in which inference asks for them, and the parts of a term are
visited from left to right, so the first fault in that order is the one reported. A quote or a
splice has no type.

All that inference does with what is known about the variables is to make a new one and to unify
two types. So it is written as a series of such requests, and carried out by `Infer.run`, which
could only fail to end if a solution ran in a circle.
-/

namespace StagedLambda

/-- The number of variables made so far and what is known about them. -/
structure Inference where
  fresh : Nat := 0
  solution : Solution := {}
deriving DecidableEq

/-- The types of the identifiers in scope, innermost first. -/
abbrev Context := List (Ident × Ty)

namespace Inference

/-- A computation that asks for new variables and for types to be made equal. -/
inductive Infer (α : Type)
  | done (a : α)
  | fail (e : TypeError)
  /-- Goes on with a variable that nothing is known about. -/
  | newVar (rest : Ty → Infer α)
  | unify (expected found : Ty) (rest : Infer α)

namespace Infer

variable {α β : Type}

def bind : Infer α → (α → Infer β) → Infer β
  | .done a, next => next a
  | .fail e, _ => .fail e
  | .newVar rest, next => .newVar fun t => (rest t).bind next
  | .unify expected found rest, next => .unify expected found (rest.bind next)

instance : Monad Infer where
  pure := .done
  bind := bind

def run : Infer α → Inference → Option (Except TypeError (α × Inference))
  | .done a, s => return .ok (a, s)
  | .fail e, _ => return .error e
  | .newVar rest, s => (rest (.var s.fresh)).run { s with fresh := s.fresh + 1 }
  | .unify expected found rest, s => do
    match ← s.solution.unify expected found with
    | .ok solution => rest.run { s with solution }
    | .error e => return .error e

/-- What a computation goes on with is carried out from where it has got. -/
theorem run_bind (x : Infer α) (next : α → Infer β) (s : Inference) :
    (x >>= next).run s = x.run s >>= fun r =>
      match r with
      | .ok (a, s₁) => (next a).run s₁
      | .error e => return .error e := by
  show (x.bind next).run s = _
  induction x generalizing s with
  | done | fail => rfl
  | newVar rest ih => exact ih (.var s.fresh) _
  | unify expected found rest ih =>
    rw [bind, run, run]
    rcases s.solution.unify expected found with _ | _ | solution
    · rfl
    · rfl
    · exact ih _

end Infer

def newVar : Infer Ty := .newVar .done

def unify (expected found : Ty) : Infer Unit := .unify expected found (.done ())

def fail {α : Type} (e : TypeError) : Infer α := .fail e

mutual

def infer (ctx : Context) : Term → Infer Ty
  | .var id =>
    match ctx.lookup id with
    | some ty => pure ty
    | none => fail (.unbound id)
  | .int _ => pure .int
  | .bool _ => pure .bool
  | .lam param body => do
    let paramTy ← newVar
    let bodyTy ← infer ((param, paramTy) :: ctx) body
    return .fn paramTy bodyTy
  | .app fn arg => do
    let fnTy ← infer ctx fn
    let argTy ← infer ctx arg
    let result ← newVar
    unify fnTy (.fn argTy result)
    return result
  | .prim op args =>
    if args.length = op.arity then do
      inferOperands ctx op.operands args
      return op.result.toTy
    else fail (.arity op args.length)
  | .logic _ left right => do
    unify .bool (← infer ctx left)
    unify .bool (← infer ctx right)
    return .bool
  | .ite cond yes no => do
    unify .bool (← infer ctx cond)
    let yesTy ← infer ctx yes
    let noTy ← infer ctx no
    unify yesTy noTy
    return yesTy
  | .fix self body =>
    if body.isLam then do
      let selfTy ← newVar
      let bodyTy ← infer ((self, selfTy) :: ctx) body
      unify selfTy bodyTy
      return bodyTy
    else fail (.malformedFixpoint self)
  | .letIn id bound body => do
    let boundTy ← infer ctx bound
    infer ((id, boundTy) :: ctx) body
  | .quote _ | .splice _ _ => fail .staged

/-- Gives each operand the kind that its operator declares. -/
def inferOperands (ctx : Context) : List BaseKind → List Term → Infer Unit
  | kind :: kinds, arg :: args => do
    unify kind.toTy (← infer ctx arg)
    inferOperands ctx kinds args
  | _, _ => pure ()

end

/-- **From an acyclic solution a computation ends**, and a successful one leaves such a solution. -/
theorem Infer.exists_run {α : Type} (x : Infer α) {s : Inference} (hs : s.solution.Acyclic) :
    ∃ r, x.run s = some r ∧ ∀ a s', r = .ok (a, s') → s'.solution.Acyclic := by
  induction x generalizing s with
  | done a =>
    refine ⟨_, rfl, fun a s' h => ?_⟩
    cases h
    exact hs
  | fail e => exact ⟨_, rfl, nofun⟩
  | newVar rest ih => exact ih (.var s.fresh) (s := { s with fresh := s.fresh + 1 }) hs
  | unify expected found rest ih =>
    obtain ⟨r, hUnify, hDecides⟩ := hs.unify expected found
    rw [run, hUnify]
    cases hDecides with
    | ok hSolves => exact ih hSolves.acyclic
    | error => exact ⟨_, rfl, nofun⟩

end Inference

namespace Term

/-- Infers the type of a closed unstaged term and replaces the variables that were solved. -/
def check (t : Term) : Option (Except TypeError Ty) := do
  match ← (Inference.infer [] t).run {} with
  | .ok (ty, s) => return .ok (← s.solution.zonk ty)
  | .error e => return .error e

theorem isSome_check (t : Term) : t.check.isSome := by
  obtain ⟨r, hRun, hAcyclic⟩ :=
    (Inference.infer [] t).exists_run (s := {}) Solution.acyclic_empty
  rw [check, hRun]
  cases r with
  | error e => rfl
  | ok r =>
    have hZonk := (hAcyclic r.1 r.2 rfl).zonk_eq r.1
    simp only [Option.bind_eq_bind, Option.bind_some, hZonk, Option.pure_def, Option.isSome_some]

/-- The type of a closed unstaged term. -/
def typeOf (t : Term) : Except TypeError Ty := t.check.get t.isSome_check

theorem typeOf_eq_ok_iff {t : Term} {T : Ty} :
    t.typeOf = .ok T ↔ ∃ s U, (Inference.infer [] t).run {} = some (.ok (U, s)) ∧
      s.solution.zonk U = some T := by
  have hCheck : t.typeOf = .ok T ↔ t.check = some (.ok T) := by
    rw [← Option.some_inj, typeOf, Option.some_get]
  rw [hCheck, check]
  rcases (Inference.infer [] t).run {} with _ | _ | ⟨U, s⟩
  · simp
  · simp
  · simp only [Option.bind_eq_bind, Option.bind_some, Option.bind_eq_some_iff, Option.pure_def,
      Option.some_inj, Except.ok.injEq, Prod.mk.injEq, exists_eq_right]
    constructor
    · exact fun h => ⟨s, U, ⟨rfl, rfl⟩, h⟩
    · rintro ⟨_, _, ⟨rfl, rfl⟩, h⟩
      exact h

end Term

end StagedLambda
