import StagedLambda.Typing.Ty
import StagedLambda.Wording

/-!
# Solving equations between types

A solution gives types to some of the variables of inference; those types may hold other solved
variables, which are followed when they are met. Two types are made equal part by part, and where
one of them is an unsolved variable, it is solved by the other.

Nothing in a solution keeps its variables from running in a circle, and then to follow them would
not end. So these functions are partial: `none` is the outcome of a computation that goes on for
ever.
-/

namespace StagedLambda

inductive TypeError
  | mismatch (expected found : Ty)
  | unbound (id : Ident)
  /-- A variable would have to be a part of its own type. -/
  | infinite (id : Nat) (ty : Ty)
  | staged
  | malformedFixpoint (self : Ident)
  | arity (op : PrimOp) (found : Nat)
deriving DecidableEq

def TypeError.message : TypeError → String
  | .mismatch expected found =>
    "type mismatch: expected " ++ expected.text ++ ", found " ++ found.text
  | .unbound id => Wording.unbound id
  | .infinite id ty => "infinite type: " ++ (Ty.var id).text ++ " occurs in " ++ ty.text
  | .staged => "quotes and splices cannot be type checked"
  | .malformedFixpoint self => Wording.malformedFixpoint self
  | .arity op found => Wording.arity op found

/-- The types of the solved variables. -/
structure Solution where
  entries : List (Nat × Ty) := []
deriving DecidableEq

namespace Solution

def lookup (s : Solution) (id : Nat) : Option Ty := s.entries.lookup id

def insert (s : Solution) (id : Nat) (t : Ty) : Solution := ⟨(id, t) :: s.entries⟩

/-- Follows solved variables to a type that is not one. -/
def resolve (s : Solution) (t : Ty) : Option Ty :=
  match t with
  | .var v =>
    match s.lookup v with
    | some u => s |>.resolve u
    | none => some t
  | .int | .bool | .fn _ _ => some t
partial_fixpoint

/-- Replaces all solved variables. -/
def zonk (s : Solution) (t : Ty) : Option Ty := do
  match ← s.resolve t with
  | .fn param result => return .fn (← s |>.zonk param) (← s |>.zonk result)
  | t => return t
partial_fixpoint

/-- Whether a variable is a part of a type. -/
def occurs (s : Solution) (id : Nat) (t : Ty) : Option Bool := do
  match ← s.resolve t with
  | .var v => return v = id
  | .fn param result => if ← s |>.occurs id param then return true else s |>.occurs id result
  | .int | .bool => return false
partial_fixpoint

/-- Solves an unsolved variable by a type that it is not a part of. -/
def assign (s : Solution) (id : Nat) (t : Ty) : Option (Except TypeError Solution) := do
  if ← s.occurs id t then return .error (.infinite id (← s.zonk t))
  else return .ok (s.insert id t)

/-- Extends a solution so that it makes two types equal. -/
def unify (s : Solution) (expected found : Ty) : Option (Except TypeError Solution) := do
  match ← s.resolve expected, ← s.resolve found with
  | .int, .int | .bool, .bool => return .ok s
  | .var a, other => if other = .var a then return .ok s else s.assign a other
  | other, .var b => s.assign b other
  | .fn p r, .fn q t =>
    match ← s |>.unify p q with
    | .ok s' => s' |>.unify r t
    | .error e => return .error e
  | expected, found => return .error (.mismatch (← s.zonk expected) (← s.zonk found))
partial_fixpoint

end Solution

end StagedLambda
