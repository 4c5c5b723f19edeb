import StagedLambda.Distinct
import StagedLambda.Ident

/-!
# Renaming environments

A renaming sends the identifiers in scope to the colors of their innermost binders. Entering a
binder extends it for the binder's body only, and a later entry hides an earlier one.
-/

namespace StagedLambda

/-- The entries of a renaming, innermost first. -/
structure Renaming where
  entries : List (Ident × Ident) := []
deriving DecidableEq

namespace Renaming

def empty : Renaming := ⟨[]⟩

def bind (env : Renaming) (source target : Ident) : Renaming := ⟨(source, target) :: env.entries⟩

/-- The innermost renaming of `id`, if there is one. -/
def lookup (env : Renaming) (id : Ident) : Option Ident := env.entries.lookup id

/-- What an occurrence of `id` refers to. A raw name must have been renamed by a binder around it;
a generated or colored one is already unique and stands for itself unless a binder renamed it
once more. -/
def resolve (env : Renaming) (id : Ident) : Option Ident :=
  match env.lookup id with
  | some target => some target
  | none => if id.isRaw then none else some id

/-- The number of identifiers with a renaming. -/
def size (env : Renaming) : Nat := distinct (env.entries.map Prod.fst)

@[simp] theorem lookup_empty (id : Ident) : empty.lookup id = none := rfl

theorem lookup_bind (env : Renaming) (source target id : Ident) :
    (env.bind source target).lookup id = if id = source then some target else env.lookup id := by
  by_cases h : id = source
  · simp [lookup, bind, h]
  · simp [lookup, bind, List.lookup_cons, h, beq_false_of_ne h]

theorem resolve_bind (env : Renaming) (source target id : Ident) :
    (env.bind source target).resolve id =
      if id = source then some target else env.resolve id := by
  by_cases h : id = source
  · rw [resolve, lookup_bind, if_pos h, if_pos h]
  · rw [resolve, lookup_bind, if_neg h, if_neg h]
    rfl

end Renaming

end StagedLambda
