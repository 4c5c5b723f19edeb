import Mathlib.Data.Set.Insert
import StagedLambda.Proofs.Term.Names
import StagedLambda.Renaming

/-!
# Terms and fragments in a scope

A term that waits with its renaming is *accounted for* in a scope when each of its free
identifiers is either renamed to a color of the scope or one of the names that the program itself
leaves free.  Code is a *fragment* of a scope when it is fully colored and mentions no free color
outside the scope.

Both notions follow the structure of terms: `Pending.under` enters a binder, and the constructors
of fragments leave one.
-/

namespace StagedLambda

/-- An occurrence of `x` either has a color of the scope or is a name that stays free. -/
def Accounted (free : Set Ident) (env : Renaming) (S : Set Ident) (x : Ident) : Prop :=
  (x ∈ free ∧ env.lookup x = none) ∨ ∃ c ∈ S, c.isColored = true ∧ env.resolve x = some c

/-- Every free identifier of a waiting term is accounted for. -/
abbrev Pending (free S : Set Ident) (p : Renaming × Term) : Prop :=
  p.2.EachFree (Accounted free p.1 S)

variable {free S S' : Set Ident} {env : Renaming}

theorem Accounted.mono {x : Ident} (hS : S ⊆ S') (h : Accounted free env S x) :
    Accounted free env S' x := by
  rcases h with h | ⟨c, hc, hColored, hName⟩
  · exact .inl h
  · exact .inr ⟨c, hS hc, hColored, hName⟩

theorem Pending.mono {p : Renaming × Term} (hS : S ⊆ S') (h : Pending free S p) :
    Pending free S' p := Term.EachFree.mono (fun _ hx => hx.mono hS) h

/-- **Entering a binder.**  Under a binder that got the color `c`, the body is accounted for in
the scope with `c`. -/
theorem Pending.under {param c : Ident} {body : Term} (hColored : c.isColored = true)
    (h : Pending free S (env, .lam param body)) :
    Pending free (insert c S) (env.bind param c, body) := by
  intro x hx
  by_cases hParam : param = x
  · right
    refine ⟨c, Set.mem_insert c S, hColored, ?_⟩
    rw [Renaming.resolve, Renaming.lookup_bind, if_pos hParam.symm]
  · have hSame : (env.bind param c).lookup x = env.lookup x := by
      rw [Renaming.lookup_bind, if_neg (Ne.symm hParam)]
    rcases h x (Term.occursFree_lam.mpr ⟨hParam, hx⟩) with
      ⟨hFree, hNone⟩ | ⟨d, hd, hdColored, hName⟩
    · exact .inl ⟨hFree, hSame.trans hNone⟩
    · refine .inr ⟨d, Set.mem_insert_of_mem c hd, hdColored, ?_⟩
      rw [Renaming.resolve, hSame]
      exact hName

/-! ### Fragments -/

/-- Fully colored code that mentions no free color outside the scope. -/
structure Fragment (S : Set Ident) (t : Term) : Prop where
  vars : ∀ id ∈ t.vars, id.isColored = true
  binders : ∀ id ∈ t.binders, id.isColored = true
  free : ∀ id, t.occursFree id = true → id ∈ S

namespace Fragment

theorem mono {t : Term} (hS : S ⊆ S') (h : Fragment S t) : Fragment S' t :=
  ⟨h.vars, h.binders, fun id hid => hS (h.free id hid)⟩

theorem var {c : Ident} (hColored : c.isColored = true) (hc : c ∈ S) : Fragment S (.var c) := by
  refine ⟨?_, nofun, ?_⟩
  · intro id hid
    rw [List.mem_singleton.mp hid]
    exact hColored
  · intro id hid
    rw [← Term.occursFree_var.mp hid]
    exact hc

theorem int (n : Int64) : Fragment S (.int n) := ⟨nofun, nofun, nofun⟩

theorem bool (b : Bool) : Fragment S (.bool b) := ⟨nofun, nofun, nofun⟩

/-- **Leaving a binder.**  A fragment of the scope with `c` is the body of one without it. -/
theorem lam {c : Ident} {body : Term} (hColored : c.isColored = true)
    (h : Fragment (insert c S) body) : Fragment S (.lam c body) := by
  refine ⟨h.vars, ?_, ?_⟩
  · intro id hid
    rcases List.mem_cons.mp hid with rfl | hid
    · exact hColored
    · exact h.binders id hid
  · intro id hid
    obtain ⟨hne, hBody⟩ := Term.occursFree_lam.mp hid
    exact (Set.mem_insert_iff.mp (h.free id hBody)).resolve_left (Ne.symm hne)

theorem fix {c : Ident} {body : Term} (hColored : c.isColored = true)
    (h : Fragment (insert c S) body) : Fragment S (.fix c body) := by
  have hLam := lam hColored h
  refine ⟨hLam.vars, hLam.binders, fun id hid => hLam.free id ?_⟩
  exact Term.occursFree_lam.mpr (Term.occursFree_fix.mp hid)

theorem app {fn arg : Term} (hFn : Fragment S fn) (hArg : Fragment S arg) :
    Fragment S (.app fn arg) := by
  refine ⟨?_, ?_, ?_⟩
  · intro id hid
    exact (List.mem_append.mp hid).elim (hFn.vars id) (hArg.vars id)
  · intro id hid
    exact (List.mem_append.mp hid).elim (hFn.binders id) (hArg.binders id)
  · intro id hid
    exact (Term.occursFree_app.mp hid).elim (hFn.free id) (hArg.free id)

theorem logic {op : LogicOp} {left right : Term} (hLeft : Fragment S left)
    (hRight : Fragment S right) : Fragment S (.logic op left right) := by
  have hApp := app hLeft hRight
  refine ⟨hApp.vars, hApp.binders, fun id hid => hApp.free id ?_⟩
  exact Term.occursFree_app.mpr (Term.occursFree_logic.mp hid)

theorem ite {cond yes no : Term} (hCond : Fragment S cond) (hYes : Fragment S yes)
    (hNo : Fragment S no) : Fragment S (.ite cond yes no) := by
  have hBoth := app (app hCond hYes) hNo
  refine ⟨hBoth.vars, hBoth.binders, fun id hid => hBoth.free id ?_⟩
  rw [Term.occursFree_app, Term.occursFree_app, or_assoc]
  exact Term.occursFree_ite.mp hid

theorem letIn {c : Ident} {bound body : Term} (hColored : c.isColored = true)
    (hBound : Fragment S bound) (hBody : Fragment (insert c S) body) :
    Fragment S (.letIn c bound body) := by
  have hLam := lam hColored hBody
  refine ⟨?_, ?_, ?_⟩
  · intro id hid
    exact (List.mem_append.mp hid).elim (hBound.vars id) (hLam.vars id)
  · intro id hid
    rcases List.mem_cons.mp hid with rfl | hid
    · exact hColored
    · exact (List.mem_append.mp hid).elim (hBound.binders id) (hBody.binders id)
  · intro id hid
    exact (Term.occursFree_letIn.mp hid).elim (hBound.free id)
      fun h => hLam.free id (Term.occursFree_lam.mpr h)

theorem prim {op : PrimOp} {args : List Term} (h : ∀ a ∈ args, Fragment S a) :
    Fragment S (.prim op args) := by
  refine ⟨?_, ?_, ?_⟩
  · intro id hid
    rw [Term.vars, Term.varsAll_eq_flatMap] at hid
    obtain ⟨a, ha, hid⟩ := List.mem_flatMap.mp hid
    exact (h a ha).vars id hid
  · intro id hid
    rw [Term.binders, Term.bindersAll_eq_flatMap] at hid
    obtain ⟨a, ha, hid⟩ := List.mem_flatMap.mp hid
    exact (h a ha).binders id hid
  · intro id hid
    obtain ⟨a, ha, hid⟩ := Term.occursFree_prim.mp hid
    exact (h a ha).free id hid

theorem quote {body : Term} (h : Fragment S body) : Fragment S (.quote body) :=
  ⟨h.vars, h.binders, h.free⟩

theorem splice {shift : Int64} {body : Term} (h : Fragment S body) :
    Fragment S (.splice shift body) :=
  ⟨h.vars, h.binders, h.free⟩

/-- A color that does not occur in a fragment can be taken out of its scope. -/
theorem leave {c : Ident} {t : Term} (h : Fragment (insert c S) t)
    (hFree : t.occursFree c = false) : Fragment S t := by
  refine ⟨h.vars, h.binders, ?_⟩
  intro id hid
  rcases Set.mem_insert_iff.mp (h.free id hid) with rfl | hid
  · rw [hFree] at hid
    cases hid
  · exact hid

/-- **Fragments need no renaming of their own**: each of their free colors stands for itself. -/
theorem pending {t : Term} (h : Fragment S t) : Pending free S (.empty, t) := by
  intro x hx
  have hColored := h.vars x (Term.mem_vars_of_occursFree hx)
  refine .inr ⟨x, h.free x hx, hColored, ?_⟩
  cases x with
  | colored => rfl
  | raw | generated => cases hColored

end Fragment

end StagedLambda
