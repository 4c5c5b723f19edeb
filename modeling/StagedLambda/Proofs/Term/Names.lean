import StagedLambda.Term.Scope

/-!
# The identifiers of a term

The variables and the binders of a term, from left to right as they are written.  A term is
*written* when it has the identifiers that a program text can have: its variables are names, and
its binders are names or binders without a spelling.  A term is *closed* when nothing occurs free
in it.
-/

namespace StagedLambda.Term

mutual

/-- The variables, from left to right. -/
def vars : Term → List Ident
  | .var id => [id]
  | .int _ | .bool _ => []
  | .lam _ body | .fix _ body | .quote body | .splice _ body => body.vars
  | .app a b | .logic _ a b | .letIn _ a b => a.vars ++ b.vars
  | .ite a b c => a.vars ++ b.vars ++ c.vars
  | .prim _ args => varsAll args

def varsAll : List Term → List Ident
  | [] => []
  | t :: ts => t.vars ++ varsAll ts

end

mutual

/-- The binders, from left to right. -/
def binders : Term → List Ident
  | .var _ | .int _ | .bool _ => []
  | .lam id body | .fix id body => id :: body.binders
  | .quote body | .splice _ body => body.binders
  | .app a b | .logic _ a b => a.binders ++ b.binders
  | .letIn id a b => id :: (a.binders ++ b.binders)
  | .ite a b c => a.binders ++ b.binders ++ c.binders
  | .prim _ args => bindersAll args

def bindersAll : List Term → List Ident
  | [] => []
  | t :: ts => t.binders ++ bindersAll ts

end

theorem varsAll_eq_flatMap (ts : List Term) : varsAll ts = ts.flatMap vars := by
  induction ts with
  | nil => rfl
  | cons t ts ih => rw [varsAll, ih, List.flatMap_cons]

theorem bindersAll_eq_flatMap (ts : List Term) : bindersAll ts = ts.flatMap binders := by
  induction ts with
  | nil => rfl
  | cons t ts ih => rw [bindersAll, ih, List.flatMap_cons]

/-- The term has identifiers as a program text has them. -/
structure Written (t : Term) : Prop where
  vars : ∀ id ∈ t.vars, id.isRaw = true
  /-- A binder is a name or has no spelling. -/
  binders : ∀ id ∈ t.binders, id.isColored = false

instance (t : Term) : Decidable t.Written :=
  decidable_of_iff ((∀ id ∈ t.vars, id.isRaw = true) ∧
    ∀ id ∈ t.binders, id.isColored = false)
    ⟨fun h => ⟨h.1, h.2⟩, fun h => ⟨h.vars, h.binders⟩⟩

/-- Nothing occurs free in the term. -/
def Closed (t : Term) : Prop := ∀ id, t.occursFree id = false

/-! ### Where identifiers occur free -/

section

variable {x : Ident}

@[simp] theorem occursFree_var {id : Ident} : (var id).occursFree x = true ↔ id = x :=
  decide_eq_true_iff

@[simp] theorem occursFree_lam {param : Ident} {body : Term} :
    (lam param body).occursFree x = true ↔ param ≠ x ∧ body.occursFree x = true := by
  show (decide (param ≠ x) && body.occursFree x) = true ↔ _
  rw [Bool.and_eq_true, decide_eq_true_iff]

@[simp] theorem occursFree_fix {self : Ident} {body : Term} :
    (fix self body).occursFree x = true ↔ self ≠ x ∧ body.occursFree x = true := by
  show (decide (self ≠ x) && body.occursFree x) = true ↔ _
  rw [Bool.and_eq_true, decide_eq_true_iff]

@[simp] theorem occursFree_app {fn arg : Term} :
    (app fn arg).occursFree x = true ↔ fn.occursFree x = true ∨ arg.occursFree x = true := by
  show (fn.occursFree x || arg.occursFree x) = true ↔ _
  rw [Bool.or_eq_true]

@[simp] theorem occursFree_prim {op : PrimOp} {args : List Term} :
    (prim op args).occursFree x = true ↔ ∃ a ∈ args, a.occursFree x = true := by
  show anyOccursFree x args = true ↔ _
  rw [anyOccursFree_eq_any, List.any_eq_true]

@[simp] theorem occursFree_logic {op : LogicOp} {left right : Term} :
    (logic op left right).occursFree x = true ↔
      left.occursFree x = true ∨ right.occursFree x = true := by
  show (left.occursFree x || right.occursFree x) = true ↔ _
  rw [Bool.or_eq_true]

@[simp] theorem occursFree_ite {cond yes no : Term} :
    (ite cond yes no).occursFree x = true ↔
      cond.occursFree x = true ∨ yes.occursFree x = true ∨ no.occursFree x = true := by
  show (cond.occursFree x || yes.occursFree x || no.occursFree x) = true ↔ _
  rw [Bool.or_eq_true, Bool.or_eq_true, or_assoc]

@[simp] theorem occursFree_letIn {id : Ident} {bound body : Term} :
    (letIn id bound body).occursFree x = true ↔
      bound.occursFree x = true ∨ id ≠ x ∧ body.occursFree x = true := by
  show (bound.occursFree x || (decide (id ≠ x) && body.occursFree x)) = true ↔ _
  rw [Bool.or_eq_true, Bool.and_eq_true, decide_eq_true_iff]

end

/-- Everything that occurs free has a property.  A body under its binder is stated as an
abstraction. -/
def EachFree (P : Ident → Prop) (t : Term) : Prop := ∀ x, t.occursFree x = true → P x

namespace EachFree

variable {P Q : Ident → Prop}

theorem mono {t : Term} (hPQ : ∀ x, P x → Q x) (h : t.EachFree P) : t.EachFree Q :=
  fun x hx => hPQ x (h x hx)

theorem app {fn arg : Term} (h : (app fn arg).EachFree P) : fn.EachFree P ∧ arg.EachFree P :=
  ⟨fun x hx => h x (occursFree_app.mpr (.inl hx)), fun x hx => h x (occursFree_app.mpr (.inr hx))⟩

theorem prim {op : PrimOp} {args : List Term} (h : (prim op args).EachFree P) :
    ∀ a ∈ args, a.EachFree P :=
  fun a ha x hx => h x (occursFree_prim.mpr ⟨a, ha, hx⟩)

theorem logic {op : LogicOp} {left right : Term} (h : (logic op left right).EachFree P) :
    left.EachFree P ∧ right.EachFree P :=
  ⟨fun x hx => h x (occursFree_logic.mpr (.inl hx)),
    fun x hx => h x (occursFree_logic.mpr (.inr hx))⟩

theorem ite {cond yes no : Term} (h : (ite cond yes no).EachFree P) :
    cond.EachFree P ∧ yes.EachFree P ∧ no.EachFree P :=
  ⟨fun x hx => h x (occursFree_ite.mpr (.inl hx)),
    fun x hx => h x (occursFree_ite.mpr (.inr (.inl hx))),
    fun x hx => h x (occursFree_ite.mpr (.inr (.inr hx)))⟩

theorem letIn {id : Ident} {bound body : Term} (h : (letIn id bound body).EachFree P) :
    bound.EachFree P ∧ (lam id body).EachFree P :=
  ⟨fun x hx => h x (occursFree_letIn.mpr (.inl hx)),
    fun x hx => h x (occursFree_letIn.mpr (.inr (occursFree_lam.mp hx)))⟩

theorem fix {self : Ident} {body : Term} (h : (fix self body).EachFree P) :
    (lam self body).EachFree P :=
  fun x hx => h x (occursFree_fix.mpr (occursFree_lam.mp hx))

end EachFree

/-- What occurs free is one of the variables. -/
theorem mem_vars_of_occursFree {x : Ident} {t : Term} (h : t.occursFree x = true) :
    x ∈ t.vars := by
  induction t with
  | var id =>
    rw [occursFree_var] at h
    exact List.mem_singleton.mpr h.symm
  | int | bool => cases h
  | lam param body ih | fix param body ih =>
    simp only [occursFree_lam, occursFree_fix] at h
    exact ih h.2
  | quote body ih | splice _ body ih => exact ih h
  | app a b iha ihb | logic _ a b iha ihb =>
    simp only [occursFree_app, occursFree_logic] at h
    exact List.mem_append.mpr (h.imp iha ihb)
  | letIn id a b iha ihb =>
    rw [occursFree_letIn] at h
    exact List.mem_append.mpr (h.imp iha fun hb => ihb hb.2)
  | ite a b c iha ihb ihc =>
    rw [occursFree_ite] at h
    rcases h with ha | hb | hc
    · exact List.mem_append_left _ (List.mem_append_left _ (iha ha))
    · exact List.mem_append_left _ (List.mem_append_right _ (ihb hb))
    · exact List.mem_append_right _ (ihc hc)
  | prim op args ih =>
    rw [occursFree_prim] at h
    obtain ⟨a, ha, hFree⟩ := h
    rw [vars, varsAll_eq_flatMap]
    exact List.mem_flatMap.mpr ⟨a, ha, ih a ha hFree⟩

/-- Only the variables of a term can occur free in it. -/
instance (t : Term) : Decidable t.Closed :=
  decidable_of_iff (∀ id ∈ t.vars, t.occursFree id = false)
    ⟨fun h id => Bool.eq_false_iff.mpr fun hid =>
      Bool.eq_false_iff.mp (h id (mem_vars_of_occursFree hid)) hid, fun h id _ => h id⟩

instance (P : Ident → Prop) [DecidablePred P] (t : Term) : Decidable (t.EachFree P) :=
  decidable_of_iff (∀ id ∈ t.vars, t.occursFree id = true → P id)
    ⟨fun h id hid => h id (mem_vars_of_occursFree hid) hid, fun h id _ => h id⟩

end StagedLambda.Term
