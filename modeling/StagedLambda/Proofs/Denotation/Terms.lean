import StagedLambda.Proofs.Denotation.Observations
import StagedLambda.Proofs.Term.Names

/-!
# The meaning of a term

A term has a meaning once its free identifiers have one.  A quote and a splice mean what is in them:
the stages say when something is computed, not what it is.  So a term means the same as the term
without its stages.

* `Term.meaning_congr`: only the free identifiers matter.
* `Term.finitary_meaning`: the meaning of a term is finitary in each of its identifiers.
* `Term.meaning_erase`: erasing the stages of a term keeps its meaning.
-/

namespace StagedLambda

open Function (update)

/-- Meanings for identifiers. -/
abbrev Valuation := Ident → Meaning

namespace Term

mutual

def meaning (ρ : Valuation) : Term → Meaning
  | .var id => ρ id
  | .int n => Meaning.datum (.int n)
  | .bool b => Meaning.datum (.bool b)
  | .lam param body => Meaning.function fun d => body.meaning (update ρ param d)
  | .fix self body => Meaning.fix fun d => body.meaning (update ρ self d)
  | .app fn arg => Meaning.apply (fn.meaning ρ) (arg.meaning ρ)
  | .prim op args => Meaning.operate op (meaningAll ρ args)
  | .logic op left right => Meaning.connective op (left.meaning ρ) (right.meaning ρ)
  | .ite cond yes no => Meaning.branch (cond.meaning ρ) (yes.meaning ρ) (no.meaning ρ)
  | .letIn id bound body =>
    Meaning.apply (Meaning.function fun d => body.meaning (update ρ id d)) (bound.meaning ρ)
  | .quote body | .splice _ body => body.meaning ρ

def meaningAll (ρ : Valuation) : List Term → List Meaning
  | [] => []
  | t :: ts => t.meaning ρ :: meaningAll ρ ts

end

theorem meaningAll_eq_map (ρ : Valuation) (ts : List Term) :
    meaningAll ρ ts = ts.map (meaning ρ) := by
  induction ts with
  | nil => rfl
  | cons t ts ih => rw [meaningAll, ih, List.map_cons]

/-- **Only the free identifiers matter.** -/
theorem meaning_congr {t : Term} {ρ ρ' : Valuation} (h : t.EachFree fun x => ρ x = ρ' x) :
    t.meaning ρ = t.meaning ρ' := by
  -- A body under its binder: what is bound gets the same meaning on both sides.
  have hUnder : ∀ {x : Ident} {body : Term} {ρ ρ' : Valuation} (d : Meaning),
      (lam x body).EachFree (fun y => ρ y = ρ' y) →
      body.EachFree fun y => update ρ x d y = update ρ' x d y := by
    intro x body ρ ρ' d h y hy
    by_cases hxy : y = x
    · rw [hxy, Function.update_self, Function.update_self]
    · rw [Function.update_of_ne hxy, Function.update_of_ne hxy]
      exact h y (occursFree_lam.mpr ⟨Ne.symm hxy, hy⟩)
  induction t generalizing ρ ρ' with
  | var id => exact h id (occursFree_var.mpr rfl)
  | int | bool => rfl
  | lam x body ih => exact congrArg Meaning.function (funext fun d => ih (hUnder d h))
  | fix x body ih => exact congrArg Meaning.fix (funext fun d => ih (hUnder d h.fix))
  | app fn arg ihFn ihArg => exact congrArg₂ Meaning.apply (ihFn h.app.1) (ihArg h.app.2)
  | prim op args ih =>
    rw [meaning, meaning, meaningAll_eq_map, meaningAll_eq_map]
    exact congrArg (Meaning.operate op) (List.map_congr_left fun a ha => ih a ha (h.prim a ha))
  | logic op left right ihLeft ihRight =>
    exact congrArg₂ (Meaning.connective op) (ihLeft h.logic.1) (ihRight h.logic.2)
  | ite cond yes no ihCond ihYes ihNo =>
    rw [meaning, meaning, ihCond h.ite.1, ihYes h.ite.2.1, ihNo h.ite.2.2]
  | letIn x bound body ihBound ihBody =>
    exact congrArg₂ Meaning.apply
      (congrArg Meaning.function (funext fun d => ihBody (hUnder d h.letIn.2)))
      (ihBound h.letIn.1)
  | quote body ih | splice _ body ih => exact ih h

/-- **The meaning of a term is finitary in each of its identifiers.** -/
theorem finitary_meaning (t : Term) (ρ : Valuation) (x : Ident) :
    Finitary fun X => t.meaning (update ρ x X) := by
  -- Under a binder of `x` itself the argument does not matter, under any other it can be put first.
  have hUnder : ∀ {body : Term}, (∀ ρ x, Finitary fun X => body.meaning (update ρ x X)) →
      ∀ (ρ : Valuation) (x y : Ident) (d : Meaning),
        Finitary fun X => body.meaning (update (update ρ x X) y d) := by
    intro body ih ρ x y d
    by_cases hxy : x = y
    · simp only [hxy, Function.update_idem]
      exact .const _
    · simp only [Function.update_comm hxy]
      exact ih (update ρ y d) x
  induction t generalizing ρ x with
  | var id =>
    by_cases hx : id = x
    · simp only [meaning, hx, Function.update_self]
      exact .identity
    · simp only [meaning, Function.update_of_ne hx]
      exact .const _
  | int | bool => exact .const _
  | lam y body ih => exact .function (hUnder ih ρ x y)
  | fix y body ih => exact .fix (hUnder ih ρ x y) fun X => ih (update ρ x X) y
  | app fn arg ihFn ihArg => exact (ihFn ρ x).apply (ihArg ρ x)
  | prim op args ih =>
    simp only [meaning, meaningAll_eq_map]
    exact .operate op fun a ha => ih a ha ρ x
  | logic op left right ihLeft ihRight => exact (ihLeft ρ x).connective op (ihRight ρ x)
  | ite cond yes no ihCond ihYes ihNo => exact (ihCond ρ x).branch (ihYes ρ x) (ihNo ρ x)
  | letIn y bound body ihBound ihBody =>
    exact (Finitary.function (hUnder ihBody ρ x y)).apply (ihBound ρ x)
  | quote body ih | splice _ body ih => exact ih ρ x

/-- An abstraction applied means its body with the argument. -/
theorem apply_meaning_lam (x : Ident) (body : Term) (ρ : Valuation) (d : Meaning) :
    Meaning.apply ((lam x body).meaning ρ) d = body.meaning (update ρ x d) :=
  Meaning.apply_function (body.finitary_meaning ρ x) d

/-- A fixpoint means its body with the fixpoint. -/
theorem meaning_fix (x : Ident) (body : Term) (ρ : Valuation) :
    body.meaning (update ρ x ((fix x body).meaning ρ)) = (fix x body).meaning ρ :=
  Meaning.fix_unfold (body.finitary_meaning ρ x).mono

/-! ### Erasure -/

mutual

/-- The term without its stages. -/
def erase : Term → Term
  | .var id => .var id
  | .int n => .int n
  | .bool b => .bool b
  | .lam param body => .lam param body.erase
  | .fix self body => .fix self body.erase
  | .app fn arg => .app fn.erase arg.erase
  | .prim op args => .prim op (eraseAll args)
  | .logic op left right => .logic op left.erase right.erase
  | .ite cond yes no => .ite cond.erase yes.erase no.erase
  | .letIn id bound body => .letIn id bound.erase body.erase
  | .quote body | .splice _ body => body.erase

def eraseAll : List Term → List Term
  | [] => []
  | t :: ts => t.erase :: eraseAll ts

end

theorem eraseAll_eq_map (ts : List Term) : eraseAll ts = ts.map erase := by
  induction ts with
  | nil => rfl
  | cons t ts ih => rw [eraseAll, ih, List.map_cons]

/-- **Erasing the stages keeps the meaning.** -/
theorem meaning_erase (t : Term) (ρ : Valuation) : t.erase.meaning ρ = t.meaning ρ := by
  induction t generalizing ρ with
  | var | int | bool => rfl
  | lam x body ih => exact congrArg Meaning.function (funext fun d => ih (update ρ x d))
  | fix x body ih => exact congrArg Meaning.fix (funext fun d => ih (update ρ x d))
  | app fn arg ihFn ihArg => exact congrArg₂ Meaning.apply (ihFn ρ) (ihArg ρ)
  | prim op args ih =>
    rw [erase, meaning, meaning, eraseAll_eq_map, meaningAll_eq_map, meaningAll_eq_map,
      List.map_map]
    exact congrArg (Meaning.operate op) (List.map_congr_left fun a ha => ih a ha ρ)
  | logic op left right ihLeft ihRight =>
    exact congrArg₂ (Meaning.connective op) (ihLeft ρ) (ihRight ρ)
  | ite cond yes no ihCond ihYes ihNo =>
    rw [erase, meaning, meaning, ihCond, ihYes, ihNo]
  | letIn x bound body ihBound ihBody =>
    exact congrArg₂ Meaning.apply
      (congrArg Meaning.function (funext fun d => ihBody (update ρ x d))) (ihBound ρ)
  | quote body ih | splice _ body ih => exact ih ρ

/-- The variables and the binders are not touched. -/
theorem vars_erase (t : Term) : t.erase.vars = t.vars := by
  induction t with
  | var | int | bool => rfl
  | lam _ body ih | fix _ body ih | quote body ih | splice _ body ih => exact ih
  | app a b ha hb | logic _ a b ha hb | letIn _ a b ha hb => rw [erase, vars, vars, ha, hb]
  | ite a b c ha hb hc => rw [erase, vars, vars, ha, hb, hc]
  | prim op args ih =>
    rw [erase, vars, vars, eraseAll_eq_map, varsAll_eq_flatMap, varsAll_eq_flatMap,
      List.flatMap_map]
    exact List.flatMap_congr ih

theorem binders_erase (t : Term) : t.erase.binders = t.binders := by
  induction t with
  | var | int | bool => rfl
  | quote body ih | splice _ body ih => exact ih
  | lam x body ih | fix x body ih => exact congrArg (x :: ·) ih
  | app a b ha hb | logic _ a b ha hb | letIn _ a b ha hb =>
    rw [erase, binders, binders, ha, hb]
  | ite a b c ha hb hc => rw [erase, binders, binders, ha, hb, hc]
  | prim op args ih =>
    rw [erase, binders, binders, eraseAll_eq_map, bindersAll_eq_flatMap, bindersAll_eq_flatMap,
      List.flatMap_map]
    exact List.flatMap_congr ih

theorem Written.erase {t : Term} (h : t.Written) : t.erase.Written :=
  ⟨t.vars_erase ▸ h.vars, t.binders_erase ▸ h.binders⟩

end Term

end StagedLambda
