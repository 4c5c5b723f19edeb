import Mathlib.Data.List.Forall2
import Mathlib.Logic.Relator
import StagedLambda.Proofs.Term.Names

/-!
# Alpha-equivalence

Two terms are alike up to the names of their binders when they have the same shape and variables
at the same place are bound by the binders at the same place; variables that no binder binds are
compared by a relation `R` (`Term.Alpha R`).  Binding is taken across quotes and splices, as free
occurrences are.  For plain alpha-equivalence the free variables have to be the same
(`Term.AlphaEq`).

In code that two runs have built, the binders correspond as well: `Term.Recolors R` asks for
related identifiers everywhere.

* `Term.Alpha.imp`: only the free identifiers matter.
* `Term.Alpha.occursFree`: what occurs free on one side has a counterpart that does so on the other.
* `Term.Recolors.alpha`: where the relation is one-to-one, recolored code is alpha-equivalent.
* `Term.Recolors.recolor_eq`: recolored code is the same once the difference is erased.
-/

namespace StagedLambda

/-- In the scope of two binders these stand for each other and hide what they stood for outside. -/
def Under (R : Ident → Ident → Prop) (x y a b : Ident) : Prop :=
  a = x ∧ b = y ∨ a ≠ x ∧ b ≠ y ∧ R a b

namespace Term

/-- The terms differ only in the names of their binders, with `R` between free identifiers. -/
inductive Alpha : (Ident → Ident → Prop) → Term → Term → Prop
  | var {R : Ident → Ident → Prop} {a b : Ident} (h : R a b) : Alpha R (.var a) (.var b)
  | lam {R : Ident → Ident → Prop} {x y : Ident} {s t : Term} (h : Alpha (Under R x y) s t) :
      Alpha R (.lam x s) (.lam y t)
  | app {R : Ident → Ident → Prop} {f g a b : Term} (hFn : Alpha R f g) (hArg : Alpha R a b) :
      Alpha R (.app f a) (.app g b)
  | int {R : Ident → Ident → Prop} (n : Int64) : Alpha R (.int n) (.int n)
  | bool {R : Ident → Ident → Prop} (b : Bool) : Alpha R (.bool b) (.bool b)
  | prim {R : Ident → Ident → Prop} {op : PrimOp} {as bs : List Term}
      (hLength : as.length = bs.length) (h : ∀ {a b}, (a, b) ∈ as.zip bs → Alpha R a b) :
      Alpha R (.prim op as) (.prim op bs)
  | logic {R : Ident → Ident → Prop} {op : LogicOp} {a b c d : Term} (hLeft : Alpha R a c)
      (hRight : Alpha R b d) : Alpha R (.logic op a b) (.logic op c d)
  | ite {R : Ident → Ident → Prop} {a b c d e f : Term} (hCond : Alpha R a d)
      (hYes : Alpha R b e) (hNo : Alpha R c f) : Alpha R (.ite a b c) (.ite d e f)
  | fix {R : Ident → Ident → Prop} {x y : Ident} {s t : Term} (h : Alpha (Under R x y) s t) :
      Alpha R (.fix x s) (.fix y t)
  | quote {R : Ident → Ident → Prop} {s t : Term} (h : Alpha R s t) :
      Alpha R (.quote s) (.quote t)
  | splice {R : Ident → Ident → Prop} {shift : Int64} {s t : Term} (h : Alpha R s t) :
      Alpha R (.splice shift s) (.splice shift t)
  | letIn {R : Ident → Ident → Prop} {x y : Ident} {a b s t : Term} (hBound : Alpha R a b)
      (hBody : Alpha (Under R x y) s t) : Alpha R (.letIn x a s) (.letIn y b t)

/-- The terms differ only in the names of their binders. -/
abbrev AlphaEq : Term → Term → Prop := Alpha Eq

namespace Alpha

variable {R S : Ident → Ident → Prop} {s t : Term}

theorem forall₂ {op op' : PrimOp} {as bs : List Term} (h : Alpha R (.prim op as) (.prim op' bs)) :
    List.Forall₂ (Alpha R) as bs := by
  cases h with
  | prim hLength h => exact List.forall₂_iff_zip.mpr ⟨hLength, h⟩

theorem of_forall₂ {op : PrimOp} {as bs : List Term} (h : List.Forall₂ (Alpha R) as bs) :
    Alpha R (.prim op as) (.prim op bs) :=
  .prim (List.forall₂_iff_zip.mp h).1 (List.forall₂_iff_zip.mp h).2

/-- **Only the free identifiers matter** for the relation between them. -/
theorem imp (h : s.Alpha R t)
    (hImp : ∀ a b, s.occursFree a = true → t.occursFree b = true → R a b → S a b) :
    s.Alpha S t := by
  -- Under a binder the same holds: what is free in the body and not bound here is free outside.
  have hUnder : ∀ {R S : Ident → Ident → Prop} {x y : Ident} {s t : Term},
      (∀ a b, a ≠ x ∧ s.occursFree a = true → b ≠ y ∧ t.occursFree b = true → R a b → S a b) →
      ∀ a b, s.occursFree a = true → t.occursFree b = true → Under R x y a b → Under S x y a b := by
    rintro R S x y s t h a b ha hb (hSame | ⟨hax, hby, hR⟩)
    · exact .inl hSame
    · exact .inr ⟨hax, hby, h a b ⟨hax, ha⟩ ⟨hby, hb⟩ hR⟩
  induction h generalizing S with
  | var h => exact .var (hImp _ _ (occursFree_var.mpr rfl) (occursFree_var.mpr rfl) h)
  | lam _ ih =>
    refine .lam (ih (hUnder ?_))
    intro a b ha hb
    exact hImp a b (occursFree_lam.mpr ⟨ha.1.symm, ha.2⟩) (occursFree_lam.mpr ⟨hb.1.symm, hb.2⟩)
  | fix _ ih =>
    refine .fix (ih (hUnder ?_))
    intro a b ha hb
    exact hImp a b (occursFree_fix.mpr ⟨ha.1.symm, ha.2⟩) (occursFree_fix.mpr ⟨hb.1.symm, hb.2⟩)
  | letIn _ _ ihBound ihBody =>
    refine .letIn (ihBound ?_) (ihBody (hUnder ?_))
    · intro a b ha hb
      exact hImp a b (occursFree_letIn.mpr (.inl ha)) (occursFree_letIn.mpr (.inl hb))
    · intro a b ha hb
      exact hImp a b (occursFree_letIn.mpr (.inr ⟨ha.1.symm, ha.2⟩))
        (occursFree_letIn.mpr (.inr ⟨hb.1.symm, hb.2⟩))
  | app _ _ ihFn ihArg =>
    refine .app (ihFn ?_) (ihArg ?_)
    · intro a b ha hb
      exact hImp a b (occursFree_app.mpr (.inl ha)) (occursFree_app.mpr (.inl hb))
    · intro a b ha hb
      exact hImp a b (occursFree_app.mpr (.inr ha)) (occursFree_app.mpr (.inr hb))
  | logic _ _ ihLeft ihRight =>
    refine .logic (ihLeft ?_) (ihRight ?_)
    · intro a b ha hb
      exact hImp a b (occursFree_logic.mpr (.inl ha)) (occursFree_logic.mpr (.inl hb))
    · intro a b ha hb
      exact hImp a b (occursFree_logic.mpr (.inr ha)) (occursFree_logic.mpr (.inr hb))
  | ite _ _ _ ihCond ihYes ihNo =>
    refine .ite (ihCond ?_) (ihYes ?_) (ihNo ?_)
    · intro a b ha hb
      exact hImp a b (occursFree_ite.mpr (.inl ha)) (occursFree_ite.mpr (.inl hb))
    · intro a b ha hb
      exact hImp a b (occursFree_ite.mpr (.inr (.inl ha))) (occursFree_ite.mpr (.inr (.inl hb)))
    · intro a b ha hb
      exact hImp a b (occursFree_ite.mpr (.inr (.inr ha))) (occursFree_ite.mpr (.inr (.inr hb)))
  | prim hLength _ ih =>
    refine .prim hLength fun hMem => ih hMem ?_
    intro a b ha hb
    exact hImp a b (occursFree_prim.mpr ⟨_, (List.of_mem_zip hMem).1, ha⟩)
      (occursFree_prim.mpr ⟨_, (List.of_mem_zip hMem).2, hb⟩)
  | int n => exact .int n
  | bool b => exact .bool b
  | quote _ ih => exact .quote (ih hImp)
  | splice _ ih => exact .splice (ih hImp)

theorem mono (h : s.Alpha R t) (hRS : ∀ a b, R a b → S a b) : s.Alpha S t :=
  h.imp fun a b _ _ => hRS a b

/-- A closed term has no free identifiers for the relation to be about. -/
theorem of_closed (h : s.Alpha R t) (hClosed : t.Closed) : s.Alpha S t := by
  refine h.imp fun a b _ hb => ?_
  rw [hClosed b] at hb
  cases hb

theorem of_closed_left (h : s.Alpha R t) (hClosed : s.Closed) : s.Alpha S t := by
  refine h.imp fun a b ha _ => ?_
  rw [hClosed a] at ha
  cases ha

theorem refl (hR : ∀ a, R a a) (t : Term) : t.Alpha R t := by
  have hUnder : ∀ {R : Ident → Ident → Prop}, (∀ a, R a a) → ∀ x a, Under R x x a a := by
    intro R hR x a
    by_cases ha : a = x
    · exact .inl ⟨ha, ha⟩
    · exact .inr ⟨ha, ha, hR a⟩
  induction t generalizing R with
  | var a => exact .var (hR a)
  | int n => exact .int n
  | bool b => exact .bool b
  | lam x body ih => exact .lam (ih (hUnder hR x))
  | fix x body ih => exact .fix (ih (hUnder hR x))
  | quote body ih => exact .quote (ih hR)
  | splice shift body ih => exact .splice (ih hR)
  | app fn arg ihFn ihArg => exact .app (ihFn hR) (ihArg hR)
  | logic op left right ihLeft ihRight => exact .logic (ihLeft hR) (ihRight hR)
  | letIn x bound body ihBound ihBody => exact .letIn (ihBound hR) (ihBody (hUnder hR x))
  | ite cond yes no ihCond ihYes ihNo => exact .ite (ihCond hR) (ihYes hR) (ihNo hR)
  | prim op args ih => exact .of_forall₂ (List.forall₂_same.mpr fun a ha => ih a ha hR)

theorem swap (h : s.Alpha R t) : t.Alpha (fun b a => R a b) s := by
  have hUnder : ∀ {R : Ident → Ident → Prop} {x y a b : Ident},
      Under R x y a b → Under (fun b a => R a b) y x b a := by
    rintro R x y a b (⟨ha, hb⟩ | ⟨ha, hb, hR⟩)
    · exact .inl ⟨hb, ha⟩
    · exact .inr ⟨hb, ha, hR⟩
  induction h with
  | var h => exact .var h
  | lam _ ih => exact .lam (ih.mono fun _ _ => hUnder)
  | fix _ ih => exact .fix (ih.mono fun _ _ => hUnder)
  | letIn _ _ ihBound ihBody => exact .letIn ihBound (ihBody.mono fun _ _ => hUnder)
  | app _ _ ihFn ihArg => exact .app ihFn ihArg
  | logic _ _ ihLeft ihRight => exact .logic ihLeft ihRight
  | ite _ _ _ ihCond ihYes ihNo => exact .ite ihCond ihYes ihNo
  | prim hLength _ ih =>
    exact of_forall₂ (List.Forall₂.flip (List.forall₂_iff_zip.mpr ⟨hLength, ih⟩))
  | int n => exact .int n
  | bool b => exact .bool b
  | quote _ ih => exact .quote ih
  | splice _ ih => exact .splice ih

/-- **What occurs free on one side has a counterpart on the other.** -/
theorem occursFree (h : s.Alpha R t) {a : Ident} (ha : s.occursFree a = true) :
    ∃ b, R a b ∧ t.occursFree b = true := by
  -- A counterpart inside a binder of something else is not bound by the other binder either.
  have hUnder : ∀ {R : Ident → Ident → Prop} {x y a : Ident} {t : Term}, x ≠ a →
      (∃ b, Under R x y a b ∧ t.occursFree b = true) →
      ∃ b, R a b ∧ y ≠ b ∧ t.occursFree b = true := by
    rintro R x y a t hxa ⟨b, ⟨rfl, -⟩ | ⟨-, hyb, hR⟩, hb⟩
    · exact absurd rfl hxa
    · exact ⟨b, hR, hyb.symm, hb⟩
  induction h with
  | var h =>
    rw [← occursFree_var.mp ha]
    exact ⟨_, h, occursFree_var.mpr rfl⟩
  | lam _ ih =>
    obtain ⟨hxa, ha⟩ := occursFree_lam.mp ha
    obtain ⟨b, hR, hb⟩ := hUnder hxa (ih ha)
    exact ⟨b, hR, occursFree_lam.mpr hb⟩
  | fix _ ih =>
    obtain ⟨hxa, ha⟩ := occursFree_fix.mp ha
    obtain ⟨b, hR, hb⟩ := hUnder hxa (ih ha)
    exact ⟨b, hR, occursFree_fix.mpr hb⟩
  | letIn _ _ ihBound ihBody =>
    rcases occursFree_letIn.mp ha with ha | ⟨hxa, ha⟩
    · obtain ⟨b, hR, hb⟩ := ihBound ha
      exact ⟨b, hR, occursFree_letIn.mpr (.inl hb)⟩
    · obtain ⟨b, hR, hb⟩ := hUnder hxa (ihBody ha)
      exact ⟨b, hR, occursFree_letIn.mpr (.inr hb)⟩
  | app _ _ ihFn ihArg =>
    rcases occursFree_app.mp ha with ha | ha
    · obtain ⟨b, hR, hb⟩ := ihFn ha
      exact ⟨b, hR, occursFree_app.mpr (.inl hb)⟩
    · obtain ⟨b, hR, hb⟩ := ihArg ha
      exact ⟨b, hR, occursFree_app.mpr (.inr hb)⟩
  | logic _ _ ihLeft ihRight =>
    rcases occursFree_logic.mp ha with ha | ha
    · obtain ⟨b, hR, hb⟩ := ihLeft ha
      exact ⟨b, hR, occursFree_logic.mpr (.inl hb)⟩
    · obtain ⟨b, hR, hb⟩ := ihRight ha
      exact ⟨b, hR, occursFree_logic.mpr (.inr hb)⟩
  | ite _ _ _ ihCond ihYes ihNo =>
    rcases occursFree_ite.mp ha with ha | ha | ha
    · obtain ⟨b, hR, hb⟩ := ihCond ha
      exact ⟨b, hR, occursFree_ite.mpr (.inl hb)⟩
    · obtain ⟨b, hR, hb⟩ := ihYes ha
      exact ⟨b, hR, occursFree_ite.mpr (.inr (.inl hb))⟩
    · obtain ⟨b, hR, hb⟩ := ihNo ha
      exact ⟨b, hR, occursFree_ite.mpr (.inr (.inr hb))⟩
  | @prim R op as bs hLength _ ih =>
    obtain ⟨c, hc, ha⟩ := occursFree_prim.mp ha
    obtain ⟨i, hi, rfl⟩ := List.getElem_of_mem hc
    have hMem : (as[i], bs[i]) ∈ as.zip bs := by
      rw [← List.getElem_zip (h := by simpa [← hLength] using hi)]
      exact List.getElem_mem _
    obtain ⟨b, hR, hb⟩ := ih hMem ha
    exact ⟨b, hR, occursFree_prim.mpr ⟨bs[i], List.getElem_mem _, hb⟩⟩
  | int | bool => cases ha
  | quote _ ih | splice _ ih => exact ih ha

end Alpha

/-! ### Code of two runs -/

/-- The terms are the same but for related identifiers, at binders as well as at variables. -/
inductive Recolors (R : Ident → Ident → Prop) : Term → Term → Prop
  | var {a b : Ident} (h : R a b) : Recolors R (.var a) (.var b)
  | lam {x y : Ident} {s t : Term} (hBinder : R x y) (h : Recolors R s t) :
      Recolors R (.lam x s) (.lam y t)
  | app {f g a b : Term} (hFn : Recolors R f g) (hArg : Recolors R a b) :
      Recolors R (.app f a) (.app g b)
  | int (n : Int64) : Recolors R (.int n) (.int n)
  | bool (b : Bool) : Recolors R (.bool b) (.bool b)
  | prim {op : PrimOp} {as bs : List Term} (hLength : as.length = bs.length)
      (h : ∀ {a b}, (a, b) ∈ as.zip bs → Recolors R a b) : Recolors R (.prim op as) (.prim op bs)
  | logic {op : LogicOp} {a b c d : Term} (hLeft : Recolors R a c) (hRight : Recolors R b d) :
      Recolors R (.logic op a b) (.logic op c d)
  | ite {a b c d e f : Term} (hCond : Recolors R a d) (hYes : Recolors R b e)
      (hNo : Recolors R c f) : Recolors R (.ite a b c) (.ite d e f)
  | fix {x y : Ident} {s t : Term} (hBinder : R x y) (h : Recolors R s t) :
      Recolors R (.fix x s) (.fix y t)
  | quote {s t : Term} (h : Recolors R s t) : Recolors R (.quote s) (.quote t)
  | splice {shift : Int64} {s t : Term} (h : Recolors R s t) :
      Recolors R (.splice shift s) (.splice shift t)
  | letIn {x y : Ident} {a b s t : Term} (hBinder : R x y) (hBound : Recolors R a b)
      (hBody : Recolors R s t) : Recolors R (.letIn x a s) (.letIn y b t)

mutual

/-- Applies a function to all identifiers of a term. -/
def recolor (f : Ident → Ident) : Term → Term
  | .var id => .var (f id)
  | .lam param body => .lam (f param) (body.recolor f)
  | .app fn arg => .app (fn.recolor f) (arg.recolor f)
  | .int n => .int n
  | .bool b => .bool b
  | .prim op args => .prim op (recolorAll f args)
  | .logic op left right => .logic op (left.recolor f) (right.recolor f)
  | .ite cond yes no => .ite (cond.recolor f) (yes.recolor f) (no.recolor f)
  | .fix self body => .fix (f self) (body.recolor f)
  | .quote body => .quote (body.recolor f)
  | .splice shift body => .splice shift (body.recolor f)
  | .letIn id bound body => .letIn (f id) (bound.recolor f) (body.recolor f)

def recolorAll (f : Ident → Ident) : List Term → List Term
  | [] => []
  | t :: ts => t.recolor f :: recolorAll f ts

end

theorem recolorAll_eq_map (f : Ident → Ident) (ts : List Term) :
    recolorAll f ts = ts.map (recolor f) := by
  induction ts with
  | nil => rfl
  | cons t ts ih => rw [recolorAll, ih, List.map_cons]

namespace Recolors

variable {R S : Ident → Ident → Prop} {s t : Term}

theorem of_forall₂ {op : PrimOp} {as bs : List Term} (h : List.Forall₂ (Recolors R) as bs) :
    Recolors R (.prim op as) (.prim op bs) :=
  .prim (List.forall₂_iff_zip.mp h).1 (List.forall₂_iff_zip.mp h).2

theorem mono (hRS : ∀ a b, R a b → S a b) (h : Recolors R s t) : Recolors S s t := by
  induction h with
  | var h => exact .var (hRS _ _ h)
  | lam hBinder _ ih => exact .lam (hRS _ _ hBinder) ih
  | fix hBinder _ ih => exact .fix (hRS _ _ hBinder) ih
  | letIn hBinder _ _ ihBound ihBody => exact .letIn (hRS _ _ hBinder) ihBound ihBody
  | app _ _ ihFn ihArg => exact .app ihFn ihArg
  | logic _ _ ihLeft ihRight => exact .logic ihLeft ihRight
  | ite _ _ _ ihCond ihYes ihNo => exact .ite ihCond ihYes ihNo
  | prim hLength _ ih => exact .prim hLength ih
  | int n => exact .int n
  | bool b => exact .bool b
  | quote _ ih => exact .quote ih
  | splice _ ih => exact .splice ih

/-- **Recolored code is alpha-equivalent**, if the relation is one-to-one. -/
theorem alpha (hR : Relator.BiUnique R) (h : Recolors R s t) : s.Alpha R t := by
  -- Two related binders hide each other and nothing else.
  have hUnder : ∀ {x y : Ident}, R x y → ∀ a b, R a b → Under R x y a b := by
    intro x y hxy a b hab
    by_cases hax : a = x
    · exact .inl ⟨hax, hR.2 (hax ▸ hab) hxy⟩
    · exact .inr ⟨hax, fun hby => hax (hR.1 (hby ▸ hab) hxy), hab⟩
  induction h with
  | var h => exact .var h
  | lam hBinder _ ih => exact .lam (ih.mono (hUnder hBinder))
  | fix hBinder _ ih => exact .fix (ih.mono (hUnder hBinder))
  | letIn hBinder _ _ ihBound ihBody => exact .letIn ihBound (ihBody.mono (hUnder hBinder))
  | app _ _ ihFn ihArg => exact .app ihFn ihArg
  | logic _ _ ihLeft ihRight => exact .logic ihLeft ihRight
  | ite _ _ _ ihCond ihYes ihNo => exact .ite ihCond ihYes ihNo
  | prim hLength _ ih => exact .prim hLength ih
  | int n => exact .int n
  | bool b => exact .bool b
  | quote _ ih => exact .quote ih
  | splice _ ih => exact .splice ih

/-- Related identifiers occur free in both terms or in none. -/
theorem occursFree_eq (hR : Relator.BiUnique R) (h : Recolors R s t) {a b : Ident} (hab : R a b) :
    s.occursFree a = t.occursFree b := by
  have hAlpha := h.alpha hR
  rw [Bool.eq_iff_iff]
  constructor
  · intro ha
    obtain ⟨b', hab', hb⟩ := hAlpha.occursFree ha
    rwa [hR.2 hab hab']
  · intro hb
    obtain ⟨a', hab', ha⟩ := hAlpha.swap.occursFree hb
    rwa [hR.1 hab hab']

/-- **Recolored code is the same once the difference is erased.** -/
theorem recolor_eq {f : Ident → Ident} (hf : ∀ a b, R a b → f a = f b) (h : Recolors R s t) :
    s.recolor f = t.recolor f := by
  induction h with
  | var h => simp only [recolor, hf _ _ h]
  | lam hBinder _ ih | fix hBinder _ ih => simp only [recolor, hf _ _ hBinder, ih]
  | letIn hBinder _ _ ihBound ihBody => simp only [recolor, hf _ _ hBinder, ihBound, ihBody]
  | app _ _ ih₁ ih₂ | logic _ _ ih₁ ih₂ => simp only [recolor, ih₁, ih₂]
  | ite _ _ _ ihCond ihYes ihNo => simp only [recolor, ihCond, ihYes, ihNo]
  | prim hLength _ ih =>
    simp only [recolor, recolorAll_eq_map]
    congr 1
    have hSame := List.forall₂_iff_zip.mpr ⟨hLength, ih⟩
    rwa [← List.forall₂_eq_eq_eq, List.forall₂_map_left_iff, List.forall₂_map_right_iff]
  | int | bool => rfl
  | quote _ ih | splice _ ih => simp only [recolor, ih]

end Recolors

end Term

end StagedLambda
