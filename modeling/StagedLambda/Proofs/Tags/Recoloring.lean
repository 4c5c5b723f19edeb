import StagedLambda.Proofs.Machine.Moves
import StagedLambda.Proofs.Term.Alpha

/-!
# Recolored states

`Ident.retag` gives every color another tag and leaves all other identifiers as they are.  This
file applies a function on identifiers to everything that a state holds, renamings and the
bindings of functions included, and shows that what a transition asks of a state has the same
answer afterwards, as long as no two identifiers are made one.

* `Renaming.resolve_recolor`, `EvalStack.lookup_recolor`: what a name refers to.
* `Term.occursFree_recolor`: what occurs free in code.
* `Step.leave_recolor` and its like: what the checks say.
-/

namespace StagedLambda

/-! ### Tags -/

/-- The same identifier with another tag, if it is a color. -/
def Ident.retag (f : Nat → Nat) : Ident → Ident
  | .colored name tag => .colored name (f tag)
  | id => id

section

variable {f : Nat → Nat}

@[simp] theorem Ident.base_retag (id : Ident) : (id.retag f).base = id.base := by
  cases id <;> rfl

@[simp] theorem Ident.isRaw_retag (id : Ident) : (id.retag f).isRaw = id.isRaw := by
  cases id <;> rfl

theorem Ident.retag_of_not_isColored {id : Ident} (h : id.isColored = false) :
    id.retag f = id := by
  cases id with
  | colored => cases h
  | raw | generated => rfl

theorem Ident.retag_injective (hf : Function.Injective f) : Function.Injective (Ident.retag f) := by
  intro a b h
  cases a <;> cases b <;> simp_all [retag, hf.eq_iff]

theorem Palette.retag_tint {p q : Palette} (h : f p.issued = q.issued) (id : Ident) :
    (p.tint id).retag f = q.tint (id.retag f) := by
  rw [tint, tint, Ident.base_retag, ← h]
  rfl

end

/-! ### Everything that a state holds -/

section

variable (g : Ident → Ident)

def Renaming.recolor (env : Renaming) : Renaming := ⟨env.entries.map (Prod.map g g)⟩

def Abstraction.recolor (fn : Abstraction) : Abstraction :=
  ⟨fn.self?.map g, g fn.param, fn.body.recolor g, fn.env.recolor g⟩

mutual

def Value.recolor : Value → Value
  | .int n => .int n
  | .bool b => .bool b
  | .closure fn captured => .closure (fn.recolor g) (Value.recolorBindings captured)
  | .code c => .code (c.recolor g)

def Value.recolorBindings : List (Ident × Value) → List (Ident × Value)
  | [] => []
  | (c, v) :: rest => (g c, v.recolor) :: Value.recolorBindings rest

end

def EvalFrame.recolor : EvalFrame → EvalFrame
  | .applyTo arg env => .applyTo (arg.recolor g) (env.recolor g)
  | .applied fn => .applied (fn.recolor g)
  | .bind id v => .bind (g id) (v.recolor g)
  | .prim op done args env =>
    .prim op (done.map (Value.recolor g)) (Term.recolorAll g args) (env.recolor g)
  | .branch yes no env => .branch (yes.recolor g) (no.recolor g) (env.recolor g)
  | .logicLeft op right env => .logicLeft op (right.recolor g) (env.recolor g)
  | .logicRight op => .logicRight op
  | .letBody id body env => .letBody (g id) (body.recolor g) (env.recolor g)
  | .run => .run

def BuildFrame.recolor : BuildFrame → BuildFrame
  | .lam param => .lam (g param)
  | .fix self => .fix (g self)
  | .applyTo arg env => .applyTo (arg.recolor g) (env.recolor g)
  | .applied fn => .applied (fn.recolor g)
  | .prim op done args env =>
    .prim op (Term.recolorAll g done) (Term.recolorAll g args) (env.recolor g)
  | .iteCond yes no env => .iteCond (yes.recolor g) (no.recolor g) (env.recolor g)
  | .iteYes cond no env => .iteYes (cond.recolor g) (no.recolor g) (env.recolor g)
  | .iteNo cond yes => .iteNo (cond.recolor g) (yes.recolor g)
  | .logicLeft op right env => .logicLeft op (right.recolor g) (env.recolor g)
  | .logicRight op left => .logicRight op (left.recolor g)
  | .letBound id body env => .letBound (g id) (body.recolor g) (env.recolor g)
  | .letBody id bound => .letBody (g id) (bound.recolor g)
  | .quote => .quote
  | .splice shift => .splice shift

mutual

def EvalStack.recolor : EvalStack → EvalStack
  | .halt => .halt
  | .escape shift outer => .escape shift outer.recolor
  | .push frame rest => .push (frame.recolor g) rest.recolor

def BuildStack.recolor : BuildStack → BuildStack
  | .close outer => .close outer.recolor
  | .push frame rest => .push (frame.recolor g) rest.recolor

end

def State.recolor : State → State
  | .eval env t k => .eval (env.recolor g) (t.recolor g) (k.recolor g)
  | .build level env t k => .build level (env.recolor g) (t.recolor g) (k.recolor g)
  | .deliver v k => .deliver (v.recolor g) (k.recolor g)
  | .emit level c k => .emit level (c.recolor g) (k.recolor g)

def Fault.recolor : Fault → Fault
  | .unbound id => .unbound (g id)
  | .futureBinding id => .futureBinding (g id)
  | .malformedFixpoint self => .malformedFixpoint (g self)
  | .scopeExtrusion id => .scopeExtrusion (g id)
  | f => f

def Lookup.recolor : Lookup → Lookup
  | .found v => .found (v.recolor g)
  | .future => .future
  | .absent => .absent

/-- The answer of a check or of a run. -/
def recolorAnswer {α : Type} (recolor : α → α) : Except Fault α → Except Fault α
  | .ok a => .ok (recolor a)
  | .error f => .error (f.recolor g)

end

/-! ### Names and bindings -/

section

variable {g : Ident → Ident}

theorem Term.length_recolorAll (ts : List Term) : (recolorAll g ts).length = ts.length := by
  rw [recolorAll_eq_map, List.length_map]

theorem Term.recolorAll_append (ss ts : List Term) :
    recolorAll g (ss ++ ts) = recolorAll g ss ++ recolorAll g ts := by
  simp only [recolorAll_eq_map, List.map_append]

/-- The next operand, if there is one, is found at the same place. -/
theorem Term.getElem?_recolorAll {args : List Term} {next? : Option Term} {m n : Nat}
    (hNext : args[m]? = next?) (hPlace : n = m) :
    (recolorAll g args)[n]? = next?.map (recolor g) := by
  rw [recolorAll_eq_map, List.getElem?_map, hPlace, hNext]

theorem Renaming.recolor_bind (env : Renaming) (source target : Ident) :
    (env.bind source target).recolor g = (env.recolor g).bind (g source) (g target) := rfl

theorem EvalStack.recolor_bindAll (k : EvalStack) (bindings : List (Ident × Value)) :
    (k.bindAll bindings).recolor g = (k.recolor g).bindAll (Value.recolorBindings g bindings) := by
  induction bindings generalizing k with
  | nil => rfl
  | cons b rest ih => exact ih (.push (.bind b.1 b.2) k)

theorem EvalStack.recolor_enter (k : EvalStack) (fn : Abstraction)
    (captured : List (Ident × Value)) :
    (k.enter fn captured).recolor g =
      (k.recolor g).enter (fn.recolor g) (Value.recolorBindings g captured) := by
  obtain ⟨self?, param, body, env⟩ := fn
  cases self? with
  | none => exact recolor_bindAll k captured
  | some self =>
    simp only [enter, EvalStack.recolor, recolor_bindAll]
    rfl

theorem Renaming.lookup_recolor (hg : Function.Injective g) (env : Renaming) (id : Ident) :
    (env.recolor g).lookup (g id) = (env.lookup id).map g := by
  obtain ⟨entries⟩ := env
  induction entries with
  | nil => rfl
  | cons e rest ih =>
    obtain ⟨source, target⟩ := e
    show ((recolor g ⟨rest⟩).bind (g source) (g target)).lookup (g id) =
      ((⟨rest⟩ : Renaming).bind source target |>.lookup id).map g
    rw [lookup_bind, lookup_bind, ih]
    by_cases h : id = source
    · rw [if_pos h, if_pos (congrArg g h)]
      rfl
    · rw [if_neg h, if_neg (hg.ne h)]

/-- **What a name refers to is recolored with it.** -/
theorem Renaming.resolve_recolor (hg : Function.Injective g) (hRaw : ∀ id, (g id).isRaw = id.isRaw)
    (env : Renaming) (id : Ident) :
    (env.recolor g).resolve (g id) = (env.resolve id).map g := by
  rw [resolve, resolve, lookup_recolor hg, hRaw]
  cases env.lookup id with
  | some target => rfl
  | none => cases id.isRaw <;> rfl

theorem BuildFrame.binder?_recolor (frame : BuildFrame) :
    (frame.recolor g).binder? = frame.binder?.map g := by
  cases frame <;> rfl

mutual

/-- **What is found on a stack is recolored with it.** -/
theorem EvalStack.lookup_recolor (hg : Function.Injective g) (id : Ident) :
    ∀ k : EvalStack, (k.recolor g).lookup (g id) = (k.lookup id).recolor g
  | .halt => rfl
  | .escape _ outer => BuildStack.lookup_recolor hg id outer
  | .push frame rest => by
    have hBelow := EvalStack.lookup_recolor hg id rest
    cases frame with
    | bind x v =>
      show (if g x = g id then Lookup.found (v.recolor g) else (rest.recolor g).lookup (g id)) = _
      rw [EvalStack.lookup, hBelow]
      by_cases h : x = id
      · rw [if_pos h, if_pos (congrArg g h)]
        rfl
      · rw [if_neg h, if_neg (hg.ne h)]
    | _ => exact hBelow

theorem BuildStack.lookup_recolor (hg : Function.Injective g) (id : Ident) :
    ∀ k : BuildStack, (k.recolor g).lookup (g id) = (k.lookup id).recolor g
  | .close outer => EvalStack.lookup_recolor hg id outer
  | .push frame rest => by
    have hBelow := BuildStack.lookup_recolor hg id rest
    have hBinder : (frame.recolor g).binder? = some (g id) ↔ frame.binder? = some id := by
      rw [BuildFrame.binder?_recolor]
      exact (Option.map_injective hg).eq_iff' rfl
    rw [BuildStack.recolor, BuildStack.lookup, BuildStack.lookup, hBelow]
    by_cases h : frame.binder? = some id
    · rw [if_pos h, if_pos (hBinder.mpr h)]
      rfl
    · rw [if_neg h, if_neg (mt hBinder.mp h)]

end

theorem Term.recolor_eq_self {t : Term} (hVars : ∀ id ∈ t.vars, g id = id)
    (hBinders : ∀ id ∈ t.binders, g id = id) : t.recolor g = t := by
  induction t with
  | var id => rw [recolor, hVars id (List.mem_singleton.mpr rfl)]
  | int | bool => rfl
  | lam id body ih | fix id body ih =>
    rw [binders, List.forall_mem_cons] at hBinders
    rw [recolor, hBinders.1, ih hVars hBinders.2]
  | quote body ih | splice _ body ih => rw [recolor, ih hVars hBinders]
  | app a b iha ihb | logic _ a b iha ihb =>
    rw [vars, List.forall_mem_append] at hVars
    rw [binders, List.forall_mem_append] at hBinders
    rw [recolor, iha hVars.1 hBinders.1, ihb hVars.2 hBinders.2]
  | letIn id a b iha ihb =>
    rw [vars, List.forall_mem_append] at hVars
    rw [binders, List.forall_mem_cons, List.forall_mem_append] at hBinders
    rw [recolor, hBinders.1, iha hVars.1 hBinders.2.1, ihb hVars.2 hBinders.2.2]
  | ite a b c iha ihb ihc =>
    rw [vars, List.forall_mem_append, List.forall_mem_append] at hVars
    rw [binders, List.forall_mem_append, List.forall_mem_append] at hBinders
    rw [recolor, iha hVars.1.1 hBinders.1.1, ihb hVars.1.2 hBinders.1.2, ihc hVars.2 hBinders.2]
  | prim op args ih =>
    rw [vars, varsAll_eq_flatMap, List.forall_mem_flatMap] at hVars
    rw [binders, bindersAll_eq_flatMap, List.forall_mem_flatMap] at hBinders
    have hArgs : args.map (recolor g) = args.map id :=
      List.map_congr_left fun a ha => ih a ha (hVars a ha) (hBinders a ha)
    rw [recolor, recolorAll_eq_map, hArgs, List.map_id]

/-- **What occurs free is recolored with the code.** -/
theorem Term.occursFree_recolor (hg : Function.Injective g) (id : Ident) (t : Term) :
    (t.recolor g).occursFree (g id) = t.occursFree id := by
  induction t with
  | var | int | bool => simp [recolor, occursFree, hg.eq_iff]
  | lam _ _ ih | fix _ _ ih => simp [recolor, occursFree, hg.eq_iff, ih]
  | quote _ ih | splice _ _ ih => exact ih
  | app _ _ ih₁ ih₂ | logic _ _ _ ih₁ ih₂ => simp [recolor, occursFree, ih₁, ih₂]
  | letIn _ _ _ ih₁ ih₂ => simp [recolor, occursFree, hg.eq_iff, ih₁, ih₂]
  | ite _ _ _ ih₁ ih₂ ih₃ => simp [recolor, occursFree, ih₁, ih₂, ih₃]
  | prim op args ih =>
    rw [Bool.eq_iff_iff, recolor, recolorAll_eq_map, occursFree_prim, occursFree_prim]
    simp only [List.mem_map, exists_exists_and_eq_and]
    exact exists_congr fun a => and_congr_right fun ha => by rw [ih a ha]

/-! ### The checks -/

theorem Value.kind_recolor (v : Value) : (v.recolor g).kind = v.kind := by
  cases v <;> rfl

theorem Term.isLam_recolor (t : Term) : (t.recolor g).isLam = t.isLam := by
  cases t <;> rfl

theorem Step.maybeFunction_recolor (t : Term) : maybeFunction (t.recolor g) = maybeFunction t := by
  cases t <;> rfl

theorem Step.firstOperand_recolor (op : PrimOp) (args : List Term) :
    firstOperand op (Term.recolorAll g args) =
      recolorAnswer g (Term.recolor g) (firstOperand op args) := by
  cases args with
  | nil => rfl
  | cons first rest =>
    simp only [Term.recolorAll, firstOperand, List.length_cons, Term.length_recolorAll]
    split <;> rfl

theorem Step.recolor_of_stages {shift : Int64} {level : UInt64} {e : Fault}
    (h : stages shift level = .error e) : e.recolor g = e := by
  rcases stages_eq_error h with rfl | rfl <;> rfl

theorem Step.truth_recolor (consumer : Consumer) (v : Value) :
    truth consumer (v.recolor g) = recolorAnswer g id (truth consumer v) := by
  cases v <;> rfl

theorem Step.fragment_recolor (consumer : Consumer) (v : Value) :
    fragment consumer (v.recolor g) = recolorAnswer g (Term.recolor g) (fragment consumer v) := by
  cases v <;> rfl

theorem Step.leave_recolor (hg : Function.Injective g) (id : Ident) (bound v : Value) :
    leave (g id) (bound.recolor g) (v.recolor g) =
      recolorAnswer g (Value.recolor g) (leave id bound v) := by
  cases v with
  | code c =>
    simp only [Value.recolor, leave, Term.occursFree_recolor hg]
    split <;> rfl
  | int | bool | closure => rfl

/-- Numbers and truth values have no colors, and nothing else is let through. -/
theorem Arithmetic.apply_recolor (op : PrimOp) (args : List Value) :
    apply op (args.map (Value.recolor g)) =
      recolorAnswer g (Value.recolor g) (apply op args) := by
  have hTallies : List.Forall₂ Value.Tallies args (args.map (Value.recolor g)) := by
    rw [List.forall₂_map_right_iff, List.forall₂_same]
    refine fun v _ => ⟨v.kind_recolor.symm, fun kind hKind => ?_⟩
    cases v with
    | int | bool => rfl
    | closure | code => cases kind <;> cases hKind
  rw [apply_congr hTallies]
  cases hApply : apply op args with
  | ok v => rcases apply_eq_ok hApply with ⟨n, rfl⟩ | ⟨b, rfl⟩ <;> rfl
  | error f =>
    rcases apply_eq_error hApply with ⟨_, _, rfl⟩ | ⟨_, rfl | rfl⟩ | ⟨rfl, -⟩ <;> rfl

end

end StagedLambda
