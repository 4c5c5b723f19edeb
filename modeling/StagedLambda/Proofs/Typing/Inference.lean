import StagedLambda.Proofs.Term.Names
import StagedLambda.Typing.Infer

/-!
# What inference infers

The typing rules say which types a term can have; inference computes with variables and equations
between types.  A variable may stay undetermined, so it counts as a type of its own here, one that
no value has.

* `Inference.infer_sound`: under every assignment that satisfies what inference found out, the
  term has the type that was inferred.
* `Term.hasType_of_typeOf`: so a term has the type that `Term.typeOf` gives.
* `HasType.unstaged`, `HasType.closed`: typed terms are unstaged, and their free identifiers are
  those of the context.
-/

namespace StagedLambda

/-- The typing rules. Every binder has one type. -/
inductive HasType : Context → Term → Ty → Prop
  | var {Γ : Context} {id : Ident} {T : Ty} (hLookup : Γ.lookup id = some T) :
      HasType Γ (.var id) T
  | int (Γ : Context) (n : Int64) : HasType Γ (.int n) .int
  | bool (Γ : Context) (b : Bool) : HasType Γ (.bool b) .bool
  | lam {Γ : Context} {param : Ident} {body : Term} {A B : Ty}
      (hBody : HasType ((param, A) :: Γ) body B) : HasType Γ (.lam param body) (.fn A B)
  | app {Γ : Context} {fn arg : Term} {A B : Ty} (hFn : HasType Γ fn (.fn A B))
      (hArg : HasType Γ arg A) : HasType Γ (.app fn arg) B
  | prim {Γ : Context} {op : PrimOp} {args : List Term} (hLength : args.length = op.arity)
      (hArgs : ∀ kind arg, (kind, arg) ∈ op.operands.zip args → HasType Γ arg kind.toTy) :
      HasType Γ (.prim op args) op.result.toTy
  | logic {Γ : Context} {left right : Term} (op : LogicOp) (hLeft : HasType Γ left .bool)
      (hRight : HasType Γ right .bool) : HasType Γ (.logic op left right) .bool
  | ite {Γ : Context} {cond yes no : Term} {T : Ty} (hCond : HasType Γ cond .bool)
      (hYes : HasType Γ yes T) (hNo : HasType Γ no T) : HasType Γ (.ite cond yes no) T
  | fix {Γ : Context} {self param : Ident} {body : Term} {T : Ty}
      (hBody : HasType ((self, T) :: Γ) (.lam param body) T) :
      HasType Γ (.fix self (.lam param body)) T
  | letIn {Γ : Context} {id : Ident} {bound body : Term} {A B : Ty} (hBound : HasType Γ bound A)
      (hBody : HasType ((id, A) :: Γ) body B) : HasType Γ (.letIn id bound body) B

/-! ### Typed terms -/

theorem exists_kind_of_mem {op : PrimOp} {args : List Term} (hLength : args.length = op.arity)
    {a : Term} (ha : a ∈ args) : ∃ kind, (kind, a) ∈ op.operands.zip args := by
  have hSecond : (op.operands.zip args).map Prod.snd = args :=
    List.map_snd_zip (Nat.le_of_eq hLength)
  rw [← hSecond] at ha
  obtain ⟨⟨kind, a'⟩, hZip, rfl⟩ := List.mem_map.mp ha
  exact ⟨kind, hZip⟩

theorem HasType.unstaged {Γ : Context} {t : Term} {T : Ty} (h : HasType Γ t T) :
    t.isStaged = false := by
  induction h with
  | var | int | bool => rfl
  | lam _ ih | fix _ ih => exact ih
  | app _ _ ihFn ihArg => exact Bool.or_eq_false_iff.mpr ⟨ihFn, ihArg⟩
  | logic _ _ _ ihLeft ihRight => exact Bool.or_eq_false_iff.mpr ⟨ihLeft, ihRight⟩
  | letIn _ _ ihBound ihBody => exact Bool.or_eq_false_iff.mpr ⟨ihBound, ihBody⟩
  | ite _ _ _ ihCond ihYes ihNo =>
    exact Bool.or_eq_false_iff.mpr ⟨Bool.or_eq_false_iff.mpr ⟨ihCond, ihYes⟩, ihNo⟩
  | prim hLength _ ih =>
    rw [Term.isStaged, Term.anyIsStaged_eq_any, List.any_eq_false]
    intro a ha
    obtain ⟨kind, hZip⟩ := exists_kind_of_mem hLength ha
    rw [ih kind a hZip]
    exact nofun

/-- What occurs free in a typed term is in the context. -/
theorem HasType.closed {Γ : Context} {t : Term} {T : Ty} (h : HasType Γ t T) :
    t.EachFree fun x => Γ.lookup x ≠ none := by
  have hUnder : ∀ {Γ : Context} {x id : Ident} {A : Ty}, id ≠ x →
      List.lookup x ((id, A) :: Γ) ≠ none → Γ.lookup x ≠ none := by
    intro Γ x id A hne hLookup
    rwa [List.lookup_cons, beq_false_of_ne (Ne.symm hne)] at hLookup
  intro x hx
  induction h with
  | var hLookup =>
    rw [Term.occursFree_var] at hx
    subst hx
    rw [hLookup]
    exact nofun
  | int | bool => cases hx
  | lam _ ih =>
    rw [Term.occursFree_lam] at hx
    exact hUnder hx.1 (ih hx.2)
  | fix _ ih =>
    rw [Term.occursFree_fix] at hx
    exact hUnder hx.1 (ih hx.2)
  | app _ _ ihFn ihArg => exact (Term.occursFree_app.mp hx).elim ihFn ihArg
  | logic _ _ _ ihLeft ihRight => exact (Term.occursFree_logic.mp hx).elim ihLeft ihRight
  | letIn _ _ ihBound ihBody =>
    rcases Term.occursFree_letIn.mp hx with hBound | ⟨hne, hBody⟩
    · exact ihBound hBound
    · exact hUnder hne (ihBody hBody)
  | ite _ _ _ ihCond ihYes ihNo =>
    rcases Term.occursFree_ite.mp hx with hCond | hYes | hNo
    · exact ihCond hCond
    · exact ihYes hYes
    · exact ihNo hNo
  | prim hLength _ ih =>
    obtain ⟨a, ha, hFree⟩ := Term.occursFree_prim.mp hx
    obtain ⟨kind, hZip⟩ := exists_kind_of_mem hLength ha
    exact ih kind a hZip hFree

/-! ### Successful inference -/

/-- Applies an assignment to the types of a context. -/
def Context.subst (σ : Nat → Ty) (Γ : Context) : Context := Γ.map fun b => (b.1, b.2.subst σ)

theorem Context.lookup_subst (σ : Nat → Ty) (Γ : Context) (id : Ident) :
    (Γ.subst σ).lookup id = (Γ.lookup id).map (Ty.subst σ) := by
  induction Γ with
  | nil => rfl
  | cons b rest ih =>
    rw [Context.subst, List.map_cons, List.lookup_cons, List.lookup_cons]
    cases id == b.1 with
    | true => rfl
    | false => exact ih

namespace Inference

theorem bind_eq_ok {α β : Type} {x : Infer α} {next : α → Infer β} {s s' : Inference} {b : β}
    (h : (x >>= next).run s = some (.ok (b, s'))) :
    ∃ a s₁, x.run s = some (.ok (a, s₁)) ∧ (next a).run s₁ = some (.ok (b, s')) := by
  rw [Infer.run_bind] at h
  obtain ⟨r, hx, hNext⟩ := Option.bind_eq_some_iff.mp h
  cases r with
  | error e => cases hNext
  | ok p => exact ⟨p.1, p.2, hx, hNext⟩

theorem pure_eq_ok {α : Type} {a b : α} {s s' : Inference}
    (h : (pure a : Infer α).run s = some (.ok (b, s'))) : a = b ∧ s = s' := by
  cases h
  exact ⟨rfl, rfl⟩

/-- One stage of inference leads to another: no variables run in a circle and more is known. -/
structure Advances (s s' : Inference) : Prop where
  acyclic : s'.solution.Acyclic
  grows : s.solution.Grows s'.solution

theorem Advances.trans {s s₁ s' : Inference} (h : s.Advances s₁) (h' : s₁.Advances s') :
    s.Advances s' := ⟨h'.acyclic, h.grows.trans h'.grows⟩

theorem newVar_advances {ty : Ty} {s s' : Inference} (h : newVar.run s = some (.ok (ty, s')))
    (hAcyclic : s.solution.Acyclic) : s.Advances s' := by
  cases h
  exact ⟨hAcyclic, .refl _⟩

theorem unify_advances {expected found : Ty} {u : Unit} {s s' : Inference}
    (h : (unify expected found).run s = some (.ok (u, s'))) (hAcyclic : s.solution.Acyclic) :
    s.Advances s' ∧ ∀ σ, s'.solution.Satisfied σ → expected.subst σ = found.subst σ := by
  obtain ⟨r, hUnify, hDecides⟩ := hAcyclic.unify expected found
  rw [unify, Infer.run, hUnify] at h
  cases hDecides with
  | error => cases h
  | ok hSolves =>
    cases h
    exact ⟨⟨hSolves.acyclic, hSolves.grows⟩, hSolves.equal⟩

/-- A type inferred for a term is one of its types, under every assignment that satisfies what
has been found out. -/
def Infers (t : Term) : Prop :=
  ∀ {Γ : Context} {T : Ty} {s s' : Inference}, (infer Γ t).run s = some (.ok (T, s')) → s.solution.Acyclic →
    s.Advances s' ∧ ∀ σ, s'.solution.Satisfied σ → HasType (Γ.subst σ) t (T.subst σ)

theorem BaseKind.subst_toTy (kind : BaseKind) (σ : Nat → Ty) : kind.toTy.subst σ = kind.toTy := by
  cases kind <;> rfl

theorem infers_lam {param : Ident} {body : Term} (ih : Infers body) : Infers (.lam param body) := by
  intro Γ T s s' h hAcyclic
  obtain ⟨A, s₁, hVar, h⟩ := bind_eq_ok h
  obtain ⟨B, s₂, hBody, h⟩ := bind_eq_ok h
  obtain ⟨rfl, rfl⟩ := pure_eq_ok h
  have hFirst := newVar_advances hVar hAcyclic
  obtain ⟨hSecond, hTyped⟩ := ih hBody hFirst.acyclic
  exact ⟨hFirst.trans hSecond, fun σ hσ => .lam (hTyped σ hσ)⟩

theorem infers_app {fn arg : Term} (ihFn : Infers fn) (ihArg : Infers arg) :
    Infers (.app fn arg) := by
  intro Γ T s s' h hAcyclic
  obtain ⟨F, s₁, hFn, h⟩ := bind_eq_ok h
  obtain ⟨A, s₂, hArg, h⟩ := bind_eq_ok h
  obtain ⟨B, s₃, hVar, h⟩ := bind_eq_ok h
  obtain ⟨u, s₄, hUnify, h⟩ := bind_eq_ok h
  obtain ⟨rfl, rfl⟩ := pure_eq_ok h
  obtain ⟨hFirst, hFnTyped⟩ := ihFn hFn hAcyclic
  obtain ⟨hSecond, hArgTyped⟩ := ihArg hArg hFirst.acyclic
  have hThird := newVar_advances hVar hSecond.acyclic
  obtain ⟨hFourth, hEqual⟩ := unify_advances hUnify hThird.acyclic
  refine ⟨((hFirst.trans hSecond).trans hThird).trans hFourth, fun σ hσ => ?_⟩
  have hLate := hσ.of_grows (hThird.trans hFourth).grows
  have hFnType := hFnTyped σ (hLate.of_grows hSecond.grows)
  rw [hEqual σ hσ] at hFnType
  exact .app hFnType (hArgTyped σ hLate)

theorem inferOperands_sound {Γ : Context} {kinds : List BaseKind} {args : List Term}
    (ih : ∀ a ∈ args, Infers a) {u : Unit} {s s' : Inference}
    (h : (inferOperands Γ kinds args).run s = some (.ok (u, s'))) (hAcyclic : s.solution.Acyclic) :
    s.Advances s' ∧ ∀ σ, s'.solution.Satisfied σ →
      ∀ kind arg, (kind, arg) ∈ kinds.zip args → HasType (Γ.subst σ) arg kind.toTy := by
  induction kinds generalizing args s with
  | nil =>
    rw [inferOperands.eq_2 Γ [] args (fun _ _ _ _ h => nomatch h)] at h
    obtain ⟨-, rfl⟩ := pure_eq_ok h
    exact ⟨⟨hAcyclic, .refl _⟩, fun σ hσ kind arg hZip => by cases hZip⟩
  | cons kind kinds ihKinds =>
    cases args with
    | nil =>
      cases h
      exact ⟨⟨hAcyclic, .refl _⟩, fun σ hσ kind arg hZip => by cases hZip⟩
    | cons arg args =>
      rw [inferOperands] at h
      obtain ⟨T, s₁, hArg, h⟩ := bind_eq_ok h
      obtain ⟨u₁, s₂, hUnify, h⟩ := bind_eq_ok h
      obtain ⟨hHead, hTail⟩ := List.forall_mem_cons.mp ih
      obtain ⟨hFirst, hTyped⟩ := hHead hArg hAcyclic
      obtain ⟨hSecond, hEqual⟩ := unify_advances hUnify hFirst.acyclic
      obtain ⟨hThird, hRest⟩ := ihKinds hTail h hSecond.acyclic
      refine ⟨(hFirst.trans hSecond).trans hThird, fun σ hσ kind' arg' hZip => ?_⟩
      rcases List.mem_cons.mp hZip with hSame | hZip
      · cases hSame
        have hEarly := hσ.of_grows hThird.grows
        have hType := hTyped σ (hEarly.of_grows hSecond.grows)
        rw [← hEqual σ hEarly, BaseKind.subst_toTy] at hType
        exact hType
      · exact hRest σ hσ kind' arg' hZip

theorem infers_prim {op : PrimOp} {args : List Term} (ih : ∀ a ∈ args, Infers a) :
    Infers (.prim op args) := by
  intro Γ T s s' h hAcyclic
  rw [infer] at h
  by_cases hLength : args.length = op.arity
  · rw [if_pos hLength] at h
    obtain ⟨u, s₁, hOperands, h⟩ := bind_eq_ok h
    obtain ⟨rfl, rfl⟩ := pure_eq_ok h
    obtain ⟨hAdvances, hTyped⟩ := inferOperands_sound ih hOperands hAcyclic
    refine ⟨hAdvances, fun σ hσ => ?_⟩
    rw [BaseKind.subst_toTy]
    exact .prim hLength (hTyped σ hσ)
  · rw [if_neg hLength] at h
    cases h

theorem infers_logic {op : LogicOp} {left right : Term} (ihLeft : Infers left)
    (ihRight : Infers right) : Infers (.logic op left right) := by
  intro Γ T s s' h hAcyclic
  obtain ⟨A, s₁, hLeft, h⟩ := bind_eq_ok h
  obtain ⟨u, s₂, hUnify, h⟩ := bind_eq_ok h
  obtain ⟨B, s₃, hRight, h⟩ := bind_eq_ok h
  obtain ⟨u', s₄, hUnify', h⟩ := bind_eq_ok h
  obtain ⟨rfl, rfl⟩ := pure_eq_ok h
  obtain ⟨hFirst, hLeftTyped⟩ := ihLeft hLeft hAcyclic
  obtain ⟨hSecond, hEqual⟩ := unify_advances hUnify hFirst.acyclic
  obtain ⟨hThird, hRightTyped⟩ := ihRight hRight hSecond.acyclic
  obtain ⟨hFourth, hEqual'⟩ := unify_advances hUnify' hThird.acyclic
  refine ⟨((hFirst.trans hSecond).trans hThird).trans hFourth, fun σ hσ => ?_⟩
  have hRightSat := hσ.of_grows hFourth.grows
  have hLeftSat := hRightSat.of_grows hThird.grows
  have hLeftType := hLeftTyped σ (hLeftSat.of_grows hSecond.grows)
  have hRightType := hRightTyped σ hRightSat
  rw [← hEqual σ hLeftSat] at hLeftType
  rw [← hEqual' σ hσ] at hRightType
  exact .logic op hLeftType hRightType

theorem infers_ite {cond yes no : Term} (ihCond : Infers cond) (ihYes : Infers yes)
    (ihNo : Infers no) : Infers (.ite cond yes no) := by
  intro Γ T s s' h hAcyclic
  obtain ⟨A, s₁, hCond, h⟩ := bind_eq_ok h
  obtain ⟨u, s₂, hUnify, h⟩ := bind_eq_ok h
  obtain ⟨B, s₃, hYes, h⟩ := bind_eq_ok h
  obtain ⟨C, s₄, hNo, h⟩ := bind_eq_ok h
  obtain ⟨u', s₅, hUnify', h⟩ := bind_eq_ok h
  obtain ⟨rfl, rfl⟩ := pure_eq_ok h
  obtain ⟨hFirst, hCondTyped⟩ := ihCond hCond hAcyclic
  obtain ⟨hSecond, hEqual⟩ := unify_advances hUnify hFirst.acyclic
  obtain ⟨hThird, hYesTyped⟩ := ihYes hYes hSecond.acyclic
  obtain ⟨hFourth, hNoTyped⟩ := ihNo hNo hThird.acyclic
  obtain ⟨hFifth, hEqual'⟩ := unify_advances hUnify' hFourth.acyclic
  refine ⟨(((hFirst.trans hSecond).trans hThird).trans hFourth).trans hFifth, fun σ hσ => ?_⟩
  have hNoSat := hσ.of_grows hFifth.grows
  have hYesSat := hNoSat.of_grows hFourth.grows
  have hCondSat := hYesSat.of_grows hThird.grows
  have hCondType := hCondTyped σ (hCondSat.of_grows hSecond.grows)
  have hNoType := hNoTyped σ hNoSat
  rw [← hEqual σ hCondSat] at hCondType
  rw [← hEqual' σ hσ] at hNoType
  exact .ite hCondType (hYesTyped σ hYesSat) hNoType

theorem infers_fix {self : Ident} {body : Term} (ih : Infers body) : Infers (.fix self body) := by
  intro Γ T s s' h hAcyclic
  cases body with
  | lam param body =>
    rw [infer, if_pos (show (Term.lam param body).isLam = true from rfl)] at h
    obtain ⟨A, s₁, hVar, h⟩ := bind_eq_ok h
    obtain ⟨B, s₂, hBody, h⟩ := bind_eq_ok h
    obtain ⟨u, s₃, hUnify, h⟩ := bind_eq_ok h
    obtain ⟨rfl, rfl⟩ := pure_eq_ok h
    have hFirst := newVar_advances hVar hAcyclic
    obtain ⟨hSecond, hTyped⟩ := ih hBody hFirst.acyclic
    obtain ⟨hThird, hEqual⟩ := unify_advances hUnify hSecond.acyclic
    refine ⟨(hFirst.trans hSecond).trans hThird, fun σ hσ => .fix ?_⟩
    have hBodyType := hTyped σ (hσ.of_grows hThird.grows)
    rw [Context.subst, List.map_cons, hEqual σ hσ] at hBodyType
    exact hBodyType
  | _ => cases h

theorem infers_letIn {id : Ident} {bound body : Term} (ihBound : Infers bound)
    (ihBody : Infers body) : Infers (.letIn id bound body) := by
  intro Γ T s s' h hAcyclic
  obtain ⟨A, s₁, hBound, h⟩ := bind_eq_ok h
  obtain ⟨hFirst, hBoundTyped⟩ := ihBound hBound hAcyclic
  obtain ⟨hSecond, hBodyTyped⟩ := ihBody h hFirst.acyclic
  refine ⟨hFirst.trans hSecond, fun σ hσ => ?_⟩
  exact .letIn (hBoundTyped σ (hσ.of_grows hSecond.grows)) (hBodyTyped σ hσ)

/-- **Inference is sound.** -/
theorem infer_sound (t : Term) : Infers t := by
  induction t with
  | var id =>
    intro Γ T s s' h hAcyclic
    rw [infer] at h
    cases hLookup : Γ.lookup id with
    | none =>
      rw [hLookup] at h
      cases h
    | some ty =>
      rw [hLookup] at h
      obtain ⟨rfl, rfl⟩ := pure_eq_ok h
      exact ⟨⟨hAcyclic, .refl _⟩, fun σ _ => .var (by rw [Context.lookup_subst, hLookup]; rfl)⟩
  | int n =>
    intro Γ T s s' h hAcyclic
    obtain ⟨rfl, rfl⟩ := pure_eq_ok h
    exact ⟨⟨hAcyclic, .refl _⟩, fun σ _ => .int _ n⟩
  | bool b =>
    intro Γ T s s' h hAcyclic
    obtain ⟨rfl, rfl⟩ := pure_eq_ok h
    exact ⟨⟨hAcyclic, .refl _⟩, fun σ _ => .bool _ b⟩
  | lam param body ih => exact infers_lam ih
  | app fn arg ihFn ihArg => exact infers_app ihFn ihArg
  | prim op args ih => exact infers_prim ih
  | logic op left right ihLeft ihRight => exact infers_logic ihLeft ihRight
  | ite cond yes no ihCond ihYes ihNo => exact infers_ite ihCond ihYes ihNo
  | fix self body ih => exact infers_fix ih
  | letIn id bound body ihBound ihBody => exact infers_letIn ihBound ihBody
  | quote | splice =>
    intro Γ T s s' h
    cases h

end Inference

/-- **A term has the type that is computed for it.** -/
theorem Term.hasType_of_typeOf {t : Term} {T : Ty} (h : t.typeOf = .ok T) : HasType [] t T := by
  obtain ⟨s, ty, hInfer, hZonk⟩ := Term.typeOf_eq_ok_iff.mp h
  obtain ⟨hAdvances, hTyped⟩ := Inference.infer_sound t hInfer Solution.acyclic_empty
  have hImage := hTyped _ hAdvances.acyclic.satisfied_image
  rw [hAdvances.acyclic.zonk_eq] at hZonk
  rw [← Option.some.inj hZonk]
  exact hImage

end StagedLambda
