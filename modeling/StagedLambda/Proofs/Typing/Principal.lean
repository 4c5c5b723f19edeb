import Mathlib
import StagedLambda.Proofs.Typing.Inference

/-!
# Principal types

Inference succeeds on every term that has a type, and all types of the term are instances of the
one that it computes (`Term.typeOf_principal`).

A typing of a term is followed through inference as an assignment of types to variables.  At first
it says what the types in the context stand for; each time a variable is made, it is extended by
what the variable stands for in the given typing; and it satisfies every equation that inference
comes to (`Inference.Extends`).  So no unification fails, and at the end the assignment turns the
inferred type into the given one (`Inference.finds`).
-/

namespace StagedLambda

/-- **Assignments keep typings**: the instances of a type of a term are types of the term. -/
theorem HasType.subst {Γ : Context} {t : Term} {T : Ty} (h : HasType Γ t T) (σ : Nat → Ty) :
    HasType (Γ.subst σ) t (T.subst σ) := by
  induction h with
  | var hLookup => exact .var (by rw [Context.lookup_subst, hLookup]; rfl)
  | int Γ n => exact .int _ n
  | bool Γ b => exact .bool _ b
  | lam _ ih => exact .lam ih
  | app _ _ ihFn ihArg => exact .app ihFn ihArg
  | logic op _ _ ihLeft ihRight => exact .logic op ihLeft ihRight
  | ite _ _ _ ihCond ihYes ihNo => exact .ite ihCond ihYes ihNo
  | fix _ ih => exact .fix ih
  | letIn _ _ ihBound ihBody => exact .letIn ihBound ihBody
  | prim hLength _ ih =>
    rw [Inference.BaseKind.subst_toTy]
    refine .prim hLength fun kind arg hZip => ?_
    have hArg := ih kind arg hZip
    rwa [Inference.BaseKind.subst_toTy] at hArg

/-- Base kinds have no variables. -/
theorem BaseKind.below_toTy (kind : BaseKind) (n : Nat) : kind.toTy.Below n := by
  cases kind <;> exact List.forall_mem_nil _

namespace Context

variable {n : Nat} {Γ : Context}

/-- The variables in the types of a context are numbered below `n`. -/
def Below (n : Nat) (Γ : Context) : Prop := ∀ b ∈ Γ, b.2.Below n

theorem Below.mono {m : Nat} (h : Γ.Below n) (hnm : n ≤ m) : Γ.Below m :=
  fun b hb => (h b hb).mono hnm

theorem Below.cons (h : Γ.Below n) (id : Ident) {T : Ty} (hT : T.Below n) :
    Context.Below n ((id, T) :: Γ) := List.forall_mem_cons.mpr ⟨hT, h⟩

theorem Below.lookup (h : Γ.Below n) {id : Ident} {T : Ty} (hLookup : Γ.lookup id = some T) :
    T.Below n := by
  induction Γ with
  | nil => cases hLookup
  | cons b rest ih =>
    obtain ⟨hHead, hRest⟩ := List.forall_mem_cons.mp h
    rw [List.lookup_cons] at hLookup
    cases hSame : id == b.1 with
    | true =>
      rw [hSame] at hLookup
      exact Option.some.inj hLookup ▸ hHead
    | false =>
      rw [hSame] at hLookup
      exact ih hRest hLookup

end Context

namespace Inference

/-! ### Assignments along inference -/

/-- An assignment satisfies what has been found out so far. -/
structure Admits (s : Inference) (σ : Nat → Ty) : Prop where
  acyclic : s.solution.Acyclic
  below : s.solution.Below s.fresh
  satisfied : s.solution.Satisfied σ

/-- Inference has gone on from `s` to `s'`, and the assignment has been extended to the variables
that were made on the way. -/
structure Extends (s : Inference) (σ : Nat → Ty) (s' : Inference) (σ' : Nat → Ty) : Prop where
  admits : s'.Admits σ'
  fresh_le : s.fresh ≤ s'.fresh
  agree : ∀ v < s.fresh, σ' v = σ v

namespace Extends

variable {s s₁ s₂ : Inference} {σ σ₁ σ₂ : Nat → Ty} {Γ : Context}

theorem refl (h : s.Admits σ) : s.Extends σ s σ := ⟨h, Nat.le_refl _, fun _ _ => rfl⟩

theorem trans (h : s.Extends σ s₁ σ₁) (h' : s₁.Extends σ₁ s₂ σ₂) : s.Extends σ s₂ σ₂ := by
  refine ⟨h'.admits, Nat.le_trans h.fresh_le h'.fresh_le, fun v hv => ?_⟩
  rw [h'.agree v (Nat.lt_of_lt_of_le hv h.fresh_le), h.agree v hv]

theorem subst_eq (h : s.Extends σ s₁ σ₁) {T : Ty} (hT : T.Below s.fresh) :
    T.subst σ₁ = T.subst σ := Ty.subst_congr fun v hv => h.agree v (hT v hv)

theorem context_eq (h : s.Extends σ s₁ σ₁) (hΓ : Γ.Below s.fresh) : Γ.subst σ₁ = Γ.subst σ :=
  List.map_congr_left fun b hb => by rw [h.subst_eq (hΓ b hb)]

theorem typed (h : s.Extends σ s₁ σ₁) (hΓ : Γ.Below s.fresh) {t : Term} {U : Ty}
    (hTyped : HasType (Γ.subst σ) t U) : HasType (Γ.subst σ₁) t U := by
  rw [h.context_eq hΓ]
  exact hTyped

/-- A binder whose type stands for the one that it has in the given typing. -/
theorem typed_cons (h : s.Extends σ s₁ σ₁) (hΓ : Γ.Below s.fresh) {id : Ident} {t : Term}
    {T A U : Ty} (hT : T.subst σ₁ = A) (hTyped : HasType ((id, A) :: Γ.subst σ) t U) :
    HasType (Context.subst σ₁ ((id, T) :: Γ)) t U := by
  show HasType ((id, T.subst σ₁) :: Γ.subst σ₁) t U
  rw [hT, h.context_eq hΓ]
  exact hTyped

end Extends

theorem bind_of_ok {α β : Type} {x : Infer α} {next : α → Infer β} {s s₁ : Inference} {a : α}
    (h : x.run s = some (.ok (a, s₁))) : (x >>= next).run s = (next a).run s₁ := by
  rw [Infer.run_bind, h]
  rfl

section

variable {s : Inference} {σ : Nat → Ty}

/-- A new variable can stand for any type. -/
theorem Admits.newVar (h : s.Admits σ) (A : Ty) :
    ∃ T s₁ σ₁, newVar.run s = some (.ok (T, s₁)) ∧ s.Extends σ s₁ σ₁ ∧ T.Below s₁.fresh ∧ T.subst σ₁ = A := by
  have hOld : ∀ v < s.fresh, Function.update σ s.fresh A v = σ v :=
    fun v hv => Function.update_of_ne (Nat.ne_of_lt hv) _ _
  refine ⟨.var s.fresh, { s with fresh := s.fresh + 1 }, Function.update σ s.fresh A, rfl,
    ⟨⟨h.acyclic, ?_, ?_⟩, Nat.le_succ _, hOld⟩, ?_, Function.update_self _ _ _⟩
  · intro v u hv
    obtain ⟨hVar, hType⟩ := h.below v u hv
    exact ⟨Nat.lt_succ_of_lt hVar, hType.mono (Nat.le_succ _)⟩
  · intro v u hv
    obtain ⟨hVar, hType⟩ := h.below v u hv
    rw [hOld v hVar, h.satisfied v u hv]
    exact Ty.subst_congr fun w hw => (hOld w (hType w hw)).symm
  · exact List.forall_mem_singleton.mpr (Nat.lt_succ_self _)

/-- Types that stand for the same type can be unified. -/
theorem Admits.unify (h : s.Admits σ) {expected found : Ty} (hExpected : expected.Below s.fresh)
    (hFound : found.Below s.fresh) (hEqual : expected.subst σ = found.subst σ) :
    ∃ s₁, (unify expected found).run s = some (.ok ((), s₁)) ∧ s.Extends σ s₁ σ := by
  obtain ⟨r, hUnify, hDecides⟩ := h.acyclic.unify expected found
  cases hDecides with
  | error hNone => exact absurd hEqual (hNone σ h.satisfied)
  | @ok solution hSolves =>
    have hBelow := hSolves.below _ h.below hExpected hFound
    have hSatisfied := hSolves.complete σ h.satisfied hEqual
    refine ⟨{ s with solution }, ?_, ⟨hSolves.acyclic, hBelow, hSatisfied⟩, Nat.le_refl _,
      fun _ _ => rfl⟩
    rw [Inference.unify, Infer.run, hUnify]
    rfl

end

/-! ### Terms -/

/-- Every type that the term has under an assignment is found by inference: it succeeds, and the
assignment extends so that the inferred type stands for the given one. -/
def Finds (t : Term) : Prop :=
  ∀ {Γ : Context} {s : Inference} {σ : Nat → Ty} {U : Ty}, s.Admits σ → Γ.Below s.fresh →
    HasType (Γ.subst σ) t U →
    ∃ T s' σ', (infer Γ t).run s = some (.ok (T, s')) ∧ s.Extends σ s' σ' ∧ T.Below s'.fresh ∧ T.subst σ' = U

theorem finds_var (id : Ident) : Finds (.var id) := by
  intro Γ s σ U hAdmits hΓ hTyped
  cases hTyped with
  | var hLookup =>
    rw [Context.lookup_subst, Option.map_eq_some_iff] at hLookup
    obtain ⟨T, hT, hU⟩ := hLookup
    refine ⟨T, s, σ, ?_, .refl hAdmits, hΓ.lookup hT, hU⟩
    rw [infer, hT]
    rfl

theorem finds_lam {param : Ident} {body : Term} (ih : Finds body) : Finds (.lam param body) := by
  intro Γ s σ U hAdmits hΓ hTyped
  cases hTyped with
  | @lam _ _ _ A B hBody =>
    obtain ⟨P, s₁, σ₁, hVar, hFirst, hP, hPA⟩ := hAdmits.newVar A
    have hΓ₁ := (hΓ.mono hFirst.fresh_le).cons param hP
    obtain ⟨T, s₂, σ₂, hInfer, hSecond, hT, hTB⟩ :=
      ih hFirst.admits hΓ₁ (hFirst.typed_cons hΓ hPA hBody)
    refine ⟨.fn P T, s₂, σ₂, ?_, hFirst.trans hSecond, ?_, ?_⟩
    · rw [infer, bind_of_ok hVar, bind_of_ok hInfer]
      rfl
    · exact Ty.below_fn.mpr ⟨hP.mono hSecond.fresh_le, hT⟩
    · rw [Ty.subst, hSecond.subst_eq hP, hPA, hTB]

theorem finds_app {fn arg : Term} (ihFn : Finds fn) (ihArg : Finds arg) : Finds (.app fn arg) := by
  intro Γ s σ U hAdmits hΓ hTyped
  cases hTyped with
  | @app _ _ _ A _ hFn hArg =>
    obtain ⟨F, s₁, σ₁, hInferFn, hFirst, hF, hFA⟩ := ihFn hAdmits hΓ hFn
    obtain ⟨T, s₂, σ₂, hInferArg, hSecond, hT, hTA⟩ :=
      ihArg hFirst.admits (hΓ.mono hFirst.fresh_le) (hFirst.typed hΓ hArg)
    obtain ⟨R, s₃, σ₃, hVar, hThird, hR, hRU⟩ := hSecond.admits.newVar U
    have hLate := hSecond.trans hThird
    have hCall : (Ty.fn T R).Below s₃.fresh := Ty.below_fn.mpr ⟨hT.mono hThird.fresh_le, hR⟩
    have hEqual : F.subst σ₃ = (Ty.fn T R).subst σ₃ := by
      rw [hLate.subst_eq hF, hFA, Ty.subst, hThird.subst_eq hT, hTA, hRU]
    obtain ⟨s₄, hUnify, hFourth⟩ :=
      hThird.admits.unify (hF.mono hLate.fresh_le) hCall hEqual
    refine ⟨R, s₄, σ₃, ?_, (hFirst.trans hLate).trans hFourth, hR.mono hFourth.fresh_le, hRU⟩
    rw [infer, bind_of_ok hInferFn, bind_of_ok hInferArg, bind_of_ok hVar, bind_of_ok hUnify]
    rfl

/-- A part that has to be of a base kind. -/
theorem Finds.check {t : Term} (h : Finds t) (kind : BaseKind) {Γ : Context} {s : Inference}
    {σ : Nat → Ty} (hAdmits : s.Admits σ) (hΓ : Γ.Below s.fresh)
    (hTyped : HasType (Γ.subst σ) t kind.toTy) :
    ∃ T s₁ s₂ σ₂, (infer Γ t).run s = some (.ok (T, s₁)) ∧
      (unify kind.toTy T).run s₁ = some (.ok ((), s₂)) ∧
      s.Extends σ s₂ σ₂ := by
  obtain ⟨T, s₁, σ₁, hInfer, hFirst, hT, hKind⟩ := h hAdmits hΓ hTyped
  obtain ⟨s₂, hUnify, hSecond⟩ :=
    hFirst.admits.unify (kind.below_toTy _) hT (by rw [BaseKind.subst_toTy, hKind])
  exact ⟨T, s₁, s₂, σ₁, hInfer, hUnify, hFirst.trans hSecond⟩

theorem finds_operands {Γ : Context} {kinds : List BaseKind} {args : List Term}
    (ih : ∀ a ∈ args, Finds a) {s : Inference} {σ : Nat → Ty} (hAdmits : s.Admits σ)
    (hΓ : Γ.Below s.fresh)
    (hTyped : ∀ kind arg, (kind, arg) ∈ kinds.zip args → HasType (Γ.subst σ) arg kind.toTy) :
    ∃ s' σ', (inferOperands Γ kinds args).run s = some (.ok ((), s')) ∧ s.Extends σ s' σ' := by
  induction kinds generalizing args s σ with
  | nil =>
    refine ⟨s, σ, ?_, .refl hAdmits⟩
    cases args <;> rfl
  | cons kind kinds ihKinds =>
    cases args with
    | nil => exact ⟨s, σ, rfl, .refl hAdmits⟩
    | cons arg args =>
      obtain ⟨hHead, hTail⟩ := List.forall_mem_cons.mp ih
      obtain ⟨T, s₁, s₂, σ₂, hInfer, hUnify, hFirst⟩ :=
        hHead.check kind hAdmits hΓ (hTyped kind arg List.mem_cons_self)
      obtain ⟨s', σ', hRest, hSecond⟩ := ihKinds hTail hFirst.admits (hΓ.mono hFirst.fresh_le)
        fun kind' arg' hZip => hFirst.typed hΓ (hTyped kind' arg' (List.mem_cons_of_mem _ hZip))
      refine ⟨s', σ', ?_, hFirst.trans hSecond⟩
      rw [inferOperands, bind_of_ok hInfer, bind_of_ok hUnify]
      exact hRest

theorem finds_prim {op : PrimOp} {args : List Term} (ih : ∀ a ∈ args, Finds a) :
    Finds (.prim op args) := by
  intro Γ s σ U hAdmits hΓ hTyped
  cases hTyped with
  | prim hLength hArgs =>
    obtain ⟨s', σ', hOperands, hExtends⟩ := finds_operands ih hAdmits hΓ hArgs
    refine ⟨op.result.toTy, s', σ', ?_, hExtends, op.result.below_toTy _, BaseKind.subst_toTy _ _⟩
    rw [infer, if_pos hLength, bind_of_ok hOperands]
    rfl

theorem finds_logic {op : LogicOp} {left right : Term} (ihLeft : Finds left)
    (ihRight : Finds right) : Finds (.logic op left right) := by
  intro Γ s σ U hAdmits hΓ hTyped
  cases hTyped with
  | logic _ hLeft hRight =>
    obtain ⟨A, s₁, s₂, σ₂, hInfer, hUnify, hFirst⟩ := ihLeft.check .bool hAdmits hΓ hLeft
    obtain ⟨B, s₃, s₄, σ₄, hInfer', hUnify', hSecond⟩ := ihRight.check .bool hFirst.admits
      (hΓ.mono hFirst.fresh_le) (hFirst.typed hΓ hRight)
    refine ⟨.bool, s₄, σ₄, ?_, hFirst.trans hSecond, BaseKind.bool.below_toTy _, rfl⟩
    rw [infer, bind_of_ok hInfer]
    exact (bind_of_ok hUnify).trans ((bind_of_ok hInfer').trans (bind_of_ok hUnify'))

theorem finds_ite {cond yes no : Term} (ihCond : Finds cond) (ihYes : Finds yes)
    (ihNo : Finds no) : Finds (.ite cond yes no) := by
  intro Γ s σ U hAdmits hΓ hTyped
  cases hTyped with
  | ite hCond hYes hNo =>
    obtain ⟨A, s₁, s₂, σ₂, hInfer, hUnify, hFirst⟩ := ihCond.check .bool hAdmits hΓ hCond
    obtain ⟨B, s₃, σ₃, hInferYes, hSecond, hB, hBU⟩ :=
      ihYes hFirst.admits (hΓ.mono hFirst.fresh_le) (hFirst.typed hΓ hYes)
    have hEarly := hFirst.trans hSecond
    obtain ⟨C, s₄, σ₄, hInferNo, hThird, hC, hCU⟩ :=
      ihNo hSecond.admits (hΓ.mono hEarly.fresh_le) (hEarly.typed hΓ hNo)
    have hEqual : B.subst σ₄ = C.subst σ₄ := by rw [hThird.subst_eq hB, hBU, hCU]
    obtain ⟨s₅, hUnify', hFourth⟩ :=
      hThird.admits.unify (hB.mono hThird.fresh_le) hC hEqual
    have hLate := hThird.trans hFourth
    refine ⟨B, s₅, σ₄, ?_, hEarly.trans hLate, hB.mono hLate.fresh_le, hEqual.trans hCU⟩
    rw [infer, bind_of_ok hInfer]
    refine (bind_of_ok hUnify).trans ?_
    rw [bind_of_ok hInferYes, bind_of_ok hInferNo, bind_of_ok hUnify']
    rfl

theorem finds_fix {self : Ident} {body : Term} (ih : Finds body) : Finds (.fix self body) := by
  intro Γ s σ U hAdmits hΓ hTyped
  cases hTyped with
  | @fix _ _ param body _ hBody =>
    obtain ⟨S, s₁, σ₁, hVar, hFirst, hS, hSU⟩ := hAdmits.newVar U
    have hΓ₁ := (hΓ.mono hFirst.fresh_le).cons self hS
    obtain ⟨T, s₂, σ₂, hInfer, hSecond, hT, hTU⟩ :=
      ih hFirst.admits hΓ₁ (hFirst.typed_cons hΓ hSU hBody)
    have hEqual : S.subst σ₂ = T.subst σ₂ := by rw [hSecond.subst_eq hS, hSU, hTU]
    obtain ⟨s₃, hUnify, hThird⟩ :=
      hSecond.admits.unify (hS.mono hSecond.fresh_le) hT hEqual
    refine ⟨T, s₃, σ₂, ?_, (hFirst.trans hSecond).trans hThird, hT.mono hThird.fresh_le, hTU⟩
    rw [infer, if_pos (show (Term.lam param body).isLam = true from rfl), bind_of_ok hVar,
      bind_of_ok hInfer, bind_of_ok hUnify]
    rfl

theorem finds_letIn {id : Ident} {bound body : Term} (ihBound : Finds bound)
    (ihBody : Finds body) : Finds (.letIn id bound body) := by
  intro Γ s σ U hAdmits hΓ hTyped
  cases hTyped with
  | letIn hBound hBody =>
    obtain ⟨A, s₁, σ₁, hInfer, hFirst, hA, hStands⟩ := ihBound hAdmits hΓ hBound
    have hΓ₁ := (hΓ.mono hFirst.fresh_le).cons id hA
    obtain ⟨B, s₂, σ₂, hInfer', hSecond, hB, hBU⟩ :=
      ihBody hFirst.admits hΓ₁ (hFirst.typed_cons hΓ hStands hBody)
    refine ⟨B, s₂, σ₂, ?_, hFirst.trans hSecond, hB, hBU⟩
    rw [infer, bind_of_ok hInfer]
    exact hInfer'

/-- **Inference is complete.** -/
theorem finds (t : Term) : Finds t := by
  induction t with
  | var id => exact finds_var id
  | int n =>
    intro Γ s σ U hAdmits hΓ hTyped
    cases hTyped
    exact ⟨.int, s, σ, rfl, .refl hAdmits, BaseKind.int.below_toTy _, rfl⟩
  | bool b =>
    intro Γ s σ U hAdmits hΓ hTyped
    cases hTyped
    exact ⟨.bool, s, σ, rfl, .refl hAdmits, BaseKind.bool.below_toTy _, rfl⟩
  | lam param body ih => exact finds_lam ih
  | app fn arg ihFn ihArg => exact finds_app ihFn ihArg
  | prim op args ih => exact finds_prim ih
  | logic op left right ihLeft ihRight => exact finds_logic ihLeft ihRight
  | ite cond yes no ihCond ihYes ihNo => exact finds_ite ihCond ihYes ihNo
  | fix self body ih => exact finds_fix ih
  | letIn id bound body ihBound ihBody => exact finds_letIn ihBound ihBody
  | quote | splice =>
    intro Γ s σ U hAdmits hΓ hTyped
    cases hTyped

end Inference

/-! ### Closed terms -/

/-- A term that has a type gets one of which that is an instance. -/
theorem Term.typeOf_of_hasType {t : Term} {U : Ty} (h : HasType [] t U) :
    ∃ T σ, t.typeOf = .ok T ∧ U = T.subst σ := by
  -- Nothing is known before the first step, so any assignment will do.
  have hAdmits : ({} : Inference).Admits .var := ⟨Solution.acyclic_empty, nofun, nofun⟩
  obtain ⟨T, s, σ, hInfer, hExtends, -, hU⟩ := Inference.finds t (Γ := []) hAdmits nofun h
  have hAcyclic := hExtends.admits.acyclic
  refine ⟨T.subst s.solution.image, σ, ?_, ?_⟩
  · exact Term.typeOf_eq_ok_iff.mpr ⟨s, T, hInfer, hAcyclic.zonk_eq T⟩
  · rw [hAcyclic.subst_image hExtends.admits.satisfied, hU]

/-- **Inference is complete and principal.**  It succeeds exactly on the terms that have a type,
and the types of such a term are the instances of the one that is computed for it, which is one of
them. -/
theorem Term.typeOf_principal (t : Term) :
    ((∃ T, t.typeOf = .ok T) ↔ ∃ U, HasType [] t U) ∧
      ∀ T, t.typeOf = .ok T →
        HasType [] t T ∧ ∀ U, HasType [] t U ↔ ∃ σ : Nat → Ty, U = T.subst σ := by
  refine ⟨⟨?_, ?_⟩, ?_⟩
  · rintro ⟨T, hT⟩
    exact ⟨T, Term.hasType_of_typeOf hT⟩
  · rintro ⟨U, hU⟩
    obtain ⟨T, -, hT, -⟩ := Term.typeOf_of_hasType hU
    exact ⟨T, hT⟩
  · intro T hT
    have hTyped := Term.hasType_of_typeOf hT
    refine ⟨hTyped, fun U => ⟨fun hU => ?_, ?_⟩⟩
    · obtain ⟨T', σ, hT', hInstance⟩ := Term.typeOf_of_hasType hU
      rw [hT] at hT'
      exact ⟨σ, Except.ok.inj hT' ▸ hInstance⟩
    · rintro ⟨σ, rfl⟩
      exact hTyped.subst σ

/-- The types of `fn f -> fn x -> f (f x)` are those of the endofunctions of one type, and
`fn x -> x x` has none. -/
theorem Term.typeOf_principal_twice :
    (∀ U, HasType [] (.lam (.raw "f") (.lam (.raw "x")
        (.app (.var (.raw "f")) (.app (.var (.raw "f")) (.var (.raw "x")))))) U ↔
      ∃ A, U = .fn (.fn A A) (.fn A A)) ∧
    ¬∃ U, HasType [] (.lam (.raw "x") (.app (.var (.raw "x")) (.var (.raw "x")))) U := by
  constructor
  · intro U
    have hTwice : (Term.lam (.raw "f") (.lam (.raw "x") (.app (.var (.raw "f"))
        (.app (.var (.raw "f")) (.var (.raw "x")))))).typeOf =
        .ok (.fn (.fn (.var 3) (.var 3)) (.fn (.var 3) (.var 3))) := by cbv
    rw [((Term.typeOf_principal _).2 _ hTwice).2 U]
    constructor
    · rintro ⟨σ, rfl⟩
      exact ⟨σ 3, rfl⟩
    · rintro ⟨A, rfl⟩
      exact ⟨fun _ => A, rfl⟩
  · have hSelf : (Term.lam (.raw "x") (.app (.var (.raw "x")) (.var (.raw "x")))).typeOf =
        .error (.infinite 0 (.fn (.var 0) (.var 1))) := by cbv
    rw [← (Term.typeOf_principal _).1]
    rintro ⟨T, hT⟩
    rw [hSelf] at hT
    cases hT

end StagedLambda
