import StagedLambda.Proofs.Machine.Binding
import StagedLambda.Proofs.Machine.Reach
import StagedLambda.Proofs.Scope.Terms

/-!
# Scope safety

Every state of a run is *scoped*: each waiting term is accounted for in the scope of the stack it
waits on, each fragment is a fragment of that scope, and each value fits in it, a function
together with the bindings that it has picked up (`State.Scoped`).  Transitions preserve this
(`State.Scoped.moves`), so a variable whose color is not found can only be one of the names that
the program itself leaves free, and code that becomes the result of a run is closed.

* `Machine.scope_safety`: of all identifiers only free names of the program can turn out unbound,
  at any stage, and finished code is closed and fully colored.
-/

namespace StagedLambda

variable {free S : Set Ident}

/-! ### Values in a scope -/

/-- The free names of a program that no binder has renamed stay free, and code is a fragment of
its scope. There is nothing to say about what a color stands for. -/
def scopeReading (free : Set Ident) : Reading Unit where
  bare Γ S v i :=
    match v with
    | .int _ | .bool _ => True
    | .code c => Fragment S c
    | .closure fn captured => captured = [] ∧ (∀ c, fn.self? = some c → Γ c = some i) ∧
        Pending free (fn.inner S) (fn.env, .lam fn.param fn.body)
  mono := by
    intro Γ Γ' S S' v i hΓ hS h
    cases v with
    | int | bool => trivial
    | code c => exact Fragment.mono hS h
    | closure fn captured =>
      exact ⟨h.1, fun c hc => hΓ (h.2.1 c hc), h.2.2.mono (Abstraction.inner_mono hS)⟩
  leave := by
    intro Γ S v i c bound h hKind hLeave
    cases v with
    | int | bool => trivial
    | closure => exact absurd rfl hKind
    | code t =>
      rcases Step.leave_eq_ok hLeave with
        ⟨_, _, ht, _⟩ | ⟨t', ht, _, hFree⟩ | ⟨_, ht, _⟩ | ⟨_, ht, _⟩
      · cases ht
      · cases ht
        exact Fragment.leave h hFree
      · cases ht
      · cases ht
  captured_eq_nil h := h.1
  self_eq h hSelf := h.2.1 _ hSelf

/-- Every color stands for something. -/
def anyColor : Ident → Option Unit := fun _ => some ()

/-- A value fits in a scope. -/
abbrev ScopedValue (free S : Set Ident) (v : Value) : Prop :=
  Fits (scopeReading free) anyColor S v ()

theorem ScopedValue.int (n : Int64) : ScopedValue free S (.int n) := .bare trivial

theorem ScopedValue.bool (b : Bool) : ScopedValue free S (.bool b) := .bare trivial

theorem ScopedValue.code {c : Term} (h : Fragment S c) : ScopedValue free S (.code c) := .bare h

theorem ScopedValue.fragment {c : Term} (h : ScopedValue free S (.code c)) : Fragment S c :=
  h.bare_of_kind nofun

theorem ScopedValue.closure {fn : Abstraction}
    (h : Pending free (fn.inner S) (fn.env, .lam fn.param fn.body)) :
    ScopedValue free S (.closure fn []) := .bare ⟨rfl, fun _ _ => rfl, h⟩

/-! ### Scoped states -/

/-- All that a frame holds is accounted for in the scope of the stack below it. -/
def scopeRule (free : Set Ident) : StackRule where
  eval frame rest := (∀ p ∈ frame.pending, Pending free rest.scope p) ∧
    ∀ v ∈ frame.values, ScopedValue free rest.scope v
  build frame rest := (∀ p ∈ frame.pending, Pending free rest.scope p) ∧
    (∀ c ∈ frame.fragments, Fragment rest.scope c) ∧
    ∀ id, frame.binder? = some id → id.isColored = true

theorem scopeRule_keeps (free : Set Ident) :
    (scopeRule free).Keeps (scopeReading free) anyColor := by
  intro c v rest
  constructor
  · intro h
    exact ⟨(), rfl, h.2 v (List.mem_singleton_self v)⟩
  · rintro ⟨i, -, h⟩
    refine ⟨nofun, ?_⟩
    intro w hw
    rw [List.mem_singleton.mp hw]
    exact h

/-- The invariant of runs. -/
def State.Scoped (free : Set Ident) : State → Prop
  | .eval env t k => Pending free k.scope (env, t) ∧ k.Each (scopeRule free)
  | .build _ env t k => Pending free k.scope (env, t) ∧ k.Each (scopeRule free)
  | .deliver v k => ScopedValue free k.scope v ∧ k.Each (scopeRule free)
  | .emit _ c k => Fragment k.scope c ∧ k.Each (scopeRule free)

theorem Palette.isColored_tint (p : Palette) (id : Ident) : (p.tint id).isColored = true := rfl

/-! ### Transitions preserve scopes -/

section

variable {env : Renaming} {t c : Term} {v : Value} {p p' : Palette} {s' : State} {level : UInt64}

/-- Going on to a term over a new frame that binds nothing. -/
theorem State.Scoped.eval_push {frame : EvalFrame} {k : EvalStack}
    (hBinder : frame.binder? = none) (hTerm : Pending free k.scope (env, t))
    (hPending : ∀ q ∈ frame.pending, Pending free k.scope q)
    (hValues : ∀ v ∈ frame.values, ScopedValue free k.scope v)
    (hStack : k.Each (scopeRule free)) : (State.eval env t (.push frame k)).Scoped free := by
  refine ⟨?_, ⟨hPending, hValues⟩, hStack⟩
  rw [EvalStack.scope_push hBinder]
  exact hTerm

theorem State.Scoped.build_push {frame : BuildFrame} {k : BuildStack}
    (hBinder : frame.binder? = none) (hTerm : Pending free k.scope (env, t))
    (hPending : ∀ q ∈ frame.pending, Pending free k.scope q)
    (hFragments : ∀ c ∈ frame.fragments, Fragment k.scope c) (hStack : k.Each (scopeRule free)) :
    (State.build level env t (.push frame k)).Scoped free := by
  refine ⟨?_, ⟨hPending, hFragments, ?_⟩, hStack⟩
  · rw [BuildStack.scope_push hBinder]
    exact hTerm
  · intro id hid
    rw [hBinder] at hid
    cases hid

/-- Going on to a body under a binder that has got a fresh color and its value. -/
theorem State.Scoped.eval_bind {param : Ident} {k : EvalStack}
    (hTerm : Pending free k.scope (env, .lam param t)) (hValue : ScopedValue free k.scope v)
    (hStack : k.Each (scopeRule free)) :
    (State.eval (env.bind param (p.tint param)) t
      (.push (.bind (p.tint param) v) k)).Scoped free := by
  refine ⟨?_, (scopeRule_keeps free _ _ k).mpr ⟨(), rfl, hValue⟩, hStack⟩
  rw [EvalStack.scope_bind]
  exact hTerm.under (p.isColored_tint param)

/-- Going on to a body whose binder is part of the code being built. -/
theorem State.Scoped.build_binder {param : Ident} {frame : BuildFrame} {k : BuildStack}
    (hBinder : frame.binder? = some (p.tint param))
    (hTerm : Pending free k.scope (env, .lam param t))
    (hPending : ∀ q ∈ frame.pending, Pending free k.scope q)
    (hFragments : ∀ c ∈ frame.fragments, Fragment k.scope c)
    (hStack : k.Each (scopeRule free)) :
    (State.build level (env.bind param (p.tint param)) t (.push frame k)).Scoped free := by
  refine ⟨?_, ⟨hPending, hFragments, ?_⟩, hStack⟩
  · rw [BuildStack.scope_binder hBinder]
    exact hTerm.under (p.isColored_tint param)
  · intro id hid
    rw [hBinder] at hid
    rw [← Option.some.inj hid]
    exact p.isColored_tint param

theorem State.Scoped.of_eval {k : EvalStack} (hs : (State.eval env t k).Scoped free)
    (h : (State.eval env t k).Moves p s' p') : s'.Scoped free := by
  obtain ⟨hTerm, hStack⟩ := hs
  cases h with
  | evalVar hName hFound =>
    obtain ⟨_, -, hFits⟩ := hStack.binds (scopeRule_keeps free) hFound
    exact ⟨hFits, hStack⟩
  | evalLam => exact ⟨.closure (hTerm.mono Set.subset_union_right), hStack⟩
  | evalFix env self param body =>
    refine ⟨.closure ?_, hStack⟩
    have hBody := Pending.under (p.isColored_tint self) hTerm.fix
    exact hBody.mono (Set.insert_subset (.inl rfl) Set.subset_union_right)
  | evalApp =>
    obtain ⟨hFn, hArg⟩ := hTerm.app
    exact .eval_push rfl hFn (List.forall_mem_singleton.mpr hArg) (List.forall_mem_nil _) hStack
  | evalInt => exact ⟨.int _, hStack⟩
  | evalBool => exact ⟨.bool _, hStack⟩
  | evalPrim hFirst =>
    obtain ⟨-, rest, rfl⟩ := Step.firstOperand_eq_ok hFirst
    have hArgs := hTerm.prim
    exact .eval_push rfl (hArgs _ List.mem_cons_self) (List.forall_mem_map.mpr hArgs)
      (List.forall_mem_nil _) hStack
  | evalIte =>
    obtain ⟨hCond, hYes, hNo⟩ := hTerm.ite
    exact .eval_push rfl hCond
      (List.forall_mem_cons.mpr ⟨hYes, List.forall_mem_singleton.mpr hNo⟩) (List.forall_mem_nil _)
      hStack
  | evalLogic =>
    obtain ⟨hLeft, hRight⟩ := hTerm.logic
    exact .eval_push rfl hLeft (List.forall_mem_singleton.mpr hRight) (List.forall_mem_nil _)
      hStack
  | evalQuote =>
    refine ⟨?_, hStack⟩
    rw [BuildStack.scope_close]
    exact hTerm
  | evalSplice => exact .eval_push rfl hTerm (List.forall_mem_nil _) (List.forall_mem_nil _) hStack
  | evalLet =>
    obtain ⟨hBound, hBody⟩ := hTerm.letIn
    exact .eval_push rfl hBound (List.forall_mem_singleton.mpr hBody) (List.forall_mem_nil _)
      hStack

theorem State.Scoped.of_build {k : BuildStack} (hFree : ∀ x ∈ free, x.isRaw = true)
    (hs : (State.build level env t k).Scoped free)
    (h : (State.build level env t k).Moves p s' p') : s'.Scoped free := by
  obtain ⟨hTerm, hStack⟩ := hs
  cases h with
  | @buildVar _ _ id color _ hName =>
    refine ⟨?_, hStack⟩
    rcases hTerm id (Term.occursFree_var.mpr rfl) with ⟨hid, hNone⟩ | ⟨c, hc, hColored, hc'⟩
    · -- A name that stays free has no color.
      rw [Renaming.resolve, hNone, if_pos (hFree id hid)] at hName
      cases hName
    · obtain rfl : c = color := Option.some.inj (hc'.symm.trans hName)
      exact .var hColored hc
  | buildLam => exact .build_binder rfl hTerm (List.forall_mem_nil _) (List.forall_mem_nil _) hStack
  | buildFix =>
    exact .build_binder rfl hTerm.fix (List.forall_mem_nil _) (List.forall_mem_nil _) hStack
  | buildApp =>
    obtain ⟨hFn, hArg⟩ := hTerm.app
    exact .build_push rfl hFn (List.forall_mem_singleton.mpr hArg) (List.forall_mem_nil _)
      hStack
  | buildInt => exact ⟨.int _, hStack⟩
  | buildBool => exact ⟨.bool _, hStack⟩
  | buildPrim hFirst =>
    obtain ⟨-, rest, rfl⟩ := Step.firstOperand_eq_ok hFirst
    have hArgs := hTerm.prim
    exact .build_push rfl (hArgs _ List.mem_cons_self)
      (List.forall_mem_map.mpr hArgs) (List.forall_mem_nil _) hStack
  | buildIte =>
    obtain ⟨hCond, hYes, hNo⟩ := hTerm.ite
    exact .build_push rfl hCond
      (List.forall_mem_cons.mpr ⟨hYes, List.forall_mem_singleton.mpr hNo⟩) (List.forall_mem_nil _)
      hStack
  | buildLogic =>
    obtain ⟨hLeft, hRight⟩ := hTerm.logic
    exact .build_push rfl hLeft (List.forall_mem_singleton.mpr hRight)
      (List.forall_mem_nil _) hStack
  | buildQuote => exact .build_push rfl hTerm (List.forall_mem_nil _) (List.forall_mem_nil _) hStack
  | buildEscape =>
    refine ⟨?_, trivial, hStack⟩
    rw [EvalStack.scope_escape]
    exact hTerm
  | buildSplice =>
    exact .build_push rfl hTerm (List.forall_mem_nil _) (List.forall_mem_nil _) hStack
  | buildLet =>
    obtain ⟨hBound, hBody⟩ := hTerm.letIn
    exact .build_push rfl hBound (List.forall_mem_singleton.mpr hBody)
      (List.forall_mem_nil _) hStack

theorem State.Scoped.of_deliver {k : EvalStack} (hs : (State.deliver v k).Scoped free)
    (h : (State.deliver v k).Moves p s' p') : s'.Scoped free := by
  obtain ⟨hValue, hStack⟩ := hs
  cases h with
  | deliverEscape c shift outer =>
    rw [EvalStack.scope_escape] at hValue
    exact ⟨hValue.fragment, hStack.2⟩
  | deliverApplyTo v arg env k =>
    obtain ⟨hFrame, hRest⟩ := hStack
    rw [EvalStack.scope_push rfl] at hValue
    exact .eval_push rfl (hFrame.1 _ List.mem_cons_self) (List.forall_mem_nil _)
      (List.forall_mem_singleton.mpr hValue) hRest
  | deliverCall fn captured arg k =>
    obtain ⟨hFrame, hRest⟩ := hStack
    rw [EvalStack.scope_push rfl] at hValue
    have hFn := hFrame.2 _ List.mem_cons_self
    obtain ⟨hEnter, hBare⟩ := hFn.enter (scopeRule_keeps free) hRest
    have hGrow := k.scope_subset_enter fn captured
    refine .eval_bind ?_ (hValue.mono (Extends.refl _) hGrow) hEnter
    rw [EvalStack.scope_enter]
    exact hBare.2.2
  | deliverBind hLeave =>
    obtain ⟨hFrame, hRest⟩ := hStack
    rw [EvalStack.scope_bind] at hValue
    exact ⟨hValue.leave ((scopeRule_keeps free _ _ _).mp hFrame) hLeave, hRest⟩
  | @deliverPrimNext _ _ done args env k next hNext =>
    obtain ⟨⟨hPending, hDone⟩, hRest⟩ := hStack
    rw [EvalStack.scope_push rfl] at hValue
    refine .eval_push rfl (hPending _ (List.mem_map_of_mem (List.mem_of_getElem? hNext)))
      hPending ?_ hRest
    exact List.forall_mem_append.mpr ⟨hDone, List.forall_mem_singleton.mpr hValue⟩
  | deliverPrimLast _ hApply =>
    refine ⟨?_, hStack.2⟩
    rcases Arithmetic.apply_eq_ok hApply with ⟨n, rfl⟩ | ⟨b, rfl⟩
    · exact .int n
    · exact .bool b
  | deliverBranch b yes no env k =>
    obtain ⟨hFrame, hRest⟩ := hStack
    refine ⟨?_, hRest⟩
    cases b with
    | true => exact hFrame.1 (env, yes) (by simp)
    | false => exact hFrame.1 (env, no) (by simp)
  | deliverLogicSettled => exact ⟨.bool _, hStack.2⟩
  | deliverLogicLeft =>
    obtain ⟨hFrame, hRest⟩ := hStack
    exact .eval_push rfl (hFrame.1 _ List.mem_cons_self) (List.forall_mem_nil _)
      (List.forall_mem_nil _) hRest
  | deliverLogicRight => exact ⟨.bool _, hStack.2⟩
  | deliverLet =>
    obtain ⟨hFrame, hRest⟩ := hStack
    rw [EvalStack.scope_push rfl] at hValue
    exact .eval_bind (hFrame.1 _ List.mem_cons_self) hValue hRest
  | deliverRun =>
    rw [EvalStack.scope_push rfl] at hValue
    exact ⟨hValue.fragment.pending, hStack.2⟩

theorem State.Scoped.of_emit {k : BuildStack} (hs : (State.emit level c k).Scoped free)
    (h : (State.emit level c k).Moves p s' p') : s'.Scoped free := by
  obtain ⟨hCode, hStack⟩ := hs
  cases h with
  | emitClose =>
    rw [BuildStack.scope_close] at hCode
    exact ⟨.code hCode, hStack⟩
  | emitLam =>
    obtain ⟨⟨-, -, hColored⟩, hRest⟩ := hStack
    rw [BuildStack.scope_binder rfl] at hCode
    exact ⟨.lam (hColored _ rfl) hCode, hRest⟩
  | emitFix =>
    obtain ⟨⟨-, -, hColored⟩, hRest⟩ := hStack
    rw [BuildStack.scope_binder rfl] at hCode
    exact ⟨.fix (hColored _ rfl) hCode, hRest⟩
  | emitApplyTo =>
    obtain ⟨⟨hPending, -, -⟩, hRest⟩ := hStack
    rw [BuildStack.scope_push rfl] at hCode
    exact .build_push rfl (hPending _ List.mem_cons_self)
      (List.forall_mem_nil _) (List.forall_mem_singleton.mpr hCode) hRest
  | emitApplied =>
    obtain ⟨⟨-, hFragments, -⟩, hRest⟩ := hStack
    rw [BuildStack.scope_push rfl] at hCode
    exact ⟨.app (hFragments _ List.mem_cons_self) hCode, hRest⟩
  | @emitPrimNext _ _ _ done args env k next hNext =>
    obtain ⟨⟨hPending, hDone, -⟩, hRest⟩ := hStack
    rw [BuildStack.scope_push rfl] at hCode
    refine .build_push rfl (hPending _ (List.mem_map_of_mem (List.mem_of_getElem? hNext)))
      hPending ?_ hRest
    exact List.forall_mem_append.mpr ⟨hDone, List.forall_mem_singleton.mpr hCode⟩
  | emitPrimLast =>
    obtain ⟨⟨-, hDone, -⟩, hRest⟩ := hStack
    rw [BuildStack.scope_push rfl] at hCode
    refine ⟨.prim ?_, hRest⟩
    exact List.forall_mem_append.mpr ⟨hDone, List.forall_mem_singleton.mpr hCode⟩
  | emitIteCond level c yes no env k =>
    obtain ⟨⟨hPending, -, -⟩, hRest⟩ := hStack
    rw [BuildStack.scope_push rfl] at hCode
    refine .build_push rfl (hPending (env, yes) (by simp)) ?_ ?_ hRest
    · exact List.forall_mem_singleton.mpr (hPending (env, no) (by simp))
    · exact List.forall_mem_singleton.mpr hCode
  | emitIteYes level c cond no env k =>
    obtain ⟨⟨hPending, hFragments, -⟩, hRest⟩ := hStack
    rw [BuildStack.scope_push rfl] at hCode
    refine .build_push rfl (hPending _ List.mem_cons_self) (List.forall_mem_nil _) ?_ hRest
    exact List.forall_mem_cons.mpr
      ⟨hFragments _ List.mem_cons_self, List.forall_mem_singleton.mpr hCode⟩
  | emitIteNo level c cond yes k =>
    obtain ⟨⟨-, hFragments, -⟩, hRest⟩ := hStack
    rw [BuildStack.scope_push rfl] at hCode
    exact ⟨.ite (hFragments cond (by simp)) (hFragments yes (by simp)) hCode, hRest⟩
  | emitLogicLeft =>
    obtain ⟨⟨hPending, -, -⟩, hRest⟩ := hStack
    rw [BuildStack.scope_push rfl] at hCode
    exact .build_push rfl (hPending _ List.mem_cons_self)
      (List.forall_mem_nil _) (List.forall_mem_singleton.mpr hCode) hRest
  | emitLogicRight =>
    obtain ⟨⟨-, hFragments, -⟩, hRest⟩ := hStack
    rw [BuildStack.scope_push rfl] at hCode
    exact ⟨.logic (hFragments _ List.mem_cons_self) hCode, hRest⟩
  | emitLetBound =>
    obtain ⟨⟨hPending, -, -⟩, hRest⟩ := hStack
    rw [BuildStack.scope_push rfl] at hCode
    exact .build_binder rfl (hPending _ List.mem_cons_self) (List.forall_mem_nil _)
      (List.forall_mem_singleton.mpr hCode) hRest
  | emitLetBody =>
    obtain ⟨⟨-, hFragments, hColored⟩, hRest⟩ := hStack
    rw [BuildStack.scope_binder rfl] at hCode
    exact ⟨.letIn (hColored _ rfl) (hFragments _ List.mem_cons_self) hCode, hRest⟩
  | emitQuote =>
    rw [BuildStack.scope_push rfl] at hCode
    exact ⟨.quote hCode, hStack.2⟩
  | emitSplice =>
    rw [BuildStack.scope_push rfl] at hCode
    exact ⟨.splice hCode, hStack.2⟩

/-- **Transitions preserve scopes.** -/
theorem State.Scoped.moves {s : State} (hFree : ∀ x ∈ free, x.isRaw = true)
    (hs : s.Scoped free) (h : s.Moves p s' p') : s'.Scoped free := by
  cases s with
  | eval => exact hs.of_eval h
  | build => exact hs.of_build hFree h
  | deliver => exact hs.of_deliver h
  | emit => exact hs.of_emit h

end

/-! ### Unbound variables -/

/-- In a scoped state only a name that stays free can turn out unbound. -/
theorem State.Scoped.mem_free_of_unbound {s : State} {id : Ident}
    (hFree : ∀ x ∈ free, x.isRaw = true) (hs : s.Scoped free) (h : s.Faults (.unbound id)) :
    id ∈ free := by
  have hRaw : ∀ {env : Renaming} {c : Ident}, id ∈ free → env.lookup id = none →
      env.resolve id ≠ some c := by
    intro env c hid hNone hName
    rw [Renaming.resolve, hNone, if_pos (hFree id hid)] at hName
    cases hName
  generalize hf : Fault.unbound id = f at h
  cases h with
  | evalUnresolved hName | buildUnresolved hName =>
    cases hf
    rcases hs.1 id (Term.occursFree_var.mpr rfl) with ⟨hid, -⟩ | ⟨c, -, -, hc⟩
    · exact hid
    · rw [hName] at hc
      cases hc
  | evalAbsent hName hAbsent =>
    cases hf
    rcases hs.1 id (Term.occursFree_var.mpr rfl) with ⟨hid, hNone⟩ | ⟨c, hc, -, hc'⟩
    · exact absurd hName (hRaw hid hNone)
    · rw [hName] at hc'
      rw [← Option.some.inj hc'] at hc
      exact absurd hAbsent hc
  | evalPrim hFirst | buildPrim hFirst =>
    rcases Step.firstOperand_eq_error hFirst with rfl | rfl <;> cases hf
  | evalSplice hStages | buildSplice hStages =>
    rcases Step.stages_eq_error hStages with rfl | rfl <;> cases hf
  | buildQuote hRaise | emitRaise hRaise =>
    rw [(Step.raise_eq_error hRaise).1] at hf
    cases hf
  | deliverEscape hFragment | deliverRun hFragment =>
    rw [Step.fragment_eq_error hFragment] at hf
    cases hf
  | deliverBind hLeave =>
    rw [(Step.leave_eq_error hLeave).1] at hf
    cases hf
  | deliverPrim _ hApply =>
    rcases Arithmetic.apply_eq_error hApply with
      ⟨_, _, rfl⟩ | ⟨_, rfl | rfl⟩ | ⟨rfl, -⟩ <;> cases hf
  | deliverBranch hTruth | deliverLogicLeft hTruth | deliverLogicRight hTruth =>
    rw [Step.truth_eq_error hTruth] at hf
    cases hf
  | _ => cases hf

/-! ### Runs -/

/-- The names that a program leaves free. -/
def Term.freeNames (t : Term) : Set Ident := {id | id.isRaw = true ∧ t.occursFree id = true}

theorem Term.Written.scoped_initial {e : Term} (h : e.Written) :
    (State.initial e).Scoped e.freeNames := by
  refine ⟨?_, trivial⟩
  intro x hx
  exact .inl ⟨⟨h.vars x (Term.mem_vars_of_occursFree hx), hx⟩, rfl⟩

theorem Machine.Reaches.scoped {m m' : Machine} {e : Term} {s : State} (h : e.Written)
    (hReach : m.Reaches (.initial e) m' s) : s.Scoped e.freeNames :=
  hReach.preserves (I := fun _ s => s.Scoped e.freeNames)
    (fun hs hStep => hs.moves (fun _ hx => hx.1) (Machine.step_eq_ok_iff.mp hStep).1)
    h.scoped_initial

/-- **Scope safety.**  On a run of a written program a variable turns out unbound, at any stage,
only if it is a name that occurs free in the program; and code that is the result of a run is
closed and fully colored. -/
theorem Machine.scope_safety {e : Term} (hWritten : e.Written) {m m' : Machine} {s : State}
    (hReach : m.Reaches (.initial e) m' s) :
    (∀ id m'', m'.step s = (.error (.unbound id), m'') →
      id.isRaw = true ∧ e.occursFree id = true) ∧
    ∀ c, s.result? = some (.code c) → c.Closed ∧
      (∀ id ∈ c.vars, id.isColored = true) ∧ ∀ id ∈ c.binders, id.isColored = true := by
  have hScoped := hReach.scoped hWritten
  constructor
  · intro id m'' hStep
    exact hScoped.mem_free_of_unbound (fun _ hx => hx.1) (Machine.step_eq_error_iff.mp hStep).1
  · intro c hResult
    rw [State.eq_deliver_of_result? hResult] at hScoped
    have hFragment := hScoped.1.fragment
    rw [EvalStack.scope_halt] at hFragment
    refine ⟨?_, hFragment.vars, hFragment.binders⟩
    intro id
    exact Bool.eq_false_iff.mpr fun hid => hFragment.free id hid

/-- A function applied inside a splice hands on code that mentions a binder still being built;
and a name that occurs free is reported when code that mentions it is built. -/
theorem Machine.scope_safety_identity_in_splice :
    (∃ m, ({} : Machine).Reaches
        (.initial (.quote (.lam (.raw "x") (.splice 1
          (.app (.lam (.raw "y") (.var (.raw "y"))) (.quote (.var (.raw "x"))))))))
        m (.deliver (.code (.lam (.colored "x" 0) (.var (.colored "x" 0)))) .halt)) ∧
    (Term.lam (.colored "x" 0) (.var (.colored "x" 0))).Closed ∧
    ∃ m s m', ({} : Machine).Reaches (.initial (.quote (.var (.raw "x")))) m s ∧
      m.step s = (.error (.unbound (.raw "x")), m') ∧
      (Term.quote (.var (.raw "x"))).occursFree (.raw "x") = true := by
  have hCode : ({} : Machine).Yields
      (.initial (.quote (.lam (.raw "x") (.splice 1
        (.app (.lam (.raw "y") (.var (.raw "y"))) (.quote (.var (.raw "x"))))))))
      (.ok (.code (.lam (.colored "x" 0) (.var (.colored "x" 0))))) := ⟨40, rfl⟩
  obtain ⟨m, hReach⟩ := Machine.yields_ok_iff.mp hCode
  refine ⟨⟨m, hReach⟩, ((Machine.scope_safety (by decide) hReach).2 _ rfl).1, ?_⟩
  have hQuote : ({} : Machine).Reaches (.initial (.quote (.var (.raw "x")))) _ _ :=
    .tail .refl rfl
  exact ⟨_, _, _, hQuote, rfl, ((Machine.scope_safety (by decide) hQuote).1 _ _ rfl).2⟩

end StagedLambda
