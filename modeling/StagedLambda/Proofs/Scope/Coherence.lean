import StagedLambda.Proofs.Machine.Binding
import StagedLambda.Proofs.Tags.Inventory

/-!
# Coherent bindings

A variable has the value that the nearest binding frame of its color holds.  There may be many
frames of one color: functions bring bindings along and put them back when they are called, and a
fixpoint binds itself in every call.  It makes no difference which of them is the nearest, because
a color is issued for one purpose, and this fixes what it can be bound to.  A parameter and a local
definition have one value ever after.  A fixpoint has one function, though the function may have
brought along more bindings in one place than in another.  A binder of code has no value at all.

* `State.bindings`, `State.codeBinders`: what is bound in a state.
* `State.Traced`: every binding is as the purpose of its color says.
* `Machine.bindings_coherent`: in every state of a run the tags have been issued, two bindings of
  one color agree, and no color is bound both to a value and in code.
-/

namespace StagedLambda

/-! ### The bindings of a state -/

mutual

/-- The bindings that a value has brought along, at any depth. -/
def Value.bindings : Value → List (Ident × Value)
  | .closure _ captured => Value.bindingsWithin captured
  | .int _ | .bool _ | .code _ => []

def Value.bindingsWithin : List (Ident × Value) → List (Ident × Value)
  | [] => []
  | (c, v) :: rest => (c, v) :: (v.bindings ++ Value.bindingsWithin rest)

end

def EvalFrame.binding? : EvalFrame → Option (Ident × Value)
  | .bind c v => some (c, v)
  | _ => none

def EvalFrame.bindings (frame : EvalFrame) : List (Ident × Value) :=
  frame.binding?.toList ++ frame.values.flatMap Value.bindings

mutual

/-- The bindings of all frames along a chain of stacks, and those within their values. -/
def EvalStack.bindings : EvalStack → List (Ident × Value)
  | .halt => []
  | .escape _ outer => outer.bindings
  | .push frame rest => frame.bindings ++ rest.bindings

def BuildStack.bindings : BuildStack → List (Ident × Value)
  | .close outer => outer.bindings
  | .push _ rest => rest.bindings

end

mutual

/-- The binders of code that is being built along a chain of stacks. -/
def EvalStack.codeBinders : EvalStack → List Ident
  | .halt => []
  | .escape _ outer => outer.codeBinders
  | .push _ rest => rest.codeBinders

def BuildStack.codeBinders : BuildStack → List Ident
  | .close outer => outer.codeBinders
  | .push frame rest => frame.binder?.toList ++ rest.codeBinders

end

namespace State

/-- All bindings in a state: in frames and in functions. -/
def bindings : State → List (Ident × Value)
  | .eval _ _ k => k.bindings
  | .build _ _ _ k | .emit _ _ k => k.bindings
  | .deliver v k => v.bindings ++ k.bindings

def codeBinders : State → List Ident
  | .eval _ _ k | .deliver _ k => k.codeBinders
  | .build _ _ _ k | .emit _ _ k => k.codeBinders

end State

/-! ### The purposes of colors -/

/-- What a color has been issued for. -/
inductive Purpose
  /-- A parameter or a local definition with this value. -/
  | value (v : Value)
  /-- A fixpoint with this function. -/
  | self (fn : Abstraction)
  /-- A binder of code. -/
  | code

/-- The color may be bound to the value. -/
inductive Records (Γ : Ident → Option Purpose) (c : Ident) : Value → Prop
  | value {v : Value} (h : Γ c = some (.value v)) : Records Γ c v
  | self {fn : Abstraction} (h : Γ c = some (.self fn)) (hSelf : fn.self? = some c)
      (captured : List (Ident × Value)) : Records Γ c (.closure fn captured)

/-- All bindings in a value are as the purposes of their colors say, and the colors of fixpoints
have been issued for them. -/
inductive Value.Traced (Γ : Ident → Option Purpose) : Value → Prop
  | int (n : Int64) : Traced Γ (.int n)
  | bool (b : Bool) : Traced Γ (.bool b)
  | code (c : Term) : Traced Γ (.code c)
  | closure {fn : Abstraction} {captured : List (Ident × Value)}
      (hSelf : ∀ c, fn.self? = some c → Γ c = some (.self fn))
      (hRecords : ∀ b ∈ captured, Records Γ b.1 b.2)
      (hTraced : ∀ b ∈ captured, Traced Γ b.2) : Traced Γ (.closure fn captured)

section

variable {Γ Γ' : Ident → Option Purpose} {c : Ident} {v w : Value}

theorem Records.mono (hΓ : Extends Γ Γ') (h : Records Γ c v) : Records Γ' c v := by
  cases h with
  | value h => exact .value (hΓ h)
  | self h hSelf captured => exact .self (hΓ h) hSelf captured

/-- **A color has one value**, or one function that may have brought along this or that. -/
theorem Records.agree (h : Records Γ c v) (h' : Records Γ c w) :
    v = w ∨ ∃ fn captured captured', fn.self? = some c ∧ v = .closure fn captured ∧
      w = .closure fn captured' := by
  cases h with
  | value h =>
    cases h' with
    | value h' =>
      cases h.symm.trans h'
      exact .inl rfl
    | self h' => cases h.symm.trans h'
  | self h hSelf captured =>
    cases h' with
    | value h' => cases h.symm.trans h'
    | self h' _ captured' =>
      cases h.symm.trans h'
      exact .inr ⟨_, captured, captured', hSelf, rfl, rfl⟩

theorem Records.ne_code (h : Records Γ c v) : Γ c ≠ some .code := by
  cases h with
  | value h | self h =>
    rw [h]
    nofun

theorem Value.Traced.mono (hΓ : Extends Γ Γ') (h : v.Traced Γ) : v.Traced Γ' := by
  induction h with
  | int n => exact .int n
  | bool b => exact .bool b
  | code c => exact .code c
  | closure hSelf hRecords _ ih =>
    exact .closure (fun c hc => hΓ (hSelf c hc)) (fun b hb => (hRecords b hb).mono hΓ) ih

/-- A function that picks up a binding as it leaves its frame. -/
theorem Value.Traced.leave {bound v' : Value} (h : v.Traced Γ) (hBound : bound.Traced Γ)
    (hRecords : Records Γ c bound) (hLeave : Step.leave c bound v = .ok v') : v'.Traced Γ := by
  rcases Step.leave_eq_ok hLeave with
    ⟨fn, captured, rfl, rfl⟩ | ⟨t, rfl, rfl, -⟩ | ⟨n, rfl, rfl⟩ | ⟨b, rfl, rfl⟩
  · cases h with
    | closure hSelf hInner hTraced =>
      exact .closure hSelf (List.forall_mem_cons.mpr ⟨hRecords, hInner⟩)
        (List.forall_mem_cons.mpr ⟨hBound, hTraced⟩)
  · exact .code t
  · exact .int n
  · exact .bool b

theorem Value.Traced.records (h : v.Traced Γ) : ∀ b ∈ v.bindings, Records Γ b.1 b.2 := by
  induction h with
  | int | bool | code => nofun
  | @closure fn captured _ hRecords _ ih =>
    rw [Value.bindings]
    clear * - hRecords ih
    induction captured with
    | nil => nofun
    | cons b rest ihRest =>
      rw [List.forall_mem_cons] at hRecords ih
      rw [Value.bindingsWithin, List.forall_mem_cons, List.forall_mem_append]
      exact ⟨hRecords.1, ih.1, ihRest hRecords.2 ih.2⟩

/-! ### Stacks -/

/-- Every binding is as the purpose of its color says, and the binders of code are of colors
issued for code. -/
def traceRule (Γ : Ident → Option Purpose) : StackRule where
  eval frame _ := (∀ v ∈ frame.values, v.Traced Γ) ∧
    ∀ c v, frame.binding? = some (c, v) → Records Γ c v
  build frame _ := ∀ c, frame.binder? = some c → Γ c = some .code

theorem traceRule_mono (hΓ : Extends Γ Γ') : (traceRule Γ).Implies (traceRule Γ') where
  eval := by
    rintro frame _ ⟨hTraced, hRecords⟩
    exact ⟨fun v hv => (hTraced v hv).mono hΓ, fun c v hBind => (hRecords c v hBind).mono hΓ⟩
  build := fun _ _ h c hc => hΓ (h c hc)
  escape := fun _ _ h => h

/-- Pushing a frame that is no binding. -/
theorem EvalStack.Each.push_traced {frame : EvalFrame} {k : EvalStack}
    (hStack : k.Each (traceRule Γ)) (hBinding : frame.binding? = none)
    (hTraced : ∀ v ∈ frame.values, v.Traced Γ) : (EvalStack.push frame k).Each (traceRule Γ) := by
  refine ⟨⟨hTraced, ?_⟩, hStack⟩
  intro c v hBind
  rw [hBinding] at hBind
  cases hBind

theorem EvalStack.Each.push_recorded {k : EvalStack} (hStack : k.Each (traceRule Γ))
    (hTraced : v.Traced Γ) (hRecords : Records Γ c v) :
    (EvalStack.push (.bind c v) k).Each (traceRule Γ) := by
  refine ⟨⟨List.forall_mem_singleton.mpr hTraced, ?_⟩, hStack⟩
  rintro _ _ ⟨⟩
  exact hRecords

theorem BuildStack.Each.push_traced {frame : BuildFrame} {k : BuildStack}
    (hStack : k.Each (traceRule Γ)) (hBinder : frame.binder? = none) :
    (BuildStack.push frame k).Each (traceRule Γ) := by
  refine ⟨?_, hStack⟩
  intro c hc
  rw [hBinder] at hc
  cases hc

theorem EvalStack.Each.bindAll_traced {captured : List (Ident × Value)} {k : EvalStack}
    (hStack : k.Each (traceRule Γ)) (hRecords : ∀ b ∈ captured, Records Γ b.1 b.2)
    (hTraced : ∀ b ∈ captured, b.2.Traced Γ) : (k.bindAll captured).Each (traceRule Γ) := by
  induction captured generalizing k with
  | nil => exact hStack
  | cons b rest ih =>
    rw [List.forall_mem_cons] at hRecords hTraced
    exact ih (hStack.push_recorded hTraced.1 hRecords.1) hRecords.2 hTraced.2

/-- **A call only repeats bindings**: those of its function, and that of a fixpoint to itself. -/
theorem EvalStack.Each.enter_traced {fn : Abstraction} {captured : List (Ident × Value)}
    {k : EvalStack} (hStack : k.Each (traceRule Γ))
    (hFn : (Value.closure fn captured).Traced Γ) : (k.enter fn captured).Each (traceRule Γ) := by
  obtain ⟨hSelf, hRecords, hTraced⟩ : _ ∧ _ ∧ _ := by
    cases hFn with
    | closure hSelf hRecords hTraced => exact ⟨hSelf, hRecords, hTraced⟩
  have hCaptured := hStack.bindAll_traced hRecords hTraced
  rw [EvalStack.enter]
  cases hRecursive : fn.self? with
  | none => exact hCaptured
  | some self =>
    exact hCaptured.push_recorded hFn (.self (hSelf self hRecursive) hRecursive captured)

theorem EvalFrame.records_of_traceRule {frame : EvalFrame} {rest : EvalStack}
    (h : (traceRule Γ).eval frame rest) : ∀ b ∈ frame.bindings, Records Γ b.1 b.2 := by
  rw [EvalFrame.bindings, List.forall_mem_append, List.forall_mem_flatMap]
  refine ⟨?_, fun v hv => (h.1 v hv).records⟩
  intro b hb
  exact h.2 b.1 b.2 (Option.mem_toList.mp hb)

mutual

theorem EvalStack.Each.records : ∀ {k : EvalStack}, k.Each (traceRule Γ) →
    (∀ b ∈ k.bindings, Records Γ b.1 b.2) ∧ ∀ c ∈ k.codeBinders, Γ c = some .code
  | .halt, _ => ⟨nofun, nofun⟩
  | .escape _ _, ⟨_, hOuter⟩ => BuildStack.Each.records hOuter
  | .push frame rest, ⟨hFrame, hRest⟩ => by
    obtain ⟨hBindings, hCode⟩ := EvalStack.Each.records hRest
    rw [EvalStack.bindings, List.forall_mem_append]
    exact ⟨⟨frame.records_of_traceRule hFrame, hBindings⟩, hCode⟩

theorem BuildStack.Each.records : ∀ {k : BuildStack}, k.Each (traceRule Γ) →
    (∀ b ∈ k.bindings, Records Γ b.1 b.2) ∧ ∀ c ∈ k.codeBinders, Γ c = some .code
  | .close _, hOuter => EvalStack.Each.records hOuter
  | .push frame rest, ⟨hFrame, hRest⟩ => by
    obtain ⟨hBindings, hCode⟩ := BuildStack.Each.records hRest
    rw [BuildStack.codeBinders, List.forall_mem_append]
    exact ⟨hBindings, fun c hc => hFrame c (Option.mem_toList.mp hc), hCode⟩

end

end

/-! ### Transitions -/

/-- Every binding in the state is as the purpose of its color says. -/
def State.Traced (Γ : Ident → Option Purpose) : State → Prop
  | .eval _ _ k => k.Each (traceRule Γ)
  | .build _ _ _ k | .emit _ _ k => k.Each (traceRule Γ)
  | .deliver v k => v.Traced Γ ∧ k.Each (traceRule Γ)

/-- The invariant of runs: the colors issued so far have purposes that the state is true to. -/
def State.Coherent (p : Palette) (s : State) : Prop :=
  ∃ Γ : Ident → Option Purpose, Issued p Γ ∧ s.Traced Γ

section

variable {Γ : Ident → Option Purpose} {p p' : Palette} {s s' : State} {env : Renaming} {t : Term}
  {level : UInt64}

/-- Going on under a binding of a fresh color. -/
theorem State.Coherent.eval_bind {x : Ident} {v : Value} {k : EvalStack} (hΓ : Issued p Γ)
    (hValue : v.Traced Γ) (hStack : k.Each (traceRule Γ)) :
    (State.eval env t (.push (.bind (p.tint x) v) k)).Coherent p.advance := by
  have hMore : Extends Γ (assign Γ (p.tint x) (.value v)) := extends_assign (hΓ.tint_eq_none x) _
  refine ⟨_, hΓ.assign x (.value v), ?_⟩
  exact (EvalStack.Each.mono (traceRule_mono hMore) hStack).push_recorded (hValue.mono hMore)
    (.value (assign_self _ _))

/-- Going on under a binder of code. -/
theorem State.Coherent.build_binder {x : Ident} {frame : BuildFrame} {k : BuildStack}
    (hΓ : Issued p Γ) (hBinder : frame.binder? = some (p.tint x))
    (hStack : k.Each (traceRule Γ)) :
    (State.build level env t (.push frame k)).Coherent p.advance := by
  have hMore : Extends Γ (assign Γ (p.tint x) .code) := extends_assign (hΓ.tint_eq_none x) _
  refine ⟨_, hΓ.assign x .code, ?_, BuildStack.Each.mono (traceRule_mono hMore) hStack⟩
  intro c hc
  rw [hBinder] at hc
  obtain rfl := Option.some.inj hc
  exact assign_self _ _

theorem State.Traced.of_eval {k : EvalStack} (hΓ : Issued p Γ)
    (hs : (State.eval env t k).Traced Γ) (h : (State.eval env t k).Moves p s' p') :
    s'.Coherent p' := by
  have hStack : k.Each (traceRule Γ) := hs
  cases h with
  | evalVar _ hFound =>
    obtain ⟨rest, hRule, -⟩ := hStack.found hFound
    exact ⟨Γ, hΓ, hRule.1 _ List.mem_cons_self, hStack⟩
  | evalLam => exact ⟨Γ, hΓ, .closure nofun nofun nofun, hStack⟩
  | evalFix _ self param body =>
    -- The color of the fixpoint stands for this function from now on.
    let fn : Abstraction := ⟨some (p.tint self), param, body, env.bind self (p.tint self)⟩
    have hMore : Extends Γ (assign Γ (p.tint self) (.self fn)) :=
      extends_assign (hΓ.tint_eq_none self) _
    refine ⟨_, hΓ.assign self (.self fn), .closure ?_ nofun nofun,
      EvalStack.Each.mono (traceRule_mono hMore) hStack⟩
    rintro c ⟨⟩
    exact assign_self _ _
  | evalInt => exact ⟨Γ, hΓ, .int _, hStack⟩
  | evalBool => exact ⟨Γ, hΓ, .bool _, hStack⟩
  | evalQuote => exact ⟨Γ, hΓ, hStack⟩
  | evalApp | evalPrim | evalIte | evalLogic | evalSplice | evalLet =>
    exact ⟨Γ, hΓ, hStack.push_traced rfl nofun⟩

theorem State.Traced.of_build {k : BuildStack} (hΓ : Issued p Γ)
    (hs : (State.build level env t k).Traced Γ)
    (h : (State.build level env t k).Moves p s' p') : s'.Coherent p' := by
  have hStack : k.Each (traceRule Γ) := hs
  cases h with
  | buildVar | buildInt | buildBool => exact ⟨Γ, hΓ, hStack⟩
  | buildLam | buildFix => exact .build_binder hΓ rfl hStack
  | buildEscape => exact ⟨Γ, hΓ, trivial, hStack⟩
  | buildApp | buildPrim | buildIte | buildLogic | buildQuote | buildSplice | buildLet =>
    exact ⟨Γ, hΓ, hStack.push_traced rfl⟩

theorem State.Traced.of_deliver {v : Value} {k : EvalStack} (hΓ : Issued p Γ)
    (hs : (State.deliver v k).Traced Γ) (h : (State.deliver v k).Moves p s' p') :
    s'.Coherent p' := by
  obtain ⟨hValue, hStack⟩ := hs
  cases h with
  | deliverEscape => exact ⟨Γ, hΓ, hStack.2⟩
  | deliverApplyTo =>
    exact ⟨Γ, hΓ, hStack.2.push_traced rfl (List.forall_mem_singleton.mpr hValue)⟩
  | deliverCall =>
    have hFn := hStack.1.1 _ List.mem_cons_self
    exact .eval_bind hΓ hValue (hStack.2.enter_traced hFn)
  | deliverBind hLeave =>
    have hBound := hStack.1.1 _ List.mem_cons_self
    exact ⟨Γ, hΓ, hValue.leave hBound (hStack.1.2 _ _ rfl) hLeave, hStack.2⟩
  | deliverPrimNext =>
    exact ⟨Γ, hΓ, hStack.2.push_traced rfl
      (List.forall_mem_append.mpr ⟨hStack.1.1, List.forall_mem_singleton.mpr hValue⟩)⟩
  | deliverPrimLast _ hApply =>
    refine ⟨Γ, hΓ, ?_, hStack.2⟩
    rcases Arithmetic.apply_eq_ok hApply with ⟨n, rfl⟩ | ⟨b, rfl⟩
    · exact .int n
    · exact .bool b
  | deliverBranch | deliverRun => exact ⟨Γ, hΓ, hStack.2⟩
  | deliverLogicSettled | deliverLogicRight => exact ⟨Γ, hΓ, .bool _, hStack.2⟩
  | deliverLogicLeft => exact ⟨Γ, hΓ, hStack.2.push_traced rfl nofun⟩
  | deliverLet => exact .eval_bind hΓ hValue hStack.2

theorem State.Traced.of_emit {c : Term} {k : BuildStack} (hΓ : Issued p Γ)
    (hs : (State.emit level c k).Traced Γ) (h : (State.emit level c k).Moves p s' p') :
    s'.Coherent p' := by
  have hStack : k.Each (traceRule Γ) := hs
  cases h with
  | emitClose => exact ⟨Γ, hΓ, .code _, hStack⟩
  | emitLam | emitFix | emitApplied | emitPrimLast | emitIteNo | emitLogicRight | emitLetBody |
    emitQuote | emitSplice => exact ⟨Γ, hΓ, hStack.2⟩
  | emitApplyTo | emitPrimNext | emitIteCond | emitIteYes | emitLogicLeft =>
    exact ⟨Γ, hΓ, hStack.2.push_traced rfl⟩
  | emitLetBound => exact .build_binder hΓ rfl hStack.2

/-- **Transitions keep to the purposes of colors**, and give one to a color that they issue. -/
theorem State.Coherent.moves (hs : s.Coherent p) (h : s.Moves p s' p') : s'.Coherent p' := by
  obtain ⟨Γ, hΓ, hTraced⟩ := hs
  cases s with
  | eval => exact State.Traced.of_eval hΓ hTraced h
  | build => exact State.Traced.of_build hΓ hTraced h
  | deliver => exact State.Traced.of_deliver hΓ hTraced h
  | emit => exact State.Traced.of_emit hΓ hTraced h

theorem State.Traced.records (hs : s.Traced Γ) :
    (∀ b ∈ s.bindings, Records Γ b.1 b.2) ∧ ∀ c ∈ s.codeBinders, Γ c = some .code := by
  cases s with
  | eval => exact EvalStack.Each.records hs
  | build | emit => exact BuildStack.Each.records hs
  | deliver v k =>
    obtain ⟨hBindings, hCode⟩ := hs.2.records
    exact ⟨List.forall_mem_append.mpr ⟨hs.1.records, hBindings⟩, hCode⟩

end

/-! ### Runs -/

namespace Machine

theorem Reaches.coherent {m₀ m : Machine} {e : Term} {s : State}
    (h : m₀.Reaches (.initial e) m s) : s.Coherent m.palette := by
  have hStart : (State.initial e).Coherent m₀.palette := ⟨fun _ => none, nofun, trivial⟩
  refine h.preserves (I := fun m s => s.Coherent m.palette) ?_ hStart
  intro m m' s s' hs hStep
  exact hs.moves (step_eq_ok_iff.mp hStep).1

/-- **Bindings are coherent.**  In every state of the run of a program, all tags have been issued;
two bindings of one identifier, in frames or in functions, hold the same value, or else functions
of the fixpoint that the identifier stands for, which differ only in the bindings that they have
brought along; and no identifier with a binding is also a binder of code that is being built. -/
theorem bindings_coherent {m₀ m : Machine} {e : Term} {s : State} (hWritten : e.Written)
    (hReach : m₀.Reaches (.initial e) m s) :
    (∀ name tag, .colored name tag ∈ s.idents → tag < m.palette.issued) ∧
    (∀ c v w, (c, v) ∈ s.bindings → (c, w) ∈ s.bindings →
      v = w ∨ ∃ fn captured captured', fn.self? = some c ∧ v = .closure fn captured ∧
        w = .closure fn captured') ∧
    ∀ c v, (c, v) ∈ s.bindings → c ∉ s.codeBinders := by
  obtain ⟨Γ, -, hTraced⟩ := hReach.coherent
  obtain ⟨hBindings, hCode⟩ := hTraced.records
  refine ⟨fun name tag hMem => hReach.tag_lt_issued hWritten hMem, ?_, ?_⟩
  · intro c v w hv hw
    exact (hBindings (c, v) hv).agree (hBindings (c, w) hw)
  · intro c v hv hc
    exact (hBindings (c, v) hv).ne_code (hCode c hc)

/-- In `(fix f -> fn n -> if n == 0 then f else f 0 0) 1` the inner `f 0` hands out `f` itself, and
while that is called, `f` is bound to it as it was at first and as it is with what it has brought
along. -/
theorem bindings_coherent_fixpoint :
    let e : Term := .app (.fix (.raw "f") (.lam (.raw "n")
      (.ite (.prim (.compare .eq) [.var (.raw "n"), .int 0]) (.var (.raw "f"))
        (.app (.app (.var (.raw "f")) (.int 0)) (.int 0))))) (.int 1)
    ∃ m s v w, ({} : Machine).Reaches (.initial e) m s ∧
      (.colored "f" 0, v) ∈ s.bindings ∧ (.colored "f" 0, w) ∈ s.bindings ∧ v ≠ w ∧
      ∃ fn captured captured', fn.self? = some (.colored "f" 0) ∧ v = .closure fn captured ∧
        w = .closure fn captured' := by
  intro e
  obtain ⟨m, hReach, -, -⟩ := reaches_runFor 31 {} (.initial e)
  obtain ⟨-, hAgree, -⟩ := bindings_coherent (by decide) hReach
  refine ⟨m, _, _, _, hReach, List.mem_of_getElem? (i := 1) rfl,
    List.mem_of_getElem? (i := 7) rfl, nofun, ?_⟩
  exact (hAgree _ _ _ (List.mem_of_getElem? (i := 1) rfl)
    (List.mem_of_getElem? (i := 7) rfl)).resolve_left nofun

end Machine

end StagedLambda
