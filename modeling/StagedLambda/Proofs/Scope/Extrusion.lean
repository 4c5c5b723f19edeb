import StagedLambda.Proofs.Machine.Frames
import StagedLambda.Proofs.Machine.Reach
import StagedLambda.Proofs.Term.Names

/-!
# Scope extrusion

Code that leaves a binding frame must not mention the variable that the frame binds.  The frame of
an argument or of a local definition comes with a color that nothing else on the stack has, so
where code is stopped at such a frame its variable really is out of scope: below the frame nothing
binds it.  A call also puts back the bindings that its function has brought along, parameters of
other calls among them, and that of a fixpoint to itself.  These colors are not fresh, and while
calls of one function are nested, the frames of an outer call may bind them as well.

* `State.Introduces`, `Replays`: the two ways in which a binding comes to stand on the stack.
* `State.Kept`: the colors of values and of binders in code are kept apart, and every frame that
  binds has come onto the stack in one of the two ways.
* `State.Kept.lookup_introduced`: what is bound for the first time is bound nowhere below.
* `Machine.extrusion_exact`: where code is stopped, its variable is bound nowhere below, unless
  the frame was put back by a call.
* `Machine.extrusion_while_rebound`: there the code may be stopped although its variable is still
  bound.
-/

namespace StagedLambda

/-! ### Who has issued a color -/

/-- The colors of a run: those of bindings at stage 0 and those of binders in code. -/
structure Ledger where
  values : Set Ident
  codes : Set Ident

/-- All colors have been issued, each for one purpose. -/
structure Ledger.Kept (L : Ledger) (p : Palette) : Prop where
  issued : ∀ {c}, c ∈ L.values ∨ c ∈ L.codes → ∃ name, ∃ n < p.issued, c = .colored name n
  apart : ∀ {c}, c ∈ L.values → c ∉ L.codes

namespace Ledger

variable {L : Ledger} {p : Palette}

def addValue (L : Ledger) (c : Ident) : Ledger := ⟨insert c L.values, L.codes⟩

def addCode (L : Ledger) (c : Ident) : Ledger := ⟨L.values, insert c L.codes⟩

theorem Kept.fresh (h : L.Kept p) (x : Ident) : p.tint x ∉ L.values ∧ p.tint x ∉ L.codes := by
  have hFresh : ¬(p.tint x ∈ L.values ∨ p.tint x ∈ L.codes) := by
    intro hc
    obtain ⟨name, n, hn, hTint⟩ := h.issued hc
    cases hTint
    exact Nat.lt_irrefl _ hn
  exact not_or.mp hFresh

theorem Kept.issued_advance (h : L.Kept p) {c : Ident} (hc : c ∈ L.values ∨ c ∈ L.codes) :
    ∃ name, ∃ n < p.advance.issued, c = .colored name n := by
  obtain ⟨name, n, hn, hColored⟩ := h.issued hc
  exact ⟨name, n, Nat.lt_succ_of_lt hn, hColored⟩

theorem Kept.addValue (h : L.Kept p) (x : Ident) : (L.addValue (p.tint x)).Kept p.advance := by
  constructor
  · rintro c ((rfl | hc) | hc)
    · exact ⟨x.base, p.issued, Nat.lt_succ_self _, rfl⟩
    · exact h.issued_advance (.inl hc)
    · exact h.issued_advance (.inr hc)
  · rintro c (rfl | hc)
    · exact (h.fresh x).2
    · exact h.apart hc

theorem Kept.addCode (h : L.Kept p) (x : Ident) : (L.addCode (p.tint x)).Kept p.advance := by
  constructor
  · rintro c (hc | (rfl | hc))
    · exact h.issued_advance (.inl hc)
    · exact ⟨x.base, p.issued, Nat.lt_succ_self _, rfl⟩
    · exact h.issued_advance (.inr hc)
  · rintro c hValue (rfl | hc)
    · exact (h.fresh x).1 hValue
    · exact h.apart hValue hc

end Ledger

/-- All bindings that a value has brought along, at any depth, are of colors in `V`. -/
inductive Value.Owned (V : Set Ident) : Value → Prop
  | int (n : Int64) : Owned V (.int n)
  | bool (b : Bool) : Owned V (.bool b)
  | code (c : Term) : Owned V (.code c)
  | closure {fn : Abstraction} {captured : List (Ident × Value)}
      (hSelf : ∀ c, fn.self? = some c → c ∈ V) (hColors : ∀ b ∈ captured, b.1 ∈ V)
      (hBound : ∀ b ∈ captured, Owned V b.2) : Owned V (.closure fn captured)

theorem Value.Owned.mono {V V' : Set Ident} (hV : V ⊆ V') {v : Value} (h : v.Owned V) :
    v.Owned V' := by
  induction h with
  | int n => exact .int n
  | bool b => exact .bool b
  | code c => exact .code c
  | closure hSelf hColors _ ih =>
    exact .closure (fun c hc => hV (hSelf c hc)) (fun b hb => hV (hColors b hb)) ih

theorem Value.Owned.leave {V : Set Ident} {c : Ident} {bound v v' : Value} (h : v.Owned V)
    (hColor : c ∈ V) (hBound : bound.Owned V) (hLeave : Step.leave c bound v = .ok v') :
    v'.Owned V := by
  rcases Step.leave_eq_ok hLeave with
    ⟨fn, captured, rfl, rfl⟩ | ⟨t, rfl, rfl, -⟩ | ⟨n, rfl, rfl⟩ | ⟨b, rfl, rfl⟩
  · cases h with
    | closure hSelf hColors hInner =>
      exact .closure hSelf (List.forall_mem_cons.mpr ⟨hColor, hColors⟩)
        (List.forall_mem_cons.mpr ⟨hBound, hInner⟩)
  · exact .code t
  · exact .int n
  · exact .bool b

/-! ### How a binding comes onto the stack -/

/-- The transition from this state puts a binding of a fresh color over `rest`: a call does for
its argument and a local definition for its value. -/
inductive State.Introduces (p : Palette) : State → Ident → Value → EvalStack → Prop
  | parameter (fn : Abstraction) (captured : List (Ident × Value)) (arg : Value)
      (k : EvalStack) : Introduces p (.deliver arg (.push (.applied (.closure fn captured)) k))
        (p.tint fn.param) arg (k.enter fn captured)
  | definition (v : Value) (id : Ident) (body : Term) (env : Renaming) (k : EvalStack) :
      Introduces p (.deliver v (.push (.letBody id body env) k)) (p.tint id) v k

/-- When the function is called on the stack `k`, this binding comes to stand over `rest`. -/
inductive Replays (fn : Abstraction) (captured : List (Ident × Value)) (k : EvalStack) :
    Ident → Value → EvalStack → Prop
  | captured {before after : List (Ident × Value)} {c : Ident} {v : Value}
      (h : captured = before ++ (c, v) :: after) : Replays fn captured k c v (k.bindAll before)
  | self {c : Ident} (h : fn.self? = some c) :
      Replays fn captured k c (.closure fn captured) (k.bindAll captured)

/-- Every binding is of a color for values and has a known origin, and the binders of code are of
colors for code. -/
def bindingRule (L : Ledger) (Origin : Ident → Value → EvalStack → Prop) : StackRule where
  eval frame rest := (∀ v ∈ frame.values, v.Owned L.values) ∧
    ∀ c v, frame = .bind c v → c ∈ L.values ∧ Origin c v rest
  build frame _ := ∀ c, frame.binder? = some c → c ∈ L.codes

section

variable {L L' : Ledger} {Origin Origin' : Ident → Value → EvalStack → Prop} {p p' : Palette}

theorem bindingRule_mono (hValues : L.values ⊆ L'.values) (hCodes : L.codes ⊆ L'.codes)
    (hOrigin : ∀ c v rest, Origin c v rest → Origin' c v rest) :
    (bindingRule L Origin).Implies (bindingRule L' Origin') where
  eval := by
    rintro frame rest ⟨hOwned, hBind⟩
    refine ⟨fun v hv => (hOwned v hv).mono hValues, ?_⟩
    intro c v hFrame
    obtain ⟨hColor, hKnown⟩ := hBind c v hFrame
    exact ⟨hValues hColor, hOrigin c v rest hKnown⟩
  build := fun frame _ h c hc => hCodes (h c hc)
  escape := fun _ _ h => h

theorem bindingRule_addValue (c : Ident) :
    (bindingRule L Origin).Implies (bindingRule (L.addValue c) Origin) :=
  bindingRule_mono (Set.subset_insert c L.values) subset_rfl fun _ _ _ h => h

theorem bindingRule_addCode (c : Ident) :
    (bindingRule L Origin).Implies (bindingRule (L.addCode c) Origin) :=
  bindingRule_mono subset_rfl (Set.subset_insert c L.codes) fun _ _ _ h => h

/-- Pushing a frame that is no binding. -/
theorem EvalStack.Each.push_frame {frame : EvalFrame} {k : EvalStack}
    (hStack : k.Each (bindingRule L Origin)) (hBinder : frame.binder? = none)
    (hOwned : ∀ v ∈ frame.values, v.Owned L.values) :
    (EvalStack.push frame k).Each (bindingRule L Origin) := by
  refine ⟨⟨hOwned, ?_⟩, hStack⟩
  rintro c v rfl
  cases hBinder

theorem EvalStack.Each.push_binding {c : Ident} {v : Value} {k : EvalStack}
    (hStack : k.Each (bindingRule L Origin)) (hColor : c ∈ L.values) (hValue : v.Owned L.values)
    (hOrigin : Origin c v k) : (EvalStack.push (.bind c v) k).Each (bindingRule L Origin) := by
  refine ⟨⟨List.forall_mem_singleton.mpr hValue, ?_⟩, hStack⟩
  rintro _ _ ⟨⟩
  exact ⟨hColor, hOrigin⟩

theorem BuildStack.Each.push_frame {frame : BuildFrame} {k : BuildStack}
    (hStack : k.Each (bindingRule L Origin)) (hBinder : frame.binder? = none) :
    (BuildStack.push frame k).Each (bindingRule L Origin) := by
  refine ⟨?_, hStack⟩
  intro c hc
  rw [hBinder] at hc
  cases hc

/-! ### Searching -/

mutual

/-- A color for values is not bound by code that is still being built. -/
theorem EvalStack.Each.lookup_ne_future_of_value {c : Ident} (hc : c ∉ L.codes) :
    ∀ {k : EvalStack}, k.Each (bindingRule L Origin) → k.lookup c ≠ .future
  | .halt, _ => nofun
  | .escape _ _, ⟨_, hOuter⟩ => BuildStack.Each.lookup_ne_future_of_value hc hOuter
  | .push frame rest, ⟨_, hRest⟩ => by
    have hBelow := EvalStack.Each.lookup_ne_future_of_value hc hRest
    cases frame with
    | bind x v =>
      rw [EvalStack.lookup]
      split
      · nofun
      · exact hBelow
    | _ => exact hBelow

theorem BuildStack.Each.lookup_ne_future_of_value {c : Ident} (hc : c ∉ L.codes) :
    ∀ {k : BuildStack}, k.Each (bindingRule L Origin) → k.lookup c ≠ .future
  | .close _, hOuter => EvalStack.Each.lookup_ne_future_of_value hc hOuter
  | .push frame rest, ⟨hFrame, hRest⟩ => by
    have hOther : frame.binder? ≠ some c := fun hBinder => hc (hFrame c hBinder)
    rw [BuildStack.lookup, if_neg hOther]
    exact BuildStack.Each.lookup_ne_future_of_value hc hRest

end

/-- **A fresh color is bound nowhere on the stack.** -/
theorem EvalStack.Each.lookup_tint {k : EvalStack} (hStack : k.Each (bindingRule L Origin))
    (hL : L.Kept p) (x : Ident) : k.lookup (p.tint x) = .absent := by
  obtain ⟨hValue, hCode⟩ := hL.fresh x
  cases hLookup : k.lookup (p.tint x) with
  | absent => rfl
  | future => exact absurd hLookup (hStack.lookup_ne_future_of_value hCode)
  | found v =>
    obtain ⟨rest, hRule, -⟩ := hStack.found hLookup
    exact absurd (hRule.2 _ _ rfl).1 hValue

/-- A call puts back what its function has brought along. -/
theorem EvalStack.Each.enter_replays {fn : Abstraction} {captured : List (Ident × Value)}
    {k : EvalStack} (hStack : k.Each (bindingRule L Origin))
    (hFn : (Value.closure fn captured).Owned L.values)
    (hReplay : ∀ c v rest, Replays fn captured k c v rest → Origin c v rest) :
    (k.enter fn captured).Each (bindingRule L Origin) := by
  obtain ⟨hSelf, hColors, hBound⟩ : _ ∧ _ ∧ _ := by
    cases hFn with
    | closure hSelf hColors hBound => exact ⟨hSelf, hColors, hBound⟩
  -- The bindings before the ones that still have to be put back are on the stack.
  have hAll : ∀ after before, captured = before ++ after →
      (k.bindAll before).Each (bindingRule L Origin) →
      (k.bindAll captured).Each (bindingRule L Origin) := by
    intro after
    induction after with
    | nil =>
      intro before hSplit hBefore
      rw [hSplit, List.append_nil]
      exact hBefore
    | cons b after ih =>
      intro before hSplit hBefore
      have hMem : b ∈ captured := by simp [hSplit]
      refine ih (before ++ [b]) (by simp [hSplit]) ?_
      rw [EvalStack.bindAll, List.foldl_append]
      exact hBefore.push_binding (hColors b hMem) (hBound b hMem)
        (hReplay _ _ _ (.captured hSplit))
  have hCaptured := hAll captured [] rfl hStack
  rw [EvalStack.enter]
  cases hRecursive : fn.self? with
  | none => exact hCaptured
  | some self =>
    exact hCaptured.push_binding (hSelf self hRecursive) hFn (hReplay _ _ _ (.self hRecursive))

/-! ### Transitions -/

/-- A state that obeys the rule, its value included. -/
def State.Kept (L : Ledger) (Origin : Ident → Value → EvalStack → Prop) : State → Prop
  | .eval _ _ k => k.Each (bindingRule L Origin)
  | .build _ _ _ k => k.Each (bindingRule L Origin)
  | .deliver v k => v.Owned L.values ∧ k.Each (bindingRule L Origin)
  | .emit _ _ k => k.Each (bindingRule L Origin)

/-- The invariant of runs. -/
def State.Balanced (p : Palette) (Origin : Ident → Value → EvalStack → Prop) (s : State) : Prop :=
  ∃ L : Ledger, L.Kept p ∧ s.Kept L Origin

variable {s s' : State} {env : Renaming} {t : Term} {level : UInt64}

theorem State.Kept.mono (hOrigin : ∀ c v rest, Origin c v rest → Origin' c v rest)
    (h : s.Kept L Origin) : s.Kept L Origin' := by
  have hRule := bindingRule_mono (subset_refl L.values) (subset_refl L.codes) hOrigin
  cases s with
  | eval => exact EvalStack.Each.mono hRule h
  | build => exact BuildStack.Each.mono hRule h
  | deliver => exact ⟨h.1, EvalStack.Each.mono hRule h.2⟩
  | emit => exact BuildStack.Each.mono hRule h

/-- **What is introduced is bound nowhere below.** -/
theorem State.Kept.lookup_introduced {c : Ident} {v : Value} {rest : EvalStack} (hL : L.Kept p)
    (hs : s.Kept L Origin) (h : s.Introduces p c v rest) : rest.lookup c = .absent := by
  -- How the bindings below came onto the stack does not matter here.
  have hAny : s.Kept L fun _ _ _ => True := hs.mono fun _ _ _ _ => trivial
  cases h with
  | parameter fn captured arg k =>
    obtain ⟨-, hFrame, hStack⟩ := hAny
    have hFn := hFrame.1 _ List.mem_cons_self
    exact (hStack.enter_replays hFn fun _ _ _ _ => trivial).lookup_tint hL fn.param
  | definition v id => exact hAny.2.2.lookup_tint hL id

/-- Going on under a binding of a fresh color. -/
theorem State.Balanced.eval_bind {x : Ident} {v : Value} {k : EvalStack} (hL : L.Kept p)
    (hValue : v.Owned L.values) (hStack : k.Each (bindingRule L Origin))
    (hOrigin : Origin (p.tint x) v k) :
    (State.eval env t (.push (.bind (p.tint x) v) k)).Balanced p.advance Origin := by
  refine ⟨L.addValue (p.tint x), hL.addValue x, ?_⟩
  exact (EvalStack.Each.mono (bindingRule_addValue _) hStack).push_binding (Set.mem_insert _ _)
    (hValue.mono (Set.subset_insert _ _)) hOrigin

/-- Going on under a binder of code. -/
theorem State.Balanced.build_binder {x : Ident} {frame : BuildFrame} {k : BuildStack}
    (hL : L.Kept p) (hBinder : frame.binder? = some (p.tint x))
    (hStack : k.Each (bindingRule L Origin)) :
    (State.build level env t (.push frame k)).Balanced p.advance Origin := by
  refine ⟨L.addCode (p.tint x), hL.addCode x, ?_,
    BuildStack.Each.mono (bindingRule_addCode _) hStack⟩
  intro c hc
  rw [hBinder] at hc
  obtain rfl := Option.some.inj hc
  exact Set.mem_insert _ _

theorem State.Kept.of_eval {k : EvalStack} (hL : L.Kept p)
    (hs : (State.eval env t k).Kept L Origin) (h : (State.eval env t k).Moves p s' p') :
    s'.Balanced p' Origin := by
  have hStack : k.Each (bindingRule L Origin) := hs
  cases h with
  | evalVar _ hFound =>
    obtain ⟨rest, hRule, -⟩ := hStack.found hFound
    exact ⟨L, hL, hRule.1 _ List.mem_cons_self, hStack⟩
  | evalLam => exact ⟨L, hL, .closure nofun nofun nofun, hStack⟩
  | evalFix _ self =>
    refine ⟨_, hL.addValue self, .closure ?_ nofun nofun,
      EvalStack.Each.mono (bindingRule_addValue _) hStack⟩
    rintro c ⟨⟩
    exact Set.mem_insert _ _
  | evalInt => exact ⟨L, hL, .int _, hStack⟩
  | evalBool => exact ⟨L, hL, .bool _, hStack⟩
  | evalQuote => exact ⟨L, hL, hStack⟩
  | evalApp | evalPrim | evalIte | evalLogic | evalSplice | evalLet =>
    exact ⟨L, hL, hStack.push_frame rfl nofun⟩

theorem State.Kept.of_build {k : BuildStack} (hL : L.Kept p)
    (hs : (State.build level env t k).Kept L Origin) (h : (State.build level env t k).Moves p s' p') :
    s'.Balanced p' Origin := by
  have hStack : k.Each (bindingRule L Origin) := hs
  cases h with
  | buildVar | buildInt | buildBool => exact ⟨L, hL, hStack⟩
  | buildLam | buildFix => exact .build_binder hL rfl hStack
  | buildEscape => exact ⟨L, hL, trivial, hStack⟩
  | buildApp | buildPrim | buildIte | buildLogic | buildQuote | buildSplice | buildLet =>
    exact ⟨L, hL, hStack.push_frame rfl⟩

theorem State.Kept.of_deliver {v : Value} {k : EvalStack} (hL : L.Kept p)
    (hs : (State.deliver v k).Kept L Origin) (h : (State.deliver v k).Moves p s' p')
    (hIntroduce : ∀ c w below, (State.deliver v k).Introduces p c w below → Origin c w below)
    (hReplay : ∀ fn captured rest, k = .push (.applied (.closure fn captured)) rest →
      ∀ c w below, Replays fn captured rest c w below → Origin c w below) :
    s'.Balanced p' Origin := by
  obtain ⟨hValue, hStack⟩ := hs
  cases h with
  | deliverEscape => exact ⟨L, hL, hStack.2⟩
  | deliverApplyTo =>
    exact ⟨L, hL, hStack.2.push_frame rfl (List.forall_mem_singleton.mpr hValue)⟩
  | deliverCall fn captured =>
    have hFn := hStack.1.1 _ List.mem_cons_self
    exact .eval_bind hL hValue (hStack.2.enter_replays hFn (hReplay fn captured _ rfl))
      (hIntroduce _ _ _ (.parameter fn captured _ _))
  | deliverBind hLeave =>
    have hBound := hStack.1.1 _ List.mem_cons_self
    exact ⟨L, hL, hValue.leave (hStack.1.2 _ _ rfl).1 hBound hLeave, hStack.2⟩
  | deliverPrimNext =>
    exact ⟨L, hL, hStack.2.push_frame rfl
      (List.forall_mem_append.mpr ⟨hStack.1.1, List.forall_mem_singleton.mpr hValue⟩)⟩
  | deliverPrimLast _ hApply =>
    refine ⟨L, hL, ?_, hStack.2⟩
    rcases Arithmetic.apply_eq_ok hApply with ⟨n, rfl⟩ | ⟨b, rfl⟩
    · exact .int n
    · exact .bool b
  | deliverBranch | deliverRun => exact ⟨L, hL, hStack.2⟩
  | deliverLogicSettled | deliverLogicRight => exact ⟨L, hL, .bool _, hStack.2⟩
  | deliverLogicLeft => exact ⟨L, hL, hStack.2.push_frame rfl nofun⟩
  | deliverLet =>
    exact .eval_bind hL hValue hStack.2 (hIntroduce _ _ _ (.definition _ _ _ _ _))

theorem State.Kept.of_emit {c : Term} {k : BuildStack} (hL : L.Kept p)
    (hs : (State.emit level c k).Kept L Origin) (h : (State.emit level c k).Moves p s' p') :
    s'.Balanced p' Origin := by
  have hStack : k.Each (bindingRule L Origin) := hs
  cases h with
  | emitClose => exact ⟨L, hL, .code _, hStack⟩
  | emitLam | emitFix | emitApplied | emitPrimLast | emitIteNo | emitLogicRight | emitLetBody |
    emitQuote | emitSplice => exact ⟨L, hL, hStack.2⟩
  | emitApplyTo | emitPrimNext | emitIteCond | emitIteYes | emitLogicLeft =>
    exact ⟨L, hL, hStack.2.push_frame rfl⟩
  | emitLetBound => exact .build_binder hL rfl hStack.2

/-- **Transitions keep the colors apart**, and bind only what they introduce or put back. -/
theorem State.Kept.moves (hL : L.Kept p) (hs : s.Kept L Origin) (h : s.Moves p s' p')
    (hIntroduce : ∀ c v rest, s.Introduces p c v rest → Origin c v rest)
    (hReplay : ∀ arg fn captured rest,
      s = .deliver arg (.push (.applied (.closure fn captured)) rest) →
        ∀ c v below, Replays fn captured rest c v below → Origin c v below) :
    s'.Balanced p' Origin := by
  cases s with
  | eval => exact State.Kept.of_eval hL hs h
  | build => exact State.Kept.of_build hL hs h
  | deliver v k =>
    refine State.Kept.of_deliver hL hs h hIntroduce fun fn captured rest hk => ?_
    exact hReplay v fn captured rest (congrArg _ hk)
  | emit => exact State.Kept.of_emit hL hs h

end

/-! ### Runs -/

/-- On the run from `e` to the state `s`, a call has put this binding over `rest`. -/
def Machine.PutBack (m₀ : Machine) (e : Term) (m : Machine) (s : State) (c : Ident) (v : Value)
    (rest : EvalStack) : Prop :=
  ∃ m₁ arg fn captured k,
    m₀.Reaches (.initial e) m₁ (.deliver arg (.push (.applied (.closure fn captured)) k)) ∧
    m₁.Reaches (.deliver arg (.push (.applied (.closure fn captured)) k)) m s ∧
    Replays fn captured k c v rest

/-- On the run from `e` to the state `s`, a call or a local definition has introduced this binding
over `rest`. -/
def Machine.Introduced (m₀ : Machine) (e : Term) (m : Machine) (s : State) (c : Ident) (v : Value)
    (rest : EvalStack) : Prop :=
  ∃ m₁ s₁, m₀.Reaches (.initial e) m₁ s₁ ∧ s₁.Introduces m₁.palette c v rest ∧ m₁.Reaches s₁ m s

theorem Machine.Reaches.balanced {m₀ m : Machine} {e : Term} {s : State}
    (h : m₀.Reaches (.initial e) m s) :
    s.Balanced m.palette fun c v rest =>
      m₀.Introduced e m s c v rest ∨ m₀.PutBack e m s c v rest := by
  induction h with
  | refl =>
    refine ⟨⟨∅, ∅⟩, ⟨?_, nofun⟩, trivial⟩
    rintro c (hc | hc)
    · cases hc
    · cases hc
  | @tail m₁ m₂ s₁ s₂ prior hStep ih =>
    obtain ⟨L, hL, hKept⟩ := ih
    have hLater : ∀ c v rest, m₀.Introduced e m₁ s₁ c v rest ∨ m₀.PutBack e m₁ s₁ c v rest →
        m₀.Introduced e m₂ s₂ c v rest ∨ m₀.PutBack e m₂ s₂ c v rest := by
      rintro c v rest (⟨m', s', hReach, hIntroduces, hSince⟩ |
        ⟨m', arg, fn, captured, k, hCall, hSince, hReplay⟩)
      · exact .inl ⟨m', s', hReach, hIntroduces, .tail hSince hStep⟩
      · exact .inr ⟨m', arg, fn, captured, k, hCall, .tail hSince hStep, hReplay⟩
    refine (hKept.mono hLater).moves hL (step_eq_ok_iff.mp hStep).1 ?_ ?_
    · exact fun c v rest h => .inl ⟨m₁, s₁, prior, h, .tail .refl hStep⟩
    · rintro arg fn captured rest rfl c v below hReplay
      exact .inr ⟨m₁, arg, fn, captured, rest, prior, .tail .refl hStep, hReplay⟩

/-- What a run has introduced is bound nowhere below. -/
theorem Machine.Introduced.lookup_absent {m₀ m : Machine} {e : Term} {s : State} {c : Ident}
    {v : Value} {rest : EvalStack} (h : m₀.Introduced e m s c v rest) :
    rest.lookup c = .absent := by
  obtain ⟨m₁, s₁, hReach, hIntroduces, -⟩ := h
  obtain ⟨L, hL, hKept⟩ := hReach.balanced
  exact hKept.lookup_introduced hL hIntroduces

/-- Code is stopped only at a binding frame of a variable that it mentions. -/
theorem State.Faults.eq_of_extrusion {s : State} {id : Ident} (h : s.Faults (.scopeExtrusion id)) :
    ∃ c v k, s = .deliver (.code c) (.push (.bind id v) k) ∧ c.occursFree id = true := by
  generalize hf : Fault.scopeExtrusion id = f at h
  cases h with
  | deliverBind hLeave =>
    obtain ⟨hFault, c, rfl, hFree⟩ := Step.leave_eq_error hLeave
    cases hf.trans hFault
    exact ⟨c, _, _, rfl, hFree⟩
  | evalPrim hFirst | buildPrim hFirst =>
    rcases Step.firstOperand_eq_error hFirst with rfl | rfl <;> cases hf
  | evalSplice hStages | buildSplice hStages =>
    rcases Step.stages_eq_error hStages with rfl | rfl <;> cases hf
  | buildQuote hRaise | emitRaise hRaise =>
    rw [(Step.raise_eq_error hRaise).1] at hf
    cases hf
  | deliverEscape hFragment | deliverRun hFragment =>
    rw [Step.fragment_eq_error hFragment] at hf
    cases hf
  | deliverPrim _ hApply =>
    rcases Arithmetic.apply_eq_error hApply with
      ⟨_, _, rfl⟩ | ⟨_, rfl | rfl⟩ | ⟨rfl, -⟩ <;> cases hf
  | deliverBranch hTruth | deliverLogicLeft hTruth | deliverLogicRight hTruth =>
    rw [Step.truth_eq_error hTruth] at hf
    cases hf
  | _ => cases hf

/-- **The scope-extrusion check is exact** but for bindings that a call has put back.  Where a
transition fails with it, code that mentions a variable is about to leave a frame that binds this
variable.  The frame was introduced by a call for its parameter or by a local definition, and then
nothing below binds the variable; or a call has put it back, and then the variable may still be
bound to a value below. -/
theorem Machine.extrusion_exact {m₀ m m' : Machine} {e : Term} {s : State} {id : Ident}
    (hReach : m₀.Reaches (.initial e) m s) (hStep : m.step s = (.error (.scopeExtrusion id), m')) :
    ∃ c v k, s = .deliver (.code c) (.push (.bind id v) k) ∧ c.occursFree id = true ∧
      (m₀.Introduced e m s id v k ∨ m₀.PutBack e m s id v k) ∧
      (m₀.Introduced e m s id v k → k.lookup id = .absent) ∧
      (k.lookup id = .absent ∨
        m₀.PutBack e m s id v k ∧ ∃ w, k.lookup id = .found w) := by
  obtain ⟨c, v, k, rfl, hFree⟩ := (step_eq_error_iff.mp hStep).1.eq_of_extrusion
  obtain ⟨L, hL, -, hFrame, hRest⟩ := hReach.balanced
  obtain ⟨hColor, hOrigin⟩ := hFrame.2 id v rfl
  refine ⟨c, v, k, rfl, hFree, hOrigin, Introduced.lookup_absent, ?_⟩
  rcases hOrigin with hIntroduced | hBack
  · exact .inl hIntroduced.lookup_absent
  · cases hLookup : k.lookup id with
    | absent => exact .inl rfl
    | found w => exact .inr ⟨hBack, w, rfl⟩
    | future => exact absurd hLookup (hRest.lookup_ne_future_of_value (hL.apart hColor))

/-- In ``(fn x -> `{ x }) 1`` the code mentions a parameter, and it is stopped where nothing binds
the parameter any more. -/
theorem Machine.extrusion_exact_parameter :
    ∃ m k, ({} : Machine).Reaches
        (.initial (.app (.lam (.raw "x") (.quote (.var (.raw "x")))) (.int 1))) m
        (.deliver (.code (.var (.colored "x" 0))) (.push (.bind (.colored "x" 0) (.int 1)) k)) ∧
      k.lookup (.colored "x" 0) = .absent := by
  obtain ⟨m, hReach, -, -⟩ := Machine.reaches_runFor 8 {}
    (.initial (.app (.lam (.raw "x") (.quote (.var (.raw "x")))) (.int 1)))
  have hFault : State.Faults (.deliver (.code (.var (.colored "x" 0)))
      (.push (.bind (.colored "x" 0) (.int 1)) .halt)) (.scopeExtrusion (.colored "x" 0)) :=
    .deliverBind rfl
  obtain ⟨c, v, k, hState, -, -, -, hBelow⟩ :=
    Machine.extrusion_exact hReach (Machine.step_eq_error_iff.mpr ⟨hFault, rfl⟩)
  cases hState
  refine ⟨m, .halt, hReach, ?_⟩
  rcases hBelow with hAbsent | ⟨-, w, hFound⟩
  · exact hAbsent
  · cases hFound

/-- In
``(fix f -> fn n -> if n == 0 then `{ f 2 } else if n == 1 then ~0{ f 0 } else n) 1``
the code that the inner call hands out mentions `f`.  It is stopped at the frame by which the inner
call binds `f`, although the outer call, inside which the code would be run, still binds `f` as
well. -/
theorem Machine.extrusion_while_rebound :
    let e : Term := .app (.fix (.raw "f") (.lam (.raw "n")
      (.ite (.prim (.compare .eq) [.var (.raw "n"), .int 0])
        (.quote (.app (.var (.raw "f")) (.int 2)))
        (.ite (.prim (.compare .eq) [.var (.raw "n"), .int 1])
          (.splice 0 (.app (.var (.raw "f")) (.int 0))) (.var (.raw "n")))))) (.int 1)
    let c : Term := .app (.var (.colored "f" 0)) (.int 2)
    e.Written ∧ ∃ m m' v k w, ({} : Machine).Reaches (.initial e) m
        (.deliver (.code c) (.push (.bind (.colored "f" 0) v) k)) ∧
      m.step (.deliver (.code c) (.push (.bind (.colored "f" 0) v) k)) =
        (.error (.scopeExtrusion (.colored "f" 0)), m') ∧
      k.lookup (.colored "f" 0) = .found w := by
  intro e c
  obtain ⟨m, hReach, -, -⟩ := Machine.reaches_runFor 40 {} (.initial e)
  refine ⟨by decide, m, { m with steps := m.steps + 1 }, _, _, _, hReach, ?_, rfl⟩
  exact Machine.step_eq_error_iff.mpr ⟨.deliverBind rfl, rfl⟩

end StagedLambda
