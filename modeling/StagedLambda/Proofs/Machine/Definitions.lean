import StagedLambda.Proofs.Machine.Rebasing

/-!
# A local definition is an applied function

`let x = e₁ in e₂` and `(fn x -> e₂) e₁` both evaluate `e₁` first, the one above a pending
definition and the other above a pending call.  Neither frame binds anything, so `e₁` cannot tell
them apart, whatever it looks up and from whatever stage.  When the frame gets the value, both
give `x` the next color and go on with `e₂` above the same binding.

* `Machine.Reaches.rebase_until`: above frames with the same bindings two runs go on in step until
  a value is handed to the frames.
* `Machine.rebased_ends`: so they fail alike, or both run forever, or hand over the same value.
* `Machine.let_eq_applied`: the two programs come to the same, the application in two transitions
  more.
-/

namespace StagedLambda

/-! ### Counting more transitions -/

namespace Machine

/-- The machine with `d` more transitions on its count. -/
def delay (m : Machine) (d : Nat) : Machine := { m with steps := m.steps + d }

variable {m m' : Machine} {s s' : State} {r : Except Fault Value}

theorem step_delay_of_ok (h : m.step s = (.ok s', m')) (d : Nat) :
    (m.delay d).step s = (.ok s', m'.delay d) := by
  obtain ⟨hMoves, hCount⟩ := step_eq_ok_iff.mp h
  refine step_eq_ok_iff.mpr ⟨hMoves, ?_⟩
  show m'.steps + d = m.steps + d + 1
  omega

theorem Reaches.delay (h : m.Reaches s m' s') (d : Nat) :
    (m.delay d).Reaches s (m'.delay d) s' := by
  induction h with
  | refl => exact .refl
  | tail _ hStep ih => exact .tail ih (step_delay_of_ok hStep d)

/-- A run that never ends gets to every number of transitions. -/
theorem Diverges.reaches (h : m.Diverges s) (n : Nat) :
    ∃ m' s', m.Reaches s m' s' ∧ m'.steps = m.steps + n := by
  obtain ⟨s', hSuspended⟩ := h n
  have hReached := reaches_runFor n m s
  rw [hSuspended] at hReached
  obtain ⟨m', hReach, -, hSteps⟩ := hReached
  exact ⟨m', s', hReach, hSteps⟩

/-- How a run ends does not depend on what the machine has counted before. -/
theorem Yields.delay (h : m.Yields s r) (d : Nat) : (m.delay d).Yields s r := by
  cases r with
  | ok v =>
    obtain ⟨m', hReach⟩ := yields_ok_iff.mp h
    exact yields_ok_iff.mpr ⟨_, hReach.delay d⟩
  | error f =>
    obtain ⟨m', s', hReach, hNone, hFaults⟩ := yields_error_iff.mp h
    exact yields_error_iff.mpr ⟨_, s', hReach.delay d, hNone, hFaults⟩

theorem yields_delay_iff {d : Nat} : (m.delay d).Yields s r ↔ m.Yields s r := by
  refine ⟨fun h => ?_, fun h => h.delay d⟩
  rcases yields_or_diverges m s with ⟨r', hYields⟩ | hForever
  · rwa [h.unique (hYields.delay d)]
  · refine absurd h (diverges_iff.mp (diverges_of_reaches fun n => ?_) r)
    obtain ⟨m', s', hReach, hSteps⟩ := hForever.reaches n
    refine ⟨_, s', hReach.delay d, ?_⟩
    show m.steps + d + n ≤ m'.steps + d
    omega

end Machine

/-! ### Runs above exchanged frames -/

section

variable {base base' : EvalStack} {s s' u : State}

/-- A state that hands a value to the bottom and a state above the other bottom hand over the same
value. -/
theorem State.Rebased.eq_deliver (h : s.Rebased base base' u)
    (hHands : s.hands? = some (.eval base)) :
    ∃ v, s = .deliver v base ∧ u = .deliver v base' := by
  obtain ⟨v, rfl⟩ := State.eq_deliver_of_hands? hHands
  cases h with
  | deliver _ h => exact ⟨v, rfl, by rw [h.eq_base]⟩

theorem State.Rebased.result?_eq_none (h : s.Rebased base base' u)
    (hOpen : s.hands? ≠ some (.eval base)) : u.result? = none := by
  cases hResult : u.result? with
  | none => rfl
  | some v =>
    obtain rfl := State.eq_deliver_of_result? hResult
    cases h with
    | deliver _ h =>
      cases h with
      | base => exact absurd rfl hOpen

namespace Machine

variable {m m' : Machine}

/-- **Two runs go on in step until a value is handed to the bottom.** -/
theorem Reaches.rebase_until (hBase : ∀ c, base.lookup c = base'.lookup c) (d : Nat)
    (h : s.Rebased base base' u) (hReach : m.Reaches s m' s') :
    (∃ u', (m.delay d).Reaches u (m'.delay d) u' ∧ s'.Rebased base base' u') ∨
      ∃ m₁ v, m.Reaches s m₁ (.deliver v base) ∧
        (m.delay d).Reaches u (m₁.delay d) (.deliver v base') := by
  induction hReach with
  | refl => exact .inl ⟨u, .refl, h⟩
  | @tail m₁ m₂ s₁ s₂ hPrior hStep ih =>
    rcases ih with ⟨u₁, hPrior', hRebased⟩ | hHanded
    · by_cases hHands : s₁.hands? = some (.eval base)
      · obtain ⟨v, rfl, rfl⟩ := hRebased.eq_deliver hHands
        exact .inr ⟨m₁, v, hPrior, hPrior'⟩
      · left
        obtain ⟨hMoves, hCount⟩ := step_eq_ok_iff.mp hStep
        obtain ⟨u₂, hMoves', hNext⟩ := hRebased.moves hBase hHands hMoves
        have hStep' : (m₁.delay d).step u₁ = (.ok u₂, m₂.delay d) := by
          refine step_eq_ok_iff.mpr ⟨hMoves', ?_⟩
          show m₂.steps + d = m₁.steps + d + 1
          omega
        exact ⟨u₂, .tail hPrior' hStep', hNext⟩
    · exact .inr hHanded

/-- **Above frames with the same bindings** two runs fail with the same fault, both run forever, or
hand the same value over at the same time. -/
theorem rebased_ends (hBase : ∀ c, base.lookup c = base'.lookup c) (m : Machine) (d : Nat)
    (h : s.Rebased base base' u) :
    (∃ f, m.Yields s (.error f) ∧ (m.delay d).Yields u (.error f)) ∨
      (m.Diverges s ∧ (m.delay d).Diverges u) ∨
      ∃ m₁ v, m.Reaches s m₁ (.deliver v base) ∧
        (m.delay d).Reaches u (m₁.delay d) (.deliver v base') := by
  rcases yields_or_diverges m s with ⟨r, hYields⟩ | hForever
  · -- Where the run ends, the other has got as far, or a value has been handed over before.
    cases r with
    | ok v =>
      obtain ⟨m', hReach⟩ := yields_ok_iff.mp hYields
      rcases hReach.rebase_until hBase d h with ⟨u', hReach', hRebased⟩ | hHanded
      · cases hRebased with
        | deliver _ hStack =>
          cases hStack with
          | base => exact .inr (.inr ⟨m', v, hReach, hReach'⟩)
      · exact .inr (.inr hHanded)
    | error f =>
      obtain ⟨m', s', hReach, -, hFaults⟩ := yields_error_iff.mp hYields
      rcases hReach.rebase_until hBase d h with ⟨u', hReach', hRebased⟩ | hHanded
      · by_cases hHands : s'.hands? = some (.eval base)
        · obtain ⟨v, rfl, rfl⟩ := hRebased.eq_deliver hHands
          exact .inr (.inr ⟨m', v, hReach, hReach'⟩)
        · have hYields' : (m.delay d).Yields u (.error f) :=
            yields_error_iff.mpr ⟨_, u', hReach', hRebased.result?_eq_none hHands,
              hRebased.faults hBase hHands hFaults⟩
          exact .inl ⟨f, hYields, hYields'⟩
      · exact .inr (.inr hHanded)
  · by_cases hHanded : ∃ m₁ v, m.Reaches s m₁ (.deliver v base) ∧
        (m.delay d).Reaches u (m₁.delay d) (.deliver v base')
    · exact .inr (.inr hHanded)
    · -- Nothing is ever handed over, so the other run gets as far as this one.
      refine .inr (.inl ⟨hForever, diverges_of_reaches fun n => ?_⟩)
      obtain ⟨m', s', hReach, hSteps⟩ := hForever.reaches n
      rcases hReach.rebase_until hBase d h with ⟨u', hReach', -⟩ | hOver
      · refine ⟨_, u', hReach', ?_⟩
        show m.steps + d + n ≤ m'.steps + d
        omega
      · exact absurd hOver hHanded

end Machine

end

/-! ### Definitions and applications -/

/-- **A local definition is an applied function.**  On any machine, above any stack, the two fail
with the same fault, or both run forever, or what is defined comes to a value `v` in both, and then
they get to the same state, with the same palette, the application by two transitions more.  So
they come to the same in any case. -/
theorem Machine.let_eq_applied (m : Machine) (env : Renaming) (k : EvalStack) (x : Ident)
    (e₁ e₂ : Term) :
    let defined : State := .eval env (.letIn x e₁ e₂) k
    let applied : State := .eval env (.app (.lam x e₂) e₁) k
    ((∃ f, m.Yields defined (.error f) ∧ m.Yields applied (.error f)) ∨
      (m.Diverges defined ∧ m.Diverges applied) ∨
      ∃ (m₀ : Machine) (v : Value),
        let c := m₀.palette.tint x
        let m₁ : Machine := ⟨m₀.palette.advance, m₀.steps + 1⟩
        let body : State := .eval (env.bind x c) e₂ (.push (.bind c v) k)
        m.Reaches defined m₀ (.deliver v (.push (.letBody x e₂ env) k)) ∧
        m.Reaches applied (m₀.delay 2)
          (.deliver v (.push (.applied (.closure ⟨none, x, e₂, env⟩ [])) k)) ∧
        m.Reaches defined m₁ body ∧ m.Reaches applied (m₁.delay 2) body) ∧
    ∀ r, m.Yields defined r ↔ m.Yields applied r := by
  intro defined applied
  have hDefined : m.Reaches defined (m.delay 1) (.eval env e₁ (.push (.letBody x e₂ env) k)) :=
    .of_moves (.evalLet env x e₁ e₂ k)
  have hApplied : m.Reaches applied ((m.delay 1).delay 2)
      (.eval env e₁ (.push (.applied (.closure ⟨none, x, e₂, env⟩ [])) k)) :=
    (Reaches.of_moves (.evalApp env (.lam x e₂) e₁ k)).trans
      ((Reaches.of_moves (.evalLam env x e₂ _)).trans (.of_moves (.deliverApplyTo _ e₁ env k)))
  have hLookup : ∀ c, (EvalStack.push (.letBody x e₂ env) k).lookup c =
      (EvalStack.push (.applied (.closure ⟨none, x, e₂, env⟩ [])) k).lookup c := fun _ => rfl
  rcases rebased_ends hLookup (m.delay 1) 2 (.eval env e₁ .base) with
    ⟨f, hFails, hFails'⟩ | ⟨hForever, hForever'⟩ | ⟨m₀, v, hValue, hValue'⟩
  · have hFault := hFails.of_reaches hDefined
    have hFault' := hFails'.of_reaches hApplied
    refine ⟨.inl ⟨f, hFault, hFault'⟩, fun r => ?_⟩
    constructor
    · intro hYields
      rwa [hYields.unique hFault]
    · intro hYields
      rwa [hYields.unique hFault']
  · have hNever := (diverges_iff_of_reaches hDefined).mpr hForever
    have hNever' := (diverges_iff_of_reaches hApplied).mpr hForever'
    refine ⟨.inr (.inl ⟨hNever, hNever'⟩), fun r => ?_⟩
    constructor
    · intro hYields
      exact absurd hYields (diverges_iff.mp hNever r)
    · intro hYields
      exact absurd hYields (diverges_iff.mp hNever' r)
  · have hLater : (⟨(m₀.delay 2).palette.advance, (m₀.delay 2).steps + 1⟩ : Machine) =
        (⟨m₀.palette.advance, m₀.steps + 1⟩ : Machine).delay 2 :=
      congrArg (Machine.mk m₀.palette.advance) (Nat.add_right_comm m₀.steps 2 1)
    have hBody := (hDefined.trans hValue).trans (.of_moves (.deliverLet v x e₂ env k))
    have hBody' := (hApplied.trans hValue').trans
      (.of_moves (.deliverCall ⟨none, x, e₂, env⟩ [] v k))
    rw [hLater] at hBody'
    refine ⟨.inr (.inr ⟨m₀, v, hDefined.trans hValue, hApplied.trans hValue', hBody, hBody'⟩),
      fun r => ?_⟩
    calc m.Yields defined r
      _ ↔ _ := yields_iff_of_reaches hBody
      _ ↔ _ := yields_delay_iff.symm
      _ ↔ m.Yields applied r := (yields_iff_of_reaches hBody').symm

end StagedLambda
