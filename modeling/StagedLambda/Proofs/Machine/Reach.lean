import StagedLambda.Machine.Run
import StagedLambda.Proofs.Machine.Moves

/-!
# Reachable states and the ends of runs

`Machine.Reaches` follows the transitions of a run one by one; the machine counts them, so the
length of a run is the difference of two counts.  `Machine.after` numbers the states of a run, a
fault being the last.  `Machine.runFor` runs on a budget, which unlike fuel has no largest size:
`Machine.Yields` says how a run ends, at whatever budget, and `Machine.Diverges` that no budget is
enough.

* `Machine.Reaches.preserves`: what every transition preserves holds in every reachable state.
* `Machine.yields_ok_iff`, `Machine.yields_error_iff`: a run ends where a state is reached that
  has a result or that fails.
* `Machine.Yields.unique`: a run has one end.
* `Machine.diverges_of_reaches`: a run that gets arbitrarily far never ends.
* `Machine.yields_iff_run`, `Machine.diverges_iff_run`: the ends of runs are what `Machine.run`
  answers.
-/

namespace StagedLambda.Machine

theorem step_eq_iff {m m' : Machine} {s : State} {r : Except Fault State} :
    m.step s = (r, m') ↔ s.step m.palette = (r, m'.palette) ∧ m'.steps = m.steps + 1 := by
  rw [Machine.step]
  obtain ⟨palette', steps'⟩ := m'
  constructor
  · intro h
    cases h
    exact ⟨rfl, rfl⟩
  · rintro ⟨hStep, hSteps⟩
    rw [hStep, ← hSteps]

theorem step_eq_ok_iff {m m' : Machine} {s s' : State} :
    m.step s = (.ok s', m') ↔
      s.Moves m.palette s' m'.palette ∧ m'.steps = m.steps + 1 := by
  rw [step_eq_iff, State.step_eq_ok_iff]

theorem step_eq_error_iff {m m' : Machine} {s : State} {f : Fault} :
    m.step s = (.error f, m') ↔ s.Faults f ∧ m' = { m with steps := m.steps + 1 } := by
  rw [step_eq_iff, State.step_eq_error_iff, and_assoc]
  refine and_congr_right fun _ => ?_
  cases m'
  rw [mk.injEq]

/-- A rule of `Moves` as a transition of a machine. -/
theorem step_of_moves {m : Machine} {s s' : State} {p' : Palette}
    (h : s.Moves m.palette s' p') : m.step s = (.ok s', ⟨p', m.steps + 1⟩) :=
  step_eq_ok_iff.mpr ⟨h, rfl⟩

/-! ### Reachable states -/

/-- Some transitions lead the machine `m` from the state `s` to another state. -/
inductive Reaches (m : Machine) (s : State) : Machine → State → Prop
  | refl : Reaches m s m s
  | tail {m₁ m₂ : Machine} {s₁ s₂ : State} (prior : Reaches m s m₁ s₁)
      (h : m₁.step s₁ = (.ok s₂, m₂)) : Reaches m s m₂ s₂

namespace Reaches

theorem trans {m m₁ m₂ : Machine} {s s₁ s₂ : State} (h : m.Reaches s m₁ s₁)
    (g : m₁.Reaches s₁ m₂ s₂) : m.Reaches s m₂ s₂ := by
  induction g with
  | refl => exact h
  | tail _ hStep ih => exact .tail ih hStep

theorem of_moves {m : Machine} {s s' : State} {p' : Palette} (h : s.Moves m.palette s' p') :
    m.Reaches s ⟨p', m.steps + 1⟩ s' := .tail .refl (step_of_moves h)

theorem head {m m₁ m₂ : Machine} {s s₁ s₂ : State} (h : m.step s = (.ok s₁, m₁))
    (g : m₁.Reaches s₁ m₂ s₂) : m.Reaches s m₂ s₂ := trans (.tail .refl h) g

/-- **What every transition preserves holds in every reachable state.** -/
theorem preserves {I : Machine → State → Prop}
    (hStep : ∀ {m m' : Machine} {s s' : State}, I m s → m.step s = (.ok s', m') → I m' s')
    {m m' : Machine} {s s' : State} (hStart : I m s) (h : m.Reaches s m' s') : I m' s' := by
  induction h with
  | refl => exact hStart
  | tail _ hLast ih => exact hStep ih hLast

theorem eq_or_head {m m' : Machine} {s s' : State} (h : m.Reaches s m' s') :
    (m' = m ∧ s' = s) ∨ ∃ m₁ s₁, m.step s = (.ok s₁, m₁) ∧ m₁.Reaches s₁ m' s' := by
  induction h with
  | refl => exact .inl ⟨rfl, rfl⟩
  | @tail m₁ m₂ s₁ s₂ _ hLast ih =>
    right
    rcases ih with ⟨rfl, rfl⟩ | ⟨m₀, s₀, hFirst, hRest⟩
    · exact ⟨m₂, s₂, hLast, .refl⟩
    · exact ⟨m₀, s₀, hFirst, .tail hRest hLast⟩

theorem steps_le {m m' : Machine} {s s' : State} (h : m.Reaches s m' s') :
    m.steps ≤ m'.steps := by
  induction h with
  | refl => exact Nat.le_refl _
  | tail _ hLast ih =>
    have := (step_eq_ok_iff.mp hLast).2
    omega

end Reaches

/-! ### The states of a run by number -/

/-- How far a run has got: it is in a state, or a fault has stopped it. -/
abbrev Progress := Except Fault State

/-- The next transition of a run, if nothing has stopped it. -/
def turn (m : Machine) : Progress → Progress × Machine
  | .ok s => m.step s
  | .error f => (.error f, m)

/-- How far a run has got after `n` transitions, and the machine by then. -/
def after (m : Machine) (s : State) : Nat → Progress × Machine
  | 0 => (.ok s, m)
  | n + 1 =>
    match m.after s n with
    | (r, m') => m'.turn r

theorem after_succ {m m' : Machine} {s : State} {n : Nat} {r : Progress}
    (h : m.after s n = (r, m')) : m.after s (n + 1) = m'.turn r := by
  rw [after, h]

/-- Where a run has got, it came from a state by a transition. -/
theorem after_succ_eq_ok {m m' : Machine} {s s' : State} {n : Nat}
    (h : m.after s (n + 1) = (.ok s', m')) :
    ∃ m₁ s₁, m.after s n = (.ok s₁, m₁) ∧ m₁.step s₁ = (.ok s', m') := by
  rcases hPrior : m.after s n with ⟨f | s₁, m₁⟩ <;> rw [after_succ hPrior] at h
  · cases h
  · exact ⟨m₁, s₁, rfl, h⟩

/-! ### Runs on a budget -/

/-- Takes at most `budget` transitions. -/
def runFor (budget : Nat) (m : Machine) (s : State) : Run Nat :=
  match s.result? with
  | some value => ⟨m, .finished value, budget⟩
  | none =>
    match budget with
    | 0 => ⟨m, .suspended s, 0⟩
    | left + 1 =>
      match m.step s with
      | (.ok next, m') => runFor left m' next
      | (.error fault, m') => ⟨m', .failed fault, left⟩

theorem runFor_of_result {s : State} {v : Value} (h : s.result? = some v) (m : Machine)
    (budget : Nat) : m.runFor budget s = ⟨m, .finished v, budget⟩ := by
  rw [runFor.eq_def, h]

theorem runFor_zero {s : State} (h : s.result? = none) (m : Machine) :
    m.runFor 0 s = ⟨m, .suspended s, 0⟩ := by
  rw [runFor.eq_def, h]

theorem runFor_succ {s : State} (h : s.result? = none) (m : Machine) (budget : Nat) :
    m.runFor (budget + 1) s =
      match m.step s with
      | (.ok next, m') => m'.runFor budget next
      | (.error fault, m') => ⟨m', .failed fault, budget⟩ := by
  rw [runFor.eq_def, h]

/-! ### The ends of runs -/

/-- How a run can end. -/
def ending : Except Fault Value → Outcome
  | .ok v => .finished v
  | .error f => .failed f

theorem ending_injective : Function.Injective ending
  | .ok _, .ok _, h => congrArg _ (Outcome.finished.inj h)
  | .error _, .error _, h => congrArg _ (Outcome.failed.inj h)

/-- The run from `s` ends with the result or the fault `r`. -/
def Yields (m : Machine) (s : State) (r : Except Fault Value) : Prop :=
  ∃ budget, (m.runFor budget s).outcome = ending r

/-- The run from `s` never ends. -/
def Diverges (m : Machine) (s : State) : Prop :=
  ∀ budget, ∃ s', (m.runFor budget s).outcome = .suspended s'

theorem result?_of_step {m m' : Machine} {s s' : State} (h : m.step s = (.ok s', m')) :
    s.result? = none := (step_eq_ok_iff.mp h).1.result?_eq_none

/-- A budget can be used up in two parts. -/
theorem runFor_of_reaches {m m' : Machine} {s s' : State} (h : m.Reaches s m' s')
    (budget : Nat) : m.runFor (m'.steps - m.steps + budget) s = m'.runFor budget s' := by
  induction h generalizing budget with
  | refl => rw [Nat.sub_self, Nat.zero_add]
  | @tail m₁ m₂ s₁ s₂ prior hLast ih =>
    have hCount := (step_eq_ok_iff.mp hLast).2
    have hSplit : m₂.steps - m.steps + budget = m₁.steps - m.steps + (budget + 1) := by
      have := prior.steps_le
      omega
    rw [hSplit, ih (budget + 1), runFor_succ (result?_of_step hLast), hLast]

theorem Yields.of_reaches {m m' : Machine} {s s' : State} {r : Except Fault Value}
    (h : m.Reaches s m' s') (hEnd : m'.Yields s' r) : m.Yields s r := by
  obtain ⟨budget, hOutcome⟩ := hEnd
  refine ⟨m'.steps - m.steps + budget, ?_⟩
  rw [runFor_of_reaches h]
  exact hOutcome

/-- What a run of any budget has reached. -/
theorem reaches_runFor (budget : Nat) (m : Machine) (s : State) :
    match (m.runFor budget s).outcome with
    | .finished v => ∃ m', m.Reaches s m' (.deliver v .halt)
    | .suspended s' => ∃ m', m.Reaches s m' s' ∧ s'.result? = none ∧
        m'.steps = m.steps + budget
    | .failed f => ∃ m' s', m.Reaches s m' s' ∧ s'.result? = none ∧ s'.Faults f := by
  induction budget generalizing m s with
  | zero =>
    cases hResult : s.result? with
    | some v =>
      rw [runFor_of_result hResult, State.eq_deliver_of_result? hResult]
      exact ⟨m, .refl⟩
    | none =>
      rw [runFor_zero hResult]
      exact ⟨m, .refl, hResult, rfl⟩
  | succ budget ih =>
    cases hResult : s.result? with
    | some v =>
      rw [runFor_of_result hResult, State.eq_deliver_of_result? hResult]
      exact ⟨m, .refl⟩
    | none =>
      rw [runFor_succ hResult]
      rcases hStep : m.step s with ⟨_ | next, m₁⟩
      · exact ⟨m, s, .refl, hResult, (step_eq_error_iff.mp hStep).1⟩
      · have hRest := ih m₁ next
        have hCount := (step_eq_ok_iff.mp hStep).2
        dsimp only
        split <;> rename_i hOutcome <;> rw [hOutcome] at hRest
        · obtain ⟨m', h⟩ := hRest
          exact ⟨m', .head hStep h⟩
        · obtain ⟨m', h, hNone, hSteps⟩ := hRest
          exact ⟨m', .head hStep h, hNone, by omega⟩
        · obtain ⟨m', s', h, hNone, hFault⟩ := hRest
          exact ⟨m', s', .head hStep h, hNone, hFault⟩

theorem yields_ok_iff {m : Machine} {s : State} {v : Value} :
    m.Yields s (.ok v) ↔ ∃ m', m.Reaches s m' (.deliver v .halt) := by
  constructor
  · rintro ⟨budget, hOutcome⟩
    have h := reaches_runFor budget m s
    rw [hOutcome] at h
    exact h
  · rintro ⟨m', h⟩
    refine ⟨m'.steps - m.steps + 0, ?_⟩
    rw [runFor_of_reaches h, runFor_of_result rfl]
    rfl

theorem yields_error_iff {m : Machine} {s : State} {f : Fault} :
    m.Yields s (.error f) ↔
      ∃ m' s', m.Reaches s m' s' ∧ s'.result? = none ∧ s'.Faults f := by
  constructor
  · rintro ⟨budget, hOutcome⟩
    have h := reaches_runFor budget m s
    rw [hOutcome] at h
    exact h
  · rintro ⟨m', s', h, hNone, hFault⟩
    refine ⟨m'.steps - m.steps + 1, ?_⟩
    rw [runFor_of_reaches h, runFor_succ hNone, step_eq_error_iff.mpr ⟨hFault, rfl⟩]
    rfl

/-- More budget does not change how a run ends. -/
theorem outcome_runFor_add {m : Machine} {s : State} {r : Except Fault Value} {budget : Nat}
    (h : (m.runFor budget s).outcome = ending r) (extra : Nat) :
    (m.runFor (budget + extra) s).outcome = ending r := by
  induction budget generalizing m s with
  | zero =>
    cases hResult : s.result? with
    | some v =>
      rw [runFor_of_result hResult] at h ⊢
      exact h
    | none =>
      rw [runFor_zero hResult] at h
      cases r <;> cases h
  | succ budget ih =>
    cases hResult : s.result? with
    | some v =>
      rw [runFor_of_result hResult] at h ⊢
      exact h
    | none =>
      rw [Nat.add_right_comm, runFor_succ hResult]
      rw [runFor_succ hResult] at h
      rcases hStep : m.step s with ⟨_ | next, m₁⟩ <;> rw [hStep] at h
      · exact h
      · exact ih h

/-- **A run has one end.** -/
theorem Yields.unique {m : Machine} {s : State} {r r' : Except Fault Value} (h : m.Yields s r)
    (h' : m.Yields s r') : r = r' := by
  obtain ⟨budget, hOutcome⟩ := h
  obtain ⟨budget', hOutcome'⟩ := h'
  have hLong := outcome_runFor_add hOutcome budget'
  have hLong' := outcome_runFor_add hOutcome' budget
  rw [Nat.add_comm, hLong'] at hLong
  exact (ending_injective hLong).symm

theorem Yields.not_diverges {m : Machine} {s : State} {r : Except Fault Value}
    (h : m.Yields s r) : ¬m.Diverges s := by
  intro hForever
  obtain ⟨budget, hOutcome⟩ := h
  obtain ⟨s', hSuspended⟩ := hForever budget
  rw [hOutcome] at hSuspended
  cases r <;> cases hSuspended

theorem yields_or_diverges (m : Machine) (s : State) : (∃ r, m.Yields s r) ∨ m.Diverges s := by
  by_cases hForever : m.Diverges s
  · exact .inr hForever
  · left
    obtain ⟨budget, hStops⟩ := Classical.not_forall.mp hForever
    cases hOutcome : (m.runFor budget s).outcome with
    | finished v => exact ⟨.ok v, budget, hOutcome⟩
    | failed f => exact ⟨.error f, budget, hOutcome⟩
    | suspended s' => exact absurd ⟨s', hOutcome⟩ hStops

/-- A run that ends within a budget takes no transition beyond it. -/
theorem steps_le_of_outcome {m m' : Machine} {s s' : State} {r : Except Fault Value}
    {budget : Nat} (h : (m.runFor budget s).outcome = ending r) (hReach : m.Reaches s m' s') :
    m'.steps ≤ m.steps + budget := by
  induction budget generalizing m s with
  | zero =>
    rcases hReach.eq_or_head with ⟨rfl, rfl⟩ | ⟨m₁, s₁, hStep, hRest⟩
    · exact Nat.le_refl _
    · rw [runFor_zero (result?_of_step hStep)] at h
      cases r <;> cases h
  | succ budget ih =>
    rcases hReach.eq_or_head with ⟨rfl, rfl⟩ | ⟨m₁, s₁, hStep, hRest⟩
    · exact Nat.le_add_right _ _
    · rw [runFor_succ (result?_of_step hStep), hStep] at h
      have hCount := (step_eq_ok_iff.mp hStep).2
      have := ih h hRest
      omega

/-- **A run that gets arbitrarily far never ends.** -/
theorem diverges_of_reaches {m : Machine} {s : State}
    (h : ∀ n, ∃ m' s', m.Reaches s m' s' ∧ m.steps + n ≤ m'.steps) : m.Diverges s := by
  rcases yields_or_diverges m s with ⟨r, budget, hOutcome⟩ | hForever
  · obtain ⟨m', s', hReach, hFar⟩ := h (budget + 1)
    have := steps_le_of_outcome hOutcome hReach
    omega
  · exact hForever

/-! ### Ends from a later state -/

section

variable {m m' : Machine} {s s' : State}

theorem yields_iff_of_reaches (h : m.Reaches s m' s') {r : Except Fault Value} :
    m.Yields s r ↔ m'.Yields s' r := by
  constructor
  · rintro ⟨budget, hOutcome⟩
    refine ⟨budget, ?_⟩
    rw [← runFor_of_reaches h, Nat.add_comm]
    exact outcome_runFor_add hOutcome _
  · exact Yields.of_reaches h

theorem diverges_iff : m.Diverges s ↔ ∀ r, ¬m.Yields s r := by
  constructor
  · exact fun hForever r hYields => hYields.not_diverges hForever
  · intro hNever
    rcases yields_or_diverges m s with ⟨r, hYields⟩ | hForever
    · exact absurd hYields (hNever r)
    · exact hForever

theorem diverges_iff_of_reaches (h : m.Reaches s m' s') : m.Diverges s ↔ m'.Diverges s' := by
  rw [diverges_iff, diverges_iff]
  exact forall_congr' fun r => not_congr (yields_iff_of_reaches h)

/-! ### Runs without a bound -/

/-- A run has the answer of the run from any state that it gets to. -/
theorem run_of_reaches (h : m.Reaches s m' s') : m.run s = m'.run s' := by
  induction h with
  | refl => rfl
  | @tail m₁ _ s₁ _ _ hLast ih => rw [ih, run.eq_1 m₁ s₁, result?_of_step hLast, hLast]

/-- What a run answers is the end of finitely many transitions. -/
theorem yields_of_run {r : Except Fault Value} (h : m.run s = some (r, m')) : m.Yields s r := by
  refine run.partial_correctness (fun m s answer => m.Yields s answer.1) ?_ m s (r, m') h
  intro run hRun m s answer hAnswer
  cases hResult : s.result? with
  | some v =>
    rw [hResult] at hAnswer
    obtain rfl := Option.some.inj hAnswer
    exact ⟨0, by rw [runFor_of_result hResult]; rfl⟩
  | none =>
    rw [hResult] at hAnswer
    rcases hStep : m.step s with ⟨f | next, m₁⟩ <;> rw [hStep] at hAnswer
    · obtain rfl := Option.some.inj hAnswer
      exact ⟨1, by rw [runFor_succ hResult, hStep]; rfl⟩
    · exact (hRun m₁ next answer hAnswer).of_reaches (.head hStep .refl)

theorem run_of_yields {r : Except Fault Value} (h : m.Yields s r) :
    ∃ m', m.run s = some (r, m') := by
  cases r with
  | ok v =>
    obtain ⟨m₁, hReach⟩ := yields_ok_iff.mp h
    exact ⟨m₁, by rw [run_of_reaches hReach, run.eq_1]; rfl⟩
  | error f =>
    obtain ⟨m₁, s₁, hReach, hNone, hFault⟩ := yields_error_iff.mp h
    refine ⟨{ m₁ with steps := m₁.steps + 1 }, ?_⟩
    rw [run_of_reaches hReach, run.eq_1, hNone, step_eq_error_iff.mpr ⟨hFault, rfl⟩]

/-- **The answer of a run is its end.** -/
theorem yields_iff_run {r : Except Fault Value} :
    m.Yields s r ↔ ∃ m', m.run s = some (r, m') :=
  ⟨run_of_yields, fun ⟨_, h⟩ => yields_of_run h⟩

/-- **A run without an answer never ends.** -/
theorem diverges_iff_run : m.Diverges s ↔ m.run s = none := by
  rw [diverges_iff, Option.eq_none_iff_forall_ne_some]
  constructor
  · exact fun hNever answer hRun => hNever answer.1 (yields_of_run hRun)
  · intro hNever r hYields
    obtain ⟨m', hRun⟩ := run_of_yields hYields
    exact hNever (r, m') hRun

end

end StagedLambda.Machine
