import Mathlib
import StagedLambda.Proofs.Machine.Reach

/-!
# Fuel only slices a run

A run on fuel is the plain sequence of transitions, cut off where the fuel ends, so it is a run on a
budget of as many transitions (`Machine.runWithFuel_units`).  If the run comes to a result or a fault
by its `n`-th transition, this is what it comes to on any supply of `n` units or more, and the rest
of the supply is left; on less it is suspended in the state that plain stepping has got to
(`Machine.runFor_of_stops`, `Machine.runFor_of_open`).  So a run can be cut into slices at any
places, also where it ends just then, and comes to the same as in one go and as without a bound.

* `Machine.Stops`: the transition by which plain stepping first gets to a result or a fault.
* `Machine.fuel_slices`: what a supply of fuel gets to, and that slices add up.
-/

namespace StagedLambda

/-! ### Fuel -/

namespace Fuel

/-- A supply that has not been interrupted. -/
def units (n : UInt64) : Fuel := ⟨n, false⟩

theorem allows_units_zero : (units (.ofNat 0)).allows = false := rfl

/-- A supply of some units gives one of them. -/
theorem units_succ {n : Nat} (h : n + 1 < UInt64.size) :
    (units (.ofNat (n + 1))).allows = true ∧
      (units (.ofNat (n + 1))).consume 1 = units (.ofNat n) := by
  have hAll : (UInt64.ofNat (n + 1)).toNat = n + 1 := UInt64.toNat_ofNat_of_lt' h
  have hRest : (UInt64.ofNat n).toNat = n := UInt64.toNat_ofNat_of_lt' (Nat.lt_of_succ_lt h)
  constructor
  · refine Bool.and_eq_true_iff.mpr ⟨decide_eq_true (UInt64.lt_iff_toNat_lt.mpr ?_), rfl⟩
    show 0 < (UInt64.ofNat (n + 1)).toNat
    omega
  · have hOne : (1 : UInt64) ≤ .ofNat (n + 1) := by
      rw [UInt64.le_iff_toNat_le, hAll, UInt64.toNat_one]
      omega
    have hTaken : (UInt64.ofNat (n + 1) - 1).toNat = n := by
      rw [UInt64.toNat_sub_of_le _ _ hOne, hAll, UInt64.toNat_one, Nat.add_sub_cancel]
    show (⟨if UInt64.ofNat (n + 1) ≤ 1 then 0 else .ofNat (n + 1) - 1, false⟩ : Fuel) = ⟨_, false⟩
    congr 1
    apply UInt64.toNat_inj.mp
    rw [hRest]
    split
    next hLast =>
      rw [UInt64.le_iff_toNat_le, hAll, UInt64.toNat_one] at hLast
      show 0 = n
      omega
    next => exact hTaken

end Fuel

namespace Machine

variable {m m' : Machine} {s s' : State} {n budget : Nat} {r : Except Fault Value}

/-! ### Plain stepping -/

/-- After `n` transitions the run from `s` has come to neither a result nor a fault. -/
def Open (m : Machine) (s : State) (n : Nat) : Prop :=
  ∃ s' m', m.after s n = (.ok s', m') ∧ s'.result? = none

/-- By its `n`-th transition the run from `s` first comes to a result or a fault; `m'` is the
machine by then. -/
structure Stops (m : Machine) (s : State) (n : Nat) (r : Except Fault Value) (m' : Machine) :
    Prop where
  reached : m.after s n = (r.map (State.deliver · .halt), m')
  first : ∀ j < n, m.Open s j

theorem reaches_of_after (h : m.after s n = (.ok s', m')) :
    m.Reaches s m' s' ∧ m'.steps = m.steps + n := by
  induction n generalizing s' m' with
  | zero =>
    cases h
    exact ⟨.refl, rfl⟩
  | succ n ih =>
    obtain ⟨m₁, s₁, hPrior, hStep⟩ := after_succ_eq_ok h
    obtain ⟨hReach, hSteps⟩ := ih hPrior
    have hCount := (step_eq_ok_iff.mp hStep).2
    exact ⟨.tail hReach hStep, by omega⟩

/-- The transitions up to some state use up that much of a budget. -/
theorem runFor_of_after (h : m.after s n = (.ok s', m')) (budget : Nat) :
    m.runFor (n + budget) s = m'.runFor budget s' := by
  obtain ⟨hReach, hSteps⟩ := reaches_of_after h
  rw [← runFor_of_reaches hReach, hSteps, Nat.add_sub_cancel_left]

/-- A run that fails has an open state, from which the transition that fails starts. -/
theorem Stops.exists_last {f : Fault} (h : m.Stops s n (.error f) m') :
    ∃ k s₁ m₁, n = k + 1 ∧ m.after s k = (.ok s₁, m₁) ∧ s₁.result? = none ∧
      m₁.step s₁ = (.error f, m') := by
  obtain ⟨hReached, hFirst⟩ := h
  cases n with
  | zero => cases hReached
  | succ k =>
    obtain ⟨s₁, m₁, hPrior, hNone⟩ := hFirst k (Nat.lt_succ_self k)
    exact ⟨k, s₁, m₁, rfl, hPrior, hNone, (after_succ hPrior).symm.trans hReached⟩

/-- **A run that stops within the budget** comes to what plain stepping comes to. -/
theorem runFor_of_stops (h : m.Stops s n r m') (hBudget : n ≤ budget) :
    m.runFor budget s = ⟨m', ending r, budget - n⟩ := by
  cases r with
  | ok v =>
    rw [← Nat.add_sub_cancel' hBudget, runFor_of_after h.reached, runFor_of_result rfl,
      Nat.add_sub_cancel_left]
    rfl
  | error f =>
    obtain ⟨k, s₁, m₁, rfl, hPrior, hNone, hStep⟩ := h.exists_last
    rw [show budget = k + (budget - (k + 1) + 1) by omega, runFor_of_after hPrior,
      runFor_succ hNone, hStep]
    simp only [Run.mk.injEq, true_and]
    exact ⟨rfl, by omega⟩

/-- **A run that is still open at the end of the budget** is suspended there. -/
theorem runFor_of_open (h : m.Open s budget) :
    ∃ s' m', m.after s budget = (.ok s', m') ∧ m.runFor budget s = ⟨m', .suspended s', 0⟩ := by
  obtain ⟨s', m', hReached, hNone⟩ := h
  exact ⟨s', m', hReached, by rw [← runFor_zero hNone, ← runFor_of_after hReached, Nat.add_zero]⟩

/-- A run that has not stopped is open. -/
theorem stops_or_open (m : Machine) (s : State) (budget : Nat) :
    (∃ n ≤ budget, ∃ r m', m.Stops s n r m') ∨ ∀ j ≤ budget, m.Open s j := by
  have hNext : ∀ {j}, (∀ i < j, m.Open s i) → m.Open s j ∨ ∃ r m', m.Stops s j r m' := by
    intro j hFirst
    rcases hReached : m.after s j with ⟨f | s', m'⟩
    · exact .inr ⟨.error f, m', hReached, hFirst⟩
    · cases hResult : s'.result? with
      | none => exact .inl ⟨s', m', hReached, hResult⟩
      | some v =>
        rw [State.eq_deliver_of_result? hResult] at hReached
        exact .inr ⟨.ok v, m', hReached, hFirst⟩
  induction budget with
  | zero =>
    rcases hNext (j := 0) nofun with hOpen | hStops
    · exact .inr fun j hj => Nat.le_zero.mp hj ▸ hOpen
    · exact .inl ⟨0, Nat.le_refl 0, hStops⟩
  | succ budget ih =>
    rcases ih with ⟨n, hn, hStops⟩ | hSoFar
    · exact .inl ⟨n, Nat.le_succ_of_le hn, hStops⟩
    · rcases hNext fun i hi => hSoFar i (Nat.le_of_lt_succ hi) with hOpen | hStops
      · refine .inr fun j hj => ?_
        rcases Nat.le_succ_iff.mp hj with hLess | rfl
        · exact hSoFar j hLess
        · exact hOpen
      · exact .inl ⟨budget + 1, Nat.le_refl _, hStops⟩

/-- A run that stops has this as its answer. -/
theorem run_of_stops (h : m.Stops s n r m') : m.run s = some (r, m') := by
  cases r with
  | ok v =>
    rw [run_of_reaches (reaches_of_after h.reached).1, run.eq_1]
    rfl
  | error f =>
    obtain ⟨k, s₁, m₁, -, hPrior, hNone, hStep⟩ := h.exists_last
    rw [run_of_reaches (reaches_of_after hPrior).1, run.eq_1, hNone, hStep]

end Machine

/-! ### Runs on fuel -/

/-- A run on a budget, with what is left of it as fuel. -/
def Run.fueled (run : Run Nat) : Run Fuel :=
  ⟨run.machine, run.outcome, .units (.ofNat run.left)⟩

/-- Takes a suspended run up again on its machine, with one budget after the other. -/
def Run.resume (run : Run Fuel) : List UInt64 → Run Fuel
  | [] => run
  | n :: rest =>
    match run.outcome with
    | .suspended s => resume (run.machine.runWithFuel s (.units n)) rest
    | .finished _ | .failed _ => run

namespace Machine

variable {m m' : Machine} {s s' : State} {n budget : Nat} {r : Except Fault Value}

theorem runWithFuel_ofNat (m : Machine) (s : State) (h : n < UInt64.size) :
    m.runWithFuel s (.units (.ofNat n)) = (m.runFor n s).fueled := by
  induction n generalizing m s with
  | zero =>
    cases hResult : s.result? with
    | some v =>
      rw [runWithFuel, hResult, runFor_of_result hResult]
      rfl
    | none =>
      rw [runWithFuel, hResult, runFor_zero hResult, Fuel.allows_units_zero]
      rfl
  | succ n ih =>
    obtain ⟨hAllows, hRest⟩ := Fuel.units_succ h
    cases hResult : s.result? with
    | some v =>
      rw [runWithFuel, hResult, runFor_of_result hResult]
      rfl
    | none =>
      rw [runWithFuel, hResult, runFor_succ hResult, hAllows, hRest]
      rcases m.step s with ⟨f | next, m₁⟩
      · rfl
      · exact ih m₁ next (Nat.lt_of_succ_lt h)

/-- One unit is taken for each transition. -/
theorem runWithFuel_units (m : Machine) (s : State) (n : UInt64) :
    m.runWithFuel s (.units n) = (m.runFor n.toNat s).fueled := by
  rw [← runWithFuel_ofNat m s n.toNat_lt, UInt64.ofNat_toNat]

theorem resume_ending (m : Machine) (r : Except Fault Value) (left : Fuel)
    (budgets : List UInt64) : (Run.mk m (ending r) left).resume budgets = ⟨m, ending r, left⟩ := by
  cases budgets <;> cases r <;> rfl

theorem resume_suspended (m : Machine) (s : State) (left : Fuel) (n : UInt64)
    (rest : List UInt64) :
    (Run.mk m (.suspended s) left).resume (n :: rest) =
      (m.runFor n.toNat s).fueled.resume rest := by
  show (m.runWithFuel s (.units n)).resume rest = _
  rw [runWithFuel_units]

/-- **Slices add up**: resuming with the budgets of a list after a first one comes to the same as
a run with their sum. -/
theorem resume_runFor (budgets : List UInt64) (m : Machine) (s : State) (first : Nat) :
    let whole := m.runFor (first + (budgets.map UInt64.toNat).sum) s
    let sliced := (m.runFor first s).fueled.resume budgets
    sliced.outcome = whole.outcome ∧ sliced.machine = whole.machine := by
  induction budgets generalizing m s first with
  | nil => exact ⟨rfl, rfl⟩
  | cons n rest ih =>
    intro whole sliced
    rcases m.stops_or_open s first with ⟨k, hk, r, m', hStops⟩ | hOpen
    · have hWhole : whole = ⟨m', ending r, _⟩ := runFor_of_stops hStops (Nat.le_add_right_of_le hk)
      have hSliced : sliced = ⟨m', ending r, .units (.ofNat (first - k))⟩ := by
        rw [← resume_ending, ← Run.fueled.eq_1 ⟨m', ending r, first - k⟩,
          ← runFor_of_stops hStops hk]
      rw [hWhole, hSliced]
      exact ⟨rfl, rfl⟩
    · obtain ⟨s', m', hReached, hRun⟩ := runFor_of_open (hOpen _ (Nat.le_refl _))
      have hSliced : sliced = (m'.runFor n.toNat s').fueled.resume rest := by
        rw [← resume_suspended m' s' (.units (.ofNat 0)),
          ← Run.fueled.eq_1 ⟨m', .suspended s', 0⟩, ← hRun]
      have hWhole : whole = m'.runFor (n.toNat + (rest.map UInt64.toNat).sum) s' :=
        runFor_of_after hReached _
      rw [hSliced, hWhole]
      exact ih m' s' n.toNat

/-- **Fuel only slices a run.**  A supply of `n` units gets to the result or the fault at which
plain stepping stops, if this is by one of the first `n` transitions, on the same machine and with
the other units left, and so does a run without a bound; otherwise the run is suspended in the
state that `n` transitions lead to, with nothing left.  Resuming with any number of budgets comes to
the same as one run with their sum. -/
theorem fuel_slices (m : Machine) (s : State) :
    (∀ n : UInt64,
      (∀ k r m', m.Stops s k r m' → k ≤ n.toNat →
        m.runWithFuel s (.units n) = ⟨m', ending r, .units (.ofNat (n.toNat - k))⟩ ∧
        m.run s = some (r, m')) ∧
      ((∀ k r m', m.Stops s k r m' → n.toNat < k) →
        ∃ s' m', m.after s n.toNat = (.ok s', m') ∧
          m.runWithFuel s (.units n) = ⟨m', .suspended s', .units 0⟩)) ∧
    ∀ (first : UInt64) (rest : List UInt64),
      ((first :: rest).map UInt64.toNat).sum < 2 ^ 64 →
      let whole := m.runWithFuel s (.units (.ofNat ((first :: rest).map UInt64.toNat).sum))
      let sliced := (m.runWithFuel s (.units first)).resume rest
      sliced.outcome = whole.outcome ∧ sliced.machine = whole.machine ∧
        ∀ r, whole.outcome = ending r → m.run s = some (r, whole.machine) := by
  refine ⟨fun n => ⟨?_, ?_⟩, ?_⟩
  · intro k r m' hStops hk
    refine ⟨?_, run_of_stops hStops⟩
    rw [runWithFuel_units, runFor_of_stops hStops hk]
    rfl
  · intro hLate
    rcases m.stops_or_open s n.toNat with ⟨k, hk, r, m', hStops⟩ | hOpen
    · exact absurd (hLate k r m' hStops) (Nat.not_lt.mpr hk)
    · obtain ⟨s', m', hReached, hRun⟩ := runFor_of_open (hOpen _ (Nat.le_refl _))
      refine ⟨s', m', hReached, ?_⟩
      rw [runWithFuel_units, hRun]
      rfl
  · intro first rest hSum whole sliced
    have hWhole : whole = (m.runFor ((first :: rest).map UInt64.toNat).sum s).fueled :=
      runWithFuel_ofNat m s hSum
    have hSliced : sliced = (m.runFor first.toNat s).fueled.resume rest := by
      show (m.runWithFuel s (.units first)).resume rest = _
      rw [runWithFuel_units]
    obtain ⟨hOutcome, hMachine⟩ := resume_runFor rest m s first.toNat
    rw [hWhole, hSliced]
    refine ⟨hOutcome, hMachine, ?_⟩
    intro r hEnd
    rcases m.stops_or_open s ((first :: rest).map UInt64.toNat).sum with
      ⟨k, hk, r', m', hStops⟩ | hOpen
    · rw [runFor_of_stops hStops hk] at hEnd ⊢
      have hSame : r' = r := ending_injective hEnd
      exact hSame ▸ run_of_stops hStops
    · obtain ⟨s', m', -, hRun⟩ := runFor_of_open (hOpen _ (Nat.le_refl _))
      rw [hRun] at hEnd
      cases r <;> cases hEnd

/-- A call that takes seven transitions finishes on exactly the seventh unit, is suspended before
it on six, and comes to the same in three slices of which one is empty. -/
theorem fuel_slices_call :
    let s : State := .initial (.app (.lam (.raw "x") (.var (.raw "x"))) (.int 9))
    let after (steps : Nat) : Machine := ⟨⟨1⟩, steps⟩
    ({} : Machine).Stops s 7 (.ok (.int 9)) (after 7) ∧
    ({} : Machine).runWithFuel s (.units 7) = ⟨after 7, .finished (.int 9), .units 0⟩ ∧
    (∃ s', ({} : Machine).runWithFuel s (.units 6) = ⟨after 6, .suspended s', .units 0⟩) ∧
    ((({} : Machine).runWithFuel s (.units 3)).resume [0, 4]).outcome = .finished (.int 9) := by
  intro s after
  have hStops : ({} : Machine).Stops s 7 (.ok (.int 9)) (after 7) := by
    refine ⟨rfl, fun j hj => ?_⟩
    match j, hj with
    | 0, _ | 1, _ | 2, _ | 3, _ | 4, _ | 5, _ | 6, _ => exact ⟨_, _, rfl, rfl⟩
  obtain ⟨hSupply, hSlices⟩ := fuel_slices {} s
  have hFinished := ((hSupply 7).1 7 _ _ hStops (Nat.le_refl 7)).1
  refine ⟨hStops, hFinished, ?_, ?_⟩
  · have hLate : ∀ k r m', ({} : Machine).Stops s k r m' → 6 < k := by
      intro k r m' h
      by_contra hEarly
      -- One end is not before the other, and it takes seven transitions to the one above.
      have hRun := runFor_of_stops h (Nat.le_trans (Nat.not_lt.mp hEarly) (by decide : 6 ≤ 7))
      rw [runFor_of_stops hStops (Nat.le_refl 7)] at hRun
      have := congrArg Run.left hRun
      dsimp only at this
      omega
    obtain ⟨s', m', hReached, hRun⟩ := (hSupply 6).2 hLate
    cases hReached
    exact ⟨_, hRun⟩
  · rw [(hSlices 3 [0, 4] (by decide)).1]
    exact congrArg Run.outcome hFinished

end Machine

end StagedLambda
