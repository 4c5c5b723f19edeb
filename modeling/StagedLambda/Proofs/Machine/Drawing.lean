import StagedLambda.Proofs.Machine.Reach

/-!
# What a transition costs

A transition is counted, whatever becomes of it, and it draws a color exactly if it enters a
binder.  One that fails has drawn nothing: its checks come before its colors.

* `Machine.step_accounts`: what the machine has counted and issued after a transition, from any
  state at all.
* `Machine.Reaches.issued_le`: a run issues at most one color for each transition.
* `Machine.machine_runFor_of_failed`: a run that fails leaves the colors as they were in the state
  that failed, so a later run on the same machine gets the colors that it would have got there.
-/

namespace StagedLambda

/-- The states that go on inside a binder: at a fixpoint or a call at stage 0, at the body of a
local definition at any level, and at a function or a fixpoint in code. -/
def State.entersBinder : State → Bool
  | .eval _ (.fix _ _) _ => true
  | .build _ _ (.lam _ _) _ => true
  | .build _ _ (.fix _ _) _ => true
  | .deliver _ (.push (.applied _) _) => true
  | .deliver _ (.push (.letBody _ _ _) _) => true
  | .emit _ _ (.push (.letBound _ _ _) _) => true
  | _ => false

theorem State.Moves.issued_eq {p p' : Palette} {s s' : State} (h : s.Moves p s' p') :
    p'.issued = p.issued + if s.entersBinder then 1 else 0 := by
  cases h <;> rfl

namespace Machine

/-- **A failing transition changes nothing but the count of transitions**, and a successful one
issues one color if it enters a binder and none otherwise. -/
theorem step_accounts (m : Machine) (s : State) :
    match m.step s with
    | (.ok _, m') =>
      m'.steps = m.steps + 1 ∧
        m'.palette.issued = m.palette.issued + if s.entersBinder then 1 else 0
    | (.error _, m') => m' = { m with steps := m.steps + 1 } := by
  rcases hStep : m.step s with ⟨f | s', m'⟩
  · exact (step_eq_error_iff.mp hStep).2
  · have hRule := step_eq_ok_iff.mp hStep
    exact ⟨hRule.2, hRule.1.issued_eq⟩

-- A quotation that is closed at level 3 cannot come up in a run, and fails at no cost of colors.
example : (⟨⟨7⟩, 5⟩ : Machine).step (.emit 3 (.int 1) (.close .halt)) =
    (.error (.impossible .closedAboveOne), ⟨⟨7⟩, 6⟩) := rfl

/-! ### Runs -/

/-- A run issues at most one color for each transition. -/
theorem Reaches.issued_le {m m' : Machine} {s s' : State} (h : m.Reaches s m' s') :
    m'.palette.issued + m.steps ≤ m.palette.issued + m'.steps := by
  induction h with
  | refl => exact Nat.le_refl _
  | @tail m₁ m₂ s₁ s₂ _ hLast ih =>
    have hRule := step_eq_ok_iff.mp hLast
    have hIssued := hRule.1.issued_eq
    have hSteps := hRule.2
    split at hIssued <;> omega

/-- **A run that fails leaves the colors as they were in the state that failed.** -/
theorem machine_runFor_of_failed {m : Machine} {s : State} {budget : Nat} {f : Fault}
    (h : (m.runFor budget s).outcome = .failed f) :
    ∃ m' s', m.Reaches s m' s' ∧ s'.Faults f ∧
      (m.runFor budget s).machine = { m' with steps := m'.steps + 1 } := by
  induction budget generalizing m s with
  | zero =>
    cases hResult : s.result? with
    | some v =>
      rw [runFor_of_result hResult] at h
      cases h
    | none =>
      rw [runFor_zero hResult] at h
      cases h
  | succ budget ih =>
    cases hResult : s.result? with
    | some v =>
      rw [runFor_of_result hResult] at h
      cases h
    | none =>
      rw [runFor_succ hResult] at h ⊢
      rcases hStep : m.step s with ⟨f' | next, m₁⟩ <;> rw [hStep] at h
      · cases h
        obtain ⟨hFault, rfl⟩ := step_eq_error_iff.mp hStep
        exact ⟨m, s, .refl, hFault, rfl⟩
      · obtain ⟨m', s', hReach, hFault, hMachine⟩ := ih h
        exact ⟨m', s', .head hStep hReach, hFault, hMachine⟩

end Machine

end StagedLambda
