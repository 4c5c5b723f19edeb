import StagedLambda.Proofs.Alpha.Lockstep

/-!
# Hygiene

The names of binders decide nothing.  Alpha-equivalent programs have runs that cannot be told
apart by anything but names: they take the same number of transitions and issue the same tags,
and at each of them the states are in the same phase, at the same level and depth
(`Machine.hygiene`).

* `Aligned`: on fresh machines, colors that correspond carry the same tag.
* `Outcome.Mirrors.outlook_eq`: what is left of an outcome without names is the same on both sides.
-/

namespace StagedLambda

/-! ### What can be seen without names -/

/-- What a state holds: a term that waits, a value or a fragment on its way. -/
inductive Phase
  | term
  | value
  | fragment
deriving DecidableEq

def State.phase : State → Phase
  | .eval _ _ _ | .build _ _ _ _ => .term
  | .deliver _ _ => .value
  | .emit _ _ _ => .fragment

/-- A color without its name. -/
def Ident.nameless : Ident → Ident
  | .colored _ tag => .colored "" tag
  | id => id

inductive Outlook
  | int (n : Int64)
  | bool (b : Bool)
  | function
  | code (fragment : Term)
  | suspended (phase : Phase) (level : UInt64) (depth : Nat)
  | failed (fault : Fault)

/-- Of a function nothing can be seen; code keeps its shape and its tags. -/
def Value.outlook : Value → Outlook
  | .int n => .int n
  | .bool b => .bool b
  | .closure _ _ => .function
  | .code c => .code (c.recolor Ident.nameless)

def Outcome.outlook : Outcome → Outlook
  | .finished v => v.outlook
  | .suspended s => .suspended s.phase s.level s.depth
  | .failed f => .failed f.anonymous

section

variable {R R' : Ident → Ident → Prop} {p q p' q' : Palette}

theorem State.Mirrors.phase_eq {s t : State} (h : s.Mirrors R t) : s.phase = t.phase := by
  cases h <;> rfl

theorem State.Mirrors.level_eq {s t : State} (h : s.Mirrors R t) : s.level = t.level := by
  cases h <;> rfl

theorem State.Mirrors.depth_eq {s t : State} (h : s.Mirrors R t) : s.depth = t.depth := by
  cases h with
  | eval _ hStack | deliver _ hStack => exact EvalStack.Mirrors.depth_eq hStack
  | build _ hStack | emit _ hStack => exact BuildStack.Mirrors.depth_eq hStack

/-! ### The same tags -/

/-- Both palettes have issued the same tags, and colors that correspond differ in the name only. -/
structure Aligned (p q : Palette) (R : Ident → Ident → Prop) : Prop where
  palette : p = q
  nameless : ∀ a b, R a b → a.nameless = b.nameless

theorem Aligned.grow (h : Aligned p q R) (hGrows : Grows p q R p' q' R') : Aligned p' q' R' := by
  induction hGrows with
  | same => exact h
  | color _ x y ih =>
    obtain ⟨rfl, hNameless⟩ := ih
    refine ⟨rfl, ?_⟩
    rintro a b (⟨rfl, rfl⟩ | hab)
    · rfl
    · exact hNameless a b hab

theorem Outcome.Mirrors.outlook_eq {o o' : Outcome}
    (hNameless : ∀ a b, R a b → a.nameless = b.nameless) (h : o.Mirrors R o') :
    o.outlook = o'.outlook := by
  cases h with
  | suspended h =>
    rw [Outcome.outlook, Outcome.outlook, h.phase_eq, h.level_eq, h.depth_eq]
  | failed h => rw [Outcome.outlook, Outcome.outlook, h]
  | finished h =>
    cases h with
    | int | bool | closure | captured => rfl
    | code h =>
      rw [Outcome.outlook, Outcome.outlook, Value.outlook, Value.outlook, h.recolor_eq hNameless]

end

/-! ### Programs -/

/-- The transitions taken are the budget used up. -/
theorem Machine.steps_runFor (budget : Nat) (m : Machine) (s : State) :
    (m.runFor budget s).machine.steps + (m.runFor budget s).left = m.steps + budget := by
  induction budget generalizing m s with
  | zero =>
    cases hResult : s.result? with
    | some v => rw [runFor_of_result hResult]
    | none => rw [runFor_zero hResult]
  | succ budget ih =>
    cases hResult : s.result? with
    | some v => rw [runFor_of_result hResult]
    | none =>
      rw [runFor_succ hResult]
      rcases hStep : m.step s with ⟨f | s', m'⟩
      · obtain ⟨-, rfl⟩ := step_eq_error_iff.mp hStep
        show m.steps + 1 + budget = m.steps + (budget + 1)
        omega
      · have hCount := (step_eq_ok_iff.mp hStep).2
        have := ih m' s'
        show (m'.runFor budget s').machine.steps + (m'.runFor budget s').left = _
        omega

theorem Machine.eq_of_parts {m n : Machine} (hPalette : m.palette = n.palette)
    (hSteps : m.steps = n.steps) : m = n := by
  cases m
  cases n
  cases hPalette
  cases hSteps
  rfl

/-- The names that alpha-equivalent programs leave free are the same, and no binder renames them. -/
theorem Term.AlphaEq.initial_mirrors {e₁ e₂ : Term} (h : e₁.AlphaEq e₂) (h₁ : e₁.Written)
    (h₂ : e₂.Written) (R : Ident → Ident → Prop) :
    (State.initial e₁).Mirrors R (.initial e₂) := by
  refine .eval (h.imp ?_) .halt
  rintro a b ha hb -
  have hRaw : a.isRaw = true := h₁.vars a (mem_vars_of_occursFree ha)
  have hRaw' : b.isRaw = true := h₂.vars b (mem_vars_of_occursFree hb)
  rw [Refer, Renaming.resolve, Renaming.resolve, Renaming.lookup_empty, Renaming.lookup_empty]
  simp only [hRaw, hRaw', if_true]
  exact .none

/-- **Hygiene.**  Runs of alpha-equivalent programs on fresh machines go in lockstep: after any
number of transitions the machines have counted and issued the same, and what can be seen of the
runs without names is the same. -/
theorem Machine.hygiene {e₁ e₂ : Term} (h₁ : e₁.Written) (h₂ : e₂.Written) (h : e₁.AlphaEq e₂)
    (budget : Nat) :
    let run₁ := ({} : Machine).runFor budget (.initial e₁)
    let run₂ := ({} : Machine).runFor budget (.initial e₂)
    run₁.machine = run₂.machine ∧ run₁.left = run₂.left ∧
      run₁.outcome.outlook = run₂.outcome.outlook := by
  intro run₁ run₂
  -- Before the first transition no color has been issued, so none correspond.
  have hSync : Synced ({} : Machine).palette ({} : Machine).palette fun _ _ => False :=
    ⟨⟨nofun, nofun⟩, nofun, nofun⟩
  obtain ⟨R, hGrows, hOutcome, hLeft⟩ :=
    runFor_mirrors budget hSync (h.initial_mirrors h₁ h₂ fun _ _ => False)
  have hAligned : Aligned run₁.machine.palette run₂.machine.palette R :=
    Aligned.grow ⟨rfl, nofun⟩ hGrows
  have hSteps : run₁.machine.steps = run₂.machine.steps := by
    have hCount₁ : run₁.machine.steps + run₁.left = 0 + budget := steps_runFor budget {} _
    have hCount₂ : run₂.machine.steps + run₂.left = 0 + budget := steps_runFor budget {} _
    have hSame : run₁.left = run₂.left := hLeft
    omega
  exact ⟨eq_of_parts hAligned.palette hSteps, hLeft, hOutcome.outlook_eq hAligned.nameless⟩

/-- A binder inside a splice takes the name of the binder around the quote, and the one inside the
quote shadows it; neither the run nor the code that it comes to shows it. -/
theorem Machine.hygiene_shadowed :
    let body (outer inner argument : String) : Term :=
      .quote (.lam (.raw outer) (.splice 1 (.app
        (.lam (.raw argument) (.quote (.lam (.raw inner) (.splice 1 (.var (.raw argument))))))
        (.quote (.var (.raw outer))))))
    (∀ budget, (({} : Machine).runFor budget (.initial (body "x" "x" "y"))).outcome.outlook =
      (({} : Machine).runFor budget (.initial (body "y" "z" "y"))).outcome.outlook) ∧
    (({} : Machine).runFor 40 (.initial (body "x" "x" "y"))).outcome.outlook =
      .code (.lam (.colored "" 0) (.lam (.colored "" 2) (.var (.colored "" 0)))) := by
  intro body
  have hAlpha : (body "x" "x" "y").AlphaEq (body "y" "z" "y") :=
    .quote (.lam (.splice (.app
      (.lam (.quote (.lam (.splice (.var (.inr ⟨by decide, by decide, .inl ⟨rfl, rfl⟩⟩))))))
      (.quote (.var (.inl ⟨rfl, rfl⟩))))))
  exact ⟨fun budget => (Machine.hygiene (by decide) (by decide) hAlpha budget).2.2, rfl⟩

end StagedLambda
