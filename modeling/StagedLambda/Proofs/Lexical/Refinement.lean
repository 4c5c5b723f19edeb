import StagedLambda.Proofs.Lexical.Simulation

/-!
# Lexical scope

The machine looks variables up on the stack and lets functions pick up bindings on their way out.
For closed unstaged terms this comes to lexical scope: the run ends as the evaluator answers, and
a run without an end is an evaluation for which no fuel suffices.

* `Machine.refines_lexical_scope`: the same numbers, truth values, functions and faults.
-/

namespace StagedLambda

open Lexical

namespace Machine

variable {e : Term}

theorem realizes_initial (hClosed : e.Closed) (hUnstaged : e.isStaged = false) (m : Machine)
    (fuel : Nat) :
    m.Realizes (.initial e) fuel (Delivers (fun _ => none) .halt) (Lexical.eval fuel [] e) := by
  refine realizes_eval fuel ⟨hUnstaged, ?_, trivial, nofun⟩
  intro x hx
  rw [hClosed x] at hx
  cases hx

theorem yields_of_done (hClosed : e.Closed) (hUnstaged : e.isStaged = false) (m : Machine)
    {fuel : Nat} {r : Result} (h : Lexical.eval fuel [] e = .done r) :
    ∃ v, m.Yields (.initial e) (.ok v) ∧ r.Shows v := by
  have hRun := m.realizes_initial hClosed hUnstaged fuel
  rw [h] at hRun
  obtain ⟨m', s', hReach, v, ρ, rfl, -, -, hValue⟩ := hRun
  exact ⟨v, yields_ok_iff.mpr ⟨m', hReach⟩, hValue.shows⟩

theorem yields_of_failed (hClosed : e.Closed) (hUnstaged : e.isStaged = false) (m : Machine)
    {fuel : Nat} {f : Fault} (h : Lexical.eval fuel [] e = .failed f) :
    m.Yields (.initial e) (.error f) := by
  have hRun := m.realizes_initial hClosed hUnstaged fuel
  rw [h] at hRun
  exact hRun

theorem diverges_of_unfinished (hClosed : e.Closed) (hUnstaged : e.isStaged = false) (m : Machine)
    (h : ∀ fuel, Lexical.eval fuel [] e = .unfinished) : m.Diverges (.initial e) := by
  refine diverges_of_reaches fun fuel => ?_
  have hRun := m.realizes_initial hClosed hUnstaged fuel
  rw [h fuel] at hRun
  exact hRun

/-- A run that ends has an answer. -/
theorem Yields.exists_answer (hClosed : e.Closed) (hUnstaged : e.isStaged = false) {m : Machine}
    {outcome : Except Fault Value} (h : m.Yields (.initial e) outcome) :
    (∃ fuel r v, Lexical.eval fuel [] e = .done r ∧ outcome = .ok v ∧ r.Shows v) ∨
      ∃ fuel f, Lexical.eval fuel [] e = .failed f ∧ outcome = .error f := by
  by_cases hNever : ∀ fuel, Lexical.eval fuel [] e = .unfinished
  · exact absurd (m.diverges_of_unfinished hClosed hUnstaged hNever) h.not_diverges
  · obtain ⟨fuel, hFuel⟩ := Classical.not_forall.mp hNever
    cases hEval : Lexical.eval fuel [] e with
    | done r =>
      obtain ⟨v, hYields, hShows⟩ := m.yields_of_done hClosed hUnstaged hEval
      exact .inl ⟨fuel, r, v, hEval, h.unique hYields, hShows⟩
    | failed f =>
      exact .inr ⟨fuel, f, hEval, h.unique (m.yields_of_failed hClosed hUnstaged hEval)⟩
    | unfinished => exact absurd hEval hFuel

/-- What the machine finishes with is an answer of the evaluator. -/
theorem Yields.exists_done (hClosed : e.Closed) (hUnstaged : e.isStaged = false) {m : Machine}
    {v : Value} (h : m.Yields (.initial e) (.ok v)) :
    ∃ fuel r, Lexical.eval fuel [] e = .done r ∧ r.Shows v := by
  rcases h.exists_answer hClosed hUnstaged with
    ⟨fuel, r, w, hEval, hSame, hShows⟩ | ⟨_, _, _, hSame⟩
  · obtain rfl := Except.ok.inj hSame
    exact ⟨fuel, r, hEval, hShows⟩
  · cases hSame

theorem Yields.exists_failed (hClosed : e.Closed) (hUnstaged : e.isStaged = false) {m : Machine}
    {f : Fault} (h : m.Yields (.initial e) (.error f)) :
    ∃ fuel, Lexical.eval fuel [] e = .failed f := by
  rcases h.exists_answer hClosed hUnstaged with ⟨_, _, _, _, hSame, _⟩ | ⟨fuel, g, hEval, hSame⟩
  · cases hSame
  · obtain rfl := Except.error.inj hSame
    exact ⟨fuel, hEval⟩

/-- **Stage 0 is lexically scoped call by value.**  A closed unstaged term has the same number,
the same truth value, or a function as its result, or the same fault, on the machine as under the
evaluator; and the machine runs forever exactly if evaluation has no end. -/
theorem refines_lexical_scope (hClosed : e.Closed) (hUnstaged : e.isStaged = false)
    (m : Machine) :
    (∀ n, m.Yields (.initial e) (.ok (.int n)) ↔
      ∃ fuel, Lexical.eval fuel [] e = .done (.int n)) ∧
    (∀ b, m.Yields (.initial e) (.ok (.bool b)) ↔
      ∃ fuel, Lexical.eval fuel [] e = .done (.bool b)) ∧
    ((∃ fn captured, m.Yields (.initial e) (.ok (.closure fn captured))) ↔
      ∃ fuel self? param body scope,
        Lexical.eval fuel [] e = .done (.function self? param body scope)) ∧
    (∀ c, ¬m.Yields (.initial e) (.ok (.code c))) ∧
    (∀ f, m.Yields (.initial e) (.error f) ↔ ∃ fuel, Lexical.eval fuel [] e = .failed f) ∧
    (m.Diverges (.initial e) ↔ ∀ fuel, Lexical.eval fuel [] e = .unfinished) := by
  refine ⟨?_, ?_, ?_, ?_, ?_, ?_⟩
  · intro n
    constructor
    · intro h
      obtain ⟨fuel, r, hEval, hShows⟩ := h.exists_done hClosed hUnstaged
      exact ⟨fuel, by rw [hEval, hShows.eq_int]⟩
    · rintro ⟨fuel, hEval⟩
      obtain ⟨v, hYields, rfl⟩ := m.yields_of_done hClosed hUnstaged hEval
      exact hYields
  · intro b
    constructor
    · intro h
      obtain ⟨fuel, r, hEval, hShows⟩ := h.exists_done hClosed hUnstaged
      exact ⟨fuel, by rw [hEval, hShows.eq_bool]⟩
    · rintro ⟨fuel, hEval⟩
      obtain ⟨v, hYields, rfl⟩ := m.yields_of_done hClosed hUnstaged hEval
      exact hYields
  · constructor
    · rintro ⟨fn, captured, h⟩
      obtain ⟨fuel, r, hEval, hShows⟩ := h.exists_done hClosed hUnstaged
      obtain ⟨self?, param, body, scope, rfl⟩ := hShows.eq_function
      exact ⟨fuel, self?, param, body, scope, hEval⟩
    · rintro ⟨fuel, self?, param, body, scope, hEval⟩
      obtain ⟨v, hYields, fn, captured, rfl⟩ := m.yields_of_done hClosed hUnstaged hEval
      exact ⟨fn, captured, hYields⟩
  · intro c h
    obtain ⟨fuel, r, -, hShows⟩ := h.exists_done hClosed hUnstaged
    exact hShows.not_code
  · intro f
    constructor
    · exact fun h => h.exists_failed hClosed hUnstaged
    · rintro ⟨fuel, hEval⟩
      exact m.yields_of_failed hClosed hUnstaged hEval
  · constructor
    · intro hForever fuel
      cases hEval : Lexical.eval fuel [] e with
      | done r =>
        obtain ⟨v, hYields, -⟩ := m.yields_of_done hClosed hUnstaged hEval
        exact absurd hForever hYields.not_diverges
      | failed f =>
        exact absurd hForever (m.yields_of_failed hClosed hUnstaged hEval).not_diverges
      | unfinished => rfl
    · exact m.diverges_of_unfinished hClosed hUnstaged

/-- A function sees the variables of its definition, not those of its call: in
`let x = 1 in let f = fn y -> x - y in let x = 10 in f x` the body of `f` takes ten from one. -/
theorem refines_lexical_scope_shadowed :
    ({} : Machine).Yields
      (.initial (.letIn (.raw "x") (.int 1)
        (.letIn (.raw "f") (.lam (.raw "y")
            (.prim (.arith .sub) [.var (.raw "x"), .var (.raw "y")]))
          (.letIn (.raw "x") (.int 10) (.app (.var (.raw "f")) (.var (.raw "x")))))))
      (.ok (.int (-9))) :=
  ((refines_lexical_scope (by decide) (by decide) {}).1 (-9)).mpr ⟨10, rfl⟩

end Machine

end StagedLambda
