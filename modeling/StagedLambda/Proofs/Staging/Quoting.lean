import StagedLambda.Proofs.Alpha.Lockstep
import StagedLambda.Proofs.Lexical.Faults
import StagedLambda.Proofs.Lexical.Refinement
import StagedLambda.Proofs.Staging.Copying

/-!
# Quoting, then running

The code that a quote hands to a run is a copy of what was quoted (`Machine.Copyable`), and the
copy of a closed term is alpha-equivalent to it.  From there on the run of the copy mirrors the run
of the term.

* `Machine.run_quote`: `~0{ `{ e } }` comes to what `e` comes to.
-/

namespace StagedLambda

namespace Machine

/-! ### Running the copy -/

/-- The code that a closed plain term is built into is run in its place, from scratch. -/
theorem exists_copy_run {e : Term} (hClosed : e.Closed) (hPlain : e.Plain) (m : Machine) :
    ∃ m' c, m.Reaches (.initial (.splice 0 (.quote e))) m' (.initial c) ∧ c.AlphaEq e := by
  have hFree : e.EachFree (Renaming.empty.Known m.palette) := by
    intro x hx
    rw [hClosed x] at hx
    cases hx
  have hCopyable : Copyable 1 e := copyable_of_buildable (by decide) (hPlain.buildable 1)
  obtain ⟨m', c, hBuilds, hAlpha, -⟩ := hCopyable ⟨m.palette, m.steps + 1 + 1⟩ .empty
    (.close (.push .run .halt)) hFree
  have hStages : Step.stages 0 0 = .ok 0 := rfl
  have hOpen := (Reaches.of_moves (m := m) (.evalSplice 
    (k := .halt) hStages)).trans (.of_moves (.evalQuote .empty e (.push .run .halt)))
  have hClose := (Reaches.of_moves (m := m') (.emitClose c (.push .run .halt))).trans
    (.of_moves (.deliverRun c .halt))
  exact ⟨_, c, hOpen.trans (hBuilds.reaches.trans hClose), hAlpha.of_closed hClosed⟩

/-- The ends of two runs that cannot be told apart: the same number, the same truth value, some
function on both sides, or the same fault. -/
inductive Alike : Except Fault Value → Except Fault Value → Prop
  | int (i : Int64) : Alike (.ok (.int i)) (.ok (.int i))
  | bool (b : Bool) : Alike (.ok (.bool b)) (.ok (.bool b))
  | function (fn gn : Abstraction) (captured captured' : List (Ident × Value)) :
      Alike (.ok (.closure fn captured)) (.ok (.closure gn captured'))
  | fault (f : Fault) : Alike (.error f) (.error f)

/-- Faults that are the same but for an identifier are the same if there is none. -/
theorem eq_of_anonymous_eq {f g : Fault} (hSame : f.anonymous = g.anonymous) (hg : g.id? = none) :
    f = g := by
  have hAnonymous : g.anonymous = g := by
    cases g <;> first | rfl | cases hg
  rw [hAnonymous] at hSame
  cases f <;> first | exact hSame | (rw [← hSame] at hg; cases hg)

section

variable {e : Term} {n : Machine} {R : Ident → Ident → Prop} {r r' : Except Fault Value}

/-- A closed plain term has no code as its result and no fault about an identifier, so an end
that mirrors its own is alike. -/
theorem alike_of_mirrors (hClosed : e.Closed) (hPlain : e.Plain)
    (hYields : n.Yields (.initial e) r') (h : (ending r).Mirrors R (ending r')) : Alike r r' := by
  rcases r with f | v <;> rcases r' with g | w <;> cases h
  · rename_i hSame
    obtain ⟨fuel, hEval⟩ := hYields.exists_failed hClosed hPlain.unstaged
    have hFree : e.EachFree (Lexical.Env.Covers []) := by
      intro x hx
      rw [hClosed x] at hx
      cases hx
    have hUnnamed := Lexical.eval_unnamed fuel hPlain hFree nofun
    rw [hEval] at hUnnamed
    rw [eq_of_anonymous_eq hSame hUnnamed]
    exact .fault g
  · rename_i hValue
    cases hValue with
    | int i => exact .int i
    | bool b => exact .bool b
    | closure | captured => exact .function _ _ _ _
    | code =>
      obtain ⟨fuel, r, -, hShows⟩ := hYields.exists_done hClosed hPlain.unstaged
      exact absurd hShows.not_code id

end

/-- **Quoting, then running changes nothing.**  A closed unstaged term whose primitives have all
their operands and whose fixpoints are functions comes to the same number, the same truth value
or a function, fails with the same fault, or runs forever, whether it is quoted and then run or
evaluated as it stands. -/
theorem run_quote {e : Term} (hClosed : e.Closed) (hUnstaged : e.isStaged = false)
    (hSaturated : e.saturated = true) (hFixes : e.fixesFunctions = true) (m n : Machine) :
    (∀ r, m.Yields (.initial (.splice 0 (.quote e))) r →
      ∃ r', n.Yields (.initial e) r' ∧ Alike r r') ∧
    (∀ r', n.Yields (.initial e) r' →
      ∃ r, m.Yields (.initial (.splice 0 (.quote e))) r ∧ Alike r r') ∧
    (m.Diverges (.initial (.splice 0 (.quote e))) ↔ n.Diverges (.initial e)) := by
  have hPlain : e.Plain := ⟨hUnstaged, hSaturated, hFixes⟩
  obtain ⟨m', c, hReach, hAlpha⟩ := exists_copy_run hClosed hPlain m
  -- From the copy on, the two runs come to the same within the same budget.
  have hSync : Synced m'.palette n.palette fun _ _ => False := ⟨⟨nofun, nofun⟩, nofun, nofun⟩
  have hStart : (State.initial c).Mirrors (fun _ _ => False) (.initial e) :=
    .eval (hAlpha.of_closed hClosed) .halt
  have hRun := fun budget => runFor_mirrors budget hSync hStart
  refine ⟨?_, ?_, ?_⟩
  · intro r hYields
    obtain ⟨budget, hOutcome⟩ := (yields_iff_of_reaches hReach).mp hYields
    obtain ⟨R, -, hMirrors, -⟩ := hRun budget
    rw [hOutcome] at hMirrors
    obtain ⟨r', hOutcome'⟩ := hMirrors.ending_right
    rw [hOutcome'] at hMirrors
    have hYields' : n.Yields (.initial e) r' := ⟨budget, hOutcome'⟩
    exact ⟨r', hYields', alike_of_mirrors hClosed hPlain hYields' hMirrors⟩
  · intro r' hYields'
    obtain ⟨budget, hOutcome'⟩ := id hYields'
    obtain ⟨R, -, hMirrors, -⟩ := hRun budget
    rw [hOutcome'] at hMirrors
    obtain ⟨r, hOutcome⟩ := hMirrors.ending_left
    rw [hOutcome] at hMirrors
    exact ⟨r, (yields_iff_of_reaches hReach).mpr ⟨budget, hOutcome⟩,
      alike_of_mirrors hClosed hPlain hYields' hMirrors⟩
  · rw [diverges_iff_of_reaches hReach]
    refine forall_congr' fun budget => ?_
    obtain ⟨R, -, hMirrors, -⟩ := hRun budget
    exact hMirrors.suspended_iff

/-- A recursive function that is quoted and run counts down to its result, and one that gets to a
division by zero fails with it. -/
theorem run_quote_countdown :
    let count (last : Term) : Term := .app (.fix (.raw "f") (.lam (.raw "n")
      (.ite (.prim (.compare .eq) [.var (.raw "n"), .int 0]) last
        (.app (.var (.raw "f")) (.prim (.arith .sub) [.var (.raw "n"), .int 1]))))) (.int 2)
    ({} : Machine).Yields (.initial (.splice 0 (.quote (count (.int 7))))) (.ok (.int 7)) ∧
    ({} : Machine).Yields
      (.initial (.splice 0 (.quote (count (.prim (.arith .div) [.int 7, .var (.raw "n")])))))
      (.error (.divisionByZero .div)) := by
  intro count
  constructor
  · obtain ⟨r, hYields, hAlike⟩ := (run_quote (e := count (.int 7)) (by decide) (by decide)
      (by decide) (by decide) {} {}).2.1 (.ok (.int 7)) ⟨80, rfl⟩
    cases hAlike
    exact hYields
  · obtain ⟨r, hYields, hAlike⟩ :=
      (run_quote (e := count (.prim (.arith .div) [.int 7, .var (.raw "n")])) (by decide)
        (by decide) (by decide) (by decide) {} {}).2.1 (.error (.divisionByZero .div)) ⟨80, rfl⟩
    cases hAlike
    exact hYields

end Machine

end StagedLambda
