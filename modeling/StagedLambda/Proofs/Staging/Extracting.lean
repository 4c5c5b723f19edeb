import StagedLambda.Proofs.Alpha.Lockstep
import StagedLambda.Proofs.Machine.Rebasing
import StagedLambda.Proofs.Scope.Safety

/-!
# Running code in place and on its own

A splice at stage 0 evaluates its body to code and runs this code right there, on the machine that
has built it.  The code could as well be taken out and run from scratch: it is closed, so that
nothing in it refers to a color of the machine that it leaves, and its own colors are names like any
other to the machine that it comes to, which may issue the very same ones again.

* `Machine.Yields.splice_reaches`: a splice starts the code from scratch in its place.
* `Machine.Yields.exists_mirrored`, `Machine.Yields.exists_mirror`: mirroring states end alike.
* `Machine.run_extracted`: the two runs come to the same.
-/

namespace StagedLambda.Machine

/-! ### Code in the place of its splice -/

/-- Code that a written program comes to is closed. -/
theorem Yields.closed_code {e c : Term} {m : Machine} (hWritten : e.Written)
    (h : m.Yields (.initial e) (.ok (.code c))) : c.Closed := by
  obtain ⟨m', hReach⟩ := yields_ok_iff.mp h
  have hFragment := (hReach.scoped hWritten).1.fragment
  rw [EvalStack.scope_halt] at hFragment
  exact fun id => Bool.eq_false_iff.mpr fun hFree => hFragment.free id hFree

/-- **A splice starts the code that its body comes to from scratch**, when the body has been
evaluated above it in the same way as on its own. -/
theorem Yields.splice_reaches {e c : Term} {m : Machine}
    (h : m.Yields (.initial e) (.ok (.code c))) :
    ∃ m', m.Reaches (.initial (.splice 0 e)) m' (.initial c) := by
  obtain ⟨m', hReach⟩ := yields_ok_iff.mp h
  have hStages : Step.stages 0 0 = .ok 0 := rfl
  have hOpen : m.Reaches (.initial (.splice 0 e)) ⟨m.palette, m.steps + 1⟩
      (.eval .empty e (.push .run .halt)) := .of_moves (.evalSplice hStages)
  have hStart : (State.initial e).Rebased .halt (.push .run .halt)
      (.eval .empty e (.push .run .halt)) := .eval _ _ .base
  obtain ⟨n, u, hBody, -, hEnd⟩ :=
    hReach.rebase (m := m) (n := ⟨m.palette, m.steps + 1⟩) (fun _ => rfl) rfl hStart
  cases hEnd with
  | deliver _ hStack =>
    cases hStack with
    | base => exact ⟨_, hOpen.trans (hBody.trans (.of_moves (.deliverRun c .halt)))⟩

/-! ### Ends of mirroring runs -/

section

variable {R : Ident → Ident → Prop} {m n : Machine} {s t : State} {r : Except Fault Value}

theorem Yields.exists_mirrored (hSync : Synced m.palette n.palette R) (h : s.Mirrors R t)
    (hYields : m.Yields s r) :
    ∃ r' R', n.Yields t r' ∧ Relator.BiUnique R' ∧ (ending r).Mirrors R' (ending r') := by
  obtain ⟨budget, hOutcome⟩ := hYields
  obtain ⟨R', hGrows, hMirrors, -⟩ := runFor_mirrors budget hSync h
  rw [hOutcome] at hMirrors
  obtain ⟨r', hOutcome'⟩ := hMirrors.ending_right
  rw [hOutcome'] at hMirrors
  exact ⟨r', R', ⟨budget, hOutcome'⟩, (hSync.grow hGrows).biUnique, hMirrors⟩

theorem Yields.exists_mirror (hSync : Synced m.palette n.palette R) (h : s.Mirrors R t)
    (hYields : n.Yields t r) :
    ∃ r' R', m.Yields s r' ∧ Relator.BiUnique R' ∧ (ending r').Mirrors R' (ending r) := by
  obtain ⟨budget, hOutcome⟩ := hYields
  obtain ⟨R', hGrows, hMirrors, -⟩ := runFor_mirrors budget hSync h
  rw [hOutcome] at hMirrors
  obtain ⟨r', hOutcome'⟩ := hMirrors.ending_left
  rw [hOutcome'] at hMirrors
  exact ⟨r', R', ⟨budget, hOutcome'⟩, (hSync.grow hGrows).biUnique, hMirrors⟩

theorem diverges_iff_of_mirrors (hSync : Synced m.palette n.palette R) (h : s.Mirrors R t) :
    m.Diverges s ↔ n.Diverges t := by
  refine forall_congr' fun budget => ?_
  obtain ⟨R', -, hMirrors, -⟩ := runFor_mirrors budget hSync h
  exact hMirrors.suspended_iff

end

/-- A closed term mirrors itself, whatever colors it contains. -/
theorem initial_mirrors_self {c : Term} (hClosed : c.Closed) (R : Ident → Ident → Prop) :
    (State.initial c).Mirrors R (.initial c) :=
  .eval ((Term.Alpha.refl (fun _ => rfl) c : c.AlphaEq c).of_closed hClosed) .halt

/-! ### The two runs -/

/-- The ends of two runs that differ in names only: the same number, the same truth value, some
function on both sides, the same code but for its binders, or the same fault but for an
identifier that it names. -/
inductive Matches : Except Fault Value → Except Fault Value → Prop
  | int (i : Int64) : Matches (.ok (.int i)) (.ok (.int i))
  | bool (b : Bool) : Matches (.ok (.bool b)) (.ok (.bool b))
  | function (fn gn : Abstraction) (captured captured' : List (Ident × Value)) :
      Matches (.ok (.closure fn captured)) (.ok (.closure gn captured'))
  | code {c d : Term} (h : c.AlphaEq d) : Matches (.ok (.code c)) (.ok (.code d))
  | fault {f g : Fault} (h : f.anonymous = g.anonymous) : Matches (.error f) (.error g)

/-- Mirroring ends match if the code that they may be is closed. -/
theorem Matches.of_mirrors {R : Ident → Ident → Prop} {r r' : Except Fault Value}
    (hR : Relator.BiUnique R) (hClosed : ∀ c, r = .ok (.code c) → c.Closed)
    (h : (ending r).Mirrors R (ending r')) : Matches r r' := by
  rcases r with f | v <;> rcases r' with g | w <;> cases h
  · rename_i hSame
    exact .fault hSame
  · rename_i hValue
    cases hValue with
    | int i => exact .int i
    | bool b => exact .bool b
    | closure | captured => exact .function _ _ _ _
    | @code c d hRecolors =>
      exact .code ((hRecolors.alpha hR).of_closed_left (hClosed c rfl))

/-- **Running code in place is evaluating the extracted code.**  If a written program comes to code,
then the program that runs it in place and the code by itself, on any machine, come to the same
number, the same truth value, a function, the same code but for the names of binders, fail for the
same reason, or both run forever. -/
theorem run_extracted {e c : Term} (hWritten : e.Written) {m : Machine}
    (hCode : m.Yields (.initial e) (.ok (.code c))) (n : Machine) :
    (∀ r, m.Yields (.initial (.splice 0 e)) r → ∃ r', n.Yields (.initial c) r' ∧ Matches r r') ∧
    (∀ r', n.Yields (.initial c) r' → ∃ r, m.Yields (.initial (.splice 0 e)) r ∧ Matches r r') ∧
    (m.Diverges (.initial (.splice 0 e)) ↔ n.Diverges (.initial c)) := by
  obtain ⟨m', hReach⟩ := hCode.splice_reaches
  -- At the start no colors correspond: the code is closed and its own colors are bound in it.
  have hSync : Synced m'.palette n.palette fun _ _ => False := ⟨⟨nofun, nofun⟩, nofun, nofun⟩
  have hStart := initial_mirrors_self (hCode.closed_code hWritten) fun _ _ => False
  have hMatches : ∀ {R r r'}, m.Yields (.initial (.splice 0 e)) r → Relator.BiUnique R →
      (ending r).Mirrors R (ending r') → Matches r r' := by
    intro R r r' hYields hR hMirrors
    refine .of_mirrors hR ?_ hMirrors
    rintro d rfl
    exact Yields.closed_code (e := .splice 0 e) ⟨hWritten.vars, hWritten.binders⟩ hYields
  refine ⟨?_, ?_, ?_⟩
  · intro r hYields
    obtain ⟨r', R, hYields', hR, hMirrors⟩ :=
      ((yields_iff_of_reaches hReach).mp hYields).exists_mirrored hSync hStart
    exact ⟨r', hYields', hMatches hYields hR hMirrors⟩
  · intro r' hYields'
    obtain ⟨r, R, hYields, hR, hMirrors⟩ := hYields'.exists_mirror hSync hStart
    have hRun := (yields_iff_of_reaches hReach).mpr hYields
    exact ⟨r, hRun, hMatches hRun hR hMirrors⟩
  · rw [diverges_iff_of_reaches hReach]
    exact diverges_iff_of_mirrors hSync hStart

/-- Code under two quotes: run in place its binder gets the next color, and run by itself the color
that it has already. -/
theorem run_extracted_quoted :
    let identity (tag : Nat) : Term := .lam (.colored "x" tag) (.var (.colored "x" tag))
    let e : Term := .quote (.quote (.lam (.raw "x") (.var (.raw "x"))))
    ({} : Machine).Yields (.initial e) (.ok (.code (.quote (identity 0)))) ∧
      ({} : Machine).Yields (.initial (.splice 0 e)) (.ok (.code (identity 1))) ∧
      ({} : Machine).Yields (.initial (.quote (identity 0))) (.ok (.code (identity 0))) ∧
      (identity 1).AlphaEq (identity 0) := by
  intro identity e
  have hCode : ({} : Machine).Yields (.initial e) (.ok (.code (.quote (identity 0)))) := ⟨40, rfl⟩
  have hAlone : ({} : Machine).Yields (.initial (.quote (identity 0)))
      (.ok (.code (identity 0))) := ⟨40, rfl⟩
  have hInPlace : ({} : Machine).Yields (.initial (.splice 0 e)) (.ok (.code (identity 1))) :=
    ⟨40, rfl⟩
  obtain ⟨r, hYields, hMatches⟩ := (run_extracted (by decide) hCode {}).1 _ hInPlace
  cases hYields.unique hAlone
  cases hMatches with
  | code hAlpha => exact ⟨hCode, hInPlace, hAlone, hAlpha⟩

end StagedLambda.Machine
