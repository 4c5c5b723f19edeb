import Mathlib
import StagedLambda.Typing.Infer

/-!
# Most general unifiers

Unification from an acyclic solution ends, succeeds exactly if some assignment that satisfies the
solution makes the two types equal, and then loses none of these assignments
(`Inference.unify_mostGeneral`).

Inference starts with no solved variables and hands the solution from one unification to the next.
`Solution.Passes` are the solutions that there are in the course of one unification, and
`Inference.Infer.Visits` the stages of a whole computation, whether it succeeds or not; the stage
that a successful one ends with is among them (`Inference.Infer.Visits.of_run`).  No solution of
theirs runs in a circle (`Inference.Infer.Visits.acyclic`), so no unification is ever asked for
where it would not end.
-/

namespace StagedLambda

namespace Solution

/-- `s.Passes expected found s'`: to make the two types equal, unification goes from `s` by way of
`s'`. -/
inductive Passes : Solution → Ty → Ty → Solution → Prop
  | start (s : Solution) (expected found : Ty) : Passes s expected found s
  | params {s s' : Solution} {expected found p r q t : Ty}
      (hExpected : s.resolve expected = some (.fn p r)) (hFound : s.resolve found = some (.fn q t))
      (h : Passes s p q s') : Passes s expected found s'
  | results {s s₁ s' : Solution} {expected found p r q t : Ty}
      (hExpected : s.resolve expected = some (.fn p r)) (hFound : s.resolve found = some (.fn q t))
      (hParams : s.unify p q = some (.ok s₁)) (h : Passes s₁ r t s') : Passes s expected found s'
  | finish {s s' : Solution} {expected found : Ty} (h : s.unify expected found = some (.ok s')) :
      Passes s expected found s'

theorem Acyclic.solves_of_unify {s s' : Solution} (hs : s.Acyclic) {expected found : Ty}
    (h : s.unify expected found = some (.ok s')) : s.Solves s' expected found := by
  obtain ⟨r, hUnify, hDecides⟩ := hs.unify expected found
  rw [h] at hUnify
  obtain rfl := Option.some.inj hUnify
  cases hDecides with
  | ok hSolves => exact hSolves

theorem Passes.acyclic {s s' : Solution} {expected found : Ty} (h : s.Passes expected found s')
    (hs : s.Acyclic) : s'.Acyclic := by
  induction h with
  | start => exact hs
  | params _ _ _ ih => exact ih hs
  | results _ _ hParams _ ih => exact ih (hs.solves_of_unify hParams).acyclic
  | finish h => exact (hs.solves_of_unify h).acyclic

/-- Unification succeeds exactly where it has something to find. -/
theorem Decides.isOk_iff {s : Solution} {expected found : Ty} {r : Except TypeError Solution}
    (h : s.Decides expected found r) :
    (∃ s', r = .ok s') ↔ ∃ σ, s.Satisfied σ ∧ expected.subst σ = found.subst σ := by
  cases h with
  | @ok s' hSolves =>
    have hImage := hSolves.acyclic.satisfied_image
    exact ⟨fun _ => ⟨s'.image, hImage.of_grows hSolves.grows, hSolves.equal _ hImage⟩,
      fun _ => ⟨s', rfl⟩⟩
  | error hNone =>
    constructor
    · rintro ⟨_, h⟩
      cases h
    · rintro ⟨σ, hσ, hEqual⟩
      exact absurd hEqual (hNone σ hσ)

theorem Solves.zonk_eq {s s' : Solution} {expected found : Ty} (h : s.Solves s' expected found) :
    ∃ t, s'.zonk expected = some t ∧ s'.zonk found = some t := by
  refine ⟨expected.subst s'.image, h.acyclic.zonk_eq expected, ?_⟩
  rw [h.acyclic.zonk_eq found, h.equal _ h.acyclic.satisfied_image]

end Solution

namespace Inference

/-! ### The stages of a computation -/

/-- `x.Visits s s'`: carried out from the stage `s`, the computation `x` comes by the stage `s'`. -/
inductive Infer.Visits {α : Type} : Infer α → Inference → Inference → Prop
  | here (x : Infer α) (s : Inference) : Visits x s s
  | newVar {rest : Ty → Infer α} {s s' : Inference}
      (h : Visits (rest (.var s.fresh)) { s with fresh := s.fresh + 1 } s') :
      Visits (.newVar rest) s s'
  | unifying {expected found : Ty} {rest : Infer α} {s : Inference} {solution : Solution}
      (h : s.solution.Passes expected found solution) :
      Visits (.unify expected found rest) s { s with solution }
  | unify {expected found : Ty} {rest : Infer α} {s s' : Inference} {solution : Solution}
      (hUnify : s.solution.unify expected found = some (.ok solution))
      (h : Visits rest { s with solution } s') : Visits (.unify expected found rest) s s'

theorem Infer.Visits.acyclic {α : Type} {x : Infer α} {s s' : Inference} (h : x.Visits s s')
    (hs : s.solution.Acyclic) : s'.solution.Acyclic := by
  induction h with
  | here => exact hs
  | newVar _ ih => exact ih hs
  | unifying h => exact h.acyclic hs
  | unify hUnify _ ih => exact ih (hs.solves_of_unify hUnify).acyclic

/-- A computation that succeeds comes by the stage that it ends with. -/
theorem Infer.Visits.of_run {α : Type} {x : Infer α} {s s' : Inference} {a : α}
    (h : x.run s = some (.ok (a, s'))) : x.Visits s s' := by
  induction x generalizing s with
  | done =>
    cases h
    exact .here _ _
  | fail => cases h
  | newVar rest ih => exact .newVar (ih _ h)
  | unify expected found rest ih =>
    obtain ⟨r, hUnify, hRest⟩ := Option.bind_eq_some_iff.mp h
    cases r with
    | error => cases hRest
    | ok solution => exact .unify hUnify (ih hRest)

/-! ### Unification -/

/-- **Unification terminates and computes most general unifiers**, and inference never comes by a
solution that runs in a circle. -/
theorem unify_mostGeneral :
    (∀ s : Solution, s.Acyclic →
      (∀ t, (∃ t', s.resolve t = some t') ∧ (∃ t', s.zonk t = some t') ∧
        ∀ id, ∃ b, s.occurs id t = some b) ∧
      ∀ expected found, ∃ r, s.unify expected found = some r ∧
        ((∃ s', r = .ok s') ↔ ∃ σ, s.Satisfied σ ∧ expected.subst σ = found.subst σ) ∧
        ∀ s', r = .ok s' →
          s'.Acyclic ∧ s.Grows s' ∧
            (∃ t, s'.zonk expected = some t ∧ s'.zonk found = some t) ∧
            ∀ σ, s.Satisfied σ → expected.subst σ = found.subst σ → s'.Satisfied σ) ∧
    ∀ (e : Term) (s : Inference), (infer [] e).Visits {} s → s.solution.Acyclic := by
  refine ⟨fun s hs => ⟨fun t => ⟨?_, ?_, fun id => ?_⟩, fun expected found => ?_⟩, fun e s h => ?_⟩
  · obtain ⟨t', hResolved⟩ := hs.resolve t
    exact ⟨t', hResolved.eq⟩
  · exact ⟨_, hs.zonk_eq t⟩
  · exact ⟨_, hs.occurs_eq id t⟩
  · obtain ⟨r, hUnify, hDecides⟩ := hs.unify expected found
    refine ⟨r, hUnify, hDecides.isOk_iff, fun s' hOk => ?_⟩
    have hSolves := hs.solves_of_unify (hUnify.trans (congrArg some hOk))
    exact ⟨hSolves.acyclic, hSolves.grows, hSolves.zonk_eq, hSolves.complete⟩
  · exact h.acyclic Solution.acyclic_empty

/-- Where the variable 0 stands for `'t1 -> int`, it can be made equal to `bool -> 't2`, but not to
the variable 1. -/
theorem unify_mostGeneral_arrow :
    let s : Solution := ⟨[(0, .fn (.var 1) .int)]⟩
    s.Acyclic ∧
      (∃ s', s.unify (.var 0) (.fn .bool (.var 2)) = some (.ok s') ∧ s'.Acyclic ∧
        s'.zonk (.var 0) = some (.fn .bool .int)) ∧
      ¬∃ σ, s.Satisfied σ ∧ (Ty.var 1).subst σ = (Ty.var 0).subst σ := by
  intro s
  have hVars : ((Ty.fn (.var 1) .int).subst ({} : Solution).image).vars = [1] := by cbv
  have hAcyclic : s.Acyclic := Solution.acyclic_empty.insert rfl (by rw [hVars]; decide)
  have hUnify : s.unify (.var 0) (.fn .bool (.var 2)) =
      some (.ok ⟨[(2, .int), (1, .bool), (0, .fn (.var 1) .int)]⟩) := by cbv
  have hInfinite : s.unify (.var 1) (.var 0) =
      some (.error (.infinite 1 (.fn (.var 1) .int))) := by cbv
  refine ⟨hAcyclic, ⟨_, hUnify, ?_, by cbv⟩, fun hσ => ?_⟩
  · obtain ⟨r, hr, -, hOk⟩ := (unify_mostGeneral.1 s hAcyclic).2 (.var 0) (.fn .bool (.var 2))
    exact (hOk _ (Option.some.inj (hr.symm.trans hUnify))).1
  · obtain ⟨r, hr, hIff, -⟩ := (unify_mostGeneral.1 s hAcyclic).2 (.var 1) (.var 0)
    obtain ⟨s', hs'⟩ := hIff.mpr hσ
    rw [hInfinite, hs'] at hr
    cases hr

end Inference

end StagedLambda
