import Mathlib.Algebra.Group.Nat.Defs
import StagedLambda.Proofs.Machine.Checks

/-!
# The splices of a term

A splice crosses a number of stage boundaries.  In a term that stands at some level it may cross
fewer than there are at the place of the splice: the level counts one more inside each quote and
as many fewer as were crossed inside each splice.

* `Term.splicesWithin_mono`: a term whose splices are in range at one level may stand at any
  higher one.
-/

namespace StagedLambda

namespace Term

mutual

/-- Every splice crosses at least no boundary and fewer than its level has. -/
def splicesWithin (level : Int) : Term → Bool
  | .var _ | .int _ | .bool _ => true
  | .lam _ body | .fix _ body => body.splicesWithin level
  | .app a b | .logic _ a b | .letIn _ a b => a.splicesWithin level && b.splicesWithin level
  | .ite a b c => a.splicesWithin level && b.splicesWithin level && c.splicesWithin level
  | .prim _ args => allSplicesWithin level args
  | .quote body => body.splicesWithin (level + 1)
  | .splice shift body =>
    decide (0 ≤ shift.toInt) && decide (shift.toInt < level) &&
      body.splicesWithin (level - shift.toInt)

def allSplicesWithin (level : Int) : List Term → Bool
  | [] => true
  | t :: ts => t.splicesWithin level && allSplicesWithin level ts

end

theorem allSplicesWithin_iff (level : Int) (ts : List Term) :
    allSplicesWithin level ts = true ↔ ∀ t ∈ ts, t.splicesWithin level = true := by
  induction ts with
  | nil => simp [allSplicesWithin]
  | cons t ts ih => simp [allSplicesWithin, ih]

theorem splicesWithin_mono {level level' : Int} {t : Term} (hLevel : level ≤ level')
    (h : t.splicesWithin level = true) : t.splicesWithin level' = true := by
  induction t generalizing level level' with
  | var | int | bool => rfl
  | lam _ body ih | fix _ body ih => exact ih hLevel h
  | app a b iha ihb | logic _ a b iha ihb | letIn _ a b iha ihb =>
    simp only [splicesWithin, Bool.and_eq_true] at h ⊢
    exact ⟨iha hLevel h.1, ihb hLevel h.2⟩
  | ite a b c iha ihb ihc =>
    simp only [splicesWithin, Bool.and_eq_true] at h ⊢
    exact ⟨⟨iha hLevel h.1.1, ihb hLevel h.1.2⟩, ihc hLevel h.2⟩
  | prim op args ih =>
    simp only [splicesWithin, allSplicesWithin_iff] at h ⊢
    exact fun a ha => ih a ha hLevel (h a ha)
  | quote body ih => exact ih (by omega) h
  | splice shift body ih =>
    simp only [splicesWithin, Bool.and_eq_true, decide_eq_true_eq] at h ⊢
    obtain ⟨⟨hNonneg, hBelow⟩, hBody⟩ := h
    exact ⟨⟨hNonneg, by omega⟩, ih (by omega) hBody⟩

end Term

/-! ### Shifts as machine words -/

/-- A word below `2 ^ 63` keeps its value as a shift. -/
theorem toInt_toInt64_of_lt {shift : UInt64} (h : shift.toNat < 2 ^ 63) :
    shift.toInt64.toInt = shift.toNat := by
  have hWord : shift.toInt64 = Int64.ofNat shift.toNat := by
    rw [← UInt64.toInt64_ofNat', UInt64.ofNat_toNat]
  rw [hWord, Int64.toInt_ofNat_of_lt h]

end StagedLambda
