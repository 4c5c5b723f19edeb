/-!
# Fuel

A budget of transitions. Fuel neither overflows nor goes below zero, and an interrupt stops a run
before its next transition without using any up.
-/

namespace StagedLambda

structure Fuel where
  amount : UInt64
  interrupted : Bool := false
deriving DecidableEq

namespace Fuel

def empty : Fuel := ⟨0, false⟩

/-- So much that no run will use it up. -/
def unbounded : Fuel := ⟨0xFFFFFFFFFFFFFFFF, false⟩

/-- Adds fuel up to a ceiling and clears the interrupt. -/
def refill (f : Fuel) (more ceiling : UInt64) : Fuel :=
  let total := if f.amount + more < f.amount then 0xFFFFFFFFFFFFFFFF else f.amount + more
  ⟨min total ceiling, false⟩

def consume (f : Fuel) (used : UInt64) : Fuel :=
  { f with amount := if f.amount ≤ used then 0 else f.amount - used }

def interrupt (f : Fuel) : Fuel := { f with interrupted := true }

/-- Whether another transition may be taken. -/
def allows (f : Fuel) : Bool := 0 < f.amount && !f.interrupted

theorem consume_lt {f : Fuel} (h : f.allows = true) :
    (f.consume 1).amount.toNat < f.amount.toNat := by
  have hSome : 0 < f.amount := of_decide_eq_true (Bool.and_eq_true_iff.mp h).1
  have hOne : (1 : UInt64) ≤ f.amount := UInt64.le_iff_toNat_le.mpr (UInt64.lt_iff_toNat_lt.mp hSome)
  rw [consume]
  split
  · exact UInt64.lt_iff_toNat_lt.mp hSome
  · rw [UInt64.toNat_sub_of_le _ _ hOne]
    exact Nat.sub_lt (UInt64.lt_iff_toNat_lt.mp hSome) Nat.one_pos

end Fuel

end StagedLambda
