import StagedLambda.Machine.Fuel
import StagedLambda.Machine.Step

/-!
# Runs

A machine owns what the transitions of its runs share: the palette and a count of the transitions
taken, failing ones included. A run goes on until it has a result or fails; on a supply of fuel it
is suspended where the supply ends, and can be taken up again where it stopped.
-/

namespace StagedLambda

structure Machine where
  palette : Palette := {}
  steps : Nat := 0
deriving DecidableEq

inductive Outcome
  | finished (value : Value)
  | suspended (state : State)
  | failed (fault : Fault)

/-- How a run on a supply ended: what it came to, the machine after it, and the supply left. -/
structure Run (Supply : Type) where
  machine : Machine
  outcome : Outcome
  left : Supply

namespace Machine

/-- Takes one transition and counts it. -/
def step (m : Machine) (s : State) : Except Fault State × Machine :=
  let (outcome, palette) := s.step m.palette
  (outcome, ⟨palette, m.steps + 1⟩)

/-- Restarts the colors, so that a run taken again gets the same ones. -/
def resetColors (m : Machine) : Machine := { m with palette := {} }

/-- Runs until there is a result or a fault. A run that never comes to one has no answer. -/
def run (m : Machine) (s : State) : Option (Except Fault Value × Machine) :=
  match s.result? with
  | some value => some (.ok value, m)
  | none =>
    match m.step s with
    | (.ok next, m') => m' |>.run next
    | (.error fault, m') => some (.error fault, m')
partial_fixpoint

/-- Runs on a supply of fuel, which gives one unit for each transition. -/
def runWithFuel (m : Machine) (s : State) (fuel : Fuel) : Run Fuel :=
  match s.result? with
  | some value => ⟨m, .finished value, fuel⟩
  | none =>
    if fuel.allows then
      match m.step s with
      | (.ok next, m') => m'.runWithFuel next (fuel.consume 1)
      | (.error fault, m') => ⟨m', .failed fault, fuel.consume 1⟩
    else ⟨m, .suspended s, fuel⟩
termination_by fuel.amount.toNat
decreasing_by exact Fuel.consume_lt ‹fuel.allows = true›

end Machine

/-- Evaluates a term on a machine of its own. -/
def Term.evaluate (t : Term) : Option (Except Fault Value) :=
  (({} : Machine).run (.initial t)).map Prod.fst

end StagedLambda
