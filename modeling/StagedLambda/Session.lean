import StagedLambda.Machine.Run

/-!
# Sessions

Several runs side by side on one machine and one supply of fuel. States and finished values are
kept in named slots, and commands take a state out of its slot and put what becomes of it back.

Functions have an identity: two of them are the same only if one transition made both. A value
that reaches the empty stack as a function was made, or given its last binding, by the transition
that got it there, for a variable cannot be looked up on the empty stack and every other way in
either makes a function or refuses one. So a slot remembers which transition of the machine its
state came from, and a finished function is identified by that number.
-/

namespace StagedLambda

/-- A content together with the number of the transition that produced it. -/
structure Slot (α : Type) where
  content : α
  stamp : Nat

structure Session where
  machine : Machine := {}
  fuel : Fuel := .unbounded
  states : List (String × Slot State) := []
  values : List (String × Slot Value) := []

inductive Command
  | setFuel (fuel : Fuel)
  | refill (more ceiling : UInt64)
  | consume (used : UInt64)
  | interrupt
  | resetColors
  | load (slot : String) (term : Term)
  | copy (slot target : String)
  | step (slot : String) (count : Nat)
  | finish (slot : String)
  | run (slot : String)
  | runWithFuel (slot : String)
  | same (left right : String)

inductive Reply
  | done
  | state (s : State)
  | suspended (s : State)
  | value (v : Value)
  | failed (fault : Fault)
  | same (verdict : Bool)
  | missing

/-- Whether two finished values are the same: functions by identity, all others by content. -/
def Slot.sameValue (a b : Slot Value) : Bool :=
  match a.content, b.content with
  | .int m, .int n => m = n
  | .bool p, .bool q => p = q
  | .closure _ _, .closure _ _ => a.stamp = b.stamp
  | .code s, .code t => s = t
  | _, _ => false

namespace Session

def putState (s : Session) (slot : String) (content : Slot State) : Session :=
  { s with states := (slot, content) :: s.states.filter (·.1 ≠ slot) }

def putValue (s : Session) (slot : String) (content : Slot Value) : Session :=
  { s with values := (slot, content) :: s.values.filter (·.1 ≠ slot) }

def dropState (s : Session) (slot : String) : Session :=
  { s with states := s.states.filter (·.1 ≠ slot) }

/-- Takes `count` transitions, stopping at the first fault. -/
def stepTimes : Nat → Machine → Slot State → Except Fault (Slot State) × Machine
  | 0, m, s => (.ok s, m)
  | count + 1, m, s =>
    match m.step s.content with
    | (.ok next, m') => stepTimes count m' ⟨next, m'.steps⟩
    | (.error fault, m') => (.error fault, m')

/-- What a run from a slot leaves behind. A run that took no transition keeps its stamp. -/
def conclude (s : Session) (slot : String) (start : Slot State) (outcome : Outcome)
    (machine : Machine) : Session × Reply :=
  let stamp := if machine.steps = s.machine.steps then start.stamp else machine.steps
  let s := { s with machine }
  match outcome with
  | .finished v => (s.putValue slot ⟨v, stamp⟩, .value v)
  | .suspended state => (s.putState slot ⟨state, stamp⟩, .suspended state)
  | .failed fault => (s, .failed fault)

/-- Answers a command about the state in a slot, which is taken out for it. -/
def withState (s : Session) (slot : String)
    (answer : Session → Slot State → Option (Session × Reply)) : Option (Session × Reply) :=
  match s.states.lookup slot with
  | some state => answer (s.dropState slot) state
  | none => some (s, .missing)

/-- Answers a command. A run that never ends has no answer. -/
def perform (s : Session) : Command → Option (Session × Reply)
  | .setFuel fuel => some ({ s with fuel }, .done)
  | .refill more ceiling => some ({ s with fuel := s.fuel.refill more ceiling }, .done)
  | .consume used => some ({ s with fuel := s.fuel.consume used }, .done)
  | .interrupt => some ({ s with fuel := s.fuel.interrupt }, .done)
  | .resetColors => some ({ s with machine := s.machine.resetColors }, .done)
  | .load slot term =>
    let state := State.initial term
    some (s.putState slot ⟨state, s.machine.steps⟩, .state state)
  | .copy slot target => s.withState slot fun s state =>
    some ((s.putState slot state).putState target state, .state state.content)
  | .step slot count => s.withState slot fun s state =>
    match stepTimes count s.machine state with
    | (.ok next, machine) =>
      some ({ s with machine }.putState slot next, .state next.content)
    | (.error fault, machine) => some ({ s with machine }, .failed fault)
  | .finish slot => s.withState slot fun s state =>
    match state.content.result? with
    | some v => some (s.putValue slot ⟨v, state.stamp⟩, .value v)
    | none => some (s.putState slot state, .state state.content)
  | .run slot => s.withState slot fun s state =>
    (s.machine.run state.content).map fun
      | (.ok v, machine) => s.conclude slot state (.finished v) machine
      | (.error fault, machine) => s.conclude slot state (.failed fault) machine
  | .runWithFuel slot => s.withState slot fun s state =>
    let run := s.machine.runWithFuel state.content s.fuel
    some ({ s with fuel := run.left }.conclude slot state run.outcome run.machine)
  | .same left right =>
    match s.values.lookup left, s.values.lookup right with
    | some a, some b => some (s, .same (a.sameValue b))
    | _, _ => some (s, .missing)

end Session

end StagedLambda
