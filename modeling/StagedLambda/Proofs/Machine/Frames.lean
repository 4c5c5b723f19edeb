import Mathlib.Data.Set.Insert
import StagedLambda.Machine.Stack

/-!
# What stacks hold

Every frame holds terms that still wait to be evaluated, values or fragments that are done, and
perhaps a binder.  `EvalStack.Each` says that every frame and every stage boundary along a chain
of stacks obeys a rule, which may look at the stack below the frame.

The *scope* of a stack are the identifiers that a search in it finds, with a value or as a binder
of code that is still being built.  `EvalStack.Each.found` says what a search gives: a value from
a frame that obeys the rule over a stack whose scope is part of the whole scope.
-/

namespace StagedLambda

/-! ### The contents of frames -/

namespace EvalFrame

/-- The terms that wait, each with its renaming. A body that waits for its binder is given with
it, as an abstraction. -/
@[simp] def pending : EvalFrame → List (Renaming × Term)
  | .applyTo arg env => [(env, arg)]
  | .prim _ _ args env => args.map (env, ·)
  | .branch yes no env => [(env, yes), (env, no)]
  | .logicLeft _ right env => [(env, right)]
  | .letBody id body env => [(env, .lam id body)]
  | .applied _ | .bind _ _ | .logicRight _ | .run => []

@[simp] def values : EvalFrame → List Value
  | .applied v | .bind _ v => [v]
  | .prim _ done _ _ => done
  | _ => []

/-- The identifier that a frame binds for everything above it. -/
@[simp] def binder? : EvalFrame → Option Ident
  | .bind id _ => some id
  | _ => none

end EvalFrame

namespace BuildFrame

@[simp] def pending : BuildFrame → List (Renaming × Term)
  | .applyTo arg env => [(env, arg)]
  | .prim _ _ args env => args.map (env, ·)
  | .iteCond yes no env => [(env, yes), (env, no)]
  | .iteYes _ no env => [(env, no)]
  | .logicLeft _ right env => [(env, right)]
  | .letBound id body env => [(env, .lam id body)]
  | _ => []

/-- The parts of the construct that are built. -/
@[simp] def fragments : BuildFrame → List Term
  | .applied c | .iteYes c _ _ | .logicRight _ c | .letBody _ c => [c]
  | .iteNo cond yes => [cond, yes]
  | .prim _ done _ _ => done
  | _ => []

end BuildFrame

/-! ### Rules for all frames -/

/-- What is asked of a frame over the stack below it, and of a stage boundary. -/
structure StackRule where
  eval : EvalFrame → EvalStack → Prop
  build : BuildFrame → BuildStack → Prop
  escape : UInt64 → BuildStack → Prop := fun _ _ => True

mutual

/-- Every frame along the chain of stacks obeys the rule. -/
def EvalStack.Each (r : StackRule) : EvalStack → Prop
  | .halt => True
  | .escape shift outer => r.escape shift outer ∧ outer.Each r
  | .push frame rest => r.eval frame rest ∧ rest.Each r

def BuildStack.Each (r : StackRule) : BuildStack → Prop
  | .close outer => outer.Each r
  | .push frame rest => r.build frame rest ∧ rest.Each r

end

namespace EvalStack

@[simp] theorem each_halt (r : StackRule) : halt.Each r := trivial

@[simp] theorem each_escape (r : StackRule) (shift : UInt64) (outer : BuildStack) :
    (escape shift outer).Each r ↔ r.escape shift outer ∧ outer.Each r := Iff.rfl

@[simp] theorem each_push (r : StackRule) (frame : EvalFrame) (rest : EvalStack) :
    (push frame rest).Each r ↔ r.eval frame rest ∧ rest.Each r := Iff.rfl

end EvalStack

namespace BuildStack

@[simp] theorem each_close (r : StackRule) (outer : EvalStack) :
    (close outer).Each r ↔ outer.Each r := Iff.rfl

@[simp] theorem each_push (r : StackRule) (frame : BuildFrame) (rest : BuildStack) :
    (push frame rest).Each r ↔ r.build frame rest ∧ rest.Each r := Iff.rfl

end BuildStack

/-- One rule asks no more than another. -/
structure StackRule.Implies (r r' : StackRule) : Prop where
  eval : ∀ frame rest, r.eval frame rest → r'.eval frame rest
  build : ∀ frame rest, r.build frame rest → r'.build frame rest
  escape : ∀ shift outer, r.escape shift outer → r'.escape shift outer

mutual

theorem EvalStack.Each.mono {r r' : StackRule} (h : r.Implies r') :
    ∀ {k : EvalStack}, k.Each r → k.Each r'
  | .halt, _ => trivial
  | .escape _ _, ⟨hEscape, hOuter⟩ => ⟨h.escape _ _ hEscape, BuildStack.Each.mono h hOuter⟩
  | .push _ _, ⟨hFrame, hRest⟩ => ⟨h.eval _ _ hFrame, EvalStack.Each.mono h hRest⟩

theorem BuildStack.Each.mono {r r' : StackRule} (h : r.Implies r') :
    ∀ {k : BuildStack}, k.Each r → k.Each r'
  | .close _, hOuter => EvalStack.Each.mono h hOuter
  | .push _ _, ⟨hFrame, hRest⟩ => ⟨h.build _ _ hFrame, BuildStack.Each.mono h hRest⟩

end

/-! ### Scopes -/

/-- The identifiers that a search finds. -/
def EvalStack.scope (k : EvalStack) : Set Ident := {c | k.lookup c ≠ .absent}

def BuildStack.scope (k : BuildStack) : Set Ident := {c | k.lookup c ≠ .absent}

namespace EvalStack

@[simp] theorem scope_halt : halt.scope = ∅ := by
  ext c
  simp [scope, lookup]

@[simp] theorem scope_escape (shift : UInt64) (outer : BuildStack) :
    (escape shift outer).scope = outer.scope := by
  ext c
  simp [scope, BuildStack.scope, lookup]

@[simp] theorem scope_bind (id : Ident) (v : Value) (k : EvalStack) :
    (push (.bind id v) k).scope = insert id k.scope := by
  ext c
  by_cases h : id = c
  · simp [scope, lookup, h]
  · simp [scope, lookup, h, Ne.symm h]

@[simp] theorem scope_push {frame : EvalFrame} (h : frame.binder? = none) (k : EvalStack) :
    (push frame k).scope = k.scope := by
  cases frame with
  | bind => cases h
  | _ => rfl

theorem scope_subset_push (frame : EvalFrame) (k : EvalStack) : k.scope ⊆ (push frame k).scope := by
  cases frame with
  | bind id v => exact (scope_bind id v k).symm ▸ Set.subset_insert id k.scope
  | _ => exact subset_rfl

end EvalStack

namespace BuildStack

@[simp] theorem scope_close (outer : EvalStack) : (close outer).scope = outer.scope := by
  ext c
  simp [scope, EvalStack.scope, lookup]

theorem scope_binder {frame : BuildFrame} {id : Ident} (h : frame.binder? = some id)
    (k : BuildStack) : (push frame k).scope = insert id k.scope := by
  ext c
  by_cases hc : id = c
  · simp [scope, lookup, h, hc]
  · simp [scope, lookup, h, hc, Ne.symm hc]

@[simp] theorem scope_push {frame : BuildFrame} (h : frame.binder? = none) (k : BuildStack) :
    (push frame k).scope = k.scope := by
  ext c
  simp [scope, lookup, h]

theorem scope_subset_push (frame : BuildFrame) (k : BuildStack) :
    k.scope ⊆ (push frame k).scope := by
  cases h : frame.binder? with
  | none => exact (scope_push h k).symm ▸ subset_rfl
  | some id => exact (scope_binder h k).symm ▸ Set.subset_insert id k.scope

end BuildStack

mutual

/-- **What a search gives.**  The value comes from a binding that obeys the rule, over a stack
whose scope is part of the whole. -/
theorem EvalStack.Each.found {r : StackRule} {c : Ident} {v : Value} :
    ∀ {k : EvalStack}, k.Each r → k.lookup c = .found v →
      ∃ rest : EvalStack, r.eval (.bind c v) rest ∧ rest.scope ⊆ k.scope
  | .halt, _, hFound => by cases hFound
  | .escape shift outer, ⟨_, hOuter⟩, hFound => by
    rw [EvalStack.scope_escape]
    exact BuildStack.Each.found hOuter hFound
  | .push frame rest, ⟨hFrame, hRest⟩, hFound => by
    by_cases hBinder : frame.binder? = some c
    · obtain ⟨w, rfl⟩ : ∃ w, frame = .bind c w := by cases frame <;> simp_all
      simp only [EvalStack.lookup, if_true, Lookup.found.injEq] at hFound
      exact ⟨rest, hFound ▸ hFrame, EvalStack.scope_subset_push _ rest⟩
    · have hBelow : rest.lookup c = .found v := by cases frame <;> simp_all [EvalStack.lookup]
      obtain ⟨below, hRule, hScope⟩ := EvalStack.Each.found hRest hBelow
      exact ⟨below, hRule, hScope.trans (EvalStack.scope_subset_push frame rest)⟩

theorem BuildStack.Each.found {r : StackRule} {c : Ident} {v : Value} :
    ∀ {k : BuildStack}, k.Each r → k.lookup c = .found v →
      ∃ rest : EvalStack, r.eval (.bind c v) rest ∧ rest.scope ⊆ k.scope
  | .close outer, hOuter, hFound => by
    rw [BuildStack.scope_close]
    exact EvalStack.Each.found hOuter hFound
  | .push frame rest, ⟨_, hRest⟩, hFound => by
    have hBelow : rest.lookup c = .found v := by
      rw [BuildStack.lookup] at hFound
      split at hFound
      · cases hFound
      · exact hFound
    obtain ⟨below, hRule, hScope⟩ := BuildStack.Each.found hRest hBelow
    exact ⟨below, hRule, hScope.trans (BuildStack.scope_subset_push frame rest)⟩

end

end StagedLambda
