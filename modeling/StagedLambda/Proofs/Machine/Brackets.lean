import StagedLambda.Proofs.Machine.Reach

/-!
# Evaluation is well bracketed

A run that starts with a term on some stack works on top of that stack: it pushes frames, opens
quotes and escapes out of them, and all of it is gone again when the term has a result, which is
then handed to the very stack that was there at first (`Machine.well_bracketed`).

A fragment is handed over at a level, and this has to be the level of the term as well.  So the
invariant `Stack.Rests` counts the level up from the stack at the bottom through the quotes and
splices in between.  A quote adds one and takes one away, a splice takes its shift away and adds it
again; both hold for words, whether or not they overflow.

* `Stack.Extends`: one stack is another one with more on top of it.
* `State.Rests.moves`: only a state that hands a result to the bottom leaves it.
-/

namespace StagedLambda

/-! ### Stacks on top of stacks -/

/-- A stack of either kind. -/
inductive Stack
  | eval (k : EvalStack)
  | build (k : BuildStack)

namespace Stack

def depth : Stack → Nat
  | .eval k => k.depth
  | .build k => k.depth

/-- The stack `base` with frames, escapes and quotes on top of it. -/
inductive Extends (base : Stack) : Stack → Prop
  | refl : Extends base base
  | evalFrame (frame : EvalFrame) {k : EvalStack} (h : Extends base (.eval k)) :
      Extends base (.eval (.push frame k))
  | escape (shift : UInt64) {k : BuildStack} (h : Extends base (.build k)) :
      Extends base (.eval (.escape shift k))
  | buildFrame (frame : BuildFrame) {k : BuildStack} (h : Extends base (.build k)) :
      Extends base (.build (.push frame k))
  | close {k : EvalStack} (h : Extends base (.eval k)) : Extends base (.build (.close k))

theorem Extends.depth_le {base k : Stack} (h : base.Extends k) : base.depth ≤ k.depth := by
  induction h with
  | refl => exact Nat.le_refl _
  | escape _ _ ih => exact ih
  | evalFrame _ _ ih | buildFrame _ _ ih | close _ ih => exact Nat.le_succ_of_le ih

theorem Extends.sizeOf_le {base k : Stack} (h : base.Extends k) : sizeOf base ≤ sizeOf k := by
  induction h with
  | refl => exact Nat.le_refl _
  | evalFrame _ _ ih | escape _ _ ih | buildFrame _ _ ih | close _ ih =>
    refine Nat.le_trans ih ?_
    simp only [eval.sizeOf_spec, build.sizeOf_spec, EvalStack.push.sizeOf_spec,
      EvalStack.escape.sizeOf_spec, BuildStack.push.sizeOf_spec, BuildStack.close.sizeOf_spec]
    omega

end Stack

/-- The level of what is handed to a frame, where the frame hands its own result on at `level`. -/
def BuildFrame.above : BuildFrame → UInt64 → UInt64
  | .quote, level => level + 1
  | .splice shift, level => level - shift
  | _, level => level

namespace Stack

/-- The stack `base`, which waits for something of the level `bottom`, with more on top of it; the
whole waits for something of the level given last. -/
inductive Rests (base : Stack) (bottom : UInt64) : Stack → UInt64 → Prop
  | base : Rests base bottom base bottom
  | evalFrame (frame : EvalFrame) {k : EvalStack} (h : Rests base bottom (.eval k) 0) :
      Rests base bottom (.eval (.push frame k)) 0
  | escape {shift : UInt64} {k : BuildStack} (h : Rests base bottom (.build k) shift) :
      Rests base bottom (.eval (.escape shift k)) 0
  | buildFrame (frame : BuildFrame) {k : BuildStack} {level : UInt64}
      (h : Rests base bottom (.build k) level) :
      Rests base bottom (.build (.push frame k)) (frame.above level)
  | close {k : EvalStack} (h : Rests base bottom (.eval k) 0) :
      Rests base bottom (.build (.close k)) 1

namespace Rests

variable {base s : Stack} {bottom level : UInt64}

theorem extends_base (h : Rests base bottom s level) : base.Extends s := by
  induction h with
  | base => exact .refl
  | evalFrame frame _ ih => exact .evalFrame frame ih
  | escape _ ih => exact .escape _ ih
  | buildFrame frame _ ih => exact .buildFrame frame ih
  | close _ ih => exact .close ih

/-- Nothing lies on top of the bottom itself, so it waits for its own level. -/
theorem level_eq (h : Rests base bottom base level) : level = bottom := by
  cases h with
  | base => rfl
  | evalFrame _ h | escape h | buildFrame _ h | close h =>
    have hSize := h.extends_base.sizeOf_le
    simp only [eval.sizeOf_spec, build.sizeOf_spec, EvalStack.push.sizeOf_spec,
      EvalStack.escape.sizeOf_spec, BuildStack.push.sizeOf_spec,
      BuildStack.close.sizeOf_spec] at hSize
    omega

/-! #### One layer down -/

theorem of_evalFrame {frame : EvalFrame} {k : EvalStack}
    (h : Rests base bottom (.eval (.push frame k)) level)
    (hOther : base ≠ .eval (.push frame k)) : Rests base bottom (.eval k) 0 := by
  cases h with
  | base => exact absurd rfl hOther
  | evalFrame _ h => exact h

theorem of_escape {shift : UInt64} {k : BuildStack}
    (h : Rests base bottom (.eval (.escape shift k)) level)
    (hOther : base ≠ .eval (.escape shift k)) : Rests base bottom (.build k) shift := by
  cases h with
  | base => exact absurd rfl hOther
  | escape h => exact h

theorem of_buildFrame {frame : BuildFrame} {k : BuildStack}
    (h : Rests base bottom (.build (.push frame k)) level)
    (hOther : base ≠ .build (.push frame k)) :
    ∃ below, level = frame.above below ∧ Rests base bottom (.build k) below := by
  cases h with
  | base => exact absurd rfl hOther
  | buildFrame _ h => exact ⟨_, rfl, h⟩

theorem of_close {k : EvalStack} (h : Rests base bottom (.build (.close k)) level)
    (hOther : base ≠ .build (.close k)) : Rests base bottom (.eval k) 0 := by
  cases h with
  | base => exact absurd rfl hOther
  | close h => exact h

theorem bindAll {k : EvalStack} (h : Rests base bottom (.eval k) 0)
    (bindings : List (Ident × Value)) : Rests base bottom (.eval (k.bindAll bindings)) 0 := by
  induction bindings generalizing k with
  | nil => exact h
  | cons b rest ih => exact ih (h.evalFrame (.bind b.1 b.2))

end Rests

end Stack

/-! ### States -/

namespace State

def stack : State → Stack
  | .eval _ _ k | .deliver _ k => .eval k
  | .build _ _ _ k | .emit _ _ k => .build k

/-- The stack that the state hands a result to. -/
def hands? : State → Option Stack
  | .deliver _ k => some (.eval k)
  | .emit _ _ k => some (.build k)
  | .eval _ _ _ | .build _ _ _ _ => none

theorem depth_eq (s : State) : s.depth = s.stack.depth := by
  cases s <;> rfl

theorem eq_deliver_of_hands? {s : State} {k : EvalStack} (h : s.hands? = some (.eval k)) :
    ∃ v, s = .deliver v k := by
  cases s <;> cases h
  exact ⟨_, rfl⟩

theorem eq_emit_of_hands? {s : State} {k : BuildStack} (h : s.hands? = some (.build k)) :
    ∃ level c, s = .emit level c k := by
  cases s <;> cases h
  exact ⟨_, _, rfl⟩

/-- The state has `base` at the bottom of its stack, with the levels counted up from `bottom`. -/
def Rests (base : Stack) (bottom : UInt64) (s : State) : Prop :=
  Stack.Rests base bottom s.stack s.level

variable {base : Stack} {bottom : UInt64} {s s' : State} {p p' : Palette}

/-- **Only a state that hands a result to the bottom leaves it.** -/
theorem Rests.moves (h : s.Rests base bottom) (hOpen : s.hands? ≠ some base)
    (hMoves : s.Moves p s' p') : s'.Rests base bottom := by
  have hOther : ∀ {k}, s.hands? = some k → base ≠ k := fun hk hBase => hOpen (hBase ▸ hk)
  cases hMoves with
  -- Nothing happens to the stack.
  | evalVar | evalLam | evalFix | evalInt | evalBool | buildVar | buildInt | buildBool => exact h
  -- Something is put on top.
  | evalApp | evalPrim | evalIte | evalLogic | evalSplice | evalLet => exact h.evalFrame _
  | evalQuote => exact h.close
  | buildLam | buildFix | buildApp | buildPrim | buildIte | buildLogic | buildSplice | buildLet =>
    exact h.buildFrame _
  | buildQuote hRaise =>
    obtain ⟨rfl, -⟩ := Step.raise_eq_ok hRaise
    exact h.buildFrame .quote
  | buildEscape => exact h.escape
  -- The frame on top is taken off, and another one may take its place.
  | deliverBind | deliverPrimLast | deliverBranch | deliverLogicSettled | deliverLogicRight
    | deliverRun => exact h.of_evalFrame (hOther rfl)
  | deliverApplyTo | deliverPrimNext | deliverLogicLeft | deliverLet =>
    exact (h.of_evalFrame (hOther rfl)).evalFrame _
  | deliverCall fn captured arg k =>
    obtain ⟨bindings, hBindings⟩ := k.enter_eq_bindAll fn captured (p.tint fn.param) arg
    show Stack.Rests base bottom (.eval (.push _ _)) 0
    rw [hBindings]
    exact (h.of_evalFrame (hOther rfl)).bindAll bindings
  | deliverEscape => exact h.of_escape (hOther rfl)
  | emitClose => exact h.of_close (hOther rfl)
  | emitLam | emitFix | emitApplied | emitPrimLast | emitIteNo | emitLogicRight | emitLetBody =>
    obtain ⟨below, rfl, hBelow⟩ := h.of_buildFrame (hOther rfl)
    exact hBelow
  | emitApplyTo | emitPrimNext | emitIteCond | emitIteYes | emitLogicLeft | emitLetBound =>
    obtain ⟨below, rfl, hBelow⟩ := h.of_buildFrame (hOther rfl)
    exact hBelow.buildFrame _
  -- The level of a quote or a splice is the one below it again.
  | @emitQuote level _ k =>
    obtain ⟨below, hLevel, hBelow⟩ := h.of_buildFrame (hOther rfl)
    have hBack : level - 1 = below := by
      rw [show level = below + 1 from hLevel, UInt64.add_sub_cancel]
    exact show Stack.Rests base bottom (.build k) (level - 1) from hBack ▸ hBelow
  | @emitSplice level shift _ _ k hRaise =>
    obtain ⟨rfl, -⟩ := Step.raise_eq_ok hRaise
    obtain ⟨below, hLevel, hBelow⟩ := h.of_buildFrame (hOther rfl)
    have hBack : level + shift = below := by
      rw [show level = below - shift from hLevel, UInt64.sub_add_cancel]
    exact show Stack.Rests base bottom (.build k) (level + shift) from hBack ▸ hBelow

end State

/-! ### Runs -/

namespace Machine

theorem rests_after {m : Machine} {start : State} {base : Stack} {bottom : UInt64}
    (hStart : start.Rests base bottom) {n : Nat} {m' : Machine} {s : State}
    (h : m.after start n = (.ok s, m'))
    (hPending : ∀ j < n, ∀ m₁ s₁, m.after start j = (.ok s₁, m₁) → s₁.hands? ≠ some base) :
    s.Rests base bottom := by
  induction n generalizing m' s with
  | zero =>
    cases h
    exact hStart
  | succ n ih =>
    obtain ⟨m₁, s₁, hPrior, hStep⟩ := after_succ_eq_ok h
    have hRests := ih hPrior fun j hj => hPending j (Nat.lt_succ_of_lt hj)
    exact hRests.moves (hPending n (Nat.lt_succ_self n) m₁ s₁ hPrior) (step_eq_ok_iff.mp hStep).1

/-- **Evaluation is well bracketed.**  As long as no state has handed a value to the stack `k` on
which a term is evaluated, and also in the first state that does, `k` is at the bottom of the
stack.  The same holds where a term is built into code on a stack `k`, and the fragment that is
first handed to `k` has the level of the term. -/
theorem well_bracketed (m : Machine) (env : Renaming) (e : Term) :
    (∀ (k : EvalStack) (n : Nat) (s : State) (m' : Machine),
      m.after (.eval env e k) n = (.ok s, m') →
      (∀ j < n, ∀ v m₁, m.after (.eval env e k) j ≠ (.ok (.deliver v k), m₁)) →
      Stack.Extends (.eval k) s.stack ∧ k.depth ≤ s.depth) ∧
    ∀ (level : UInt64) (k : BuildStack) (n : Nat) (s : State) (m' : Machine),
      m.after (.build level env e k) n = (.ok s, m') →
      (∀ j < n, ∀ l c m₁, m.after (.build level env e k) j ≠ (.ok (.emit l c k), m₁)) →
      Stack.Extends (.build k) s.stack ∧ k.depth ≤ s.depth ∧
        ∀ l c, s = .emit l c k → l = level := by
  constructor
  · intro k n s m' h hPending
    have hRests : s.Rests (.eval k) 0 := by
      refine rests_after .base h fun j hj m₁ s₁ hReached hHands => ?_
      obtain ⟨v, rfl⟩ := State.eq_deliver_of_hands? hHands
      exact hPending j hj v m₁ hReached
    exact ⟨hRests.extends_base, s.depth_eq ▸ hRests.extends_base.depth_le⟩
  · intro level k n s m' h hPending
    have hRests : s.Rests (.build k) level := by
      refine rests_after .base h fun j hj m₁ s₁ hReached hHands => ?_
      obtain ⟨l, c, rfl⟩ := State.eq_emit_of_hands? hHands
      exact hPending j hj l c m₁ hReached
    refine ⟨hRests.extends_base, s.depth_eq ▸ hRests.extends_base.depth_le, ?_⟩
    rintro l c rfl
    exact Stack.Rests.level_eq hRests

/-- A quote inside code escapes to stage 0, where another quote is opened and closed, and comes back
to the stack and the level at which it started. -/
theorem well_bracketed_escape :
    let e : Term := .quote (.splice 3 (.quote (.int 7)))
    let k : BuildStack := .push .quote (.close .halt)
    (∃ m', ({} : Machine).after (.build 2 .empty e k) 7 =
      (.ok (.emit 2 (.quote (.int 7)) k), m')) ∧
    ∀ n < 7, ∀ s m', ({} : Machine).after (.build 2 .empty e k) n = (.ok s, m') →
      Stack.Extends (.build k) s.stack ∧ 2 ≤ s.depth := by
  intro e k
  refine ⟨⟨_, rfl⟩, fun n hn s m' h => ?_⟩
  have hPending : ∀ j < 7, ∀ l c m₁,
      ({} : Machine).after (.build 2 .empty e k) j ≠ (.ok (.emit l c k), m₁) := by
    intro j hj l c m₁ hReached
    match j, hj with
    | 0, _ | 1, _ | 2, _ | 3, _ | 4, _ | 5, _ | 6, _ => cases hReached
  obtain ⟨hExtends, hDepth, -⟩ := (well_bracketed {} .empty e).2 2 k n s m' h
    fun j hj => hPending j (Nat.lt_trans hj hn)
  exact ⟨hExtends, hDepth⟩

end Machine

end StagedLambda
