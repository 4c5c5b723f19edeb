import StagedLambda.Proofs.Lexical.Meaning
import StagedLambda.Proofs.Machine.Reach

/-!
# The machine follows the evaluator

`Machine.Realizes` says that from some state the machine does what an answer of the evaluator
says.  Such facts are put together as the evaluator puts answers together
(`Machine.Realizes.bind`), and each transition pays for a unit of fuel (`Machine.Realizes.head`),
so an unfinished answer is a run as long as the fuel.

* `Machine.realizes_eval`: started on a term over a stack in agreement with the environment, the
  machine does what the evaluator answers.  The induction is on the fuel; there is one lemma for
  each construct, and calls are in `realizes_call`.
-/

namespace StagedLambda

open Lexical

/-! ### Following an answer -/

namespace Machine

variable {α β : Type}

/-- From `s` the machine does what an answer says: it gets to a state for the result, or it fails
likewise, or it goes on for as long as the fuel. -/
def Realizes (m : Machine) (s : State) (fuel : Nat) (Q : Machine → State → α → Prop) :
    Answer α → Prop
  | .done a => ∃ m' s', m.Reaches s m' s' ∧ Q m' s' a
  | .failed f => m.Yields s (.error f)
  | .unfinished => ∃ m' s', m.Reaches s m' s' ∧ m.steps + fuel ≤ m'.steps

namespace Realizes

variable {m m' : Machine} {s s' : State} {fuel : Nat} {Q : Machine → State → α → Prop}

theorem of_reaches {x : Answer α} (h : m.Reaches s m' s') (hx : m'.Realizes s' fuel Q x) :
    m.Realizes s fuel Q x := by
  cases x with
  | done a =>
    obtain ⟨m'', s'', hReach, hQ⟩ := hx
    exact ⟨m'', s'', h.trans hReach, hQ⟩
  | failed f => exact Yields.of_reaches h hx
  | unfinished =>
    obtain ⟨m'', s'', hReach, hFar⟩ := hx
    have := h.steps_le
    exact ⟨m'', s'', h.trans hReach, by omega⟩

theorem after {x : Answer α} {p' : Palette} (h : s.Moves m.palette s' p')
    (hx : (Machine.mk p' (m.steps + 1)).Realizes s' fuel Q x) : m.Realizes s fuel Q x :=
  of_reaches (.tail .refl (step_of_moves h)) hx

/-- A transition pays for a unit of fuel. -/
theorem head {x : Answer α} {p' : Palette} (h : s.Moves m.palette s' p')
    (hx : (Machine.mk p' (m.steps + 1)).Realizes s' fuel Q x) : m.Realizes s (fuel + 1) Q x := by
  cases x with
  | done a =>
    obtain ⟨m', s'', hReach, hQ⟩ := hx
    exact ⟨m', s'', .head (step_of_moves h) hReach, hQ⟩
  | failed f => exact Yields.of_reaches (.tail .refl (step_of_moves h)) hx
  | unfinished =>
    obtain ⟨m', s'', hReach, hFar⟩ := hx
    refine ⟨m', s'', .head (step_of_moves h) hReach, ?_⟩
    dsimp only at hFar
    omega

/-- First follow one answer, then what comes after it. -/
theorem bind {Q' : Machine → State → β → Prop} {x : Answer α} {next : α → Answer β}
    (hx : m.Realizes s fuel Q x)
    (hNext : ∀ m' s' a, Q m' s' a → m'.Realizes s' fuel Q' (next a)) :
    m.Realizes s fuel Q' (x >>= next) := by
  cases x with
  | done a =>
    obtain ⟨m', s', hReach, hQ⟩ := hx
    exact (hNext m' s' a hQ).of_reaches hReach
  | failed f => exact hx
  | unfinished => exact hx

/-- Going on from where the result is. -/
theorem extend {Q' : Machine → State → α → Prop} {x : Answer α} (hx : m.Realizes s fuel Q x)
    (hNext : ∀ m' s' a, Q m' s' a → ∃ m'' s'', m'.Reaches s' m'' s'' ∧ Q' m'' s'' a) :
    m.Realizes s fuel Q' x := by
  cases x with
  | done a =>
    obtain ⟨m', s', hReach, hQ⟩ := hx
    obtain ⟨m'', s'', hMore, hQ'⟩ := hNext m' s' a hQ
    exact ⟨m'', s'', hReach.trans hMore, hQ'⟩
  | failed f => exact hx
  | unfinished => exact hx

theorem of_fault {f : Fault} (hResult : s.result? = none) (h : s.Faults f) :
    m.Realizes s fuel Q (.failed f) :=
  yields_error_iff.mpr ⟨m, s, .refl, hResult, h⟩

end Realizes

end Machine

/-! ### Returning past binding frames -/

section

variable {ρ ρ' : Ident → Option Result}

/-- The state hands a value for the result `r` to `k`.  More colors may have got a result on the
way there. -/
def Delivers (ρ : Ident → Option Result) (k : EvalStack) (m : Machine) (s : State)
    (r : Result) : Prop :=
  ∃ v ρ', s = .deliver v k ∧ Extends ρ ρ' ∧ Issued m.palette ρ' ∧ StandsFor ρ' k.scope v r

theorem Delivers.weaken {k : EvalStack} {m : Machine} {s : State} {r : Result}
    (hρ : Extends ρ ρ') (h : Delivers ρ' k m s r) : Delivers ρ k m s r := by
  obtain ⟨v, ρ'', hs, hMore, hIssued, hValue⟩ := h
  exact ⟨v, ρ'', hs, hρ.trans hMore, hIssued, hValue⟩

theorem Machine.Realizes.weaken {k : EvalStack} {m : Machine} {s : State} {fuel : Nat}
    {x : Answer Result} (hρ : Extends ρ ρ') (h : m.Realizes s fuel (Delivers ρ' k) x) :
    m.Realizes s fuel (Delivers ρ k) x := by
  refine h.extend ?_
  intro m' s' r hDelivers
  exact ⟨m', s', .refl, hDelivers.weaken hρ⟩

theorem EvalStack.Each.of_bindAll {rule : StackRule} {bindings : List (Ident × Value)}
    {k : EvalStack} (h : (k.bindAll bindings).Each rule) : k.Each rule := by
  induction bindings generalizing k with
  | nil => exact h
  | cons b rest ih => exact (ih h).2

/-- No unstaged value is stopped on its way out of a scope. -/
theorem Machine.reaches_unbind {bindings : List (Ident × Value)} {k : EvalStack} {v : Value}
    {r : Result} (m : Machine) (hStack : (k.bindAll bindings).Each (lexicalRule ρ))
    (h : StandsFor ρ (k.bindAll bindings).scope v r) :
    ∃ m' v', m.Reaches (.deliver v (k.bindAll bindings)) m' (.deliver v' k) ∧
      m'.palette = m.palette ∧ StandsFor ρ k.scope v' r := by
  induction bindings generalizing k with
  | nil => exact ⟨m, v, .refl, rfl, h⟩
  | cons b rest ih =>
    have hRest : ((EvalStack.push (.bind b.1 b.2) k).bindAll rest).Each (lexicalRule ρ) := hStack
    obtain ⟨m₁, w, hReach, hPalette, hInner⟩ := ih hRest h
    have hFrame := hRest.of_bindAll.1
    rw [EvalStack.scope_bind] at hInner
    cases hLeave : Step.leave b.1 b.2 w with
    | error f =>
      obtain ⟨-, c, rfl, -⟩ := Step.leave_eq_error hLeave
      have hKind := hInner.kind_eq
      cases r <;> cases hKind
    | ok w' =>
      have hStep := Machine.step_of_moves (m := m₁) (.deliverBind (k := k) hLeave)
      exact ⟨_, w', .tail hReach hStep, hPalette, hInner.leave hFrame hLeave⟩

theorem Delivers.unbind {bindings : List (Ident × Value)} {k : EvalStack} {m : Machine}
    {s : State} {r : Result} (hStack : (k.bindAll bindings).Each (lexicalRule ρ))
    (h : Delivers ρ (k.bindAll bindings) m s r) :
    ∃ m' s', m.Reaches s m' s' ∧ Delivers ρ k m' s' r := by
  obtain ⟨v, ρ', rfl, hρ, hIssued, hValue⟩ := h
  obtain ⟨m', v', hReach, hPalette, hOut⟩ :=
    m.reaches_unbind (hStack.mono (lexicalRule_mono hρ)) hValue
  refine ⟨m', .deliver v' k, hReach, v', ρ', rfl, hρ, ?_, hOut⟩
  rw [hPalette]
  exact hIssued

end

/-! ### The machine does what the evaluator answers -/

/-- A term is about to be evaluated on both sides, in agreement. -/
structure Ready (ρ : Ident → Option Result) (m : Machine) (env : Renaming) (scope : Env) (t : Term)
    (k : EvalStack) : Prop where
  unstaged : t.isStaged = false
  agrees : Agrees ρ k.scope env scope t
  stack : k.Each (lexicalRule ρ)
  issued : Issued m.palette ρ

/-- With so much fuel the machine does what the evaluator answers, on any stack. -/
def Faithful (fuel : Nat) : Prop :=
  ∀ {ρ : Ident → Option Result} {m : Machine} {env : Renaming} {scope : Env} {t : Term}
    {k : EvalStack}, Ready ρ m env scope t k →
      m.Realizes (.eval env t k) fuel (Delivers ρ k) (Lexical.eval fuel scope t)

section

variable {ρ ρ' : Ident → Option Result} {m : Machine} {env : Renaming} {scope : Env}
  {k : EvalStack} {fuel : Nat}

/-- A value that is there at once. -/
theorem realizes_value {s : State} {v : Value} {r : Result} {p' : Palette}
    (hMoves : s.Moves m.palette (.deliver v k) p') (hρ : Extends ρ ρ') (hIssued : Issued p' ρ')
    (hValue : StandsFor ρ' k.scope v r) : m.Realizes s fuel (Delivers ρ k) (.done r) :=
  ⟨_, _, .tail .refl (Machine.step_of_moves hMoves), v, ρ', rfl, hρ, hIssued, hValue⟩

theorem realizes_var {id : Ident} (h : Ready ρ m env scope (.var id) k) :
    m.Realizes (.eval env (.var id) k) (fuel + 1) (Delivers ρ k)
      (Lexical.eval (fuel + 1) scope (.var id)) := by
  obtain ⟨c, r, hName, hc, hColor, hScope⟩ := h.agrees id (Term.occursFree_var.mpr rfl)
  obtain ⟨v, hFound, hValue⟩ := h.stack.lookup_standsFor hc hColor
  have hEval : Lexical.eval (fuel + 1) scope (.var id) = .done r := by
    rw [Lexical.eval, hScope]
    rfl
  rw [hEval]
  exact realizes_value (.evalVar hName hFound) (Extends.refl ρ) h.issued hValue

theorem realizes_lam {param : Ident} {body : Term} (h : Ready ρ m env scope (.lam param body) k) :
    m.Realizes (.eval env (.lam param body) k) (fuel + 1) (Delivers ρ k)
      (Lexical.eval (fuel + 1) scope (.lam param body)) := by
  refine realizes_value (.evalLam env param body k) (Extends.refl ρ) h.issued (.bare ?_)
  refine ⟨rfl, nofun, ⟨rfl, rfl, h.unstaged⟩, ?_⟩
  exact h.agrees.mono (Extends.refl ρ) Set.subset_union_right

/-- A fixpoint gets a color of its own, which stands for the function itself. -/
theorem realizes_fix {self : Ident} {body : Term} (h : Ready ρ m env scope (.fix self body) k) :
    m.Realizes (.eval env (.fix self body) k) (fuel + 1) (Delivers ρ k)
      (Lexical.eval (fuel + 1) scope (.fix self body)) := by
  cases body with
  | lam param body =>
    have hFresh := h.issued.tint_eq_none self
    refine realizes_value (.evalFix env self param body k)
      (extends_assign hFresh (.function (some self) param body scope)) (h.issued.assign self _)
      (.bare ⟨rfl, ?_, ⟨rfl, rfl, h.unstaged⟩, ?_⟩)
    · intro c hc
      obtain rfl := Option.some.inj hc
      exact assign_self _ _
    · refine Agrees.mono (Extends.refl _) ?_ (Agrees.under hFresh h.agrees.fix)
      exact Set.insert_subset (.inl rfl) Set.subset_union_right
  | _ => exact .of_fault rfl (.evalFix rfl)

/-- Calling a function puts its bindings back, and the value of the body takes them along. -/
theorem realizes_call (ih : Faithful fuel) {v w : Value} {f a : Result}
    (hStack : k.Each (lexicalRule ρ)) (hIssued : Issued m.palette ρ)
    (hFn : StandsFor ρ k.scope v f) (hArg : StandsFor ρ k.scope w a) :
    m.Realizes (.deliver w (.push (.applied v) k)) fuel (Delivers ρ k)
      (Lexical.call (Lexical.eval fuel) f a) := by
  have hShows := hFn.shows
  cases f with
  | int | bool =>
    subst hShows
    exact .of_fault rfl (.deliverCall nofun)
  | function self? param body scope =>
    obtain ⟨fn, captured, rfl⟩ := hShows
    obtain ⟨hEnter, hBare⟩ := hFn.enter (lexicalRule_keeps ρ) hStack
    obtain ⟨-, -, ⟨rfl, rfl, hUnstaged⟩, hAgrees⟩ := hBare
    have hFresh := hIssued.tint_eq_none fn.param
    have hGrow := k.scope_subset_enter fn captured
    rw [← EvalStack.scope_enter] at hAgrees
    have hρ := extends_assign hFresh a
    have hNew : (EvalStack.push (.bind (m.palette.tint fn.param) w) (k.enter fn captured)).Each
        (lexicalRule (assign ρ (m.palette.tint fn.param) a)) :=
      ⟨⟨a, assign_self _ a, hArg.mono hρ hGrow⟩, hEnter.mono (lexicalRule_mono hρ)⟩
    refine .after (.deliverCall fn captured w k) (.weaken hρ ?_)
    refine (ih ⟨hUnstaged, ?_, hNew, hIssued.assign fn.param a⟩).extend ?_
    · rw [EvalStack.scope_bind]
      exact Agrees.under hFresh hAgrees
    · intro m' s' r hDelivers
      obtain ⟨bindings, hBindings⟩ :=
        k.enter_eq_bindAll fn captured (m.palette.tint fn.param) w
      rw [hBindings] at hDelivers hNew
      exact hDelivers.unbind hNew

/-- A part of a term is evaluated over a new frame that binds nothing, and its value is handed to
that frame.  By then more colors may have a result. -/
theorem realizes_part (ih : Faithful fuel) {t : Term} {frame : EvalFrame}
    {next : Result → Answer Result} (hBinder : frame.binder? = none)
    (hPart : Ready ρ m env scope t k)
    (hNext : ∀ (m' : Machine) ρ' v r, Extends ρ ρ' → k.Each (lexicalRule ρ') →
      Issued m'.palette ρ' → StandsFor ρ' k.scope v r →
        m'.Realizes (.deliver v (.push frame k)) fuel (Delivers ρ' k) (next r)) :
    m.Realizes (.eval env t (.push frame k)) fuel (Delivers ρ k)
      (Lexical.eval fuel scope t >>= next) := by
  have hScope := EvalStack.scope_push (k := k) hBinder
  have hReady : Ready ρ m env scope t (.push frame k) := by
    refine ⟨hPart.unstaged, ?_, ⟨?_, hPart.stack⟩, hPart.issued⟩
    · rw [hScope]
      exact hPart.agrees
    · cases frame with
      | bind => cases hBinder
      | _ => trivial
  refine .bind (ih hReady) ?_
  rintro m' s' r ⟨v, ρ', rfl, hρ, hIssued, hValue⟩
  rw [hScope] at hValue
  exact .weaken hρ (hNext m' ρ' v r hρ (hPart.stack.mono (lexicalRule_mono hρ)) hIssued hValue)

theorem realizes_app (ih : Faithful fuel) {fn arg : Term}
    (h : Ready ρ m env scope (.app fn arg) k) :
    m.Realizes (.eval env (.app fn arg) k) (fuel + 1) (Delivers ρ k)
      (Lexical.eval (fuel + 1) scope (.app fn arg)) := by
  obtain ⟨hUnstaged, hAgrees, hStack, hIssued⟩ := h
  obtain ⟨hFnUnstaged, hArgUnstaged⟩ := Bool.or_eq_false_iff.mp hUnstaged
  obtain ⟨hFn, hArg⟩ := hAgrees.app
  refine .head (.evalApp env fn arg k) ?_
  refine realizes_part ih rfl ⟨hFnUnstaged, hFn, hStack, hIssued⟩ ?_
  intro m₁ ρ₁ v f hρ₁ hStack₁ hIssued₁ hValue
  refine .after (.deliverApplyTo v arg env k) ?_
  refine realizes_part ih rfl ⟨hArgUnstaged, Agrees.mono hρ₁ subset_rfl hArg, hStack₁, hIssued₁⟩ ?_
  intro m₂ ρ₂ w a hρ₂ hStack₂ hIssued₂ hOperand
  exact realizes_call ih hStack₂ hIssued₂ (hValue.mono hρ₂ subset_rfl) hOperand

/-- The rest of the operands, from the one that is evaluated next. -/
theorem realizes_operands (ih : Faithful fuel) {op : PrimOp} {args : List Term}
    (hLength : args.length = op.arity) (hUnstaged : ∀ a ∈ args, a.isStaged = false)
    {next : Term} {rest : List Term} {done : List Value} {results : List Result}
    (hRest : args.drop done.length = next :: rest)
    (hDone : List.Forall₂ (StandsFor ρ k.scope) done results)
    (hAgrees : ∀ a ∈ args, Agrees ρ k.scope env scope a) (hStack : k.Each (lexicalRule ρ))
    (hIssued : Issued m.palette ρ) :
    m.Realizes (.eval env next (.push (.prim op done args env) k)) fuel (Delivers ρ k)
      (evalAll (Lexical.eval fuel scope) (next :: rest) >>= fun rs =>
        operate op (results ++ rs)) := by
  induction rest generalizing next done results ρ m with
  | nil =>
    have hNext : next ∈ args := List.mem_of_mem_drop (hRest ▸ List.mem_cons_self)
    have hLast : args.length = done.length + 1 := by
      have := congrArg List.length hRest
      rw [List.length_drop, List.length_singleton] at this
      omega
    rw [evalAll, Answer.bind_assoc]
    refine realizes_part ih rfl ⟨hUnstaged next hNext, hAgrees next hNext, hStack, hIssued⟩ ?_
    intro m₁ ρ₁ v r hρ₁ hStack₁ hIssued₁ hValue
    simp only [evalAll, Answer.pure_eq, Answer.done_bind]
    have hAll : List.Forall₂ (StandsFor ρ₁ k.scope) (done ++ [v]) (results ++ [r]) :=
      List.rel_append (hDone.imp fun _ _ h => h.mono hρ₁ subset_rfl) (.cons hValue .nil)
    have hCount : (done ++ [v]).length = args.length := by
      rw [List.length_append, List.length_singleton, hLast]
    have hEnd : args[(done ++ [v]).length]? = none := by
      rw [hCount]
      exact List.getElem?_eq_none (Nat.le_refl _)
    have hSame := realized_operate hAll (hCount.trans hLength)
    cases hOperate : operate op (results ++ [r]) with
    | done r' =>
      rw [hOperate] at hSame
      obtain ⟨v', hApply, hResult⟩ := hSame
      exact realizes_value (.deliverPrimLast hEnd hApply) (Extends.refl ρ₁) hIssued₁ hResult
    | failed f =>
      rw [hOperate] at hSame
      exact .of_fault rfl (.deliverPrim hEnd hSame)
    | unfinished =>
      rw [hOperate] at hSame
      exact hSame.elim
  | cons after rest ihRest =>
    have hNext : next ∈ args := List.mem_of_mem_drop (hRest ▸ List.mem_cons_self)
    rw [evalAll, Answer.bind_assoc]
    refine realizes_part ih rfl ⟨hUnstaged next hNext, hAgrees next hNext, hStack, hIssued⟩ ?_
    intro m₁ ρ₁ v r hρ₁ hStack₁ hIssued₁ hValue
    have hDrop : args.drop (done ++ [v]).length = after :: rest := by
      rw [List.length_append, List.length_singleton, ← List.drop_drop, hRest]
      rfl
    have hAfter : args[(done ++ [v]).length]? = some after := by
      rw [← List.head?_drop, hDrop]
      rfl
    have hAll : List.Forall₂ (StandsFor ρ₁ k.scope) (done ++ [v]) (results ++ [r]) :=
      List.rel_append (hDone.imp fun _ _ h => h.mono hρ₁ subset_rfl) (.cons hValue .nil)
    have hMore := ihRest (m := ⟨m₁.palette, m₁.steps + 1⟩) hDrop hAll
      (fun a ha => (hAgrees a ha).mono hρ₁ subset_rfl) hStack₁ hIssued₁
    rw [Answer.bind_assoc]
    simp only [Answer.pure_eq, Answer.done_bind]
    simp only [List.append_assoc, List.singleton_append] at hMore
    exact .after (.deliverPrimNext hAfter) hMore

theorem realizes_prim (ih : Faithful fuel) {op : PrimOp} {args : List Term}
    (h : Ready ρ m env scope (.prim op args) k) :
    m.Realizes (.eval env (.prim op args) k) (fuel + 1) (Delivers ρ k)
      (Lexical.eval (fuel + 1) scope (.prim op args)) := by
  obtain ⟨hUnstaged, hAgrees, hStack, hIssued⟩ := h
  rw [Term.isStaged, Term.anyIsStaged_eq_any, List.any_eq_false] at hUnstaged
  cases args with
  | nil => exact .of_fault rfl (.evalPrim rfl)
  | cons first rest =>
    by_cases hLength : (first :: rest).length = op.arity
    · have hFirst : Step.firstOperand op (first :: rest) = .ok first := if_pos hLength
      have hEval : Lexical.eval (fuel + 1) scope (.prim op (first :: rest)) =
          evalAll (Lexical.eval fuel scope) (first :: rest) >>= operate op := if_pos hLength
      rw [hEval]
      have hAll : (first :: rest).drop ([] : List Value).length = first :: rest := rfl
      refine .head (.evalPrim hFirst) ?_
      exact realizes_operands ih hLength (fun a ha => Bool.eq_false_iff.mpr (hUnstaged a ha))
        hAll .nil hAgrees.prim hStack hIssued
    · have hFirst : Step.firstOperand op (first :: rest) =
          .error (.arity op (first :: rest).length) := if_neg hLength
      have hEval : Lexical.eval (fuel + 1) scope (.prim op (first :: rest)) =
          .failed (.arity op (first :: rest).length) := if_neg hLength
      rw [hEval]
      exact .of_fault rfl (.evalPrim hFirst)

/-- The check of a truth value, with what comes after it. -/
theorem realizes_truth {consumer : Consumer} {frame : EvalFrame} {v : Value} {r : Result}
    (hValue : StandsFor ρ k.scope v r) {next : Bool → Answer Result}
    (hTrue : ∀ b, v = .bool b →
      m.Realizes (.deliver v (.push frame k)) fuel (Delivers ρ k) (next b))
    (hFalse : ∀ f, Step.truth consumer v = .error f → (State.deliver v (.push frame k)).Faults f) :
    m.Realizes (.deliver v (.push frame k)) fuel (Delivers ρ k)
      (r.asBool consumer >>= next) := by
  have hShows := hValue.shows
  cases r with
  | bool b => exact hTrue b hShows
  | int n =>
    subst hShows
    exact .of_fault rfl (hFalse _ rfl)
  | function =>
    obtain ⟨fn, captured, rfl⟩ := hShows
    exact .of_fault rfl (hFalse _ rfl)

theorem realizes_logic (ih : Faithful fuel) {op : LogicOp} {left right : Term}
    (h : Ready ρ m env scope (.logic op left right) k) :
    m.Realizes (.eval env (.logic op left right) k) (fuel + 1) (Delivers ρ k)
      (Lexical.eval (fuel + 1) scope (.logic op left right)) := by
  obtain ⟨hUnstaged, hAgrees, hStack, hIssued⟩ := h
  obtain ⟨hLeftUnstaged, hRightUnstaged⟩ := Bool.or_eq_false_iff.mp hUnstaged
  obtain ⟨hLeft, hRight⟩ := hAgrees.logic
  refine .head (.evalLogic env op left right k) ?_
  refine realizes_part ih rfl ⟨hLeftUnstaged, hLeft, hStack, hIssued⟩ ?_
  intro m₁ ρ₁ v r hρ₁ hStack₁ hIssued₁ hValue
  refine realizes_truth hValue ?_ fun f hTruth => .deliverLogicLeft hTruth
  rintro b rfl
  by_cases hSettled : b = op.settling
  · rw [if_pos hSettled]
    subst hSettled
    exact realizes_value (.deliverLogicSettled op right env k) (Extends.refl ρ₁) hIssued₁ (.bool _)
  · rw [if_neg hSettled]
    refine .after (.deliverLogicLeft hSettled) ?_
    refine realizes_part ih rfl
      ⟨hRightUnstaged, Agrees.mono hρ₁ subset_rfl hRight, hStack₁, hIssued₁⟩ ?_
    intro m₂ ρ₂ w r' hρ₂ hStack₂ hIssued₂ hOperand
    refine realizes_truth hOperand ?_ fun f hTruth => .deliverLogicRight hTruth
    rintro c rfl
    exact realizes_value (.deliverLogicRight c op k) (Extends.refl ρ₂) hIssued₂ (.bool c)

theorem realizes_ite (ih : Faithful fuel) {cond yes no : Term}
    (h : Ready ρ m env scope (.ite cond yes no) k) :
    m.Realizes (.eval env (.ite cond yes no) k) (fuel + 1) (Delivers ρ k)
      (Lexical.eval (fuel + 1) scope (.ite cond yes no)) := by
  obtain ⟨hUnstaged, hAgrees, hStack, hIssued⟩ := h
  obtain ⟨hBoth, hNoUnstaged⟩ := Bool.or_eq_false_iff.mp hUnstaged
  obtain ⟨hCondUnstaged, hYesUnstaged⟩ := Bool.or_eq_false_iff.mp hBoth
  obtain ⟨hCond, hYes, hNo⟩ := hAgrees.ite
  refine .head (.evalIte env cond yes no k) ?_
  refine realizes_part ih rfl ⟨hCondUnstaged, hCond, hStack, hIssued⟩ ?_
  intro m₁ ρ₁ v r hρ₁ hStack₁ hIssued₁ hValue
  refine realizes_truth hValue ?_ fun f hTruth => .deliverBranch hTruth
  rintro b rfl
  refine .after (.deliverBranch b yes no env k) ?_
  cases b with
  | true => exact ih ⟨hYesUnstaged, Agrees.mono hρ₁ subset_rfl hYes, hStack₁, hIssued₁⟩
  | false => exact ih ⟨hNoUnstaged, Agrees.mono hρ₁ subset_rfl hNo, hStack₁, hIssued₁⟩

theorem realizes_letIn (ih : Faithful fuel) {id : Ident} {bound body : Term}
    (h : Ready ρ m env scope (.letIn id bound body) k) :
    m.Realizes (.eval env (.letIn id bound body) k) (fuel + 1) (Delivers ρ k)
      (Lexical.eval (fuel + 1) scope (.letIn id bound body)) := by
  obtain ⟨hUnstaged, hAgrees, hStack, hIssued⟩ := h
  obtain ⟨hBoundUnstaged, hBodyUnstaged⟩ := Bool.or_eq_false_iff.mp hUnstaged
  obtain ⟨hBound, hBody⟩ := hAgrees.letIn
  refine .head (.evalLet env id bound body k) ?_
  refine realizes_part ih rfl ⟨hBoundUnstaged, hBound, hStack, hIssued⟩ ?_
  intro m₁ ρ₁ v r hρ₁ hStack₁ hIssued₁ hValue
  have hFresh := hIssued₁.tint_eq_none id
  have hρ₂ := extends_assign hFresh r
  have hStack₂ : (k.bindAll [(m₁.palette.tint id, v)]).Each
      (lexicalRule (assign ρ₁ (m₁.palette.tint id) r)) :=
    ⟨⟨r, assign_self _ r, hValue.mono hρ₂ subset_rfl⟩, hStack₁.mono (lexicalRule_mono hρ₂)⟩
  refine .after (.deliverLet v id body env k) (.weaken hρ₂ ?_)
  refine (ih ⟨hBodyUnstaged, ?_, hStack₂, hIssued₁.assign id r⟩).extend ?_
  · rw [EvalStack.bindAll_cons, EvalStack.bindAll_nil, EvalStack.scope_bind]
    exact Agrees.under hFresh (Agrees.mono hρ₁ subset_rfl hBody)
  · intro m₂ s₂ r' hDelivers
    exact hDelivers.unbind hStack₂

end

/-- **The machine does what the evaluator answers**, with any fuel and over any stack. -/
theorem Machine.realizes_eval (fuel : Nat) : Faithful fuel := by
  induction fuel with
  | zero => exact fun _ => ⟨_, _, .refl, Nat.le_refl _⟩
  | succ fuel ih =>
    intro ρ m env scope t k h
    cases t with
    | var => exact realizes_var h
    | lam => exact realizes_lam h
    | fix => exact realizes_fix h
    | int n => exact realizes_value (.evalInt env n k) (Extends.refl ρ) h.issued (.int n)
    | bool b => exact realizes_value (.evalBool env b k) (Extends.refl ρ) h.issued (.bool b)
    | app => exact realizes_app ih h
    | prim => exact realizes_prim ih h
    | logic => exact realizes_logic ih h
    | ite => exact realizes_ite ih h
    | letIn => exact realizes_letIn ih h
    | quote | splice => cases h.unstaged

end StagedLambda
