import Mathlib
import StagedLambda.Proofs.Lexical.Refinement
import StagedLambda.Proofs.Typing.Inference

/-!
# Type soundness

The type of a term is kept by evaluation: an answer is a result of that type, or an arithmetic
fault, or unfinished (`Lexical.eval_safe`, by induction on the fuel).  Functions are typed together
with their environments, and a fixpoint may use itself at the type that it has.  The machine ends
as the evaluator answers, so the same holds of its runs.

* `Machine.type_soundness`: a program with a type fails at most with an arithmetic fault, and the
  value it finishes with is of the kind of its type.  A type that inference leaves undetermined
  has no values.
-/

namespace StagedLambda

namespace Lexical

/-! ### Types of results -/

mutual

/-- A result has a type. -/
inductive Result.HasType : Result → Ty → Prop
  | int (n : Int64) : Result.HasType (.int n) .int
  | bool (b : Bool) : Result.HasType (.bool b) .bool
  | function {self? : Option Ident} {param : Ident} {body : Term} {scope : List (Ident × Result)}
      {Γ : Context} {A B : Ty} (hScope : Env.HasTypes scope Γ)
      (hBody : StagedLambda.HasType ((param, A) :: bindSelf self? (.fn A B) Γ) body B) :
      Result.HasType (.function self? param body scope) (.fn A B)

/-- The results of an environment have the types of a context. -/
inductive Env.HasTypes : List (Ident × Result) → Context → Prop
  | nil : Env.HasTypes [] []
  | cons {id : Ident} {r : Result} {T : Ty} {scope : List (Ident × Result)} {Γ : Context}
      (hResult : Result.HasType r T) (hScope : Env.HasTypes scope Γ) :
      Env.HasTypes ((id, r) :: scope) ((id, T) :: Γ)

end

theorem Env.HasTypes.lookup {scope : Env} {Γ : Context} {id : Ident} {T : Ty}
    (h : Env.HasTypes scope Γ) (hLookup : Γ.lookup id = some T) :
    ∃ r, scope.lookup id = some r ∧ r.HasType T := by
  induction scope generalizing Γ with
  | nil =>
    cases h
    cases hLookup
  | cons b rest ih =>
    cases h with
    | @cons id' r _ _ _ hResult hScope =>
      rw [List.lookup_cons] at hLookup ⊢
      cases hSame : id == id' with
      | true =>
        rw [hSame] at hLookup
        obtain rfl := Option.some.inj hLookup
        exact ⟨r, rfl, hResult⟩
      | false =>
        rw [hSame] at hLookup
        exact ih hScope hLookup

/-- A function's environment with the function itself in it. -/
theorem Env.HasTypes.bindSelf {scope : Env} {Γ : Context} {r : Result} {T : Ty}
    (h : Env.HasTypes scope Γ) (hResult : r.HasType T) (self? : Option Ident) :
    Env.HasTypes (bindSelf self? r scope) (bindSelf self? T Γ) := by
  cases self? with
  | none => exact h
  | some self => exact .cons hResult h

/-! ### Safe answers -/

/-- A result is as wanted; a fault comes from arithmetic. -/
def Answer.Safe {α : Type} (Q : α → Prop) : Answer α → Prop
  | .done a => Q a
  | .failed f => ∃ op, f = .divisionByZero op ∨ f = .overflow op
  | .unfinished => True

theorem Answer.Safe.bind {α β : Type} {Q : α → Prop} {Q' : β → Prop} {x : Answer α}
    {next : α → Answer β} (hx : x.Safe Q) (hNext : ∀ a, Q a → (next a).Safe Q') :
    (x >>= next).Safe Q' := by
  cases x with
  | done a => exact hNext a hx
  | failed f => exact hx
  | unfinished => trivial

theorem Result.HasType.asInt_safe {r : Result} (h : r.HasType .int) (consumer : Consumer) :
    (r.asInt consumer).Safe fun _ => True := by
  cases h
  trivial

theorem Result.HasType.asBool_safe {r : Result} (h : r.HasType .bool) (consumer : Consumer) :
    (r.asBool consumer).Safe fun _ => True := by
  cases h
  trivial

theorem compute_safe (op : ArithOp) (a b : Int64) :
    (Answer.ofExcept (Arithmetic.compute op a b)).Safe fun _ => True := by
  cases hCompute : Arithmetic.compute op a b with
  | ok n => trivial
  | error f => exact ⟨op, Arithmetic.compute_eq_error hCompute⟩

/-- The results of operands have the declared kinds. -/
abbrev OfKinds (rs : List Result) (kinds : List BaseKind) : Prop :=
  List.Forall₂ (fun r kind => Result.HasType r kind.toTy) rs kinds

theorem OfKinds.int_pair {rs : List Result} (h : OfKinds rs [.int, .int]) :
    ∃ r r', rs = [r, r'] ∧ r.HasType .int ∧ r'.HasType .int := by
  cases h with
  | cons hFirst hRest =>
    cases hRest with
    | cons hSecond hNil =>
      cases hNil
      exact ⟨_, _, rfl, hFirst, hSecond⟩

theorem OfKinds.bool_single {rs : List Result} (h : OfKinds rs [.bool]) :
    ∃ r, rs = [r] ∧ r.HasType .bool := by
  cases h with
  | cons hFirst hNil =>
    cases hNil
    exact ⟨_, rfl, hFirst⟩

/-- Primitives keep types. -/
theorem operate_safe {op : PrimOp} {rs : List Result} (h : OfKinds rs op.operands) :
    (operate op rs).Safe fun r => r.HasType op.result.toTy := by
  cases op with
  | negate =>
    obtain ⟨r, rfl, hr⟩ := h.bool_single
    exact (hr.asBool_safe _).bind fun b _ => .bool _
  | compare o =>
    obtain ⟨r, r', rfl, hr, hr'⟩ := h.int_pair
    refine (hr.asInt_safe _).bind fun a _ => (hr'.asInt_safe _).bind fun b _ => ?_
    exact .bool _
  | arith o =>
    obtain ⟨r, r', rfl, hr, hr'⟩ := h.int_pair
    refine (hr.asInt_safe _).bind fun a _ => (hr'.asInt_safe _).bind fun b _ => ?_
    exact (compute_safe o a b).bind fun n _ => .int n

theorem evalAll_safe {eval : Term → Answer Result} {args : List Term} {kinds : List BaseKind}
    (hLength : args.length = kinds.length)
    (h : ∀ kind arg, (kind, arg) ∈ kinds.zip args →
      (eval arg).Safe fun r => r.HasType kind.toTy) :
    (evalAll eval args).Safe fun rs => OfKinds rs kinds := by
  induction args generalizing kinds with
  | nil =>
    obtain rfl := List.length_eq_zero_iff.mp hLength.symm
    exact .nil
  | cons arg args ih =>
    cases kinds with
    | nil => cases hLength
    | cons kind kinds =>
      refine (h kind arg List.mem_cons_self).bind fun r hr => ?_
      refine (ih (Nat.succ.inj hLength) ?_).bind fun rs hrs => .cons hr hrs
      exact fun kind' arg' hZip => h kind' arg' (List.mem_cons_of_mem _ hZip)

/-! ### Evaluation keeps types -/

/-- A function of a function type is called with an argument of its parameter's type. -/
theorem call_safe {fuel : Nat} {f a : Result} {A B : Ty} (hFn : f.HasType (.fn A B))
    (hArg : a.HasType A)
    (ih : ∀ {scope : Env} {Γ : Context} {t : Term} {T : Ty}, Env.HasTypes scope Γ →
      HasType Γ t T → (eval fuel scope t).Safe fun r => r.HasType T) :
    (call (eval fuel) f a).Safe fun r => r.HasType B := by
  cases hFn with
  | function hScope hBody =>
    exact ih (.cons hArg (hScope.bindSelf (.function hScope hBody) _)) hBody

/-- **Evaluation keeps types.** -/
theorem eval_safe (fuel : Nat) {scope : Env} {Γ : Context} {t : Term} {T : Ty}
    (hScope : Env.HasTypes scope Γ) (h : HasType Γ t T) :
    (eval fuel scope t).Safe fun r => r.HasType T := by
  induction fuel generalizing scope Γ t T with
  | zero => trivial
  | succ fuel ih =>
    cases h with
    | var hLookup =>
      obtain ⟨r, hFound, hResult⟩ := hScope.lookup hLookup
      rw [eval, hFound]
      exact hResult
    | int _ n => exact Result.HasType.int n
    | bool _ b => exact Result.HasType.bool b
    | lam hBody => exact Result.HasType.function hScope hBody
    | fix hBody =>
      -- The body of a fixpoint is an abstraction, so its type is that of a function.
      cases hBody with
      | lam hInner => exact Result.HasType.function hScope hInner
    | app hFn hArg =>
      refine (ih hScope hFn).bind fun f hf => ?_
      refine (ih hScope hArg).bind fun a ha => ?_
      exact call_safe hf ha ih
    | @prim _ op args hLength hArgs =>
      cases args with
      | nil => exact absurd hLength (Nat.ne_of_lt op.arity_pos)
      | cons first rest =>
        have hEval : eval (fuel + 1) scope (.prim op (first :: rest)) =
            evalAll (eval fuel scope) (first :: rest) >>= operate op := if_pos hLength
        rw [hEval]
        refine (evalAll_safe hLength ?_).bind fun rs hrs => operate_safe hrs
        exact fun kind arg hZip => ih hScope (hArgs kind arg hZip)
    | logic op hLeft hRight =>
      refine (ih hScope hLeft).bind fun r hr => ?_
      refine (hr.asBool_safe _).bind fun b _ => ?_
      by_cases hSettled : b = op.settling
      · rw [if_pos hSettled]
        exact Result.HasType.bool b
      · rw [if_neg hSettled]
        refine (ih hScope hRight).bind fun r' hr' => ?_
        exact (hr'.asBool_safe _).bind fun c _ => .bool c
    | ite hCond hYes hNo =>
      refine (ih hScope hCond).bind fun r hr => ?_
      refine (hr.asBool_safe _).bind fun b _ => ?_
      cases b with
      | true => exact ih hScope hYes
      | false => exact ih hScope hNo
    | letIn hBound hBody =>
      refine (ih hScope hBound).bind fun r hr => ?_
      exact ih (.cons hr hScope) hBody

end Lexical

/-! ### Runs of typed programs -/

/-- The kind of the values of a type. An undetermined type has none. -/
def Ty.kind? : Ty → Option Kind
  | .int => some .int
  | .bool => some .bool
  | .fn _ _ => some .function
  | .var _ => none

theorem Lexical.Result.HasType.kind?_eq {r : Lexical.Result} {T : Ty} (h : r.HasType T) {v : Value}
    (hShows : r.Shows v) : T.kind? = some v.kind := by
  cases h with
  | int | bool =>
    rw [hShows]
    rfl
  | function =>
    obtain ⟨fn, captured, rfl⟩ := hShows
    rfl

/-- **Type soundness.**  A run of a program with a type fails only with a division by zero or an
overflow; and where it finishes, the value is of the kind of the type, which is then determined. -/
theorem Machine.type_soundness {e : Term} {T : Ty} (hType : e.typeOf = .ok T) (m : Machine) :
    (∀ f, m.Yields (.initial e) (.error f) → ∃ op, f = .divisionByZero op ∨ f = .overflow op) ∧
    ∀ v, m.Yields (.initial e) (.ok v) → T.kind? = some v.kind := by
  have hTyped := Term.hasType_of_typeOf hType
  have hClosed : e.Closed := by
    intro id
    exact Bool.eq_false_iff.mpr fun hid => hTyped.closed id hid rfl
  have hUnstaged := hTyped.unstaged
  constructor
  · intro f h
    obtain ⟨fuel, hEval⟩ := h.exists_failed hClosed hUnstaged
    have hSafe := Lexical.eval_safe fuel .nil hTyped
    rw [hEval] at hSafe
    exact hSafe
  · intro v h
    obtain ⟨fuel, r, hEval, hShows⟩ := h.exists_done hClosed hUnstaged
    have hSafe := Lexical.eval_safe fuel .nil hTyped
    rw [hEval] at hSafe
    exact Lexical.Result.HasType.kind?_eq hSafe hShows

/-- A recursive program counts down to its result, `(fn x -> 1 / x) 0` fails with an arithmetic
fault, and `(fix f -> fn n -> f n) 0`, whose type is undetermined, does not finish. -/
theorem Machine.type_soundness_countdown :
    (∃ v, ({} : Machine).Yields (.initial (.app (.fix (.raw "f") (.lam (.raw "n")
          (.ite (.prim (.compare .eq) [.var (.raw "n"), .int 0]) (.int 7)
            (.app (.var (.raw "f")) (.prim (.arith .sub) [.var (.raw "n"), .int 1])))))
          (.int 1))) (.ok v) ∧ Ty.int.kind? = some v.kind) ∧
    (∃ f, ({} : Machine).Yields (.initial (.app (.lam (.raw "x")
          (.prim (.arith .div) [.int 1, .var (.raw "x")])) (.int 0))) (.error f) ∧
        ∃ op, f = .divisionByZero op ∨ f = .overflow op) ∧
    ∀ v, ¬({} : Machine).Yields (.initial (.app (.fix (.raw "f") (.lam (.raw "n")
        (.app (.var (.raw "f")) (.var (.raw "n"))))) (.int 0))) (.ok v) := by
  have hCount : (Term.app (.fix (.raw "f") (.lam (.raw "n")
      (.ite (.prim (.compare .eq) [.var (.raw "n"), .int 0]) (.int 7)
        (.app (.var (.raw "f")) (.prim (.arith .sub) [.var (.raw "n"), .int 1])))))
      (.int 1)).typeOf = .ok .int := by cbv
  have hDivide : (Term.app (.lam (.raw "x")
      (.prim (.arith .div) [.int 1, .var (.raw "x")])) (.int 0)).typeOf = .ok .int := by cbv
  have hLoop : (Term.app (.fix (.raw "f") (.lam (.raw "n")
      (.app (.var (.raw "f")) (.var (.raw "n"))))) (.int 0)).typeOf = .ok (.var 3) := by cbv
  refine ⟨⟨.int 7, ⟨40, rfl⟩, ?_⟩, ⟨.divisionByZero .div, ⟨20, rfl⟩, ?_⟩, ?_⟩
  · exact (Machine.type_soundness hCount {}).2 _ ⟨40, rfl⟩
  · exact (Machine.type_soundness hDivide {}).1 _ ⟨20, rfl⟩
  · intro v hYields
    cases (Machine.type_soundness hLoop {}).2 v hYields

end StagedLambda
