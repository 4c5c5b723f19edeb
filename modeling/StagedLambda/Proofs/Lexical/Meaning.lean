import Mathlib.Data.List.Forall2
import StagedLambda.Proofs.Lexical.Evaluator
import StagedLambda.Proofs.Machine.Binding
import StagedLambda.Proofs.Term.Names

/-!
# What the values of the machine stand for

A function of the machine does not hold the values of its variables, a result of the evaluator
does.  The two are related through the colors: `ρ` gives to each color issued so far the result
that it stands for, once and for all.  A value then stands for a result in the scope of a stack
(`lexicalReading`), and each binding frame holds a value that stands for the result of its color
(`lexicalRule`).

* `Agrees.under`: entering a binder keeps the two sides in agreement.
* `EvalStack.Each.lookup_standsFor`: a search gives what the environment gives.
* `realized_operate`: primitives do the same on values as on results.
-/

namespace StagedLambda

open Lexical

/-- An occurrence of `x` is renamed to a color of the scope that stands for what the environment
gives to `x`. -/
def Meant (ρ : Ident → Option Result) (S : Set Ident) (env : Renaming) (scope : Env)
    (x : Ident) : Prop :=
  ∃ c r, env.resolve x = some c ∧ c ∈ S ∧ ρ c = some r ∧ scope.lookup x = some r

/-- The free identifiers of a term mean the same to the machine and to the evaluator. -/
abbrev Agrees (ρ : Ident → Option Result) (S : Set Ident) (env : Renaming) (scope : Env)
    (t : Term) : Prop := t.EachFree (Meant ρ S env scope)

section

variable {ρ ρ' : Ident → Option Result} {S S' : Set Ident} {env : Renaming} {scope : Env}

theorem Agrees.mono {t : Term} (hρ : Extends ρ ρ') (hS : S ⊆ S') (h : Agrees ρ S env scope t) :
    Agrees ρ' S' env scope t := by
  refine Term.EachFree.mono ?_ h
  rintro x ⟨c, r, hName, hc, hColor, hScope⟩
  exact ⟨c, r, hName, hS hc, hρ hColor, hScope⟩

/-- **Entering a binder.**  Both sides bind it, the machine to a new color for the same result. -/
theorem Agrees.under {param c : Ident} {body : Term} {r : Result} (hFresh : ρ c = none)
    (h : Agrees ρ S env scope (.lam param body)) :
    Agrees (assign ρ c r) (insert c S) (env.bind param c) ((param, r) :: scope) body := by
  intro x hx
  by_cases hParam : param = x
  · subst hParam
    refine ⟨c, r, ?_, Set.mem_insert c S, assign_self c r, ?_⟩
    · rw [Renaming.resolve, Renaming.lookup_bind, if_pos rfl]
    · rw [List.lookup_cons_self]
  · obtain ⟨d, r', hName, hd, hColor, hScope⟩ := h x (Term.occursFree_lam.mpr ⟨hParam, hx⟩)
    refine ⟨d, r', ?_, Set.mem_insert_of_mem c hd, extends_assign hFresh r hColor, ?_⟩
    · rw [Renaming.resolve, Renaming.lookup_bind, if_neg (Ne.symm hParam)]
      exact hName
    · rw [List.lookup_cons, beq_false_of_ne (Ne.symm hParam)]
      exact hScope

/-- What can be told of a value from the result it stands for. -/
def Lexical.Result.Shows : Result → Value → Prop
  | .int n, v => v = .int n
  | .bool b, v => v = .bool b
  | .function _ _ _ _, v => ∃ fn captured, v = .closure fn captured

theorem Lexical.Result.Shows.eq_int {r : Result} {n : Int64} (h : r.Shows (.int n)) :
    r = .int n := by
  cases r with
  | int => exact congrArg Result.int (Value.int.inj h).symm
  | bool => cases h
  | function =>
    obtain ⟨_, _, h⟩ := h
    cases h

theorem Lexical.Result.Shows.eq_bool {r : Result} {b : Bool} (h : r.Shows (.bool b)) :
    r = .bool b := by
  cases r with
  | int => cases h
  | bool => exact congrArg Result.bool (Value.bool.inj h).symm
  | function =>
    obtain ⟨_, _, h⟩ := h
    cases h

theorem Lexical.Result.Shows.eq_function {r : Result} {fn : Abstraction}
    {captured : List (Ident × Value)} (h : r.Shows (.closure fn captured)) :
    ∃ self? param body scope, r = .function self? param body scope := by
  cases r with
  | int | bool => cases h
  | function => exact ⟨_, _, _, _, rfl⟩

theorem Lexical.Result.Shows.not_code {r : Result} {c : Term} (h : r.Shows (.code c)) : False := by
  cases r with
  | int | bool => cases h
  | function =>
    obtain ⟨_, _, h⟩ := h
    cases h

/-- Numbers and truth values stand for themselves.  A function stands for one with the same
parameter and body whose environment agrees with its renaming; a fixpoint's own color counts as
part of the scope. -/
def lexicalReading : Reading Result where
  bare ρ S v r :=
    match v, r with
    | .int n, .int n' => n = n'
    | .bool b, .bool b' => b = b'
    | .closure fn captured, .function self? param body scope =>
      captured = [] ∧ (∀ c, fn.self? = some c → ρ c = some r) ∧
        (fn.param = param ∧ fn.body = body ∧ body.isStaged = false) ∧
        Agrees ρ (fn.inner S) fn.env (bindSelf self? r scope) (.lam param body)
    | _, _ => False
  mono := by
    intro ρ ρ' S S' v r hρ hS h
    cases v <;> cases r <;> try exact h
    obtain ⟨hNil, hSelf, hSame, hAgrees⟩ := h
    exact ⟨hNil, fun c hc => hρ (hSelf c hc), hSame,
      hAgrees.mono hρ (Abstraction.inner_mono hS)⟩
  leave := by
    intro ρ S v r c bound h hKind _
    cases v with
    | int | bool => cases r <;> exact h
    | closure => exact absurd rfl hKind
    | code => cases r <;> exact h
  captured_eq_nil := by
    intro ρ S fn captured r h
    cases r with
    | function => exact h.1
    | int | bool => cases h
  self_eq := by
    intro ρ S fn r c h hSelf
    cases r with
    | function => exact h.2.1 c hSelf
    | int | bool => cases h

/-- A value stands for a result. -/
abbrev StandsFor (ρ : Ident → Option Result) (S : Set Ident) (v : Value) (r : Result) : Prop :=
  Fits lexicalReading ρ S v r

theorem StandsFor.int (n : Int64) : StandsFor ρ S (.int n) (.int n) := .bare rfl

theorem StandsFor.bool (b : Bool) : StandsFor ρ S (.bool b) (.bool b) := .bare rfl

theorem StandsFor.shows {v : Value} {r : Result} (h : StandsFor ρ S v r) : r.Shows v := by
  induction h with
  | @bare S v r h =>
    cases v <;> cases r <;> first | exact h.elim | skip
    · exact congrArg Value.int h
    · exact congrArg Value.bool h
    · exact ⟨_, _, rfl⟩
  | @captured S c bound fn rest r j _ _ _ _ ih =>
    cases r with
    | int | bool => cases ih
    | function => exact ⟨_, _, rfl⟩

theorem StandsFor.kind_eq {v : Value} {r : Result} (h : StandsFor ρ S v r) : v.kind = r.kind := by
  have hShows := h.shows
  cases r with
  | int | bool =>
    rw [hShows]
    rfl
  | function =>
    obtain ⟨fn, captured, rfl⟩ := hShows
    rfl

/-- Binding frames hold what their colors stand for, and there is only stage 0. -/
def lexicalRule (ρ : Ident → Option Result) : StackRule where
  eval frame rest :=
    match frame with
    | .bind c v => Binds lexicalReading ρ rest.scope c v
    | _ => True
  build _ _ := False
  escape _ _ := False

theorem lexicalRule_keeps (ρ : Ident → Option Result) : (lexicalRule ρ).Keeps lexicalReading ρ :=
  fun _ _ _ => Iff.rfl

theorem lexicalRule_mono (hρ : Extends ρ ρ') : (lexicalRule ρ).Implies (lexicalRule ρ') where
  eval frame rest h := by
    cases frame with
    | bind => exact Binds.mono hρ subset_rfl h
    | _ => trivial
  build _ _ h := h
  escape _ _ h := h

theorem EvalStack.Each.lookup_ne_future {k : EvalStack} (h : k.Each (lexicalRule ρ)) (c : Ident) :
    k.lookup c ≠ .future := by
  cases k with
  | halt => exact nofun
  | escape => exact h.1.elim
  | push frame rest =>
    have hRest := lookup_ne_future h.2 c
    cases frame with
    | bind id v =>
      rw [EvalStack.lookup]
      split
      · exact nofun
      · exact hRest
    | _ => exact hRest

/-- A color of the scope is found with a value that stands for the color's result. -/
theorem EvalStack.Each.lookup_standsFor {k : EvalStack} {c : Ident} {r : Result}
    (h : k.Each (lexicalRule ρ)) (hc : c ∈ k.scope) (hColor : ρ c = some r) :
    ∃ v, k.lookup c = .found v ∧ StandsFor ρ k.scope v r := by
  cases hFound : k.lookup c with
  | absent => exact absurd hFound hc
  | future => exact absurd hFound (h.lookup_ne_future c)
  | found v =>
    obtain ⟨r', hr', hFits⟩ := h.binds (lexicalRule_keeps ρ) hFound
    obtain rfl : r = r' := Option.some.inj (hColor.symm.trans hr')
    exact ⟨v, rfl, hFits⟩

/-! ### Primitives -/

theorem forall₂_one {vs : List Value} {rs : List Result}
    (h : List.Forall₂ (StandsFor ρ S) vs rs) (hLength : vs.length = 1) :
    ∃ v r, vs = [v] ∧ rs = [r] ∧ StandsFor ρ S v r := by
  cases h with
  | nil => cases hLength
  | cons hFirst hRest =>
    cases hRest with
    | nil => exact ⟨_, _, rfl, rfl, hFirst⟩
    | cons => cases hLength

theorem forall₂_two {vs : List Value} {rs : List Result}
    (h : List.Forall₂ (StandsFor ρ S) vs rs) (hLength : vs.length = 2) :
    ∃ v w r r', vs = [v, w] ∧ rs = [r, r'] ∧ StandsFor ρ S v r ∧ StandsFor ρ S w r' := by
  cases h with
  | nil => cases hLength
  | cons hFirst hRest =>
    obtain ⟨w, r', rfl, rfl, hSecond⟩ := forall₂_one hRest (Nat.succ.inj hLength)
    exact ⟨_, _, _, _, rfl, rfl, hFirst, hSecond⟩

/-- The answer of a primitive as an outcome on values. -/
def Realized (ρ : Ident → Option Result) (S : Set Ident) (outcome : Except Fault Value) :
    Answer Result → Prop
  | .done r => ∃ v, outcome = .ok v ∧ StandsFor ρ S v r
  | .failed f => outcome = .error f
  | .unfinished => False

/-- Two operands are checked the same way on both sides, from left to right. -/
theorem realized_ints {op : PrimOp} {v w : Value} {r r' : Result} (hOp : op.operands = [.int, .int])
    (hv : StandsFor ρ S v r) (hw : StandsFor ρ S w r') {next : Int64 → Int64 → Answer Result}
    (hNext : ∀ a b, Realized ρ S (Arithmetic.apply op [.int a, .int b]) (next a b)) :
    Realized ρ S (Arithmetic.apply op [v, w]) (do
      let a ← r.asInt (.primitive op)
      let b ← r'.asInt (.primitive op)
      next a b) := by
  have hFirst := hv.shows
  have hSecond := hw.shows
  have hMisfit : ∀ {kind x}, Arithmetic.misfit? op [v, w] = some (kind, x) →
      Arithmetic.apply op [v, w] = .error (.mismatch (.primitive op) kind.toKind x.kind) := by
    intro kind x h
    unfold Arithmetic.apply
    rw [h]
  cases r with
  | int a =>
    cases r' with
    | int b =>
      rw [hFirst, hSecond]
      exact hNext a b
    | bool b =>
      subst hFirst hSecond
      exact hMisfit (by rw [Arithmetic.misfit?, hOp]; rfl)
    | function =>
      obtain ⟨fn, captured, rfl⟩ := hSecond
      subst hFirst
      exact hMisfit (by rw [Arithmetic.misfit?, hOp]; rfl)
  | bool b =>
    subst hFirst
    exact hMisfit (by rw [Arithmetic.misfit?, hOp]; rfl)
  | function =>
    obtain ⟨fn, captured, rfl⟩ := hFirst
    exact hMisfit (by rw [Arithmetic.misfit?, hOp]; rfl)

/-- **A primitive does the same on values as on what they stand for.** -/
theorem realized_operate {op : PrimOp} {vs : List Value} {rs : List Result}
    (h : List.Forall₂ (StandsFor ρ S) vs rs) (hLength : vs.length = op.arity) :
    Realized ρ S (Arithmetic.apply op vs) (operate op rs) := by
  cases op with
  | negate =>
    obtain ⟨v, r, rfl, rfl, hv⟩ := forall₂_one h hLength
    have hValue := hv.shows
    cases r with
    | bool b =>
      subst hValue
      exact ⟨_, rfl, .bool _⟩
    | int =>
      subst hValue
      rfl
    | function =>
      obtain ⟨fn, captured, rfl⟩ := hValue
      rfl
  | compare o =>
    obtain ⟨v, w, r, r', rfl, rfl, hv, hw⟩ := forall₂_two h hLength
    exact realized_ints rfl hv hw fun a b => ⟨_, rfl, .bool _⟩
  | arith o =>
    obtain ⟨v, w, r, r', rfl, rfl, hv, hw⟩ := forall₂_two h hLength
    refine realized_ints rfl hv hw fun a b => ?_
    have hApply : Arithmetic.apply (.arith o) [.int a, .int b] =
        (Arithmetic.compute o a b).map .int := rfl
    rw [hApply]
    cases Arithmetic.compute o a b with
    | ok n => exact ⟨_, rfl, .int n⟩
    | error f => rfl

end

end StagedLambda
