import StagedLambda.Proofs.Denotation.Terms
import StagedLambda.Proofs.Machine.Binding

/-!
# The meaning of a state

A state means what its program means, as far as it has been computed: its stack says what is still
to be done with the meaning of what it holds.  A *glossary* gives to each color the meaning that the
machine has bound to it.  Code may mention binders of code that is still being built, so what a
color stands for is a `Sense`, which has a meaning once such binders have one; the color of such a
binder stands for whatever the binder is given.  Binding frames add nothing, since the glossary has
their values, and neither do stage boundaries.

* `Glossary.sense_under`, `Glossary.sense_bound`: entering a binder, and leaving it as code.
* `State.Read`: every color in the state that can be looked up is in the glossary.
* `State.Means`: the state has a sense by some glossary.
-/

namespace StagedLambda

open Function (update)
open Meaning (datum function apply connective operate)

/-- A meaning that depends on what the binders of code being built are given. -/
abbrev Sense := Valuation → Meaning

/-- What is given to `c` makes no difference. -/
def Ignores (i : Sense) (c : Ident) : Prop := ∀ θ d, i (update θ c d) = i θ

/-- What colors stand for. -/
abbrev Glossary := Ident → Option Sense

/-- The meanings of the identifiers under a renaming. -/
def Renaming.under (env : Renaming) (ρ : Valuation) : Valuation := fun x => (env.resolve x).elim ∅ ρ

theorem Renaming.under_of_none {env : Renaming} {x : Ident} (h : env.resolve x = none)
    (ρ : Valuation) : env.under ρ x = ∅ := by
  rw [under, h]
  rfl

theorem Renaming.under_of_some {env : Renaming} {x c : Ident} (h : env.resolve x = some c)
    (ρ : Valuation) : env.under ρ x = ρ c := by
  rw [under, h]
  rfl

/-- What nothing has renamed stands for itself. -/
theorem Renaming.eq_of_resolve_empty {x c : Ident} (h : Renaming.empty.resolve x = some c) :
    x = c := by
  cases x with
  | raw => cases h
  | generated | colored => exact Option.some.inj h

namespace Glossary

/-- The meanings of all colors. -/
def read (Γ : Glossary) (θ : Valuation) : Valuation := fun c => (Γ c).elim ∅ fun i => i θ

/-- The sense of a waiting term. -/
def sense (Γ : Glossary) (q : Renaming × Term) : Sense :=
  fun θ => q.2.meaning (q.1.under (Γ.read θ))

/-- Free identifiers are renamed to colors that stand for something. -/
def Knows (Γ : Glossary) (q : Renaming × Term) : Prop :=
  q.2.EachFree fun x => ∀ c, q.1.resolve x = some c → ∃ i, Γ c = some i

/-- The glossary has issued colors, and what they stand for depends on no other colors. -/
structure Kept (p : Palette) (Γ : Glossary) : Prop where
  issued : ∀ {c i}, Γ c = some i → ∃ n < p.issued, c.tag? = some n
  ignores : ∀ {c i x}, Γ c = some i → Γ x = none → Ignores i x

variable {Γ Γ' : Glossary} {p : Palette} {env : Renaming} {q : Renaming × Term} {x c : Ident}
  {i : Sense} {body : Term}

theorem read_of_eq_some (h : Γ c = some i) (θ : Valuation) : Γ.read θ c = i θ := by
  rw [read, h]
  rfl

theorem Knows.mono (hΓ : Extends Γ Γ') (h : Γ.Knows q) : Γ'.Knows q := by
  refine Term.EachFree.mono (fun x hx c hc => ?_) h
  obtain ⟨i, hi⟩ := hx c hc
  exact ⟨i, hΓ hi⟩

/-- More colors do not change what is known. -/
theorem sense_extends (hΓ : Extends Γ Γ') (h : Γ.Knows q) : Γ'.sense q = Γ.sense q := by
  funext θ
  refine Term.meaning_congr fun x hx => ?_
  show q.1.under (Γ'.read θ) x = q.1.under (Γ.read θ) x
  cases hName : q.1.resolve x with
  | none => rw [Renaming.under_of_none hName, Renaming.under_of_none hName]
  | some c =>
    obtain ⟨i, hi⟩ := h x hx c hName
    rw [Renaming.under_of_some hName, Renaming.under_of_some hName, read_of_eq_some (hΓ hi),
      read_of_eq_some hi]

theorem sense_prim (Γ : Glossary) (env : Renaming) (op : PrimOp) (args : List Term)
    (θ : Valuation) :
    Γ.sense (env, .prim op args) θ = operate op (args.map fun a => Γ.sense (env, a) θ) :=
  congrArg (operate op) (Term.meaningAll_eq_map _ args)

/-- The operands that still wait. -/
theorem senses_extends {args : List Term} (hΓ : Extends Γ Γ') (h : ∀ a ∈ args, Γ.Knows (env, a))
    (n : Nat) (θ : Valuation) :
    ((args.drop n).map fun a => Γ'.sense (env, a) θ) =
      (args.drop n).map fun a => Γ.sense (env, a) θ :=
  List.map_congr_left fun a ha => congrFun (sense_extends hΓ (h a (List.mem_of_mem_drop ha))) θ

/-! ### Entering and leaving binders -/

theorem Knows.under (hΓ : Extends Γ Γ') (hColor : Γ' c = some i)
    (h : Γ.Knows (env, .lam x body)) : Γ'.Knows (env.bind x c, body) := by
  intro y hy d hName
  rw [Renaming.resolve_bind] at hName
  by_cases hxy : y = x
  · rw [if_pos hxy] at hName
    cases hName
    exact ⟨i, hColor⟩
  · rw [if_neg hxy] at hName
    obtain ⟨j, hj⟩ := h y (Term.occursFree_lam.mpr ⟨Ne.symm hxy, hy⟩) d hName
    exact ⟨j, hΓ hj⟩

/-- **Entering a binder.**  The body means what it means when the binder is given the meaning of its
color, where nothing else in the glossary can tell `θ'` from `θ`. -/
theorem sense_under {θ θ' : Valuation} (hΓ : Extends Γ Γ')
    (hSame : ∀ {d j}, Γ d = some j → j θ' = j θ) (h : Γ.Knows (env, .lam x body)) :
    Γ'.sense (env.bind x c, body) θ' =
      body.meaning (update (env.under (Γ.read θ)) x (Γ'.read θ' c)) := by
  refine Term.meaning_congr fun y hy => ?_
  show (env.bind x c).under (Γ'.read θ') y = update (env.under (Γ.read θ)) x (Γ'.read θ' c) y
  have hBind := env.resolve_bind x c y
  by_cases hxy : y = x
  · rw [if_pos hxy] at hBind
    rw [Renaming.under_of_some hBind, hxy, Function.update_self]
  · rw [if_neg hxy] at hBind
    rw [Function.update_of_ne hxy]
    cases hName : env.resolve y with
    | none => rw [Renaming.under_of_none hName, Renaming.under_of_none (hBind.trans hName)]
    | some d =>
      obtain ⟨j, hj⟩ := h y (Term.occursFree_lam.mpr ⟨Ne.symm hxy, hy⟩) d hName
      rw [Renaming.under_of_some hName, Renaming.under_of_some (hBind.trans hName),
        read_of_eq_some (hΓ hj), read_of_eq_some hj, hSame hj]

/-- **Leaving a binder as code.**  A fragment under the binder `c` means what it means when `c` is
given a meaning, if what else occurs in it does not depend on `c`. -/
theorem sense_bound (hSelf : Renaming.empty.resolve c = some c) (hColor : Γ c = some fun θ => θ c)
    (h : body.EachFree fun y => y = c ∨ ∃ i, Γ y = some i ∧ Ignores i c) (θ : Valuation)
    (d : Meaning) :
    Γ.sense (.empty, body) (update θ c d) =
      body.meaning (update (Renaming.empty.under (Γ.read θ)) c d) := by
  refine Term.meaning_congr fun y hy => ?_
  show Renaming.empty.under (Γ.read (update θ c d)) y =
    update (Renaming.empty.under (Γ.read θ)) c d y
  by_cases hyc : y = c
  · rw [hyc, Function.update_self, Renaming.under_of_some hSelf, read_of_eq_some hColor,
      Function.update_self]
  · obtain ⟨i, hi, hIgnores⟩ := (h y hy).resolve_left hyc
    rw [Function.update_of_ne hyc]
    cases hName : Renaming.empty.resolve y with
    | none => rw [Renaming.under_of_none hName, Renaming.under_of_none hName]
    | some y' =>
      obtain rfl : y = y' := Renaming.eq_of_resolve_empty hName
      rw [Renaming.under_of_some hName, Renaming.under_of_some hName, read_of_eq_some hi,
        read_of_eq_some hi, hIgnores]

/-! ### New colors -/

theorem extends_update (hFresh : Γ c = none) (i : Sense) : Extends Γ (update Γ c (some i)) := by
  intro d j hd
  rw [Function.update_of_ne, hd]
  rintro rfl
  rw [hFresh] at hd
  cases hd

theorem Kept.tint_eq_none (h : Γ.Kept p) (x : Ident) : Γ (p.tint x) = none := by
  by_contra hSome
  obtain ⟨i, hi⟩ := Option.ne_none_iff_exists'.mp hSome
  obtain ⟨n, hn, hTag⟩ := h.issued hi
  rw [Palette.tag?_tint] at hTag
  have := Option.some.inj hTag
  omega

/-- Colors are no names, so they stand for themselves where nothing renames them. -/
theorem Kept.resolve_empty (h : Γ.Kept p) (hi : Γ c = some i) :
    Renaming.empty.resolve c = some c := by
  cases c with
  | raw =>
    obtain ⟨_, -, hTag⟩ := h.issued hi
    cases hTag
  | generated | colored => rfl

theorem Kept.sense_ignores (h : Γ.Kept p) (hc : Γ c = none) (q : Renaming × Term) :
    Ignores (Γ.sense q) c := by
  intro θ d
  have hRead : Γ.read (update θ c d) = Γ.read θ := by
    funext y
    rw [read, read]
    cases hy : Γ y with
    | none => rfl
    | some j => exact h.ignores hy hc θ d
  rw [sense, hRead]
  rfl

theorem Kept.update (h : Γ.Kept p) (x : Ident)
    (hi : ∀ y, y ≠ p.tint x → Γ y = none → Ignores i y) :
    Kept p.advance (update Γ (p.tint x) (some i)) := by
  constructor
  · intro d j hd
    rw [Palette.issued_advance]
    by_cases hNew : d = p.tint x
    · exact ⟨p.issued, by omega, by rw [hNew, Palette.tag?_tint]⟩
    · rw [Function.update_of_ne hNew] at hd
      obtain ⟨n, hn, hTag⟩ := h.issued hd
      exact ⟨n, by omega, hTag⟩
  · intro d j y hd hy
    have hOther : y ≠ p.tint x := by
      rintro rfl
      rw [Function.update_self] at hy
      cases hy
    rw [Function.update_of_ne hOther] at hy
    by_cases hNew : d = p.tint x
    · rw [hNew, Function.update_self] at hd
      cases hd
      exact hi y hOther hy
    · rw [Function.update_of_ne hNew] at hd
      exact h.ignores hd hy

end Glossary

/-! ### Values -/

/-- A function means what it was made from; the bindings that it has picked up are in the
glossary. -/
def Value.sense (Γ : Glossary) : Value → Sense
  | .int n => fun _ => datum (.int n)
  | .bool b => fun _ => datum (.bool b)
  | .code c => Γ.sense (.empty, c)
  | .closure fn _ => Γ.sense (fn.env, .lam fn.param fn.body)

def senseReading : Reading Sense where
  bare Γ _ v i :=
    i = v.sense Γ ∧
      match v with
      | .int _ | .bool _ => True
      | .code c => Glossary.Knows Γ (.empty, c)
      | .closure fn captured => captured = [] ∧ (∀ c, fn.self? = some c → Γ c = some i) ∧
          Glossary.Knows Γ (fn.env, .lam fn.param fn.body)
  mono := by
    rintro Γ Γ' S S' v i hΓ - ⟨hSense, h⟩
    cases v with
    | int | bool => exact ⟨hSense, trivial⟩
    | code c => exact ⟨hSense.trans (Glossary.sense_extends hΓ h).symm, Glossary.Knows.mono hΓ h⟩
    | closure fn captured =>
      exact ⟨hSense.trans (Glossary.sense_extends hΓ h.2.2).symm, h.1,
        fun c hc => hΓ (h.2.1 c hc), Glossary.Knows.mono hΓ h.2.2⟩
  leave h _ _ := h
  captured_eq_nil h := h.2.1
  self_eq h hSelf := h.2.2.1 _ hSelf

variable {Γ Γ' : Glossary} {S S' : Set Ident} {v : Value}

theorem Glossary.Kept.value_ignores {p : Palette} {c : Ident} (h : Γ.Kept p) (hc : Γ c = none)
    (v : Value) : Ignores (v.sense Γ) c := by
  cases v with
  | int | bool => exact fun _ _ => rfl
  | code | closure => exact h.sense_ignores hc _

/-- The value has its sense in a scope. -/
abbrev Value.Sensible (Γ : Glossary) (S : Set Ident) (v : Value) : Prop :=
  Fits senseReading Γ S v (v.sense Γ)

theorem Fits.eq_sense {i : Sense} (h : Fits senseReading Γ S v i) : i = v.sense Γ := by
  induction h with
  | bare h => exact h.1
  | captured _ _ _ _ ih => exact ih

theorem Fits.sensible {i : Sense} (h : Fits senseReading Γ S v i) : v.Sensible Γ S := by
  rw [h.eq_sense] at h
  exact h

theorem Value.Sensible.sense_extends (hΓ : Extends Γ Γ') (h : v.Sensible Γ S) :
    v.sense Γ' = v.sense Γ := (h.mono hΓ subset_rfl).eq_sense.symm

theorem Value.Sensible.knows {c : Term} (h : (Value.code c).Sensible Γ S) : Γ.Knows (.empty, c) :=
  (h.bare_of_kind nofun).2

/-! ### Stacks -/

/-- What a frame makes of the sense of the value that it is handed. -/
def EvalFrame.sense (Γ : Glossary) : EvalFrame → Sense → Sense
  | .applyTo arg env, m => fun θ => apply (m θ) (Γ.sense (env, arg) θ)
  | .applied fn, m => fun θ => apply (fn.sense Γ θ) (m θ)
  | .prim op done args env, m => fun θ => operate op
      (done.map (·.sense Γ θ) ++ m θ ::
        (args.drop (done.length + 1)).map fun a => Γ.sense (env, a) θ)
  | .branch yes no env, m => fun θ =>
      Meaning.branch (m θ) (Γ.sense (env, yes) θ) (Γ.sense (env, no) θ)
  | .logicLeft op right env, m => fun θ => connective op (m θ) (Γ.sense (env, right) θ)
  | .letBody id body env, m => fun θ => apply (Γ.sense (env, .lam id body) θ) (m θ)
  | .bind _ _, m | .logicRight _, m | .run, m => m

/-- What a frame makes of the sense of the fragment that it is handed.  Binders take what they are
given out of the hands of those around. -/
def BuildFrame.sense (Γ : Glossary) : BuildFrame → Sense → Sense
  | .lam param, m => fun θ => function fun d => m (update θ param d)
  | .fix self, m => fun θ => Meaning.fix fun d => m (update θ self d)
  | .applyTo arg env, m => fun θ => apply (m θ) (Γ.sense (env, arg) θ)
  | .applied fn, m => fun θ => apply (Γ.sense (.empty, fn) θ) (m θ)
  | .prim op done args env, m => fun θ => operate op
      ((done.map fun c => Γ.sense (.empty, c) θ) ++ m θ ::
        (args.drop (done.length + 1)).map fun a => Γ.sense (env, a) θ)
  | .iteCond yes no env, m => fun θ =>
      Meaning.branch (m θ) (Γ.sense (env, yes) θ) (Γ.sense (env, no) θ)
  | .iteYes cond no env, m => fun θ =>
      Meaning.branch (Γ.sense (.empty, cond) θ) (m θ) (Γ.sense (env, no) θ)
  | .iteNo cond yes, m => fun θ =>
      Meaning.branch (Γ.sense (.empty, cond) θ) (Γ.sense (.empty, yes) θ) (m θ)
  | .logicLeft op right env, m => fun θ => connective op (m θ) (Γ.sense (env, right) θ)
  | .logicRight op left, m => fun θ => connective op (Γ.sense (.empty, left) θ) (m θ)
  | .letBound id body env, m => fun θ => apply (Γ.sense (env, .lam id body) θ) (m θ)
  | .letBody id bound, m => fun θ =>
      apply (function fun d => m (update θ id d)) (Γ.sense (.empty, bound) θ)
  | .quote, m | .splice _, m => m

mutual

def EvalStack.sense (Γ : Glossary) : EvalStack → Sense → Sense
  | .halt, m => m
  | .escape _ outer, m => outer.sense Γ m
  | .push frame rest, m => rest.sense Γ (frame.sense Γ m)

def BuildStack.sense (Γ : Glossary) : BuildStack → Sense → Sense
  | .close outer, m => outer.sense Γ m
  | .push frame rest, m => rest.sense Γ (frame.sense Γ m)

end

/-- What a frame holds is in the glossary.  The binder of a frame stands for what it is given, and
nothing in the scope below depends on that. -/
def senseRule (Γ : Glossary) : StackRule where
  eval frame rest :=
    match frame with
    | .bind c v => Binds senseReading Γ rest.scope c v
    | frame => (∀ q ∈ frame.pending, Γ.Knows q) ∧ ∀ v ∈ frame.values, v.Sensible Γ rest.scope
  build frame rest := (∀ q ∈ frame.pending, Γ.Knows q) ∧
    (∀ c ∈ frame.fragments, Γ.Knows (.empty, c)) ∧
    ∀ c, frame.binder? = some c →
      Γ c = some (fun θ => θ c) ∧ ∀ y ∈ rest.scope, ∃ i, Γ y = some i ∧ Ignores i c

theorem senseRule_keeps (Γ : Glossary) : (senseRule Γ).Keeps senseReading Γ :=
  fun _ _ _ => Iff.rfl

theorem senseRule_mono (hΓ : Extends Γ Γ') : (senseRule Γ).Implies (senseRule Γ') where
  eval frame rest h := by
    cases frame with
    | bind => exact Binds.mono hΓ subset_rfl h
    | _ =>
      exact ⟨fun q hq => (h.1 q hq).mono hΓ, fun v hv => ((h.2 v hv).mono hΓ subset_rfl).sensible⟩
  build frame rest h := by
    refine ⟨fun q hq => (h.1 q hq).mono hΓ, fun c hc => (h.2.1 c hc).mono hΓ, fun c hc => ?_⟩
    obtain ⟨hColor, hScope⟩ := h.2.2 c hc
    refine ⟨hΓ hColor, fun y hy => ?_⟩
    obtain ⟨i, hi, hIgnores⟩ := hScope y hy
    exact ⟨i, hΓ hi, hIgnores⟩
  escape _ _ h := h

theorem EvalFrame.sense_extends (hΓ : Extends Γ Γ') {frame : EvalFrame} {rest : EvalStack}
    (h : (senseRule Γ).eval frame rest) : frame.sense Γ' = frame.sense Γ := by
  funext m
  cases frame with
  | bind | logicRight | run => rfl
  | applyTo arg env =>
    simp only [EvalFrame.sense, Glossary.sense_extends hΓ (h.1 (env, arg) (by simp))]
  | applied fn =>
    simp only [EvalFrame.sense, (h.2 fn (by simp)).sense_extends hΓ]
  | prim op done args env =>
    funext θ
    have hDone : done.map (·.sense Γ' θ) = done.map (·.sense Γ θ) :=
      List.map_congr_left fun v hv => congrFun ((h.2 v hv).sense_extends hΓ) θ
    have hArgs := Glossary.senses_extends hΓ (List.forall_mem_map.mp h.1) (done.length + 1) θ
    simp only [EvalFrame.sense, hDone, hArgs]
  | branch yes no env =>
    simp only [EvalFrame.sense, Glossary.sense_extends hΓ (h.1 (env, yes) (by simp)),
      Glossary.sense_extends hΓ (h.1 (env, no) (by simp))]
  | logicLeft op right env =>
    simp only [EvalFrame.sense, Glossary.sense_extends hΓ (h.1 (env, right) (by simp))]
  | letBody id body env =>
    simp only [EvalFrame.sense, Glossary.sense_extends hΓ (h.1 (env, .lam id body) (by simp))]

theorem BuildFrame.sense_extends (hΓ : Extends Γ Γ') {frame : BuildFrame} {rest : BuildStack}
    (h : (senseRule Γ).build frame rest) : frame.sense Γ' = frame.sense Γ := by
  obtain ⟨hPending, hFragments, -⟩ := h
  have hSense : ∀ q ∈ frame.pending, Γ'.sense q = Γ.sense q :=
    fun q hq => Glossary.sense_extends hΓ (hPending q hq)
  have hBuilt : ∀ c ∈ frame.fragments, Γ'.sense (.empty, c) = Γ.sense (.empty, c) :=
    fun c hc => Glossary.sense_extends hΓ (hFragments c hc)
  funext m
  cases frame with
  | lam | fix | quote | splice => rfl
  | applyTo arg env | logicLeft op arg env =>
    simp only [BuildFrame.sense, hSense (env, arg) (by simp)]
  | applied c | logicRight op c | letBody id c => simp only [BuildFrame.sense, hBuilt c (by simp)]
  | prim op done args env =>
    funext θ
    have hDone : (done.map fun c => Γ'.sense (.empty, c) θ) =
        done.map fun c => Γ.sense (.empty, c) θ :=
      List.map_congr_left fun c hc => congrFun (hBuilt c hc) θ
    have hArgs := Glossary.senses_extends hΓ (List.forall_mem_map.mp hPending) (done.length + 1) θ
    simp only [BuildFrame.sense, hDone, hArgs]
  | iteCond yes no env =>
    simp only [BuildFrame.sense, hSense (env, yes) (by simp), hSense (env, no) (by simp)]
  | iteYes cond no env =>
    simp only [BuildFrame.sense, hBuilt cond (by simp), hSense (env, no) (by simp)]
  | iteNo cond yes => simp only [BuildFrame.sense, hBuilt cond (by simp), hBuilt yes (by simp)]
  | letBound id body env => simp only [BuildFrame.sense, hSense (env, .lam id body) (by simp)]

mutual

theorem EvalStack.Each.sense_extends (hΓ : Extends Γ Γ') :
    ∀ {k : EvalStack}, k.Each (senseRule Γ) → k.sense Γ' = k.sense Γ
  | .halt, _ => rfl
  | .escape _ _, ⟨_, hOuter⟩ => BuildStack.Each.sense_extends hΓ hOuter
  | .push frame rest, ⟨hFrame, hRest⟩ => by
    funext m
    rw [EvalStack.sense, EvalStack.sense, EvalFrame.sense_extends hΓ hFrame,
      EvalStack.Each.sense_extends hΓ hRest]

theorem BuildStack.Each.sense_extends (hΓ : Extends Γ Γ') :
    ∀ {k : BuildStack}, k.Each (senseRule Γ) → k.sense Γ' = k.sense Γ
  | .close _, hOuter => EvalStack.Each.sense_extends hΓ hOuter
  | .push frame rest, ⟨hFrame, hRest⟩ => by
    funext m
    rw [BuildStack.sense, BuildStack.sense, BuildFrame.sense_extends hΓ hFrame,
      BuildStack.Each.sense_extends hΓ hRest]

end

mutual

/-- What can be looked up stands for something. -/
theorem EvalStack.Each.scope_known : ∀ {k : EvalStack}, k.Each (senseRule Γ) →
    ∀ y ∈ k.scope, ∃ i, Γ y = some i
  | .halt, _, y, hy => by
    rw [EvalStack.scope_halt] at hy
    exact hy.elim
  | .escape _ _, ⟨_, hOuter⟩, y, hy => BuildStack.Each.scope_known hOuter y hy
  | .push frame rest, ⟨hFrame, hRest⟩, y, hy => by
    have hBelow := EvalStack.Each.scope_known hRest y
    cases frame with
    | bind c v =>
      rw [EvalStack.scope_bind] at hy
      rcases hy with rfl | hy
      · obtain ⟨i, hi, -⟩ := hFrame
        exact ⟨i, hi⟩
      · exact hBelow hy
    | _ => exact hBelow hy

theorem BuildStack.Each.scope_known : ∀ {k : BuildStack}, k.Each (senseRule Γ) →
    ∀ y ∈ k.scope, ∃ i, Γ y = some i
  | .close _, hOuter, y, hy => EvalStack.Each.scope_known hOuter y hy
  | .push frame rest, ⟨hFrame, hRest⟩, y, hy => by
    have hBelow := BuildStack.Each.scope_known hRest y
    cases hBinder : frame.binder? with
    | none =>
      rw [BuildStack.scope_push hBinder] at hy
      exact hBelow hy
    | some c =>
      rw [BuildStack.scope_binder hBinder] at hy
      rcases hy with rfl | hy
      · exact ⟨_, (hFrame.2.2 _ hBinder).1⟩
      · exact hBelow hy

end

/-- The bindings of a function add nothing. -/
theorem EvalStack.sense_bindAll (Γ : Glossary) (captured : List (Ident × Value)) (k : EvalStack) :
    (k.bindAll captured).sense Γ = k.sense Γ := by
  induction captured generalizing k with
  | nil => rfl
  | cons b rest ih => exact ih (.push (.bind b.1 b.2) k)

theorem EvalStack.sense_enter (Γ : Glossary) (fn : Abstraction) (captured : List (Ident × Value))
    (k : EvalStack) : (k.enter fn captured).sense Γ = k.sense Γ := by
  rw [EvalStack.enter]
  cases fn.self? with
  | none => exact k.sense_bindAll Γ captured
  | some self => exact k.sense_bindAll Γ captured

/-! ### States -/

namespace State

def sense (Γ : Glossary) : State → Sense
  | .eval env t k => k.sense Γ (Γ.sense (env, t))
  | .build _ env t k => k.sense Γ (Γ.sense (env, t))
  | .deliver v k => k.sense Γ (v.sense Γ)
  | .emit _ c k => k.sense Γ (Γ.sense (.empty, c))

/-- All that the state holds is in the glossary. -/
def Read (Γ : Glossary) : State → Prop
  | .eval env t k => Γ.Knows (env, t) ∧ k.Each (senseRule Γ)
  | .build _ env t k => Γ.Knows (env, t) ∧ k.Each (senseRule Γ)
  | .deliver v k => v.Sensible Γ k.scope ∧ k.Each (senseRule Γ)
  | .emit _ c k => Γ.Knows (.empty, c) ∧ k.Each (senseRule Γ)

/-- The state has a sense by some glossary of issued colors. -/
def Means (p : Palette) (s : State) (m : Sense) : Prop :=
  ∃ Γ : Glossary, Γ.Kept p ∧ s.Read Γ ∧ s.sense Γ = m

variable {p : Palette} {env : Renaming} {body : Term} {level : UInt64}

/-- Going on to a body whose binder is bound to a value is applying the abstraction. -/
theorem Means.eval_bind {x : Ident} {k : EvalStack} (hKept : Γ.Kept p)
    (hStack : k.Each (senseRule Γ)) (hTerm : Γ.Knows (env, .lam x body))
    (hValue : v.Sensible Γ k.scope) :
    (State.eval (env.bind x (p.tint x)) body (.push (.bind (p.tint x) v) k)).Means p.advance
      (k.sense Γ fun θ => apply (Γ.sense (env, .lam x body) θ) (v.sense Γ θ)) := by
  let Γ' : Glossary := update Γ (p.tint x) (some (v.sense Γ))
  have hΓ : Extends Γ Γ' := Glossary.extends_update (hKept.tint_eq_none x) _
  have hColor : Γ' (p.tint x) = some (v.sense Γ) := Function.update_self _ _ _
  have hBound : Fits senseReading Γ' k.scope v (v.sense Γ) := hValue.mono hΓ subset_rfl
  refine ⟨Γ', hKept.update x fun y _ hy => hKept.value_ignores hy v, ⟨hTerm.under hΓ hColor,
    ⟨_, hColor, hBound⟩, hStack.mono (senseRule_mono hΓ)⟩, ?_⟩
  show k.sense Γ' (Γ'.sense (env.bind x (p.tint x), body)) = _
  rw [hStack.sense_extends hΓ]
  refine congrArg (k.sense Γ) (funext fun θ => ?_)
  rw [Glossary.sense_under hΓ (fun _ => rfl) hTerm, Glossary.read_of_eq_some hColor]
  exact (Term.apply_meaning_lam x body _ _).symm

/-- A fixpoint is the function that it is made into, with itself as the meaning of its color. -/
theorem Means.eval_fix {self param : Ident} {k : EvalStack} (hKept : Γ.Kept p)
    (hStack : k.Each (senseRule Γ)) (hTerm : Γ.Knows (env, .fix self (.lam param body))) :
    (State.deliver (.closure ⟨some (p.tint self), param, body, env.bind self (p.tint self)⟩ [])
      k).Means p.advance (k.sense Γ (Γ.sense (env, .fix self (.lam param body)))) := by
  let i : Sense := Γ.sense (env, .fix self (.lam param body))
  let Γ' : Glossary := update Γ (p.tint self) (some i)
  have hΓ : Extends Γ Γ' := Glossary.extends_update (hKept.tint_eq_none self) _
  have hColor : Γ' (p.tint self) = some i := Function.update_self _ _ _
  have hBody : Γ.Knows (env, .lam self (.lam param body)) := hTerm.fix
  have hSense : Γ'.sense (env.bind self (p.tint self), .lam param body) = i := by
    funext θ
    rw [Glossary.sense_under hΓ (fun _ => rfl) hBody, Glossary.read_of_eq_some hColor]
    exact Term.meaning_fix self (.lam param body) _
  refine ⟨Γ', hKept.update self fun y _ hy => hKept.sense_ignores hy _, ⟨.bare ⟨rfl, rfl, ?_,
    hBody.under hΓ hColor⟩, hStack.mono (senseRule_mono hΓ)⟩, ?_⟩
  · rintro c ⟨⟩
    exact hColor.trans (congrArg some hSense.symm)
  · show k.sense Γ' (Γ'.sense (env.bind self (p.tint self), .lam param body)) = _
    rw [hStack.sense_extends hΓ, hSense]

/-- Going on to a body whose binder is part of the code being built: the frame is given the sense of
the body, in which the binder stands for whatever it is given. -/
theorem Means.build_binder {x : Ident} {frame : BuildFrame} {k : BuildStack} {m : Sense}
    (hKept : Γ.Kept p) (hStack : k.Each (senseRule Γ)) (hTerm : Γ.Knows (env, .lam x body))
    (hBinder : frame.binder? = some (p.tint x)) (hPending : ∀ q ∈ frame.pending, Γ.Knows q)
    (hFragments : ∀ c ∈ frame.fragments, Γ.Knows (.empty, c))
    (hSense : ∀ (Γ' : Glossary) (n : Sense), Extends Γ Γ' →
      (∀ θ d, n (update θ (p.tint x) d) = body.meaning (update (env.under (Γ.read θ)) x d)) →
      frame.sense Γ' n = m) :
    (State.build level (env.bind x (p.tint x)) body (.push frame k)).Means p.advance
      (k.sense Γ m) := by
  let Γ' : Glossary := update Γ (p.tint x) (some fun θ => θ (p.tint x))
  have hFresh := hKept.tint_eq_none x
  have hΓ : Extends Γ Γ' := Glossary.extends_update hFresh _
  have hColor : Γ' (p.tint x) = some fun θ => θ (p.tint x) := Function.update_self _ _ _
  have hOther : ∀ y, y ≠ p.tint x → Γ y = none → Ignores (fun θ => θ (p.tint x)) y :=
    fun y hy _ θ d => Function.update_of_ne (Ne.symm hy) d θ
  refine ⟨Γ', hKept.update x hOther, ⟨hTerm.under hΓ hColor, ⟨?_, ?_, ?_⟩,
    hStack.mono (senseRule_mono hΓ)⟩, ?_⟩
  · exact fun q hq => (hPending q hq).mono hΓ
  · exact fun c hc => (hFragments c hc).mono hΓ
  · intro c hc
    rw [hBinder] at hc
    cases hc
    refine ⟨hColor, fun y hy => ?_⟩
    obtain ⟨i, hi⟩ := hStack.scope_known y hy
    exact ⟨i, hΓ hi, hKept.ignores hi hFresh⟩
  · show k.sense Γ' (frame.sense Γ' (Γ'.sense (env.bind x (p.tint x), body))) = _
    rw [hStack.sense_extends hΓ]
    refine congrArg (k.sense Γ) (hSense Γ' _ hΓ fun θ d => ?_)
    rw [Glossary.sense_under hΓ (fun hi => hKept.ignores hi hFresh θ d) hTerm,
      Glossary.read_of_eq_some hColor, Function.update_self]

end State

end StagedLambda
