import StagedLambda.Proofs.Denotation.States
import StagedLambda.Proofs.Scope.Safety

/-!
# Stages do not change results

Every transition keeps the meaning of the state: it computes, copies or moves what the state holds
from one stage to another, but the program still comes to the same.  So a program that comes to a
number or a truth value means nothing but that, and since a program means what it means without its
stages, the program without them can come to nothing else.

The two runs need not have a single state in common: the one builds code, drops it, or runs it many
times, where the other evaluates in place.  Neither is compared with the other, both are compared
with the meaning.

* `State.Means.moves`: transitions keep the meaning.
* `Machine.Yields.denotation_eq`: a program that comes to a number or a truth value means just that.
* `Machine.erasure`: a program and its erasure do not come to different results.
-/

namespace StagedLambda

open Function (update)
open Meaning (datum function apply connective operate)

variable {Γ : Glossary} {p p' : Palette} {s s' : State} {env : Renaming} {t c : Term}
  {level : UInt64} {v : Value}

/-! ### Operands -/

/-- The next operand of a primitive takes its place behind those that are done. -/
theorem operands_next {α β : Type} {f : α → β} {g : Term → β} {done : List α} {a : α}
    {args : List Term} {next : Term} (h : args[(done ++ [a]).length]? = some next) :
    done.map f ++ f a :: (args.drop (done.length + 1)).map g =
      (done ++ [a]).map f ++ g next :: (args.drop ((done ++ [a]).length + 1)).map g := by
  rw [List.length_append, List.length_singleton] at h ⊢
  rw [List.drop_eq_getElem?_toList_append (i := done.length + 1), h, List.map_append]
  simp

theorem operands_last {α β : Type} {f : α → β} {g : Term → β} {done : List α} {a : α}
    {args : List Term} (h : args[(done ++ [a]).length]? = none) :
    done.map f ++ f a :: (args.drop (done.length + 1)).map g = (done ++ [a]).map f := by
  rw [List.length_append, List.length_singleton] at h
  rw [List.drop_eq_nil_of_le (List.getElem?_eq_none_iff.mp h), List.map_append]
  rfl

theorem Datum.sense_value (Γ : Glossary) (d : Datum) (θ : Valuation) :
    d.value.sense Γ θ = datum d := by
  cases d <;> rfl

theorem Datum.sensible (Γ : Glossary) (S : Set Ident) (d : Datum) : d.value.Sensible Γ S := by
  cases d <;> exact .bare ⟨rfl, trivial⟩

/-- A primitive applied to values has the meaning of its result. -/
theorem operate_sense {op : PrimOp} {vs : List Value} {d : Datum}
    (h : Arithmetic.apply op vs = .ok d.value) (θ : Valuation) :
    operate op (vs.map (·.sense Γ θ)) = datum d := by
  obtain ⟨ds, -, rfl, -⟩ := Arithmetic.exists_data h
  rw [List.map_map, ← Meaning.operate_data h]
  exact congrArg (operate op) (List.map_congr_left fun d _ => d.sense_value Γ θ)

/-! ### Code -/

/-- Code of a scope mentions only colors that stand for something. -/
theorem Fragment.knows {k : BuildStack} (h : Fragment k.scope c) (hStack : k.Each (senseRule Γ)) :
    Γ.Knows (.empty, c) := by
  intro y hy d hName
  rw [← Renaming.eq_of_resolve_empty hName]
  exact hStack.scope_known y (h.free y hy)

/-- Code that is handed to the frame of a binder. -/
theorem Fragment.sense_bound {k : BuildStack} {frame : BuildFrame} {x : Ident}
    (h : Fragment (BuildStack.push frame k).scope c) (hKept : Γ.Kept p)
    (hFrame : (senseRule Γ).build frame k) (hBinder : frame.binder? = some x) (θ : Valuation)
    (d : Meaning) :
    Γ.sense (.empty, c) (update θ x d) =
      c.meaning (update (Renaming.empty.under (Γ.read θ)) x d) := by
  obtain ⟨hColor, hScope⟩ := hFrame.2.2 x hBinder
  refine Glossary.sense_bound (hKept.resolve_empty hColor) hColor (fun y hy => ?_) θ d
  have hFree := h.free y hy
  rw [BuildStack.scope_binder hBinder] at hFree
  exact hFree.imp_right (hScope y)

/-! ### Transitions -/

namespace State

theorem Means.of_eval {k : EvalStack} (hKept : Γ.Kept p) (hs : (State.eval env t k).Read Γ)
    (h : (State.eval env t k).Moves p s' p') : s'.Means p' ((State.eval env t k).sense Γ) := by
  obtain ⟨hTerm, hStack⟩ := hs
  cases h with
  | evalVar hName hFound =>
    obtain ⟨i, hColor, hFits⟩ := hStack.binds (senseRule_keeps Γ) hFound
    refine ⟨Γ, hKept, ⟨hFits.sensible, hStack⟩, congrArg (k.sense Γ) (funext fun θ => ?_)⟩
    show _ = env.under (Γ.read θ) _
    rw [Renaming.under_of_some hName, Glossary.read_of_eq_some hColor, hFits.eq_sense]
  | evalLam => exact ⟨Γ, hKept, ⟨.bare ⟨rfl, rfl, nofun, hTerm⟩, hStack⟩, rfl⟩
  | evalFix => exact .eval_fix hKept hStack hTerm
  | evalInt | evalBool => exact ⟨Γ, hKept, ⟨.bare ⟨rfl, trivial⟩, hStack⟩, rfl⟩
  | evalQuote => exact ⟨Γ, hKept, ⟨hTerm, hStack⟩, rfl⟩
  | evalSplice => exact ⟨Γ, hKept, ⟨hTerm, ⟨nofun, nofun⟩, hStack⟩, rfl⟩
  | evalApp =>
    obtain ⟨hFn, hArg⟩ := hTerm.app
    exact ⟨Γ, hKept, ⟨hFn, ⟨List.forall_mem_singleton.mpr hArg, nofun⟩, hStack⟩, rfl⟩
  | evalLogic =>
    obtain ⟨hLeft, hRight⟩ := hTerm.logic
    exact ⟨Γ, hKept, ⟨hLeft, ⟨List.forall_mem_singleton.mpr hRight, nofun⟩, hStack⟩, rfl⟩
  | evalLet =>
    obtain ⟨hBound, hBody⟩ := hTerm.letIn
    exact ⟨Γ, hKept, ⟨hBound, ⟨List.forall_mem_singleton.mpr hBody, nofun⟩, hStack⟩, rfl⟩
  | evalIte =>
    obtain ⟨hCond, hYes, hNo⟩ := hTerm.ite
    exact ⟨Γ, hKept, ⟨hCond, ⟨by simp [Glossary.Knows, hYes, hNo], nofun⟩, hStack⟩, rfl⟩
  | @evalPrim _ op _ first _ hFirst =>
    obtain ⟨-, rest, rfl⟩ := Step.firstOperand_eq_ok hFirst
    exact ⟨Γ, hKept, ⟨hTerm.prim _ List.mem_cons_self,
      ⟨List.forall_mem_map.mpr hTerm.prim, nofun⟩, hStack⟩,
      congrArg (k.sense Γ) (funext fun θ => (Γ.sense_prim env op (first :: rest) θ).symm)⟩

theorem Means.of_build {k : BuildStack} (hKept : Γ.Kept p)
    (hs : (State.build level env t k).Read Γ) (h : (State.build level env t k).Moves p s' p') :
    s'.Means p' ((State.build level env t k).sense Γ) := by
  obtain ⟨hTerm, hStack⟩ := hs
  cases h with
  | @buildVar _ _ id color _ hName =>
    obtain ⟨i, hColor⟩ := hTerm id (Term.occursFree_var.mpr rfl) color hName
    refine ⟨Γ, hKept, ⟨?_, hStack⟩, congrArg (k.sense Γ) (funext fun θ => ?_)⟩
    · intro y hy d hSelf
      rw [← Renaming.eq_of_resolve_empty hSelf, ← Term.occursFree_var.mp hy]
      exact ⟨i, hColor⟩
    · show Renaming.empty.under (Γ.read θ) color = env.under (Γ.read θ) id
      rw [Renaming.under_of_some hName, Renaming.under_of_some (hKept.resolve_empty hColor)]
  | buildInt | buildBool => exact ⟨Γ, hKept, ⟨nofun, hStack⟩, rfl⟩
  | buildLam =>
    refine .build_binder hKept hStack hTerm rfl nofun nofun fun Γ' n _ hBody => funext fun θ => ?_
    exact congrArg function (funext fun d => hBody θ d)
  | buildFix =>
    refine .build_binder hKept hStack hTerm.fix rfl nofun nofun fun Γ' n _ hBody =>
      funext fun θ => ?_
    exact congrArg Meaning.fix (funext fun d => hBody θ d)
  | buildQuote | buildSplice => exact ⟨Γ, hKept, ⟨hTerm, ⟨nofun, nofun, nofun⟩, hStack⟩, rfl⟩
  | buildEscape => exact ⟨Γ, hKept, ⟨hTerm, trivial, hStack⟩, rfl⟩
  | buildApp =>
    obtain ⟨hFn, hArg⟩ := hTerm.app
    exact ⟨Γ, hKept, ⟨hFn, ⟨List.forall_mem_singleton.mpr hArg, nofun, nofun⟩, hStack⟩, rfl⟩
  | buildLogic =>
    obtain ⟨hLeft, hRight⟩ := hTerm.logic
    exact ⟨Γ, hKept, ⟨hLeft, ⟨List.forall_mem_singleton.mpr hRight, nofun, nofun⟩, hStack⟩, rfl⟩
  | buildLet =>
    obtain ⟨hBound, hBody⟩ := hTerm.letIn
    exact ⟨Γ, hKept, ⟨hBound, ⟨List.forall_mem_singleton.mpr hBody, nofun, nofun⟩, hStack⟩, rfl⟩
  | buildIte =>
    obtain ⟨hCond, hYes, hNo⟩ := hTerm.ite
    exact ⟨Γ, hKept, ⟨hCond, ⟨by simp [Glossary.Knows, hYes, hNo], nofun, nofun⟩, hStack⟩, rfl⟩
  | @buildPrim _ _ op _ first _ hFirst =>
    obtain ⟨-, rest, rfl⟩ := Step.firstOperand_eq_ok hFirst
    exact ⟨Γ, hKept, ⟨hTerm.prim _ List.mem_cons_self,
      ⟨List.forall_mem_map.mpr hTerm.prim, nofun, nofun⟩, hStack⟩,
      congrArg (k.sense Γ) (funext fun θ => (Γ.sense_prim env op (first :: rest) θ).symm)⟩

theorem Means.of_deliver {k : EvalStack} (hKept : Γ.Kept p) (hs : (State.deliver v k).Read Γ)
    (h : (State.deliver v k).Moves p s' p') : s'.Means p' ((State.deliver v k).sense Γ) := by
  obtain ⟨hValue, hStack⟩ := hs
  cases h with
  | deliverEscape | deliverRun => exact ⟨Γ, hKept, ⟨hValue.knows, hStack.2⟩, rfl⟩
  | deliverApplyTo =>
    exact ⟨Γ, hKept, ⟨hStack.1.1 _ List.mem_cons_self,
      ⟨nofun, List.forall_mem_singleton.mpr hValue⟩, hStack.2⟩, rfl⟩
  | deliverCall fn captured arg k =>
    obtain ⟨hEnter, hBare⟩ := (hStack.1.2 _ List.mem_cons_self).enter (senseRule_keeps Γ) hStack.2
    have hGrow := k.scope_subset_enter fn captured
    have hBody := Means.eval_bind hKept hEnter hBare.2.2.2 (hValue.mono (Extends.refl Γ) hGrow)
    rw [EvalStack.sense_enter] at hBody
    exact hBody
  | @deliverBind _ v' bound id k hLeave =>
    rw [EvalStack.scope_bind] at hValue
    have hFits := hValue.leave hStack.1 hLeave
    exact ⟨Γ, hKept, ⟨hFits.sensible, hStack.2⟩, congrArg (k.sense Γ) hFits.eq_sense.symm⟩
  | @deliverPrimNext _ op done args env k next hNext =>
    obtain ⟨⟨hPending, hDone⟩, hRest⟩ := hStack
    refine ⟨Γ, hKept, ⟨List.forall_mem_map.mp hPending _ (List.mem_of_getElem? hNext),
      ⟨hPending, List.forall_mem_append.mpr ⟨hDone, List.forall_mem_singleton.mpr hValue⟩⟩,
      hRest⟩, congrArg (k.sense Γ) (funext fun θ => ?_)⟩
    exact congrArg (operate op) (operands_next hNext).symm
  | @deliverPrimLast _ v' op done args env k hLast hApply =>
    obtain ⟨-, d, -, rfl⟩ := Arithmetic.exists_data hApply
    refine ⟨Γ, hKept, ⟨d.sensible Γ _, hStack.2⟩, congrArg (k.sense Γ) (funext fun θ => ?_)⟩
    rw [d.sense_value, ← operate_sense hApply θ]
    exact congrArg (operate op) (operands_last hLast).symm
  | deliverBranch b yes no env k =>
    obtain ⟨⟨hPending, -⟩, hRest⟩ := hStack
    cases b with
    | true =>
      exact ⟨Γ, hKept, ⟨hPending (env, yes) (by simp), hRest⟩,
        congrArg (k.sense Γ) (funext fun θ => (Meaning.branch_datum true _ _).symm)⟩
    | false =>
      exact ⟨Γ, hKept, ⟨hPending (env, no) (by simp), hRest⟩,
        congrArg (k.sense Γ) (funext fun θ => (Meaning.branch_datum false _ _).symm)⟩
  | deliverLogicSettled op right env k =>
    exact ⟨Γ, hKept, ⟨.bare ⟨rfl, trivial⟩, hStack.2⟩,
      congrArg (k.sense Γ) (funext fun θ => (Meaning.connective_settled op _).symm)⟩
  | @deliverLogicLeft b op right env k hOpen =>
    exact ⟨Γ, hKept, ⟨hStack.1.1 _ List.mem_cons_self, ⟨nofun, nofun⟩, hStack.2⟩,
      congrArg (k.sense Γ) (funext fun θ => (Meaning.connective_open hOpen _).symm)⟩
  | deliverLogicRight => exact ⟨Γ, hKept, ⟨.bare ⟨rfl, trivial⟩, hStack.2⟩, rfl⟩
  | deliverLet => exact .eval_bind hKept hStack.2 (hStack.1.1 _ List.mem_cons_self) hValue

theorem Means.of_emit {free : Set Ident} {k : BuildStack} (hKept : Γ.Kept p)
    (hs : (State.emit level c k).Read Γ) (hScoped : (State.emit level c k).Scoped free)
    (hNext : s'.Scoped free) (h : (State.emit level c k).Moves p s' p') :
    s'.Means p' ((State.emit level c k).sense Γ) := by
  obtain ⟨hCode, hStack⟩ := hs
  obtain ⟨hFragment, -⟩ := hScoped
  cases h with
  | emitClose => exact ⟨Γ, hKept, ⟨.bare ⟨rfl, hCode⟩, hStack⟩, rfl⟩
  | emitLam _ _ x k =>
    refine ⟨Γ, hKept, ⟨hNext.1.knows hStack.2, hStack.2⟩, congrArg (k.sense Γ) (funext fun θ => ?_)⟩
    exact congrArg function (funext fun d => (hFragment.sense_bound hKept hStack.1 rfl θ d).symm)
  | emitFix _ _ x k =>
    refine ⟨Γ, hKept, ⟨hNext.1.knows hStack.2, hStack.2⟩, congrArg (k.sense Γ) (funext fun θ => ?_)⟩
    exact congrArg Meaning.fix
      (funext fun d => (hFragment.sense_bound hKept hStack.1 rfl θ d).symm)
  | emitLetBody _ _ x bound k =>
    refine ⟨Γ, hKept, ⟨hNext.1.knows hStack.2, hStack.2⟩, congrArg (k.sense Γ) (funext fun θ => ?_)⟩
    exact congrArg (apply · _) (congrArg function
      (funext fun d => (hFragment.sense_bound hKept hStack.1 rfl θ d).symm))
  | emitQuote | emitSplice | emitApplied | emitLogicRight | emitIteNo =>
    exact ⟨Γ, hKept, ⟨hNext.1.knows hStack.2, hStack.2⟩, rfl⟩
  | emitApplyTo | emitLogicLeft =>
    exact ⟨Γ, hKept, ⟨hStack.1.1 _ List.mem_cons_self,
      ⟨nofun, List.forall_mem_singleton.mpr hCode, nofun⟩, hStack.2⟩, rfl⟩
  | emitLetBound _ _ x body env k =>
    refine .build_binder hKept hStack.2 (hStack.1.1 _ List.mem_cons_self) rfl nofun
      (List.forall_mem_singleton.mpr hCode) fun Γ' n hΓ hBody => funext fun θ => ?_
    exact congrArg₂ apply (congrArg function (funext fun d => hBody θ d))
      (congrFun (Glossary.sense_extends hΓ hCode) θ)
  | emitIteCond _ _ yes no env =>
    obtain ⟨⟨hPending, -, -⟩, hRest⟩ := hStack
    exact ⟨Γ, hKept, ⟨hPending (env, yes) (by simp),
      ⟨List.forall_mem_singleton.mpr (hPending (env, no) (by simp)),
        List.forall_mem_singleton.mpr hCode, nofun⟩, hRest⟩, rfl⟩
  | emitIteYes =>
    obtain ⟨⟨hPending, hFragments, -⟩, hRest⟩ := hStack
    exact ⟨Γ, hKept, ⟨hPending _ List.mem_cons_self,
      ⟨nofun, List.forall_mem_cons.mpr ⟨hFragments _ List.mem_cons_self,
        List.forall_mem_singleton.mpr hCode⟩, nofun⟩, hRest⟩, rfl⟩
  | @emitPrimNext _ _ op done args env k next hOperand =>
    obtain ⟨⟨hPending, hDone, -⟩, hRest⟩ := hStack
    refine ⟨Γ, hKept, ⟨List.forall_mem_map.mp hPending _ (List.mem_of_getElem? hOperand),
      ⟨hPending, List.forall_mem_append.mpr ⟨hDone, List.forall_mem_singleton.mpr hCode⟩, nofun⟩,
      hRest⟩, congrArg (k.sense Γ) (funext fun θ => ?_)⟩
    exact congrArg (operate op) (operands_next hOperand).symm
  | @emitPrimLast _ _ op done args env k hLast =>
    refine ⟨Γ, hKept, ⟨hNext.1.knows hStack.2, hStack.2⟩, congrArg (k.sense Γ) (funext fun θ => ?_)⟩
    rw [Glossary.sense_prim]
    exact congrArg (operate op) (operands_last hLast).symm

/-- **Transitions keep the meaning.** -/
theorem Means.moves {free : Set Ident} {m : Sense} (hFree : ∀ x ∈ free, x.isRaw = true)
    (hs : s.Means p m) (hScoped : s.Scoped free) (h : s.Moves p s' p') : s'.Means p' m := by
  obtain ⟨Γ, hKept, hRead, rfl⟩ := hs
  cases s with
  | eval => exact .of_eval hKept hRead h
  | build => exact .of_build hKept hRead h
  | deliver => exact .of_deliver hKept hRead h
  | emit => exact .of_emit hKept hRead hScoped (hScoped.moves hFree h) h

end State

/-! ### Runs -/

/-- The meaning of a program: names that it leaves free mean nothing. -/
def Term.denotation (e : Term) : Meaning := e.meaning fun _ => ∅

theorem Term.denotation_erase (e : Term) : e.erase.denotation = e.denotation := e.meaning_erase _

theorem Term.Written.means_initial {e : Term} (h : e.Written) (p : Palette) :
    (State.initial e).Means p fun _ => e.denotation := by
  refine ⟨fun _ => none, ⟨nofun, nofun⟩, ⟨?_, trivial⟩, funext fun θ => ?_⟩
  · intro x hx c hName
    have hRaw := h.vars x (Term.mem_vars_of_occursFree hx)
    rw [Renaming.resolve, Renaming.lookup_empty] at hName
    simp only [hRaw, if_true] at hName
    cases hName
  · refine congrArg e.meaning (funext fun x => ?_)
    rw [Renaming.under]
    cases Renaming.empty.resolve x <;> rfl

namespace Machine

/-- **All states that a program reaches mean what the program means.** -/
theorem Reaches.means {m m' : Machine} {e : Term} {s : State} (h : e.Written)
    (hReach : m.Reaches (.initial e) m' s) : s.Means m'.palette fun _ => e.denotation := by
  have hBoth : s.Scoped e.freeNames ∧ s.Means m'.palette fun _ => e.denotation := by
    refine hReach.preserves (I := fun m s => s.Scoped e.freeNames ∧
      s.Means m.palette fun _ => e.denotation) ?_ ⟨h.scoped_initial, h.means_initial _⟩
    rintro m m' s s' ⟨hScoped, hMeans⟩ hStep
    have hMoves := (step_eq_ok_iff.mp hStep).1
    exact ⟨hScoped.moves (fun _ hx => hx.1) hMoves, hMeans.moves (fun _ hx => hx.1) hScoped hMoves⟩
  exact hBoth.2

/-- **A program that comes to a number or a truth value means just that.** -/
theorem Yields.denotation_eq {m : Machine} {e : Term} {d : Datum} (h : e.Written)
    (hYields : m.Yields (.initial e) (.ok d.value)) : e.denotation = datum d := by
  obtain ⟨m', hReach⟩ := yields_ok_iff.mp hYields
  obtain ⟨Γ, -, -, hSense⟩ := hReach.means h
  exact (congrFun hSense fun _ => ∅).symm.trans (d.sense_value Γ _)

/-- **Stages do not change results.**  If a written program comes to a number or a truth value, and
the program without its quotes and splices does too, on whatever machines, then the two are the
same. -/
theorem erasure {e : Term} (hWritten : e.Written) {m n : Machine} {v w : Value}
    (hv : v.kind = .int ∨ v.kind = .bool) (hw : w.kind = .int ∨ w.kind = .bool)
    (hStaged : m.Yields (.initial e) (.ok v)) (hErased : n.Yields (.initial e.erase) (.ok w)) :
    v = w := by
  obtain ⟨d, rfl⟩ := Datum.exists_value hv
  obtain ⟨d', rfl⟩ := Datum.exists_value hw
  have hSame : datum d = datum d' := by
    rw [← hStaged.denotation_eq hWritten, ← hErased.denotation_eq hWritten.erase,
      e.denotation_erase]
  cases Set.singleton_injective hSame
  rfl

/-- Code that is spliced in twice and then run, and that calls a recursive function of its own. -/
theorem erasure_doubled :
    let twice : Term := .lam (.raw "x") (.quote
      (.prim (.arith .add) [.splice 1 (.var (.raw "x")), .splice 1 (.var (.raw "x"))]))
    let count : Term := .fix (.raw "f") (.lam (.raw "n")
      (.ite (.prim (.compare .eq) [.var (.raw "n"), .int 0]) (.int 21)
        (.app (.var (.raw "f")) (.prim (.arith .sub) [.var (.raw "n"), .int 1]))))
    let e : Term := .splice 0 (.app twice (.quote (.app count (.int 1))))
    e.erase ≠ e ∧ ({} : Machine).Yields (.initial e) (.ok (.int 42)) ∧
      ({} : Machine).Yields (.initial e.erase) (.ok (.int 42)) ∧
      ∀ (n : Machine) (i : Int64), n.Yields (.initial e.erase) (.ok (.int i)) → i = 42 := by
  intro twice count e
  have hStaged : ({} : Machine).Yields (.initial e) (.ok (.int 42)) := ⟨150, rfl⟩
  refine ⟨by decide, hStaged, ⟨150, rfl⟩, fun n i hErased => ?_⟩
  have hSame := erasure (by decide) (.inl rfl) (.inl rfl) hStaged hErased
  exact (Value.int.inj hSame).symm

end Machine

end StagedLambda
