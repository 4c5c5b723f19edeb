import StagedLambda.Proofs.Term.Names

/-!
# Plain terms

`Term.every` tests a term and everything in it.  A term is plain when it is unstaged, gives every
primitive as many operands as it takes and has an abstraction in every fixpoint; so are all its
parts.
-/

namespace StagedLambda.Term

mutual

/-- Whether a test holds of the term and of everything in it. -/
def every (test : Term → Bool) : Term → Bool
  | .var id => test (.var id)
  | .int n => test (.int n)
  | .bool b => test (.bool b)
  | .lam param body => test (.lam param body) && body.every test
  | .fix self body => test (.fix self body) && body.every test
  | .quote body => test (.quote body) && body.every test
  | .splice shift body => test (.splice shift body) && body.every test
  | .app fn arg => test (.app fn arg) && (fn.every test && arg.every test)
  | .logic op left right => test (.logic op left right) && (left.every test && right.every test)
  | .letIn id bound body => test (.letIn id bound body) && (bound.every test && body.every test)
  | .ite cond yes no =>
    test (.ite cond yes no) && (cond.every test && (yes.every test && no.every test))
  | .prim op args => test (.prim op args) && everyAll test args

def everyAll (test : Term → Bool) : List Term → Bool
  | [] => true
  | t :: ts => t.every test && everyAll test ts

end

theorem everyAll_iff {test : Term → Bool} {ts : List Term} :
    everyAll test ts = true ↔ ∀ t ∈ ts, t.every test = true := by
  induction ts with
  | nil => simp [everyAll]
  | cons t ts ih => simp [everyAll, ih]

theorem every_mono {p q : Term → Bool} (hTest : ∀ t, p t = true → q t = true) (t : Term)
    (h : t.every p = true) : t.every q = true := by
  induction t with
  | var | int | bool => exact hTest _ h
  | lam _ body ih | fix _ body ih | quote body ih | splice _ body ih =>
    simp only [every, Bool.and_eq_true] at h ⊢
    exact ⟨hTest _ h.1, ih h.2⟩
  | app a b ha hb | logic _ a b ha hb | letIn _ a b ha hb =>
    simp only [every, Bool.and_eq_true] at h ⊢
    exact ⟨hTest _ h.1, ha h.2.1, hb h.2.2⟩
  | ite a b c ha hb hc =>
    simp only [every, Bool.and_eq_true] at h ⊢
    exact ⟨hTest _ h.1, ha h.2.1, hb h.2.2.1, hc h.2.2.2⟩
  | prim op args ih =>
    simp only [every, Bool.and_eq_true, everyAll_iff] at h ⊢
    exact ⟨hTest _ h.1, fun a ha => ih a ha (h.2 a ha)⟩

/-- Every primitive has as many operands as it takes. -/
def saturated (t : Term) : Bool :=
  t.every fun
    | .prim op args => args.length = op.arity
    | _ => true

/-- The body of every fixpoint is an abstraction. -/
def fixesFunctions (t : Term) : Bool :=
  t.every fun
    | .fix _ body => body.isLam
    | _ => true

structure Plain (t : Term) : Prop where
  unstaged : t.isStaged = false
  saturated : t.saturated = true
  fixesFunctions : t.fixesFunctions = true

namespace Plain

theorem lam {param : Ident} {body : Term} (h : (lam param body).Plain) : body.Plain := by
  obtain ⟨hUnstaged, hSaturated, hFixes⟩ := h
  exact ⟨hUnstaged, hSaturated, hFixes⟩

theorem fix {self : Ident} {body : Term} (h : (fix self body).Plain) :
    body.isLam = true ∧ body.Plain := by
  obtain ⟨hUnstaged, hSaturated, hFixes⟩ := h
  rw [Term.fixesFunctions, every, Bool.and_eq_true] at hFixes
  exact ⟨hFixes.1, hUnstaged, hSaturated, hFixes.2⟩

/-- A term with two parts. -/
theorem parts {t a b : Term} (h : t.Plain) (hStaged : t.isStaged = (a.isStaged || b.isStaged))
    (hEvery : ∀ test, t.every test = (test t && (a.every test && b.every test))) :
    a.Plain ∧ b.Plain := by
  obtain ⟨hUnstaged, hSaturated, hFixes⟩ := h
  rw [hStaged, Bool.or_eq_false_iff] at hUnstaged
  simp only [Term.saturated, Term.fixesFunctions, hEvery, Bool.and_eq_true] at hSaturated hFixes
  exact ⟨⟨hUnstaged.1, hSaturated.2.1, hFixes.2.1⟩, hUnstaged.2, hSaturated.2.2, hFixes.2.2⟩

theorem app {fn arg : Term} (h : (app fn arg).Plain) : fn.Plain ∧ arg.Plain :=
  h.parts rfl fun _ => rfl

theorem logic {op : LogicOp} {left right : Term} (h : (logic op left right).Plain) :
    left.Plain ∧ right.Plain := h.parts rfl fun _ => rfl

theorem letIn {id : Ident} {bound body : Term} (h : (letIn id bound body).Plain) :
    bound.Plain ∧ body.Plain := h.parts rfl fun _ => rfl

theorem ite {cond yes no : Term} (h : (ite cond yes no).Plain) :
    cond.Plain ∧ yes.Plain ∧ no.Plain := by
  obtain ⟨hUnstaged, hSaturated, hFixes⟩ := h
  simp only [isStaged, Bool.or_eq_false_iff] at hUnstaged
  simp only [Term.saturated, Term.fixesFunctions, every, Bool.and_eq_true] at hSaturated hFixes
  exact ⟨⟨hUnstaged.1.1, hSaturated.2.1, hFixes.2.1⟩,
    ⟨hUnstaged.1.2, hSaturated.2.2.1, hFixes.2.2.1⟩,
    hUnstaged.2, hSaturated.2.2.2, hFixes.2.2.2⟩

theorem prim {op : PrimOp} {args : List Term} (h : (prim op args).Plain) :
    args.length = op.arity ∧ ∀ a ∈ args, a.Plain := by
  obtain ⟨hUnstaged, hSaturated, hFixes⟩ := h
  simp only [isStaged, anyIsStaged_eq_any, List.any_eq_false, Bool.not_eq_true] at hUnstaged
  simp only [Term.saturated, Term.fixesFunctions, every, Bool.and_eq_true, everyAll_iff,
    decide_eq_true_eq] at hSaturated hFixes
  exact ⟨hSaturated.1, fun a ha => ⟨hUnstaged a ha, hSaturated.2 a ha, hFixes.2 a ha⟩⟩

end Plain

end StagedLambda.Term
