import StagedLambda.Proofs.Machine.Operands
import StagedLambda.Proofs.Source.Acceptance

/-!
# Programs that are read are well-formed

Reading checks what the machine relies on.  In a program that has been read every primitive has as
many operands as it takes, so that no run of it, however code is taken apart and put together,
fails for a number of operands.  Its variables are names and its wildcards have numbers, so no
variable refers to a wildcard.

* `Program.derives_of_read`: the tokens of the source derive the program.
* `Program.read_wellFormed`: what holds of the program and of its runs.
-/

namespace StagedLambda

namespace Term

/-- Variables and fixpoints have names, literals are not below zero, and primitives have as many
operands as they take. -/
def wellFormed (t : Term) : Bool :=
  t.every fun
    | .var id | .fix id _ => id.isRaw
    | .int n => 0 ≤ n
    | .prim op args => args.length = op.arity
    | _ => true

theorem saturated_of_wellFormed {t : Term} (h : t.wellFormed = true) : t.saturated = true := by
  refine every_mono (fun t ht => ?_) t h
  cases t <;> first | rfl | exact ht

theorem wellFormed_of_grammatical {t : Term} (h : t.grammatical = true) :
    t.wellFormed = true := by
  have hRaw : ∀ id : Ident, id.isNamed = true → id.isRaw = true := by
    intro id hId
    cases id <;> first | rfl | cases hId
  refine every_mono (fun t ht => ?_) t h
  cases t <;> first | rfl | exact ht | exact hRaw _ ht

/-- What a test says of all variables in a term. -/
theorem vars_of_every {test : Term → Bool} {t : Term} (h : t.every test = true) :
    ∀ id ∈ t.vars, test (.var id) = true := by
  induction t with
  | var id => exact List.forall_mem_singleton.mpr h
  | int | bool => exact nofun
  | lam _ body ih | fix _ body ih | quote body ih | splice _ body ih =>
    simp only [every, Bool.and_eq_true] at h
    exact ih h.2
  | app a b ha hb | logic _ a b ha hb | letIn _ a b ha hb =>
    simp only [every, Bool.and_eq_true] at h
    exact List.forall_mem_append.mpr ⟨ha h.2.1, hb h.2.2⟩
  | ite a b c ha hb hc =>
    simp only [every, Bool.and_eq_true] at h
    exact List.forall_mem_append.mpr
      ⟨List.forall_mem_append.mpr ⟨ha h.2.1, hb h.2.2.1⟩, hc h.2.2.2⟩
  | prim op args ih =>
    simp only [every, Bool.and_eq_true, everyAll_iff] at h
    intro id hid
    rw [vars, varsAll_eq_flatMap] at hid
    obtain ⟨a, ha, hid⟩ := List.mem_flatMap.mp hid
    exact ih a ha (h.2 a ha) id hid

/-- A wildcard has no name that a variable could mention. -/
theorem not_mem_vars_of_wildcard {t : Term} (h : t.wellFormed = true) {id : Ident}
    (hWildcard : id ∈ t.wildcards) : id ∉ t.vars := by
  intro hVar
  have hRaw : id.isRaw = true := vars_of_every h id hVar
  have hGenerated : id.isWildcard = true := (List.mem_filter.mp hWildcard).2
  cases id with
  | raw => cases hGenerated
  | generated | colored => cases hRaw

end Term

namespace Program

theorem derives_of_read {source : String} {e : Term} (h : read source = .ok e) :
    ∃ marked w, tokens (Lexeme.scan source.toList) = .ok marked ∧
      Grammar.Derives .expression 0 (marked.map (·.1)) e w := by
  rcases hTokens : tokens (Lexeme.scan source.toList) with fault | marked
  · rw [read, readChars, hTokens] at h
    cases h
  · obtain ⟨w, hDerives⟩ := Grammar.derives_of_program ((read_eq_ok_iff hTokens).mp h)
    exact ⟨marked, w, rfl, hDerives⟩

/-- **Reading and running agree on well-formedness.**  A program that has been read is well-formed;
its wildcards are numbered from zero on as they stand in the source, each once, and no variable
refers to one; and no run of the program, from any machine and of any length, fails because a
primitive has the wrong number of operands. -/
theorem read_wellFormed {source : String} {e : Term} (hRead : read source = .ok e) :
    e.wellFormed = true ∧
    (∃ marked, tokens (Lexeme.scan source.toList) = .ok marked ∧
      e.wildcards = (List.range ((marked.map (·.1)).count .underscore)).map .generated) ∧
    (∀ id ∈ e.wildcards, id ∉ e.vars) ∧
    ∀ (m m' m'' : Machine) (s : State) (f : Fault), m.Reaches (.initial e) m' s →
      m'.step s = (.error f, m'') →
        (∀ op found, f ≠ .arity op found) ∧ ∀ op, f ≠ .noOperands op := by
  have hWellFormed := Term.wellFormed_of_grammatical (grammatical_of_read hRead)
  obtain ⟨marked, w, hTokens, hDerives⟩ := derives_of_read hRead
  refine ⟨hWellFormed, ⟨marked, hTokens, ?_⟩, fun _ => Term.not_mem_vars_of_wildcard hWellFormed,
    ?_⟩
  · rw [List.range_eq_range']
    exact hDerives.numbered.wildcards
  · intro m m' m'' s f hReach hStep
    have hCounts := hReach.operands_counted (Term.saturated_of_wellFormed hWellFormed) hStep
    constructor
    · rintro op found rfl
      cases hCounts
    · rintro op rfl
      cases hCounts

/-- Two wildcards, and code with a primitive whose operands are spliced in and which is then run. -/
theorem read_wellFormed_staged :
    let source := "let _ = 1 in ~0\x7b (fn _ -> \x60\x7b ~\x7b \x60\x7b 2 \x7d \x7d - -3 \x7d) true \x7d"
    let sub (a b : Term) : Term := .prim (.arith .sub) [a, b]
    let e : Term := .letIn (.generated 0) (.int 1) (.splice 0 (.app
      (.lam (.generated 1) (.quote (sub (.splice 1 (.quote (.int 2))) (sub (.int 0) (.int 3)))))
      (.bool true)))
    read source = .ok e ∧ e.wellFormed = true ∧ e.wildcards = [.generated 0, .generated 1] ∧
      ∀ (m m' m'' : Machine) (s : State) (f : Fault), m.Reaches (.initial e) m' s →
        m'.step s = (.error f, m'') → ∀ op found, f ≠ .arity op found := by
  intro source sub e
  have hRead : read source = .ok e := by decide +kernel
  obtain ⟨hWellFormed, -, -, hRuns⟩ := read_wellFormed hRead
  exact ⟨hRead, hWellFormed, by decide,
    fun m m' m'' s f hReach hStep => (hRuns m m' m'' s f hReach hStep).1⟩

end Program

end StagedLambda
