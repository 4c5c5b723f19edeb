import StagedLambda.Proofs.Source.RoundTrip

/-!
# Reading accepts exactly the grammar

A source without lexical faults is read as a program exactly if its tokens derive the program in
the grammar, and they derive no other.  The wildcards of a program have the numbers from zero on,
in the order in which they are written.

* `Grammar.Derives.numbered`: a derivation numbers its wildcards one by one, from left to right.
* `Program.read_exact`: what is read, how its wildcards are numbered, and that it is the only term
  that its tokens derive.
-/

namespace StagedLambda

/-- The binders without a spelling, from left to right. -/
def Term.wildcards (t : Term) : List Ident := t.binders.filter Ident.isWildcard

namespace Grammar

/-! ### Wildcards -/

/-- Of the binders, those without a spelling have the numbers from `w` on, as many as there are
wildcards among the tokens; the next number is `w'`. -/
structure Numbered (w : Nat) (ts : List Token) (ids : List Ident) (w' : Nat) : Prop where
  next : w' = w + ts.count .underscore
  wildcards : ids.filter Ident.isWildcard = (List.range' w (ts.count .underscore)).map .generated

namespace Numbered

variable {w w₁ w' : Nat} {ts ts' : List Token} {ids ids' : List Ident}

theorem nil (w : Nat) : Numbered w [] [] w := ⟨rfl, rfl⟩

theorem append (h : Numbered w ts ids w₁) (h' : Numbered w₁ ts' ids' w') :
    Numbered w (ts ++ ts') (ids ++ ids') w' := by
  obtain ⟨rfl, hIds⟩ := h
  obtain ⟨rfl, hIds'⟩ := h'
  constructor
  · rw [List.count_append, Nat.add_assoc]
  · rw [List.filter_append, hIds, hIds', List.count_append, ← List.range'_append_1, List.map_append]

theorem skip (h : Numbered w ts ids w') {k : Token} (hk : k ≠ .underscore) :
    Numbered w (k :: ts) ids w' := by
  obtain ⟨hNext, hIds⟩ := h
  rw [← List.count_cons_of_ne hk] at hNext hIds
  exact ⟨hNext, hIds⟩

/-- What stands in front of a token of another kind. -/
theorem before (h : Numbered w ts ids w₁) (h' : Numbered w₁ ts' ids' w') {k : Token}
    (hk : k ≠ .underscore) : Numbered w (ts ++ k :: ts') (ids ++ ids') w' := h.append (h'.skip hk)

theorem closed (h : Numbered w ts ids w') {k : Token} (hk : k ≠ .underscore) :
    Numbered w (ts ++ [k]) ids w' := by
  have hClosed := h.before (nil w') hk
  rwa [List.append_nil] at hClosed

end Numbered

theorem Binds.numbered {w w' : Nat} {k : Token} {id : Ident} (h : Binds w k id w') :
    Numbered w [k] [id] w' := by
  cases h with
  | name | wildcard => exact ⟨rfl, rfl⟩

theorem Shifts.numbered {ss : List Token} {n : Int64} (h : Shifts ss n) (w : Nat) :
    Numbered w ss [] w := by
  cases h with
  | one | number | minus => exact ⟨rfl, rfl⟩

/-- **A derivation numbers its wildcards from left to right.** -/
theorem Derives.numbered {τ : Tier} {w w' : Nat} {ts : List Token} {t : Term}
    (h : Derives τ w ts t w') : Numbered w ts t.binders w' := by
  have hPair : ∀ (op : PrimOp) (a b : Term),
      (Term.prim op [a, b]).binders = a.binders ++ b.binders := by
    intro op a b
    rw [Term.binders, Term.bindersAll, Term.bindersAll, Term.bindersAll, List.append_nil]
  induction h with
  | tighter _ _ ih => exact ih
  | int | bool | var => exact ⟨rfl, rfl⟩
  | lam hId _ ih => exact (hId.numbered.before ih (by decide)).skip (by decide)
  | @fix w x _ _ _ _ ih =>
    exact ((Binds.name w x).numbered.before ih (by decide)).skip (by decide)
  | letIn hId _ _ ihBound ihBody =>
    exact (hId.numbered.before (ihBound.before ihBody (by decide)) (by decide)).skip (by decide)
  | ite _ _ _ ihCond ihYes ihNo =>
    rw [Term.binders, List.append_assoc]
    exact (ihCond.before (ihYes.before ihNo (by decide)) (by decide)).skip (by decide)
  | logic op _ _ ihLeft ihRight => exact ihLeft.before ihRight (by cases op <;> decide)
  | arith op _ _ ihLeft ihRight =>
    rw [hPair]
    exact ihLeft.before ihRight (by cases op <;> decide)
  | compare op _ _ ihLeft ihRight =>
    rw [hPair]
    exact ihLeft.before ihRight (by cases op <;> decide)
  | negate _ ih =>
    rw [Term.binders, Term.bindersAll, Term.bindersAll, List.append_nil]
    exact ih.skip (by decide)
  | minus _ ih =>
    rw [hPair, Term.binders, List.nil_append]
    exact ih.skip (by decide)
  | app _ _ ihFn ihArg => exact ihFn.append ihArg
  | enclosed _ ih => exact (ih.closed (by decide)).skip (by decide)
  | quote _ ih => exact (ih.closed (by decide)).skip (by decide)
  | splice hShift _ ih =>
    exact ((hShift.numbered _).before (ih.closed (by decide)) (by decide)).skip (by decide)

end Grammar

/-! ### Programs -/

namespace Program

theorem read_eq_ok_iff {source : String} {marked : List (Token × Span)} {e : Term}
    (hTokens : tokens (Lexeme.scan source.toList) = .ok marked) :
    read source = .ok e ↔ Grammar.program (marked.map (·.1)) = .ok e := by
  rw [read, readChars, hTokens]
  dsimp only
  cases Grammar.program (marked.map (·.1)) with
  | ok t => simp
  | error r => simp

/-- **Reading accepts exactly the grammar.**  A source without lexical faults is read as a program
exactly if its tokens derive the program.  In what tokens derive, the wildcards have the numbers
from zero on, as they come; and tokens derive one term only. -/
theorem read_exact :
    (∀ (source : String) (marked : List (Token × Span)),
      tokens (Lexeme.scan source.toList) = .ok marked →
      ∀ e, read source = .ok e ↔ ∃ w, Grammar.Derives .expression 0 (marked.map (·.1)) e w) ∧
    (∀ (ts : List Token) (e : Term) (w : Nat), Grammar.Derives .expression 0 ts e w →
      e.wildcards = (List.range (ts.count .underscore)).map .generated) ∧
    ∀ (τ : Tier) (w w₁ w₂ : Nat) (ts : List Token) (e₁ e₂ : Term),
      Grammar.Derives τ w ts e₁ w₁ → Grammar.Derives τ w ts e₂ w₂ → e₁ = e₂ := by
  refine ⟨?_, ?_, ?_⟩
  · intro source marked hTokens e
    rw [read_eq_ok_iff hTokens]
    exact Grammar.program_eq_ok_iff
  · intro ts e w h
    rw [List.range_eq_range']
    exact h.numbered.wildcards
  · intro τ w w₁ w₂ ts e₁ e₂ h₁ h₂
    exact (h₁.unique h₂).1

/-- Subtractions group to the left, a sign is a subtraction from zero, a comparison takes all of
them, and the wildcard of the definition comes before that of the function. -/
theorem read_exact_wildcards :
    let source := "let _ = 1 - 2 - -3 < f x y in ~-2\x7b fn _ -> not b \x7d"
    let sub (a b : Term) : Term := .prim (.arith .sub) [a, b]
    let var (x : String) : Term := .var (.raw x)
    let e : Term := .letIn (.generated 0)
      (.prim (.compare .lt) [sub (sub (.int 1) (.int 2)) (sub (.int 0) (.int 3)),
        .app (.app (var "f") (var "x")) (var "y")])
      (.splice (-2) (.lam (.generated 1) (.prim .negate [var "b"])))
    read source = .ok e ∧
      ∃ marked w, tokens (Lexeme.scan source.toList) = .ok marked ∧
        Grammar.Derives .expression 0 (marked.map (·.1)) e w ∧
        e.wildcards = (List.range ((marked.map (·.1)).count .underscore)).map .generated := by
  intro source sub var e
  have hRead : read source = .ok e := by
    have hTerm : (read source).toOption = some e := by decide +kernel
    cases h : read source with
    | error =>
      rw [h] at hTerm
      cases hTerm
    | ok t =>
      rw [h] at hTerm
      rw [Option.some.inj hTerm]
  refine ⟨hRead, ?_⟩
  rcases hTokens : tokens (Lexeme.scan source.toList) with fault | marked
  · rw [read, readChars, hTokens] at hRead
    cases hRead
  · obtain ⟨w, hDerives⟩ := (read_exact.1 source marked hTokens e).mp hRead
    exact ⟨marked, w, rfl, hDerives, read_exact.2.1 _ e w hDerives⟩

end Program

end StagedLambda
