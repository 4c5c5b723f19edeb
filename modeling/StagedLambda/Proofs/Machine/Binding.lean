import StagedLambda.Proofs.Machine.Frames
import StagedLambda.Proofs.Machine.Moves

/-!
# Functions, their bindings and the stack

A function does not hold the values of its free variables: some of them it picked up when it was
returned past their binding frames, the others are in frames that are still on the stack.  So
what a value means depends on the stack below it.

A `Reading` says when a value without bindings of its own stands for a meaning, where a color has
the meaning that `Γ` gives it and only the colors of a scope can be looked up.  `Fits` extends
this to functions with bindings: each binding fits in the scope of those picked up after it, and
the function fits in the scope that they all make up.

* `Fits.mono`: what fits still fits in a larger scope and when more colors have a meaning.
* `Fits.leave`: a value that fits above a binding frame still fits when it has left the frame.
* `Fits.enter`: when a function is called, its bindings make up the scope that its body needs.
-/

namespace StagedLambda

/-- `Γ'` gives all colors of `Γ` the same meaning. -/
def Extends {ι : Type} (Γ Γ' : Ident → Option ι) : Prop :=
  ∀ ⦃c i⦄, Γ c = some i → Γ' c = some i

theorem Extends.refl {ι : Type} (Γ : Ident → Option ι) : Extends Γ Γ := fun _ _ h => h

theorem Extends.trans {ι : Type} {Γ Γ' Γ'' : Ident → Option ι} (h : Extends Γ Γ')
    (h' : Extends Γ' Γ'') : Extends Γ Γ'' := fun _ _ hc => h' (h hc)

/-! ### Colors with a meaning -/

section

variable {ι : Type} {Γ : Ident → Option ι} {p : Palette}

/-- The colors that have a meaning have been issued. -/
def Issued (p : Palette) (Γ : Ident → Option ι) : Prop :=
  ∀ c i, Γ c = some i → ∃ n < p.issued, c.tag? = some n

/-- Lets a color have a meaning. -/
def assign (Γ : Ident → Option ι) (c : Ident) (i : ι) : Ident → Option ι :=
  fun d => if d = c then some i else Γ d

theorem assign_self (c : Ident) (i : ι) : assign Γ c i c = some i := if_pos rfl

theorem Issued.tint_eq_none (h : Issued p Γ) (id : Ident) : Γ (p.tint id) = none := by
  by_contra hSome
  obtain ⟨i, hi⟩ := Option.ne_none_iff_exists'.mp hSome
  obtain ⟨n, hn, hTag⟩ := h _ i hi
  rw [Palette.tag?_tint] at hTag
  have := Option.some.inj hTag
  omega

theorem extends_assign {c : Ident} (hFresh : Γ c = none) (i : ι) : Extends Γ (assign Γ c i) := by
  intro d j hd
  rw [assign, if_neg, hd]
  rintro rfl
  rw [hFresh] at hd
  cases hd

theorem Issued.assign (h : Issued p Γ) (id : Ident) (i : ι) :
    Issued p.advance (assign Γ (p.tint id) i) := by
  intro c j hc
  rw [Palette.issued_advance]
  by_cases hNew : c = p.tint id
  · exact ⟨p.issued, by omega, by rw [hNew, Palette.tag?_tint]⟩
  · rw [StagedLambda.assign, if_neg hNew] at hc
    obtain ⟨n, hn, hTag⟩ := h c j hc
    exact ⟨n, by omega, hTag⟩

end

/-! ### What values stand for -/

/-- Meanings for values without bindings of their own. -/
structure Reading (ι : Type) where
  bare : (Ident → Option ι) → Set Ident → Value → ι → Prop
  mono : ∀ {Γ Γ' S S' v i}, Extends Γ Γ' → S ⊆ S' → bare Γ S v i → bare Γ' S' v i
  /-- Only functions depend on a binding that is left behind; of code this is checked. -/
  leave : ∀ {Γ S v i c bound}, bare Γ (insert c S) v i → v.kind ≠ .function →
    Step.leave c bound v = .ok v → bare Γ S v i
  captured_eq_nil : ∀ {Γ S fn captured i}, bare Γ S (.closure fn captured) i → captured = []
  /-- A fixpoint's color stands for the function itself. -/
  self_eq : ∀ {Γ S fn i c}, bare Γ S (.closure fn []) i → fn.self? = some c → Γ c = some i

variable {ι : Type} {R : Reading ι} {Γ Γ' : Ident → Option ι} {S S' : Set Ident}

/-- A value stands for `i` in the scope `S`. -/
inductive Fits (R : Reading ι) (Γ : Ident → Option ι) : Set Ident → Value → ι → Prop
  | bare {S : Set Ident} {v : Value} {i : ι} (h : R.bare Γ S v i) : Fits R Γ S v i
  | captured {S : Set Ident} {c : Ident} {bound : Value} {fn : Abstraction}
      {rest : List (Ident × Value)} {i j : ι} (hColor : Γ c = some j)
      (hBound : Fits R Γ S bound j) (hRest : Fits R Γ (insert c S) (.closure fn rest) i) :
      Fits R Γ S (.closure fn ((c, bound) :: rest)) i

/-- A binding of a color holds a value that stands for the color's meaning. -/
def Binds (R : Reading ι) (Γ : Ident → Option ι) (S : Set Ident) (c : Ident) (v : Value) : Prop :=
  ∃ i, Γ c = some i ∧ Fits R Γ S v i

theorem Fits.mono {v : Value} {i : ι} (hΓ : Extends Γ Γ') (hS : S ⊆ S')
    (h : Fits R Γ S v i) : Fits R Γ' S' v i := by
  induction h generalizing S' with
  | bare h => exact .bare (R.mono hΓ hS h)
  | captured hColor _ _ ihBound ihRest =>
    exact .captured (hΓ hColor) (ihBound hS) (ihRest (Set.insert_subset_insert hS))

theorem Binds.mono {c : Ident} {v : Value} (hΓ : Extends Γ Γ') (hS : S ⊆ S')
    (h : Binds R Γ S c v) : Binds R Γ' S' c v := by
  obtain ⟨i, hColor, hFits⟩ := h
  exact ⟨i, hΓ hColor, hFits.mono hΓ hS⟩

theorem Fits.bare_of_kind {v : Value} {i : ι} (h : Fits R Γ S v i) (hKind : v.kind ≠ .function) :
    R.bare Γ S v i := by
  cases h with
  | bare h => exact h
  | captured => exact absurd rfl hKind

/-- **A value that leaves a binding behind still fits.** -/
theorem Fits.leave {c : Ident} {bound v v' : Value} {i : ι} (h : Fits R Γ (insert c S) v i)
    (hBound : Binds R Γ S c bound) (hLeave : Step.leave c bound v = .ok v') :
    Fits R Γ S v' i := by
  rcases Step.leave_eq_ok hLeave with
    ⟨fn, captured, rfl, rfl⟩ | ⟨t, rfl, rfl, -⟩ | ⟨n, rfl, rfl⟩ | ⟨b, rfl, rfl⟩
  · obtain ⟨j, hColor, hFits⟩ := hBound
    exact .captured hColor hFits h
  all_goals exact .bare (R.leave (h.bare_of_kind nofun) nofun hLeave)

/-! ### Calls -/

theorem EvalStack.scope_subset_bindAll (captured : List (Ident × Value)) (k : EvalStack) :
    k.scope ⊆ (k.bindAll captured).scope := by
  induction captured generalizing k with
  | nil => exact subset_rfl
  | cons b rest ih => exact (scope_subset_push (.bind b.1 b.2) k).trans (ih _)

/-- The scope in which the body of a function stands, apart from its parameter. -/
def Abstraction.inner (fn : Abstraction) (S : Set Ident) : Set Ident :=
  {c | fn.self? = some c} ∪ S

theorem Abstraction.inner_mono {fn : Abstraction} {S S' : Set Ident} (hS : S ⊆ S') :
    fn.inner S ⊆ fn.inner S' := Set.union_subset_union_right _ hS

theorem EvalStack.scope_enter (k : EvalStack) (fn : Abstraction)
    (captured : List (Ident × Value)) :
    (k.enter fn captured).scope = fn.inner (k.bindAll captured).scope := by
  ext c
  cases hSelf : fn.self? with
  | none => simp [enter, Abstraction.inner, hSelf]
  | some self => simp [enter, Abstraction.inner, hSelf]

theorem EvalStack.scope_subset_enter (k : EvalStack) (fn : Abstraction)
    (captured : List (Ident × Value)) : k.scope ⊆ (k.enter fn captured).scope := by
  rw [scope_enter]
  exact (scope_subset_bindAll captured k).trans Set.subset_union_right

/-- The rule of binding frames: each holds a value that stands for its color. -/
def StackRule.Keeps (r : StackRule) (R : Reading ι) (Γ : Ident → Option ι) : Prop :=
  ∀ c v (rest : EvalStack), r.eval (.bind c v) rest ↔ Binds R Γ rest.scope c v

theorem Fits.bindAll {r : StackRule} (hKeeps : r.Keeps R Γ) {fn : Abstraction}
    {captured : List (Ident × Value)} {i : ι} {k : EvalStack} (hStack : k.Each r)
    (h : Fits R Γ k.scope (.closure fn captured) i) :
    (k.bindAll captured).Each r ∧
      R.bare Γ (k.bindAll captured).scope (.closure fn []) i := by
  induction captured generalizing k with
  | nil =>
    cases h with
    | bare h => exact ⟨hStack, h⟩
  | cons b rest ih =>
    cases h with
    | bare h => exact absurd (R.captured_eq_nil h) (List.cons_ne_nil b rest)
    | captured hColor hBound hRest =>
      refine ih (k := .push (.bind _ _) k) ⟨(hKeeps _ _ k).mpr ⟨_, hColor, hBound⟩, hStack⟩ ?_
      rw [EvalStack.scope_bind]
      exact hRest

/-- **Calling a function restores its scope.** -/
theorem Fits.enter {r : StackRule} (hKeeps : r.Keeps R Γ) {fn : Abstraction}
    {captured : List (Ident × Value)} {i : ι} {k : EvalStack} (hStack : k.Each r)
    (h : Fits R Γ k.scope (.closure fn captured) i) :
    (k.enter fn captured).Each r ∧
      R.bare Γ (k.bindAll captured).scope (.closure fn []) i := by
  obtain ⟨hAll, hBare⟩ := h.bindAll hKeeps hStack
  refine ⟨?_, hBare⟩
  cases hSelf : fn.self? with
  | none => simpa [EvalStack.enter, hSelf] using hAll
  | some self =>
    have hFits := h.mono (Extends.refl Γ) (EvalStack.scope_subset_bindAll captured k)
    simp only [EvalStack.enter, hSelf]
    exact ⟨(hKeeps _ _ _).mpr ⟨i, R.self_eq hBare hSelf, hFits⟩, hAll⟩

/-- **What is looked up fits.** -/
theorem EvalStack.Each.binds {r : StackRule} (hKeeps : r.Keeps R Γ) {c : Ident} {v : Value}
    {k : EvalStack} (hStack : k.Each r) (hFound : k.lookup c = .found v) :
    Binds R Γ k.scope c v := by
  obtain ⟨rest, hRule, hScope⟩ := hStack.found hFound
  exact ((hKeeps c v rest).mp hRule).mono (Extends.refl Γ) hScope

end StagedLambda
