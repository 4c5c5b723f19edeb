import StagedLambda.Typing.Acyclic

/-!
# Unification ends

Unification goes on to the results of two function types with a solution that their parameters have
just extended, so the results may stand for larger types than before. But then a variable has been
solved that was not. So either fewer variables are unsolved, or the solution is still the same and
the types are smaller (`Solves.new`, `effort`).

`Acyclic.unify` says what comes out: an acyclic solution that adds nothing but the equation, or a
fault where no assignment makes the types equal.
-/

namespace StagedLambda

namespace Solution

/-- One solution comes from another by making two types equal. The assignments that satisfy it are
those that satisfied the old one and make the types equal. -/
structure Solves (s s' : Solution) (expected found : Ty) : Prop where
  acyclic : s'.Acyclic
  grows : s.Grows s'
  equal : ∀ σ, s'.Satisfied σ → expected.subst σ = found.subst σ
  complete : ∀ σ, s.Satisfied σ → expected.subst σ = found.subst σ → s'.Satisfied σ
  below : ∀ n, s.Below n → expected.Below n → found.Below n → s'.Below n
  new : s' = s ∨ ∃ a u, s.lookup a = none ∧ s'.lookup a = some u

/-- An outcome of unification is right: a solution of the equation, or a fault if the equation has
none. -/
inductive Decides (s : Solution) (expected found : Ty) : Except TypeError Solution → Prop
  | ok {s' : Solution} (h : s.Solves s' expected found) : Decides s expected found (.ok s')
  | error {e : TypeError} (h : ∀ σ, s.Satisfied σ → expected.subst σ ≠ found.subst σ) :
    Decides s expected found (.error e)

section

variable {s s' s'' : Solution} {expected found : Ty} {r : Except TypeError Solution}

theorem Solves.refl (hs : s.Acyclic) (h : expected = found) : s.Solves s expected found where
  acyclic := hs
  grows := .refl s
  equal := fun _ _ => h ▸ rfl
  complete := fun _ hσ _ => hσ
  below := fun _ hBelow _ _ => hBelow
  new := .inl rfl

theorem Solves.fn {p r q t : Ty} (h : s.Solves s' p q) (h' : s'.Solves s'' r t) :
    s.Solves s'' (.fn p r) (.fn q t) where
  acyclic := h'.acyclic
  grows := h.grows.trans h'.grows
  equal := fun σ hσ => by
    rw [Ty.subst, Ty.subst, h.equal σ (hσ.of_grows h'.grows), h'.equal σ hσ]
  complete := fun σ hσ hEqual => by
    obtain ⟨hParam, hResult⟩ := Ty.fn.inj hEqual
    exact h'.complete σ (h.complete σ hσ hParam) hResult
  below := fun n hs hExpected hFound => by
    obtain ⟨hp, hr⟩ := Ty.below_fn.mp hExpected
    obtain ⟨hq, ht⟩ := Ty.below_fn.mp hFound
    exact h'.below n (h.below n hs hp hq) hr ht
  new := by
    rcases h.new with rfl | ⟨a, u, ha, hu⟩
    · exact h'.new
    · exact .inr ⟨a, u, ha, h'.grows a u hu⟩

theorem Decides.symm (h : s.Decides expected found r) : s.Decides found expected r := by
  cases h with
  | ok h =>
    exact .ok { h with
      equal := fun σ hσ => (h.equal σ hσ).symm
      complete := fun σ hσ hEqual => h.complete σ hσ hEqual.symm
      below := fun n hs hFound hExpected => h.below n hs hExpected hFound }
  | error h => exact .error fun σ hσ hEqual => h σ hσ hEqual.symm

/-- What decides an equation between two types decides it for those that they stand for. -/
theorem Decides.of_resolved {expected' found' : Ty} (h : s.Decides expected' found' r)
    (hExpected : s.Resolved expected expected') (hFound : s.Resolved found found') :
    s.Decides expected found r := by
  cases h with
  | ok h =>
    refine .ok { h with equal := fun σ hσ => ?_, complete := fun σ hσ hEqual => ?_,
                        below := fun n hs he hf => ?_ }
    · have hOld := hσ.of_grows h.grows
      rw [← hExpected.subst_eq σ hOld, ← hFound.subst_eq σ hOld, h.equal σ hσ]
    · rw [← hExpected.subst_eq σ hσ, ← hFound.subst_eq σ hσ] at hEqual
      exact h.complete σ hσ hEqual
    · exact h.below n hs (hExpected.below n hs he) (hFound.below n hs hf)
  | error h =>
    refine .error fun σ hσ => ?_
    rw [← hExpected.subst_eq σ hσ, ← hFound.subst_eq σ hσ]
    exact h σ hσ

/-! ### Solving a variable -/

theorem Acyclic.solves_insert (hs : s.Acyclic) {a : Nat} {t : Ty} (ha : s.lookup a = none)
    (hOccurs : a ∉ (t.subst s.image).vars) : s.Solves (s.insert a t) (.var a) t where
  acyclic := hs.insert ha hOccurs
  grows := grows_insert ha t
  equal := fun σ hσ => hσ a t (by rw [lookup_insert, if_pos rfl])
  complete := fun σ hσ hEqual => hσ.insert hEqual
  below := fun n hBelow hVar hType => hBelow.insert (Ty.below_var.mp hVar) hType
  new := .inr ⟨a, t, ha, by rw [lookup_insert, if_pos rfl]⟩

/-- **An unsolved variable is solved by every type but those that properly hold it.** -/
theorem Acyclic.assign (hs : s.Acyclic) {a : Nat} {t : Ty} (ha : s.lookup a = none)
    (hType : ∀ v, t = .var v → s.lookup v = none) (hOther : t ≠ .var a) :
    ∃ r, s.assign a t = some r ∧ s.Decides (.var a) t r := by
  rw [Solution.assign, hs.occurs_eq, hs.zonk_eq]
  by_cases hOccurs : a ∈ (t.subst s.image).vars
  · refine ⟨.error (.infinite a (t.subst s.image)), by simp [hOccurs], .error fun σ hσ hEqual => ?_⟩
    rw [← hs.subst_image hσ t] at hEqual
    -- The type would stand for the variable itself, but it is not the variable.
    have hVar := Ty.eq_var_of_mem_vars hOccurs hEqual
    cases t with
    | int | bool | fn => cases hVar
    | var v =>
      rw [Ty.subst, image_of_unsolved (hType v rfl)] at hVar
      exact hOther hVar
  · exact ⟨.ok (s.insert a t), by simp [hOccurs], .ok (hs.solves_insert ha hOccurs)⟩

end

/-! ### How long it takes -/

/-- The variables below `n` that have not been solved. -/
def unsolved (s : Solution) (n : Nat) : List Nat :=
  (List.range n).filter fun v => (s.lookup v).isNone

theorem mem_unsolved {s : Solution} {n v : Nat} : v ∈ s.unsolved n ↔ v < n ∧ s.lookup v = none := by
  rw [unsolved, List.mem_filter, List.mem_range, Option.isNone_iff_eq_none]

/-- Once another variable has been solved, fewer are left. -/
theorem Grows.distinct_unsolved_lt {s s' : Solution} (h : s.Grows s') {n a : Nat} {u : Ty}
    (ha : s.lookup a = none) (hNew : s'.lookup a = some u) (hBelow : s'.Below n) :
    distinct (s'.unsolved n) < distinct (s.unsolved n) := by
  refine distinct_lt_of_subset (x := a) (fun v hv => ?_) ?_ (fun hv => ?_)
  · obtain ⟨hn, hv⟩ := mem_unsolved.mp hv
    refine mem_unsolved.mpr ⟨hn, ?_⟩
    cases hOld : s.lookup v with
    | none => rfl
    | some t =>
      rw [h v t hOld] at hv
      cases hv
  · exact mem_unsolved.mpr ⟨(hBelow a u hNew).1, ha⟩
  · rw [(mem_unsolved.mp hv).2] at hNew
    cases hNew

/-- The order in which the work ends: by the number of unsolved variables, then by the size of what
the types stand for. -/
def effort (s : Solution) (n : Nat) (expected found : Ty) : Nat × Nat :=
  (distinct (s.unsolved n), (expected.subst s.image).size + (found.subst s.image).size)

abbrev Less : Nat × Nat → Nat × Nat → Prop := Prod.Lex (· < ·) (· < ·)

theorem wellFounded_less : WellFounded Less := (Prod.lex Nat.lt_wfRel Nat.lt_wfRel).wf

section

variable {s : Solution} (hs : s.Acyclic) {n : Nat} {expected found p r q t : Ty}

include hs

theorem Acyclic.effort_params (hExpected : s.Resolved expected (.fn p r))
    (hFound : s.Resolved found (.fn q t)) : Less (s.effort n p q) (s.effort n expected found) := by
  refine .right _ ?_
  rw [← hExpected.subst_eq _ hs.satisfied_image, ← hFound.subst_eq _ hs.satisfied_image]
  simp only [Ty.subst, Ty.size]
  omega

theorem Acyclic.effort_results (hExpected : s.Resolved expected (.fn p r))
    (hFound : s.Resolved found (.fn q t)) {s' : Solution} (h : s.Solves s' p q)
    (hBelow : s'.Below n) : Less (s'.effort n r t) (s.effort n expected found) := by
  rcases h.new with rfl | ⟨a, u, ha, hu⟩
  · refine .right _ ?_
    rw [← hExpected.subst_eq _ hs.satisfied_image, ← hFound.subst_eq _ hs.satisfied_image]
    simp only [Ty.subst, Ty.size]
    omega
  · exact .left _ _ (h.grows.distinct_unsolved_lt ha hu hBelow)

end

/-! ### Unification -/

section

variable {s : Solution} {expected found p r q t : Ty}

/-- Different constructors are different under every assignment. -/
theorem Acyclic.mismatch (hs : s.Acyclic) (h : ∀ σ, expected.subst σ ≠ found.subst σ) :
    ∃ r, (do return .error (.mismatch (← s.zonk expected) (← s.zonk found))) = some r ∧
      s.Decides expected found r := by
  rw [hs.zonk_eq, hs.zonk_eq]
  exact ⟨_, rfl, .error fun σ _ => h σ⟩

/-- How two function types are made equal: first their parameters, then their results. -/
def unifyParts (s : Solution) (p q r t : Ty) : Option (Except TypeError Solution) := do
  match ← s.unify p q with
  | .ok s' => s'.unify r t
  | .error e => return .error e

theorem decides_fn (hParams : ∃ first, s.unify p q = some first ∧ s.Decides p q first)
    (hResults : ∀ s', s.Solves s' p q → ∃ last, s'.unify r t = some last ∧ s'.Decides r t last) :
    ∃ last, s.unifyParts p q r t = some last ∧ s.Decides (.fn p r) (.fn q t) last := by
  obtain ⟨first, hFirst, hDecides⟩ := hParams
  rw [unifyParts, hFirst]
  cases hDecides with
  | error h => exact ⟨.error _, rfl, .error fun σ hσ hEqual => h σ hσ (Ty.fn.inj hEqual).1⟩
  | @ok s' hSolves =>
    obtain ⟨last, hLast, hDecides'⟩ := hResults s' hSolves
    refine ⟨last, hLast, ?_⟩
    cases hDecides' with
    | ok hSolves' => exact .ok (hSolves.fn hSolves')
    | error h =>
      refine .error fun σ hσ hEqual => ?_
      obtain ⟨hParam, hResult⟩ := Ty.fn.inj hEqual
      exact h σ (hSolves.complete σ hσ hParam) hResult

/-- Unification ends for two types if it does for the parts of those that are function types. -/
theorem Acyclic.unify_of_parts (hs : s.Acyclic)
    (hParts : ∀ {p r q t}, s.Resolved expected (.fn p r) → s.Resolved found (.fn q t) →
      ∃ last, s.unifyParts p q r t = some last ∧ s.Decides (.fn p r) (.fn q t) last) :
    ∃ r, s.unify expected found = some r ∧ s.Decides expected found r := by
  obtain ⟨expected', hExpected⟩ := hs.resolve expected
  obtain ⟨found', hFound⟩ := hs.resolve found
  suffices ∃ r, s.unify expected found = some r ∧ s.Decides expected' found' r by
    obtain ⟨r, hUnify, hDecides⟩ := this
    exact ⟨r, hUnify, hDecides.of_resolved hExpected hFound⟩
  rw [Solution.unify, hExpected.eq, hFound.eq]
  have hRight : ∀ {b}, found' = .var b → expected' ≠ .var b →
      ∃ r, s.assign b expected' = some r ∧ s.Decides expected' (.var b) r := by
    intro b hb hOther
    obtain ⟨r, hr, hDecides⟩ := hs.assign (hFound.unsolved b hb) hExpected.unsolved hOther
    exact ⟨r, hr, hDecides.symm⟩
  cases expected' with
  | var a =>
    show ∃ r, (if found' = .var a then some (.ok s) else s.assign a found') = some r ∧ _
    by_cases hSame : found' = .var a
    · rw [if_pos hSame]
      exact ⟨.ok s, rfl, .ok (.refl hs hSame.symm)⟩
    · rw [if_neg hSame]
      exact hs.assign (hExpected.unsolved a rfl) hFound.unsolved hSame
  | int =>
    cases found' with
    | int => exact ⟨.ok s, rfl, .ok (.refl hs rfl)⟩
    | var b => exact hRight rfl (by simp)
    | bool | fn => exact hs.mismatch (by simp [Ty.subst])
  | bool =>
    cases found' with
    | bool => exact ⟨.ok s, rfl, .ok (.refl hs rfl)⟩
    | var b => exact hRight rfl (by simp)
    | int | fn => exact hs.mismatch (by simp [Ty.subst])
  | fn p r =>
    cases found' with
    | fn q t => exact hParts hExpected hFound
    | var b => exact hRight rfl (by simp)
    | int | bool => exact hs.mismatch (by simp [Ty.subst])

end

theorem Acyclic.unify_below {s : Solution} (hs : s.Acyclic) {n : Nat} (hBelow : s.Below n)
    {expected found : Ty} (he : expected.Below n) (hf : found.Below n) :
    ∃ r, s.unify expected found = some r ∧ s.Decides expected found r := by
  induction hEffort : s.effort n expected found using wellFounded_less.induction
    generalizing s expected found with
  | h effort ih =>
    subst hEffort
    refine hs.unify_of_parts fun {p r q t} hExpected hFound => ?_
    obtain ⟨hp, hr⟩ := Ty.below_fn.mp (hExpected.below n hBelow he)
    obtain ⟨hq, ht⟩ := Ty.below_fn.mp (hFound.below n hBelow hf)
    refine decides_fn ?_ fun s' hSolves => ?_
    · exact ih _ (hs.effort_params hExpected hFound) hs hBelow hp hq rfl
    · have hBelow' := hSolves.below n hBelow hp hq
      have hLess := hs.effort_results hExpected hFound hSolves hBelow'
      exact ih _ hLess hSolves.acyclic hBelow' hr ht rfl

/-- **Unification of two types ends.** It comes to an acyclic solution that adds nothing but their
equation, or fails where no assignment makes them equal. -/
theorem Acyclic.unify {s : Solution} (hs : s.Acyclic) (expected found : Ty) :
    ∃ r, s.unify expected found = some r ∧ s.Decides expected found r := by
  obtain ⟨l, hl⟩ := s.exists_below
  obtain ⟨m, hm⟩ := expected.exists_below
  obtain ⟨n, hn⟩ := found.exists_below
  have hBelow : s.Below (max l (max m n)) := fun v u hv =>
    ⟨Nat.lt_of_lt_of_le (hl v u hv).1 (Nat.le_max_left _ _), (hl v u hv).2.mono (by omega)⟩
  exact hs.unify_below hBelow (hm.mono (by omega)) (hn.mono (by omega))

end Solution

end StagedLambda
