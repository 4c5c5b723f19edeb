import StagedLambda.Distinct
import StagedLambda.Typing.Solution

/-!
# Solutions that do not run in a circle

A solution says what some variables stand for, in terms of others. It is acyclic if one never comes
back to a variable by following solved variables through their types. There are finitely many of
them, so in an acyclic solution they can only be followed so far (`Acyclic.wellFounded`), and all
that is done by following them ends: `Acyclic.resolve`, `Acyclic.zonk_eq`, `Acyclic.occurs_eq`.

The last two say what comes out in terms of `image`, the assignment that a solution describes.
-/

namespace StagedLambda

namespace Solution

/-! ### What a solution says -/

/-- An assignment makes all equations of a solution true. -/
def Satisfied (s : Solution) (σ : Nat → Ty) : Prop :=
  ∀ v u, s.lookup v = some u → σ v = u.subst σ

/-- What is known remains known. -/
def Grows (s s' : Solution) : Prop := ∀ v u, s.lookup v = some u → s'.lookup v = some u

/-- The solved variables and those of their types are numbered below `n`. -/
def Below (n : Nat) (s : Solution) : Prop := ∀ v u, s.lookup v = some u → v < n ∧ u.Below n

theorem Grows.refl (s : Solution) : s.Grows s := fun _ _ h => h

theorem Grows.trans {s s' s'' : Solution} (h : s.Grows s') (h' : s'.Grows s'') : s.Grows s'' :=
  fun v u hv => h' v u (h v u hv)

theorem Satisfied.of_grows {s s' : Solution} {σ : Nat → Ty} (h : s'.Satisfied σ)
    (hGrows : s.Grows s') : s.Satisfied σ :=
  fun v u hv => h v u (hGrows v u hv)

theorem lookup_insert (s : Solution) (a : Nat) (u : Ty) (v : Nat) :
    (s.insert a u).lookup v = if v = a then some u else s.lookup v := by
  by_cases h : v = a
  · simp [lookup, insert, h]
  · simp [lookup, insert, List.lookup_cons, h, beq_false_of_ne h]

theorem grows_insert {s : Solution} {a : Nat} (hFresh : s.lookup a = none) (u : Ty) :
    s.Grows (s.insert a u) := by
  intro v t hv
  rw [lookup_insert, if_neg, hv]
  rintro rfl
  rw [hFresh] at hv
  cases hv

theorem Satisfied.insert {s : Solution} {σ : Nat → Ty} (hs : s.Satisfied σ) {a : Nat} {u : Ty}
    (hEqual : σ a = u.subst σ) : (s.insert a u).Satisfied σ := by
  intro v t hv
  rw [lookup_insert] at hv
  split at hv
  · rename_i hva
    obtain rfl := Option.some.inj hv
    rw [hva, hEqual]
  · exact hs v t hv

theorem Below.insert {n : Nat} {s : Solution} (hs : s.Below n) {a : Nat} {u : Ty} (ha : a < n)
    (hu : u.Below n) : (s.insert a u).Below n := by
  intro v t hv
  rw [lookup_insert] at hv
  split at hv
  · rename_i hva
    obtain rfl := Option.some.inj hv
    exact ⟨hva ▸ ha, hu⟩
  · exact hs v t hv

theorem exists_below (s : Solution) : ∃ n, s.Below n := by
  obtain ⟨entries⟩ := s
  induction entries with
  | nil => exact ⟨0, nofun⟩
  | cons e rest ih =>
    obtain ⟨m, hm⟩ := ih
    obtain ⟨n, hn⟩ := e.2.exists_below
    refine ⟨max (e.1 + 1) (max m n), Below.insert (s := ⟨rest⟩) (fun v u hv => ?_) ?_ ?_⟩
    · have hVar := (hm v u hv).1
      exact ⟨by omega, (hm v u hv).2.mono (by omega)⟩
    · omega
    · exact hn.mono (by omega)

/-! ### Following variables -/

/-- The variable `v` is solved by a type that holds `w`. -/
def Follows (s : Solution) (v w : Nat) : Prop := ∃ u, s.lookup v = some u ∧ w ∈ u.vars

/-- To follow solved variables through their types never leads back to the same variable. -/
def Acyclic (s : Solution) : Prop := ∀ v, ¬Relation.TransGen s.Follows v v

theorem acyclic_empty : ({} : Solution).Acyclic := by
  intro v h
  cases h with
  | single h | tail _ h =>
    obtain ⟨u, hu, -⟩ := h
    cases hu

/-- The solved variables. -/
def solved (s : Solution) : List Nat := s.entries.map Prod.fst

theorem mem_solved {s : Solution} {v : Nat} {u : Ty} (h : s.lookup v = some u) :
    v ∈ s.solved := by
  obtain ⟨entries⟩ := s
  induction entries with
  | nil => cases h
  | cons e rest ih =>
    rw [show (⟨e :: rest⟩ : Solution) = Solution.insert ⟨rest⟩ e.1 e.2 from rfl,
      lookup_insert] at h
    split at h
    · rename_i hv
      exact hv ▸ List.mem_cons_self
    · exact List.mem_cons_of_mem _ (ih h)

/-- A variable that has been met can be followed only to solved variables that have not. -/
theorem Acyclic.acc {s : Solution} (hs : s.Acyclic) (met : List Nat) {v : Nat}
    (hMet : ∀ x ∈ met, Relation.TransGen s.Follows x v) : Acc (fun w v => s.Follows v w) v := by
  induction hLeft : distinct (s.solved.filter (· ∉ met)) using Nat.strongRecOn
    generalizing met v with
  | ind left ih =>
    subst hLeft
    refine ⟨v, fun w hw => ih _ ?_ (v :: met) ?_ rfl⟩
    · have hNew : v ∉ met := fun hv => hs v (hMet v hv)
      obtain ⟨u, hu, -⟩ := hw
      refine distinct_lt_of_subset (x := v) (fun x hx => ?_) ?_ ?_
      · simp only [List.mem_filter, List.mem_cons, decide_eq_true_eq, not_or] at hx ⊢
        exact ⟨hx.1, hx.2.2⟩
      · exact List.mem_filter.mpr ⟨mem_solved hu, decide_eq_true hNew⟩
      · simp
    · intro x hx
      rcases List.mem_cons.mp hx with rfl | hx
      · exact .single hw
      · exact .tail (hMet x hx) hw

/-- **In an acyclic solution variables cannot be followed for ever.** -/
theorem Acyclic.wellFounded {s : Solution} (hs : s.Acyclic) :
    WellFounded fun w v => s.Follows v w :=
  ⟨fun _ => hs.acc [] nofun⟩

/-! ### Resolving -/

section

variable {s : Solution} {v : Nat} {u : Ty}

theorem resolve_of_lookup (h : s.lookup v = some u) : s.resolve (.var v) = s.resolve u := by
  rw [Solution.resolve.eq_def]
  simp only [h]

theorem resolve_of_unsolved (h : s.lookup v = none) : s.resolve (.var v) = some (.var v) := by
  rw [Solution.resolve.eq_def]
  simp only [h]

@[simp] theorem resolve_int : s.resolve .int = some .int := by rw [Solution.resolve]

@[simp] theorem resolve_bool : s.resolve .bool = some .bool := by rw [Solution.resolve]

@[simp] theorem resolve_fn (param result : Ty) :
    s.resolve (.fn param result) = some (.fn param result) := by rw [Solution.resolve]

end

/-- The type `t'` is what `t` stands for, down to its first constructor or unsolved variable. -/
structure Resolved (s : Solution) (t t' : Ty) : Prop where
  eq : s.resolve t = some t'
  unsolved : ∀ v, t' = .var v → s.lookup v = none
  subst_eq : ∀ σ, s.Satisfied σ → t'.subst σ = t.subst σ
  below : ∀ n, s.Below n → t.Below n → t'.Below n

theorem Resolved.refl {s : Solution} {t : Ty} (h : s.resolve t = some t)
    (hUnsolved : ∀ v, t = .var v → s.lookup v = none) : s.Resolved t t :=
  ⟨h, hUnsolved, fun _ _ => rfl, fun _ _ ht => ht⟩

theorem Resolved.of_lookup {s : Solution} {v : Nat} {u t : Ty} (hv : s.lookup v = some u)
    (h : s.Resolved u t) : s.Resolved (.var v) t where
  eq := (resolve_of_lookup hv).trans h.eq
  unsolved := h.unsolved
  subst_eq := fun σ hσ => (h.subst_eq σ hσ).trans (hσ v u hv).symm
  below := fun n hs _ => h.below n hs (hs v u hv).2

/-- **Resolving ends.** -/
theorem Acyclic.resolve {s : Solution} (hs : s.Acyclic) (t : Ty) : ∃ t', s.Resolved t t' := by
  have hInt : s.Resolved .int .int := .refl resolve_int nofun
  have hBool : s.Resolved .bool .bool := .refl resolve_bool nofun
  have hFn : ∀ p r, s.Resolved (.fn p r) (.fn p r) := fun p r => .refl (resolve_fn p r) nofun
  cases t with
  | int => exact ⟨.int, hInt⟩
  | bool => exact ⟨.bool, hBool⟩
  | fn param result => exact ⟨.fn param result, hFn param result⟩
  | var v =>
    induction v using hs.wellFounded.induction with
    | h v ih =>
      cases hv : s.lookup v with
      | none => exact ⟨.var v, .refl (resolve_of_unsolved hv) fun w hw => Ty.var.inj hw ▸ hv⟩
      | some u =>
        cases u with
        | int => exact ⟨.int, .of_lookup hv hInt⟩
        | bool => exact ⟨.bool, .of_lookup hv hBool⟩
        | fn param result => exact ⟨.fn param result, .of_lookup hv (hFn param result)⟩
        | var w =>
          obtain ⟨t, ht⟩ := ih w ⟨.var w, hv, List.mem_singleton_self w⟩
          exact ⟨t, .of_lookup hv ht⟩

/-! ### Replacing solved variables -/

/-- What a variable stands for. -/
def image (s : Solution) (v : Nat) : Ty := (s.zonk (.var v)).getD (.var v)

section

variable {s : Solution} {v : Nat} {u : Ty}

theorem zonk_of_lookup (h : s.lookup v = some u) : s.zonk (.var v) = s.zonk u := by
  rw [zonk.eq_def, resolve_of_lookup h, ← zonk.eq_def]

theorem zonk_of_unsolved (h : s.lookup v = none) : s.zonk (.var v) = some (.var v) := by
  rw [zonk, resolve_of_unsolved h]
  rfl

theorem zonk_fn {param result param' result' : Ty} (hParam : s.zonk param = some param')
    (hResult : s.zonk result = some result') :
    s.zonk (.fn param result) = some (.fn param' result') := by
  rw [zonk, resolve_fn]
  simp only [bind, Option.bind, hParam, hResult, pure]

theorem image_of_unsolved (h : s.lookup v = none) : s.image v = .var v := by
  rw [image, zonk_of_unsolved h, Option.getD_some]

/-- Replacing ends for a type if it does for its variables. -/
theorem zonk_eq_of_vars {t : Ty} (h : ∀ v ∈ t.vars, s.zonk (.var v) = some (s.image v)) :
    s.zonk t = some (t.subst s.image) := by
  induction t with
  | int =>
    rw [zonk, resolve_int]
    rfl
  | bool =>
    rw [zonk, resolve_bool]
    rfl
  | fn param result ihParam ihResult =>
    obtain ⟨hParam, hResult⟩ := List.forall_mem_append.mp h
    exact zonk_fn (ihParam hParam) (ihResult hResult)
  | var v => exact h v (List.mem_singleton_self v)

end

namespace Acyclic

variable {s : Solution} (hs : s.Acyclic)

include hs

theorem zonk_var (v : Nat) : s.zonk (.var v) = some (s.image v) := by
  induction v using hs.wellFounded.induction with
  | h v ih =>
    cases hv : s.lookup v with
    | none => rw [zonk_of_unsolved hv, image_of_unsolved hv]
    | some u =>
      have hType := zonk_eq_of_vars fun w hw => ih w ⟨u, hv, hw⟩
      rw [image, zonk_of_lookup hv, hType, Option.getD_some]

/-- **Replacing all solved variables ends.** -/
theorem zonk_eq (t : Ty) : s.zonk t = some (t.subst s.image) :=
  zonk_eq_of_vars fun v _ => hs.zonk_var v

/-- **A solution is satisfied by what it says itself.** -/
theorem satisfied_image : s.Satisfied s.image := by
  intro v u hv
  rw [image, zonk_of_lookup hv, hs.zonk_eq, Option.getD_some]

/-- An assignment that satisfies a solution does not tell a type from what it stands for. -/
theorem subst_image {σ : Nat → Ty} (hσ : s.Satisfied σ) (t : Ty) :
    (t.subst s.image).subst σ = t.subst σ := by
  have hVar : ∀ v, (s.image v).subst σ = σ v := by
    intro v
    induction v using hs.wellFounded.induction with
    | h v ih =>
      cases hv : s.lookup v with
      | none =>
        rw [image_of_unsolved hv]
        rfl
      | some u =>
        rw [hs.satisfied_image v u hv, Ty.subst_subst, hσ v u hv]
        exact Ty.subst_congr fun w hw => ih w ⟨u, hv, hw⟩
  rw [Ty.subst_subst]
  exact Ty.subst_congr fun v _ => hVar v

/-! ### Occurrences -/

omit hs in
/-- A search of a type ends if it does for its variables. -/
theorem occurs_eq_of_vars {id : Nat} {t : Ty}
    (h : ∀ v ∈ t.vars, s.occurs id (.var v) = some (decide (id ∈ (s.image v).vars))) :
    s.occurs id t = some (decide (id ∈ (t.subst s.image).vars)) := by
  induction t with
  | int =>
    rw [occurs, resolve_int]
    rfl
  | bool =>
    rw [occurs, resolve_bool]
    rfl
  | fn param result ihParam ihResult =>
    obtain ⟨hParam, hResult⟩ := List.forall_mem_append.mp h
    rw [occurs, resolve_fn]
    simp only [bind, Option.bind, ihParam hParam, ihResult hResult, Ty.subst, Ty.vars]
    by_cases hFound : id ∈ (param.subst s.image).vars <;> simp [hFound]
  | var v => exact h v (List.mem_singleton_self v)

theorem occurs_var (id v : Nat) :
    s.occurs id (.var v) = some (decide (id ∈ (s.image v).vars)) := by
  induction v using hs.wellFounded.induction with
  | h v ih =>
    cases hv : s.lookup v with
    | none =>
      rw [occurs, resolve_of_unsolved hv, image_of_unsolved hv]
      simp [Ty.vars, eq_comm]
    | some u =>
      rw [occurs.eq_def, resolve_of_lookup hv, ← occurs.eq_def, hs.satisfied_image v u hv]
      exact occurs_eq_of_vars fun w hw => ih w ⟨u, hv, hw⟩

/-- **The search for a variable ends**, and finds it exactly in the types that stand for one that
holds it. -/
theorem occurs_eq (id : Nat) (t : Ty) :
    s.occurs id t = some (decide (id ∈ (t.subst s.image).vars)) :=
  occurs_eq_of_vars fun v _ => hs.occurs_var id v

/-! ### Solving one more variable -/

theorem vars_image_subset {v w : Nat} (h : Relation.TransGen s.Follows v w) :
    (s.image w).vars ⊆ (s.image v).vars := by
  have hStep : ∀ {v w}, s.Follows v w → (s.image w).vars ⊆ (s.image v).vars := by
    rintro v w ⟨u, hv, hw⟩ x hx
    rw [hs.satisfied_image v u hv]
    exact Ty.mem_vars_subst.mpr ⟨w, hw, hx⟩
  induction h with
  | single h => exact hStep h
  | tail _ hLast ih => exact fun x hx => ih (hStep hLast hx)

/-- An unsolved variable that is not a part of a type is not met by following the type's. -/
theorem not_leads {a : Nat} {t : Ty} (ha : s.lookup a = none)
    (hOccurs : a ∉ (t.subst s.image).vars) {w : Nat} (hw : w ∈ t.vars) :
    w ≠ a ∧ ¬Relation.TransGen s.Follows w a := by
  have hSelf : a ∈ (s.image a).vars := by
    rw [image_of_unsolved ha]
    exact List.mem_singleton_self a
  constructor
  · rintro rfl
    exact hOccurs (Ty.mem_vars_subst.mpr ⟨w, hw, hSelf⟩)
  · intro h
    exact hOccurs (Ty.mem_vars_subst.mpr ⟨w, hw, hs.vars_image_subset h hSelf⟩)

/-- **To solve a variable by a type that does not hold it makes no circle.** -/
theorem insert {a : Nat} {t : Ty} (ha : s.lookup a = none)
    (hOccurs : a ∉ (t.subst s.image).vars) : (s.insert a t).Acyclic := by
  -- A path either is one from before, or it gets to `a` and goes on from the type of `a`.
  have hPath : ∀ {v w}, Relation.TransGen (s.insert a t).Follows v w →
      Relation.TransGen s.Follows v w ∨
        (v = a ∨ Relation.TransGen s.Follows v a) ∧
          ∃ x ∈ t.vars, x = w ∨ Relation.TransGen s.Follows x w := by
    intro v w h
    induction h with
    | @single w h =>
      obtain ⟨u, hu, hw⟩ := h
      rw [lookup_insert] at hu
      split at hu
      · obtain rfl := Option.some.inj hu
        exact .inr ⟨.inl ‹_›, w, hw, .inl rfl⟩
      · exact .inl (.single ⟨u, hu, hw⟩)
    | @tail w y _ h ih =>
      obtain ⟨u, hu, hy⟩ := h
      rw [lookup_insert] at hu
      split at hu
      · obtain rfl := Option.some.inj hu
        subst w
        right
        rcases ih with hOld | ⟨hStart, -⟩
        · exact ⟨.inr hOld, y, hy, .inl rfl⟩
        · exact ⟨hStart, y, hy, .inl rfl⟩
      · have hLast : s.Follows w y := ⟨u, hu, hy⟩
        rcases ih with hOld | ⟨hStart, x, hx, rfl | hEnd⟩
        · exact .inl (hOld.tail hLast)
        · exact .inr ⟨hStart, x, hx, .inr (.single hLast)⟩
        · exact .inr ⟨hStart, x, hx, .inr (hEnd.tail hLast)⟩
  intro v h
  rcases hPath h with hOld | ⟨hStart, x, hx, hEnd⟩
  · exact hs v hOld
  · obtain ⟨hne, hNot⟩ := hs.not_leads ha hOccurs hx
    rcases hStart with rfl | hStart <;> rcases hEnd with rfl | hEnd
    · exact hne rfl
    · exact hNot hEnd
    · exact hNot hStart
    · exact hNot (hEnd.trans hStart)

end Acyclic

end Solution

end StagedLambda
