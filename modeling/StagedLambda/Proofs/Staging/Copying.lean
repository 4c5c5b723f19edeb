import StagedLambda.Proofs.Level.Splices
import StagedLambda.Proofs.Machine.Operands
import StagedLambda.Proofs.Term.Alpha

/-!
# Building copies

A term above stage 0 is built into a copy of itself in which every binder has a color of its own.
The machine takes each construct apart and puts it together again over several frames, each with
the renaming of the place where it was pushed; and a local definition gets its color only after the
part that it defines has been built.  What comes out is the term up to the names of its binders,
with its free identifiers as the renaming resolves them, and nothing is captured, because a fresh
color is not what anything around the binder stands for (`alpha_under_copied`).

The run stays above stage 0 as long as no splice crosses all the stages there are.  Levels are
words, so quotes must not be nested so deep that the words run out.

* `Coloring`: the binders of a copy beside those of the term, and the tags they have got.
* `Machine.Copyable`: one lemma for each construct.
* `Machine.builds_copy`: building is copying.
* `Machine.build_beyond_words`: the highest level has no room for a quote.
-/

namespace StagedLambda

/-! ### Terms that can be built -/

/-- The tag of the identifier, if it has one, is below `t`. -/
def Ident.tagBelow (t : Nat) (id : Ident) : Bool := id.tag?.all (· < t)

namespace Term

/-- The body of every fixpoint is an abstraction, or a splice that may come to one. -/
def fixesMaybeFunctions (t : Term) : Bool :=
  t.every fun
    | .fix _ body => Step.maybeFunction body
    | _ => true

mutual

/-- The highest level of a place in a term that stands at `level`. -/
def highest (level : Int) : Term → Int
  | .var _ | .int _ | .bool _ => level
  | .lam _ body | .fix _ body => body.highest level
  | .app a b | .logic _ a b | .letIn _ a b => max (a.highest level) (b.highest level)
  | .ite a b c => max (a.highest level) (max (b.highest level) (c.highest level))
  | .prim _ args => highestAll level args
  | .quote body => body.highest (level + 1)
  | .splice shift body => max level (body.highest (level - shift.toInt))

def highestAll (level : Int) : List Term → Int
  | [] => level
  | t :: ts => max (t.highest level) (highestAll level ts)

end

theorem highest_le_highestAll {level : Int} {t : Term} {ts : List Term} (h : t ∈ ts) :
    t.highest level ≤ highestAll level ts := by
  induction ts with
  | nil => cases h
  | cons t' ts ih =>
    rcases List.mem_cons.mp h with rfl | h
    · exact Int.le_max_left _ _
    · exact Int.le_trans (ih h) (Int.le_max_right _ _)

theorem le_highestAll (level : Int) (ts : List Term) : level ≤ highestAll level ts := by
  induction ts with
  | nil => exact Int.le_refl _
  | cons t ts ih => exact Int.le_trans ih (Int.le_max_right _ _)

theorem le_highest (level : Int) (t : Term) : level ≤ t.highest level := by
  induction t generalizing level with
  | var | int | bool => exact Int.le_refl _
  | lam _ body ih | fix _ body ih => exact ih level
  | app a b iha _ | logic _ a b iha _ | letIn _ a b iha _ =>
    exact Int.le_trans (iha level) (Int.le_max_left _ _)
  | ite a b c iha _ _ => exact Int.le_trans (iha level) (Int.le_max_left _ _)
  | prim op args _ => exact le_highestAll level args
  | quote body ih =>
    have hInside : level + 1 ≤ body.highest (level + 1) := ih (level + 1)
    show level ≤ body.highest (level + 1)
    omega
  | splice shift body _ => exact Int.le_max_left _ _

/-- A term that can be built at a level into a copy of itself, without going down to stage 0. -/
structure Buildable (level : UInt64) (t : Term) : Prop where
  saturated : t.saturated = true
  fixes : t.fixesMaybeFunctions = true
  splices : t.splicesWithin level.toNat = true
  /-- All levels in the term are words. -/
  highest : t.highest level.toNat ≤ 0xFFFFFFFFFFFFFFFF

namespace Buildable

variable {level : UInt64} {t a b c : Term} {x : Ident}

theorem lam (h : (lam x b).Buildable level) : b.Buildable level := by
  obtain ⟨hSaturated, hFixes, hSplices, hHighest⟩ := h
  exact ⟨hSaturated, hFixes, hSplices, hHighest⟩

theorem fix (h : (fix x b).Buildable level) :
    Step.maybeFunction b = true ∧ b.Buildable level := by
  obtain ⟨hSaturated, hFixes, hSplices, hHighest⟩ := h
  rw [fixesMaybeFunctions, every, Bool.and_eq_true] at hFixes
  exact ⟨hFixes.1, hSaturated, hFixes.2, hSplices, hHighest⟩

/-- A term with two parts of its own level. -/
theorem parts (h : t.Buildable level)
    (hEvery : ∀ test, t.every test = (test t && (a.every test && b.every test)))
    (hSplices : t.splicesWithin level.toNat =
      (a.splicesWithin level.toNat && b.splicesWithin level.toNat))
    (hHighest : t.highest level.toNat = max (a.highest level.toNat) (b.highest level.toNat)) :
    a.Buildable level ∧ b.Buildable level := by
  obtain ⟨hSaturated, hFixes, hWithin, hBound⟩ := h
  simp only [Term.saturated, fixesMaybeFunctions, hEvery, Bool.and_eq_true] at hSaturated hFixes
  rw [hSplices, Bool.and_eq_true] at hWithin
  rw [hHighest] at hBound
  exact ⟨⟨hSaturated.2.1, hFixes.2.1, hWithin.1, by omega⟩,
    hSaturated.2.2, hFixes.2.2, hWithin.2, by omega⟩

theorem app (h : (app a b).Buildable level) : a.Buildable level ∧ b.Buildable level :=
  h.parts (fun _ => rfl) rfl rfl

theorem logic {op : LogicOp} (h : (logic op a b).Buildable level) :
    a.Buildable level ∧ b.Buildable level := h.parts (fun _ => rfl) rfl rfl

theorem letIn (h : (letIn x a b).Buildable level) : a.Buildable level ∧ b.Buildable level :=
  h.parts (fun _ => rfl) rfl rfl

theorem ite (h : (ite a b c).Buildable level) :
    a.Buildable level ∧ b.Buildable level ∧ c.Buildable level := by
  obtain ⟨hSaturated, hFixes, hSplices, hHighest⟩ := h
  simp only [Term.saturated, fixesMaybeFunctions, every, Bool.and_eq_true] at hSaturated hFixes
  simp only [splicesWithin, Bool.and_eq_true] at hSplices
  rw [Term.highest] at hHighest
  exact ⟨⟨hSaturated.2.1, hFixes.2.1, hSplices.1.1, by omega⟩,
    ⟨hSaturated.2.2.1, hFixes.2.2.1, hSplices.1.2, by omega⟩,
    hSaturated.2.2.2, hFixes.2.2.2, hSplices.2, by omega⟩

theorem prim {op : PrimOp} {args : List Term} (h : (prim op args).Buildable level) :
    args.length = op.arity ∧ ∀ a ∈ args, a.Buildable level := by
  obtain ⟨hSaturated, hFixes, hSplices, hHighest⟩ := h
  simp only [saturated_prim] at hSaturated
  simp only [fixesMaybeFunctions, every, Bool.and_eq_true, everyAll_iff] at hFixes
  simp only [splicesWithin, allSplicesWithin_iff] at hSplices
  refine ⟨hSaturated.1, fun a ha => ⟨hSaturated.2 a ha, hFixes.2 a ha, hSplices a ha, ?_⟩⟩
  exact Int.le_trans (highest_le_highestAll ha) hHighest

/-- Inside a quote the level is the next word. -/
theorem quote (h : (quote b).Buildable level) :
    ∃ inside, Step.raise level 1 = .ok inside ∧ b.Buildable inside := by
  obtain ⟨hSaturated, hFixes, hSplices, hHighest⟩ := h
  have hInside : (level.toNat : Int) + 1 ≤ b.highest (level.toNat + 1) := le_highest _ _
  have hFits : level.toNat + (1 : UInt64).toNat < UInt64.size := by
    rw [Term.highest] at hHighest
    rw [UInt64.toNat_one, UInt64.size]
    omega
  have hRaise := Step.raise_of_lt hFits
  have hLevel : ((level + 1).toNat : Int) = level.toNat + 1 := by
    rw [(Step.raise_eq_ok hRaise).2, UInt64.toNat_one]
    rfl
  refine ⟨level + 1, hRaise, hSaturated, hFixes, ?_, ?_⟩
  · rw [hLevel]
    exact hSplices
  · rw [hLevel]
    exact hHighest

/-- A splice in range passes its check, does not go down to stage 0 and can be written again. -/
theorem splice {shift : Int64} (h : (splice shift b).Buildable level) :
    Step.stages shift level = .ok shift.toUInt64 ∧ shift.toUInt64 ≠ level ∧
      shift.toUInt64 < 0x8000000000000000 ∧ level - shift.toUInt64 ≠ 0 ∧
      b.Buildable (level - shift.toUInt64) := by
  obtain ⟨hSaturated, hFixes, hSplices, hHighest⟩ := h
  simp only [splicesWithin, Bool.and_eq_true, decide_eq_true_eq] at hSplices
  obtain ⟨⟨hNonneg, hBelow⟩, hBody⟩ := hSplices
  have hSign : ¬shift < 0 := by
    rw [Int64.lt_iff_toInt_lt]
    exact Int.not_lt.mpr hNonneg
  have hWord : (shift.toUInt64.toNat : Int) = shift.toInt := toNat_toUInt64_of_nonneg hSign
  have hMax : shift.toInt ≤ Int64.maxValue.toInt := shift.toInt_le
  have hMaxValue : Int64.maxValue.toInt = 0x7fffffffffffffff := by decide
  have hLe : shift.toUInt64 ≤ level := UInt64.le_iff_toNat_le.mpr (by omega)
  have hRest : (level - shift.toUInt64).toNat = level.toNat - shift.toUInt64.toNat :=
    UInt64.toNat_sub_of_le _ _ hLe
  have hInside : ((level - shift.toUInt64).toNat : Int) = level.toNat - shift.toInt := by omega
  have hLevel : level ≠ 0 := by
    rintro rfl
    rw [UInt64.toNat_zero] at hBelow
    omega
  refine ⟨?_, ?_, UInt64.lt_iff_toNat_lt.mpr ?_, ?_, hSaturated, hFixes, ?_, ?_⟩
  · rw [Step.stages, if_neg hSign, if_neg fun hZero => hLevel hZero.1,
      if_neg (UInt64.not_lt.mpr hLe)]
  · rintro rfl
    omega
  · show shift.toUInt64.toNat < 0x8000000000000000
    omega
  · intro hZero
    rw [hZero, UInt64.toNat_zero] at hInside
    omega
  · rw [hInside]
    exact hBody
  · rw [Term.highest] at hHighest
    rw [hInside]
    omega

end Buildable

theorem highestAll_le {level : Int} {ts : List Term} (h : ∀ t ∈ ts, t.highest level ≤ level) :
    highestAll level ts ≤ level := by
  induction ts with
  | nil => exact Int.le_refl _
  | cons t ts ih =>
    rw [List.forall_mem_cons] at h
    exact Int.max_le.mpr ⟨h.1, ih h.2⟩

/-- All of a plain term stands at one level. -/
theorem Plain.highest_le {t : Term} (h : t.Plain) (level : Int) :
    t.splicesWithin level = true ∧ t.highest level ≤ level := by
  induction t with
  | var | int | bool => exact ⟨rfl, Int.le_refl _⟩
  | lam _ body ih => exact ih h.lam
  | fix _ body ih => exact ih h.fix.2
  | app a b iha ihb | logic _ a b iha ihb | letIn _ a b iha ihb =>
    obtain ⟨ha, hb⟩ : a.Plain ∧ b.Plain := h.parts rfl fun _ => rfl
    refine ⟨Bool.and_eq_true_iff.mpr ⟨(iha ha).1, (ihb hb).1⟩, ?_⟩
    exact Int.max_le.mpr ⟨(iha ha).2, (ihb hb).2⟩
  | ite a b c iha ihb ihc =>
    obtain ⟨ha, hb, hc⟩ := h.ite
    refine ⟨?_, Int.max_le.mpr ⟨(iha ha).2, Int.max_le.mpr ⟨(ihb hb).2, (ihc hc).2⟩⟩⟩
    simp only [splicesWithin, (iha ha).1, (ihb hb).1, (ihc hc).1, Bool.and_self]
  | prim op args ih =>
    exact ⟨(allSplicesWithin_iff _ _).mpr fun a ha => (ih a ha (h.prim.2 a ha)).1,
      highestAll_le fun a ha => (ih a ha (h.prim.2 a ha)).2⟩
  | quote | splice => cases h.unstaged

theorem Plain.buildable {t : Term} (h : t.Plain) (level : UInt64) : t.Buildable level := by
  obtain ⟨hSplices, hHighest⟩ := h.highest_le level.toNat
  have hWord : level.toNat < 2 ^ 64 := level.toNat_lt
  refine ⟨h.saturated, every_mono (fun t ht => ?_) t h.fixesFunctions, hSplices, by omega⟩
  cases t with
  | fix _ body =>
    cases body with
    | lam => rfl
    | _ => cases ht
  | _ => rfl

end Term

/-! ### Renamings of what is free -/

namespace Renaming

/-- An occurrence in a copy under `env`, and the occurrence that it copies. -/
def Copied (env : Renaming) (a b : Ident) : Prop := env.resolve b = some a

/-- What the identifier stands for is older than the next color. -/
def Known (env : Renaming) (p : Palette) (x : Ident) : Prop :=
  ∃ a, env.resolve x = some a ∧ a.tagBelow p.issued = true

theorem eq_or_mem_of_resolve {env : Renaming} {x a : Ident} (h : env.resolve x = some a) :
    a = x ∨ ∃ q ∈ env.entries, q.2 = a := by
  rw [resolve] at h
  cases hLookup : env.lookup x with
  | some target =>
    rw [hLookup] at h
    cases h
    obtain ⟨before, after, hEntries, -⟩ := List.lookup_eq_some_iff.mp hLookup
    exact .inr ⟨(x, a), by simp [hEntries], rfl⟩
  | none =>
    rw [hLookup] at h
    dsimp only at h
    split at h
    · cases h
    · exact .inl (Option.some.inj h).symm

end Renaming

section

variable {env : Renaming} {p p' : Palette} {x : Ident} {t c : Term}

theorem Renaming.Known.mono (hLe : p.issued ≤ p'.issued) (h : env.Known p x) : env.Known p' x := by
  obtain ⟨a, hResolve, hTag⟩ := h
  refine ⟨a, hResolve, ?_⟩
  cases a with
  | raw => rfl
  | generated n | colored _ n =>
    have hn : n < p.issued := of_decide_eq_true hTag
    exact decide_eq_true (Nat.lt_of_lt_of_le hn hLe)

theorem eachFree_known_bind (h : (Term.lam x t).EachFree (env.Known p)) :
    t.EachFree ((env.bind x (p.tint x)).Known p.advance) := by
  intro y hy
  by_cases hxy : y = x
  · refine ⟨p.tint x, ?_, decide_eq_true (Nat.lt_succ_self _)⟩
    rw [Renaming.resolve_bind, if_pos hxy]
  · rw [Renaming.Known, Renaming.resolve_bind, if_neg hxy]
    exact (h y (Term.occursFree_lam.mpr ⟨Ne.symm hxy, hy⟩)).mono (Nat.le_succ _)

/-- **Nothing is captured**: a fresh color is not what anything around the binder stands for. -/
theorem alpha_under_copied (h : (Term.lam x t).EachFree (env.Known p))
    (hCopy : c.Alpha (env.bind x (p.tint x)).Copied t) :
    c.Alpha (Under env.Copied (p.tint x) x) t := by
  refine hCopy.imp fun a b _ hb hab => ?_
  rw [Renaming.Copied, Renaming.resolve_bind] at hab
  by_cases hbx : b = x
  · rw [if_pos hbx] at hab
    exact .inl ⟨(Option.some.inj hab).symm, hbx⟩
  · rw [if_neg hbx] at hab
    refine .inr ⟨?_, hbx, hab⟩
    obtain ⟨d, hResolve, hTag⟩ := h b (Term.occursFree_lam.mpr ⟨Ne.symm hbx, hb⟩)
    rintro rfl
    cases hab.symm.trans hResolve
    exact Nat.lt_irrefl _ (of_decide_eq_true hTag)

end

/-! ### Colored binders -/

/-- The binders `ds` are colors of the binders `xs`, and they have the tags from `t` up to `t'`,
which is not among them. -/
structure Coloring (t : Nat) (ds xs : List Ident) (t' : Nat) : Prop where
  named : List.Forall₂ (fun d x => ∃ n, d = .colored x.base n) ds xs
  tags : (ds.filterMap Ident.tag?).Perm (List.range' t xs.length)
  next : t' = t + xs.length

namespace Coloring

variable {t t₁ t' : Nat} {ds ds' xs xs' : List Ident}

theorem nil (t : Nat) : Coloring t [] [] t := ⟨.nil, .refl _, rfl⟩

theorem le (h : Coloring t ds xs t') : t ≤ t' := h.next ▸ Nat.le_add_right _ _

theorem append (h : Coloring t ds xs t₁) (h' : Coloring t₁ ds' xs' t') :
    Coloring t (ds ++ ds') (xs ++ xs') t' := by
  obtain ⟨hNamed, hTags, rfl⟩ := h
  obtain ⟨hNamed', hTags', rfl⟩ := h'
  refine ⟨List.rel_append hNamed hNamed', ?_, ?_⟩
  · rw [List.filterMap_append, List.length_append, ← List.range'_append_1]
    exact hTags.append hTags'
  · rw [List.length_append, Nat.add_assoc]

/-- A binder that is colored before what stands in its scope. -/
theorem binder (x : Ident) (h : Coloring (t + 1) ds xs t') :
    Coloring t (.colored x.base t :: ds) (x :: xs) t' := by
  obtain ⟨hNamed, hTags, rfl⟩ := h
  refine ⟨.cons ⟨t, rfl⟩ hNamed, ?_, ?_⟩
  · rw [List.length_cons, List.range'_succ]
    exact hTags.cons t
  · rw [List.length_cons, Nat.add_assoc, Nat.add_comm 1]

/-- A binder that is colored after the part in front of it. -/
theorem definition (x : Ident) (h : Coloring t ds xs t₁) (h' : Coloring (t₁ + 1) ds' xs' t') :
    Coloring t (.colored x.base t₁ :: (ds ++ ds')) (x :: (xs ++ xs')) t' := by
  obtain ⟨-, hTags, hNext⟩ := h.append (h'.binder x)
  refine ⟨.cons ⟨t₁, rfl⟩ (List.rel_append h.named h'.named), ?_, ?_⟩
  · rw [List.filterMap_append] at hTags
    rw [List.filterMap_cons, List.filterMap_append]
    have hLength : (x :: (xs ++ xs')).length = (xs ++ x :: xs').length := by
      simp only [List.length_cons, List.length_append, Nat.add_assoc]
    rw [hLength]
    exact List.perm_middle.symm.trans hTags
  · rw [hNext]
    simp only [List.length_cons, List.length_append, Nat.add_assoc]

end Coloring

/-! ### Runs above stage 0 -/

namespace Machine

/-- Some transitions lead from `s` to another state, and no state on the way, from `s` on, is of
stage 0. -/
inductive BuildsTo (m : Machine) (s : State) : Machine → State → Prop
  | refl (hLevel : s.level ≠ 0) : BuildsTo m s m s
  | tail {m₁ m₂ : Machine} {s₁ s₂ : State} (prior : BuildsTo m s m₁ s₁)
      (h : m₁.step s₁ = (.ok s₂, m₂)) (hLevel : s₂.level ≠ 0) : BuildsTo m s m₂ s₂

namespace BuildsTo

variable {m m₁ m₂ : Machine} {s s₁ s₂ : State}

theorem trans (h : m.BuildsTo s m₁ s₁) (g : m₁.BuildsTo s₁ m₂ s₂) : m.BuildsTo s m₂ s₂ := by
  induction g with
  | refl => exact h
  | tail _ hStep hLevel ih => exact .tail ih hStep hLevel

theorem of_moves {p' : Palette} (h : s.Moves m.palette s₁ p') (hLevel : s.level ≠ 0)
    (hLevel₁ : s₁.level ≠ 0) : m.BuildsTo s ⟨p', m.steps + 1⟩ s₁ :=
  .tail (.refl hLevel) (step_of_moves h) hLevel₁

theorem reaches (h : m.BuildsTo s m₁ s₁) : m.Reaches s m₁ s₁ := by
  induction h with
  | refl => exact .refl
  | tail _ hStep _ ih => exact .tail ih hStep

end BuildsTo

/-! ### Copies, construct by construct -/

/-- From the machine `m` the term `t` is built into its copy `c`. -/
structure Copies (m : Machine) (level : UInt64) (env : Renaming) (t : Term) (k : BuildStack)
    (m' : Machine) (c : Term) : Prop where
  builds : m.BuildsTo (.build level env t k) m' (.emit level c k)
  alpha : c.Alpha env.Copied t
  binders : Coloring m.palette.issued c.binders t.binders m'.palette.issued

/-- The term can be copied at the level wherever it is built. -/
def Copyable (level : UInt64) (t : Term) : Prop :=
  ∀ (m : Machine) (env : Renaming) (k : BuildStack),
    t.EachFree (env.Known m.palette) → ∃ m' c, m.Copies level env t k m' c

section

variable {level : UInt64} (hLevel : level ≠ 0)

include hLevel

theorem Copyable.var (x : Ident) : Copyable level (.var x) := by
  intro m env k hFree
  obtain ⟨a, hResolve, -⟩ := hFree x (Term.occursFree_var.mpr rfl)
  exact ⟨_, .var a, .of_moves (.buildVar hResolve) hLevel hLevel, .var hResolve, .nil _⟩

theorem Copyable.int (n : Int64) : Copyable level (.int n) := by
  intro m env k _
  exact ⟨_, .int n, .of_moves (.buildInt level env n k) hLevel hLevel, .int n, .nil _⟩

theorem Copyable.bool (b : Bool) : Copyable level (.bool b) := by
  intro m env k _
  exact ⟨_, .bool b, .of_moves (.buildBool level env b k) hLevel hLevel, .bool b, .nil _⟩

theorem Copyable.lam {x : Ident} {t : Term} (h : Copyable level t) : Copyable level (.lam x t) := by
  intro m env k hFree
  obtain ⟨m', c, hBuilds, hAlpha, hBinders⟩ :=
    h ⟨m.palette.advance, m.steps + 1⟩ (env.bind x (m.palette.tint x))
      (.push (.lam (m.palette.tint x)) k) (eachFree_known_bind hFree)
  have hRun := (BuildsTo.of_moves (.buildLam level env x t k) hLevel hLevel).trans
    (hBuilds.trans (.of_moves (.emitLam level c _ k) hLevel hLevel))
  exact ⟨_, .lam (m.palette.tint x) c, hRun, .lam (alpha_under_copied hFree hAlpha),
    hBinders.binder x⟩

theorem Copyable.fix {x : Ident} {t : Term} (hBody : Step.maybeFunction t = true)
    (h : Copyable level t) : Copyable level (.fix x t) := by
  intro m env k hFree
  obtain ⟨m', c, hBuilds, hAlpha, hBinders⟩ :=
    h ⟨m.palette.advance, m.steps + 1⟩ (env.bind x (m.palette.tint x))
      (.push (.fix (m.palette.tint x)) k) (eachFree_known_bind hFree.fix)
  have hRun := (BuildsTo.of_moves (.buildFix hBody) hLevel hLevel).trans
    (hBuilds.trans (.of_moves (.emitFix level c _ k) hLevel hLevel))
  exact ⟨_, .fix (m.palette.tint x) c, hRun, .fix (alpha_under_copied hFree.fix hAlpha),
    hBinders.binder x⟩

theorem Copyable.app {fn arg : Term} (hFn : Copyable level fn) (hArg : Copyable level arg) :
    Copyable level (.app fn arg) := by
  intro m env k hFree
  obtain ⟨m₁, c, hBuilds₁, hAlpha₁, hBinders₁⟩ :=
    hFn ⟨m.palette, m.steps + 1⟩ env (.push (.applyTo arg env) k) hFree.app.1
  obtain ⟨m₂, d, hBuilds₂, hAlpha₂, hBinders₂⟩ :=
    hArg ⟨m₁.palette, m₁.steps + 1⟩ env (.push (.applied c) k)
      (hFree.app.2.mono fun _ => .mono hBinders₁.le)
  have hRun := (BuildsTo.of_moves (.buildApp level env fn arg k) hLevel hLevel).trans
    (hBuilds₁.trans ((BuildsTo.of_moves (.emitApplyTo level c arg env k) hLevel hLevel).trans
      (hBuilds₂.trans (.of_moves (.emitApplied level d c k) hLevel hLevel))))
  exact ⟨_, .app c d, hRun, .app hAlpha₁ hAlpha₂, hBinders₁.append hBinders₂⟩

theorem Copyable.logic {op : LogicOp} {left right : Term} (hLeft : Copyable level left)
    (hRight : Copyable level right) : Copyable level (.logic op left right) := by
  intro m env k hFree
  obtain ⟨m₁, c, hBuilds₁, hAlpha₁, hBinders₁⟩ :=
    hLeft ⟨m.palette, m.steps + 1⟩ env (.push (.logicLeft op right env) k) hFree.logic.1
  obtain ⟨m₂, d, hBuilds₂, hAlpha₂, hBinders₂⟩ :=
    hRight ⟨m₁.palette, m₁.steps + 1⟩ env (.push (.logicRight op c) k)
      (hFree.logic.2.mono fun _ => .mono hBinders₁.le)
  have hRun := (BuildsTo.of_moves (.buildLogic level env op left right k) hLevel hLevel).trans
    (hBuilds₁.trans
      ((BuildsTo.of_moves (.emitLogicLeft level c op right env k) hLevel hLevel).trans
        (hBuilds₂.trans (.of_moves (.emitLogicRight level d op c k) hLevel hLevel))))
  exact ⟨_, .logic op c d, hRun, .logic hAlpha₁ hAlpha₂, hBinders₁.append hBinders₂⟩

/-- What is defined is built first, and then the definition gets its color. -/
theorem Copyable.letIn {x : Ident} {bound body : Term} (hBound : Copyable level bound)
    (hBody : Copyable level body) : Copyable level (.letIn x bound body) := by
  intro m env k hFree
  obtain ⟨m₁, c, hBuilds₁, hAlpha₁, hBinders₁⟩ :=
    hBound ⟨m.palette, m.steps + 1⟩ env (.push (.letBound x body env) k) hFree.letIn.1
  have hUnder : (Term.lam x body).EachFree (env.Known m₁.palette) :=
    hFree.letIn.2.mono fun _ => .mono hBinders₁.le
  obtain ⟨m₂, d, hBuilds₂, hAlpha₂, hBinders₂⟩ :=
    hBody ⟨m₁.palette.advance, m₁.steps + 1⟩ (env.bind x (m₁.palette.tint x))
      (.push (.letBody (m₁.palette.tint x) c) k) (eachFree_known_bind hUnder)
  have hRun := (BuildsTo.of_moves (.buildLet level env x bound body k) hLevel hLevel).trans
    (hBuilds₁.trans
      ((BuildsTo.of_moves (.emitLetBound level c x body env k) hLevel hLevel).trans
        (hBuilds₂.trans (.of_moves (.emitLetBody level d _ c k) hLevel hLevel))))
  exact ⟨_, .letIn (m₁.palette.tint x) c d, hRun,
    .letIn hAlpha₁ (alpha_under_copied hUnder hAlpha₂), hBinders₁.definition x hBinders₂⟩

theorem Copyable.ite {cond yes no : Term} (hCond : Copyable level cond)
    (hYes : Copyable level yes) (hNo : Copyable level no) : Copyable level (.ite cond yes no) := by
  intro m env k hFree
  obtain ⟨m₁, c, hBuilds₁, hAlpha₁, hBinders₁⟩ :=
    hCond ⟨m.palette, m.steps + 1⟩ env (.push (.iteCond yes no env) k) hFree.ite.1
  obtain ⟨m₂, d, hBuilds₂, hAlpha₂, hBinders₂⟩ :=
    hYes ⟨m₁.palette, m₁.steps + 1⟩ env (.push (.iteYes c no env) k)
      (hFree.ite.2.1.mono fun _ => .mono hBinders₁.le)
  obtain ⟨m₃, e, hBuilds₃, hAlpha₃, hBinders₃⟩ :=
    hNo ⟨m₂.palette, m₂.steps + 1⟩ env (.push (.iteNo c d) k)
      (hFree.ite.2.2.mono fun _ => .mono (Nat.le_trans hBinders₁.le hBinders₂.le))
  have hRun := (BuildsTo.of_moves (.buildIte level env cond yes no k) hLevel hLevel).trans
    (hBuilds₁.trans ((BuildsTo.of_moves (.emitIteCond level c yes no env k) hLevel hLevel).trans
      (hBuilds₂.trans ((BuildsTo.of_moves (.emitIteYes level d c no env k) hLevel hLevel).trans
        (hBuilds₃.trans (.of_moves (.emitIteNo level e c d k) hLevel hLevel))))))
  exact ⟨_, .ite c d e, hRun, .ite hAlpha₁ hAlpha₂ hAlpha₃,
    (hBinders₁.append hBinders₂).append hBinders₃⟩

/-- The operands from `next` on are copied one after the other; `done` holds the copies of those
before. -/
theorem exists_copies (m : Machine) (op : PrimOp) (k : BuildStack) (done : List Term)
    {env : Renaming} {args before rest : List Term} {next : Term}
    (hArgs : args = before ++ next :: rest) (hCopy : ∀ a ∈ next :: rest, Copyable level a)
    (hDone : done.length = before.length)
    (hFree : ∀ a ∈ next :: rest, a.EachFree (env.Known m.palette)) :
    ∃ m' cs, m.BuildsTo (.build level env next (.push (.prim op done args env) k)) m'
        (.emit level (.prim op (done ++ cs)) k) ∧
      List.Forall₂ (Term.Alpha env.Copied) cs (next :: rest) ∧
      Coloring m.palette.issued (Term.bindersAll cs) (Term.bindersAll (next :: rest))
        m'.palette.issued := by
  induction rest generalizing m before done next with
  | nil =>
    obtain ⟨m₁, c, hBuilds, hAlpha, hBinders⟩ := hCopy next List.mem_cons_self m env
      (.push (.prim op done args env) k) (hFree next List.mem_cons_self)
    have hLast : args[(done ++ [c]).length]? = none := by
      refine List.getElem?_eq_none ?_
      rw [hArgs, List.length_append, List.length_append, hDone]
      exact Nat.le_refl _
    exact ⟨_, [c], hBuilds.trans (.of_moves (.emitPrimLast hLast) hLevel hLevel),
      .cons hAlpha .nil, hBinders.append (.nil _)⟩
  | cons second rest ih =>
    obtain ⟨m₁, c, hBuilds, hAlpha, hBinders⟩ := hCopy next List.mem_cons_self m env
      (.push (.prim op done args env) k) (hFree next List.mem_cons_self)
    have hArgs' : args = before ++ [next] ++ second :: rest := by
      rw [hArgs, List.append_assoc]
      rfl
    have hDone' : (done ++ [c]).length = (before ++ [next]).length := by
      rw [List.length_append, List.length_append, hDone]
      rfl
    have hNext : args[(done ++ [c]).length]? = some second := by
      rw [hDone', hArgs', List.getElem?_append_right (Nat.le_refl _), Nat.sub_self]
      rfl
    obtain ⟨m₂, cs, hBuilds', hAll, hBinders'⟩ :=
      ih ⟨m₁.palette, m₁.steps + 1⟩ (done ++ [c]) hArgs'
        (fun a ha => hCopy a (List.mem_cons_of_mem _ ha)) hDone'
        fun a ha => (hFree a (List.mem_cons_of_mem _ ha)).mono fun _ => .mono hBinders.le
    have hRun := hBuilds.trans ((BuildsTo.of_moves (.emitPrimNext hNext) hLevel hLevel).trans
      hBuilds')
    rw [List.append_assoc] at hRun
    exact ⟨m₂, c :: cs, hRun, .cons hAlpha hAll, hBinders.append hBinders'⟩

theorem Copyable.prim {op : PrimOp} {args : List Term} (hLength : args.length = op.arity)
    (h : ∀ a ∈ args, Copyable level a) : Copyable level (.prim op args) := by
  intro m env k hFree
  cases args with
  | nil => exact absurd hLength (Nat.ne_of_lt op.arity_pos)
  | cons first rest =>
    have hFirst : Step.firstOperand op (first :: rest) = .ok first := if_pos hLength
    have hArgs : first :: rest = [] ++ first :: rest := rfl
    obtain ⟨m', cs, hBuilds, hAll, hBinders⟩ :=
      exists_copies hLevel ⟨m.palette, m.steps + 1⟩ op k [] hArgs h rfl hFree.prim
    exact ⟨m', .prim op cs, (BuildsTo.of_moves (.buildPrim hFirst) hLevel hLevel).trans hBuilds,
      .of_forall₂ hAll, hBinders⟩

/-- Inside a quote the term is built one level up, and the quote comes back down. -/
theorem Copyable.quote {inside : UInt64} {t : Term} (hRaise : Step.raise level 1 = .ok inside)
    (hInside : inside ≠ 0) (h : Copyable inside t) : Copyable level (.quote t) := by
  intro m env k hFree
  obtain ⟨hNext, hWord⟩ := Step.raise_eq_ok hRaise
  have hBack : inside - 1 = level := by rw [hNext, UInt64.add_sub_cancel]
  have hTwo : 2 ≤ inside := by
    have hOne : level.toNat ≠ 0 := fun hZero => hLevel (UInt64.toNat_inj.mp hZero)
    refine UInt64.le_iff_toNat_le.mpr ?_
    show 2 ≤ inside.toNat
    rw [hWord, UInt64.toNat_one]
    omega
  obtain ⟨m', c, hBuilds, hAlpha, hBinders⟩ :=
    h ⟨m.palette, m.steps + 1⟩ env (.push .quote k) hFree
  have hClose := BuildsTo.of_moves (m := m') (.emitQuote (c := c) (k := k) hTwo) hInside
    (show inside - 1 ≠ 0 by rwa [hBack])
  rw [hBack] at hClose
  have hRun := (BuildsTo.of_moves (.buildQuote hRaise) hLevel hInside).trans
    (hBuilds.trans hClose)
  exact ⟨_, .quote c, hRun, .quote hAlpha, hBinders⟩

/-- Inside a splice that is kept the term is built as many levels down as the splice crosses. -/
theorem Copyable.splice {shift : Int64} {t : Term}
    (hStages : Step.stages shift level = .ok shift.toUInt64) (hAbove : shift.toUInt64 ≠ level)
    (hShift : shift.toUInt64 < 0x8000000000000000) (hInside : level - shift.toUInt64 ≠ 0)
    (h : Copyable (level - shift.toUInt64) t) : Copyable level (.splice shift t) := by
  intro m env k hFree
  obtain ⟨m', c, hBuilds, hAlpha, hBinders⟩ :=
    h ⟨m.palette, m.steps + 1⟩ env (.push (.splice shift.toUInt64) k) hFree
  have hRaise : Step.raise (level - shift.toUInt64) shift.toUInt64 = .ok level :=
    Step.raise_sub (UInt64.le_iff_toNat_le.mpr (Step.stages_eq_ok hStages).2)
  have hClose := BuildsTo.of_moves (m := m') (.emitSplice (c := c) (k := k) hRaise hShift) hInside
    hLevel
  rw [Int64.toInt64_toUInt64] at hClose
  have hRun := (BuildsTo.of_moves (.buildSplice hStages hAbove) hLevel hInside).trans
    (hBuilds.trans hClose)
  exact ⟨_, .splice shift c, hRun, .splice hAlpha, hBinders⟩

end

/-- **A buildable term can be copied.** -/
theorem copyable_of_buildable {level : UInt64} {t : Term} (hLevel : level ≠ 0)
    (h : t.Buildable level) : Copyable level t := by
  induction t generalizing level with
  | var x => exact .var hLevel x
  | int n => exact .int hLevel n
  | bool b => exact .bool hLevel b
  | lam x body ih => exact .lam hLevel (ih hLevel h.lam)
  | fix x body ih => exact .fix hLevel h.fix.1 (ih hLevel h.fix.2)
  | app fn arg ihFn ihArg => exact .app hLevel (ihFn hLevel h.app.1) (ihArg hLevel h.app.2)
  | logic op left right ihLeft ihRight =>
    exact .logic hLevel (ihLeft hLevel h.logic.1) (ihRight hLevel h.logic.2)
  | letIn x bound body ihBound ihBody =>
    exact .letIn hLevel (ihBound hLevel h.letIn.1) (ihBody hLevel h.letIn.2)
  | ite cond yes no ihCond ihYes ihNo =>
    obtain ⟨hCond, hYes, hNo⟩ := h.ite
    exact .ite hLevel (ihCond hLevel hCond) (ihYes hLevel hYes) (ihNo hLevel hNo)
  | prim op args ih =>
    obtain ⟨hLength, hArgs⟩ := h.prim
    exact .prim hLevel hLength fun a ha => ih a ha hLevel (hArgs a ha)
  | quote body ih =>
    obtain ⟨inside, hRaise, hBody⟩ := h.quote
    have hInside : inside ≠ 0 := by
      rintro rfl
      have hWord := (Step.raise_eq_ok hRaise).2
      rw [UInt64.toNat_zero, UInt64.toNat_one] at hWord
      omega
    exact .quote hLevel hRaise hInside (ih hInside hBody)
  | splice shift body ih =>
    obtain ⟨hStages, hAbove, hShift, hInside, hBody⟩ := h.splice
    exact .splice hLevel hStages hAbove hShift hInside (ih hInside hBody)

/-- **Building is copying, and captures nothing.**  Where the tags of a term and of a renaming have
been issued, the renaming resolves what occurs free, the term is well formed and all its levels are
words, the term is built without a fault and without a state of stage 0.  What comes out is the
term up to its binders, each free occurrence being what the renaming resolves it to and bound by
nothing; each binder is a color of the binder that it copies; and the tags of these colors are the
next ones of the palette, one for each binder. -/
theorem builds_copy (m : Machine) {level : UInt64} (env : Renaming) (e : Term) (k : BuildStack)
    (hLevel : 1 ≤ level) (hTags : ∀ id ∈ e.vars ++ e.binders, id.tagBelow m.palette.issued = true)
    (hEnv : ∀ q ∈ env.entries, q.1.tagBelow m.palette.issued = true ∧
      q.2.tagBelow m.palette.issued = true)
    (hResolves : e.EachFree fun x => (env.resolve x).isSome = true)
    (hSaturated : e.saturated = true) (hFixes : e.fixesMaybeFunctions = true)
    (hSplices : e.splicesWithin level.toNat = true)
    (hWords : e.highest level.toNat ≤ 0xFFFFFFFFFFFFFFFF) :
    ∃ m' c, m.BuildsTo (.build level env e k) m' (.emit level c k) ∧
      c.Alpha (fun a b => env.resolve b = some a) e ∧
      List.Forall₂ (fun d x => ∃ n, d = .colored x.base n) c.binders e.binders ∧
      (c.binders.filterMap Ident.tag?).Perm
        (List.range' m.palette.issued e.binders.length) ∧
      m'.palette.issued = m.palette.issued + e.binders.length := by
  have hNonzero : level ≠ 0 := by
    rintro rfl
    exact absurd hLevel (by decide)
  have hKnown : e.EachFree (env.Known m.palette) := by
    intro x hx
    obtain ⟨a, hResolve⟩ := Option.isSome_iff_exists.mp (hResolves x hx)
    refine ⟨a, hResolve, ?_⟩
    rcases Renaming.eq_or_mem_of_resolve hResolve with rfl | ⟨q, hq, rfl⟩
    · exact hTags a (List.mem_append_left _ (Term.mem_vars_of_occursFree hx))
    · exact (hEnv q hq).2
  have hBuildable : e.Buildable level := ⟨hSaturated, hFixes, hSplices, hWords⟩
  obtain ⟨m', c, hBuilds, hAlpha, hNamed, hPerm, hNext⟩ :=
    copyable_of_buildable hNonzero hBuildable m env k hKnown
  exact ⟨m', c, hBuilds, hAlpha, hNamed, hPerm, hNext⟩

/-- Under a renaming of its free `x`, the term `x (fn x -> let y = x in `{ ~1{ x } (fn x -> y) })`
gets three new colors. -/
theorem builds_copy_shadowed :
    let e : Term := .app (.var (.raw "x")) (.lam (.raw "x") (.letIn (.raw "y") (.var (.raw "x"))
      (.quote (.app (.splice 1 (.var (.raw "x"))) (.lam (.raw "x") (.var (.raw "y")))))))
    let env := Renaming.empty.bind (.raw "x") (.colored "x" 0)
    ∃ m' c, (⟨⟨1⟩, 0⟩ : Machine).BuildsTo (.build 1 env e (.close .halt)) m'
        (.emit 1 c (.close .halt)) ∧
      c.Alpha (fun a b => env.resolve b = some a) e ∧
      (c.binders.filterMap Ident.tag?).Perm [1, 2, 3] ∧ m'.palette.issued = 4 := by
  intro e env
  obtain ⟨m', c, hBuilds, hAlpha, -, hPerm, hNext⟩ :=
    builds_copy ⟨⟨1⟩, 0⟩ env e (.close .halt) (show 1 ≤ 1 by decide)
      (by decide) (by decide) (by decide) (by decide) (by decide) (by decide) (by decide)
  exact ⟨m', c, hBuilds, hAlpha, hPerm, hNext⟩

/-- **The highest level has no room for a quote.**  No word is the level inside the quote, so the
program stops at the sum, although the quote is as well formed as a term can be. -/
theorem build_beyond_words :
    let level : UInt64 := 0xFFFFFFFFFFFFFFFF
    let e : Term := .quote (.int 1)
    let start : State := .build level .empty e (.close .halt)
    (1 ≤ level ∧ (∀ id ∈ e.vars ++ e.binders, id.tagBelow 0 = true) ∧
      (∀ q ∈ Renaming.empty.entries, q.1.tagBelow 0 = true ∧ q.2.tagBelow 0 = true) ∧
      e.EachFree (fun x => (Renaming.empty.resolve x).isSome = true) ∧
      e.saturated = true ∧ e.fixesMaybeFunctions = true ∧ e.splicesWithin level.toNat = true) ∧
    ({} : Machine).Yields start (.error (.trap .add)) ∧
    ∀ m' c, ¬({} : Machine).Reaches start m' (.emit level c (.close .halt)) := by
  intro level e start
  have hYields : ({} : Machine).Yields start (.error (.trap .add)) :=
    yields_error_iff.mpr ⟨_, start, .refl, rfl, .buildQuote (by decide)⟩
  refine ⟨by decide, hYields, fun m' c hReach => ?_⟩
  have hElse : m'.Yields (.emit level c (.close .halt)) (.error (.impossible .closedAboveOne)) :=
    yields_error_iff.mpr ⟨m', _, .refl, rfl, .emitClose (by decide)⟩
  cases hYields.unique (hElse.of_reaches hReach)

end Machine

end StagedLambda
