import Mathlib.Data.List.Infix
import Mathlib.Order.Monotone.Basic
import StagedLambda.Proofs.Tags.Equivariance

/-!
# Runs that share a machine

Several runs can be suspended and taken up in any order on one machine.  All that they share is
the palette, so a run of one program gets other tags than it would get alone, and which ones
depends on the others and on the order.  Nothing else does: **each run is the run that the program
has by itself on a fresh machine, up to a strictly increasing renaming of tags**
(`Pool.isolated`).

The renaming grows with the run.  As long as the program has issued `n` tags by itself, only the
images of these are fixed; when it issues the next one, this is sent to the tag that the shared
palette issues then, which is larger than all before (`graft`).
-/

namespace StagedLambda

/-! ### What a run has come to -/

/-- The outcome of a run that gets no further. -/
def Machine.Progress.outcome : Machine.Progress → Outcome
  | .ok s =>
    match s.result? with
    | some v => .finished v
    | none => .suspended s
  | .error e => .failed e

/-- Numbers and truth values are left as they are, code and functions have their tags renamed, and
a fault is of the same kind. -/
def Outcome.retag (f : Nat → Nat) : Outcome → Outcome
  | .finished v => .finished (v.recolor (Ident.retag f))
  | .suspended s => .suspended (s.retag f)
  | .failed e => .failed (e.recolor (Ident.retag f))

theorem State.result?_retag (f : Nat → Nat) (s : State) :
    (s.retag f).result? = s.result?.map (Value.recolor (Ident.retag f)) := by
  cases s with
  | deliver v k => cases k <;> rfl
  | eval | build | emit => rfl

theorem Machine.Progress.outcome_retag (f : Nat → Nat) (r : Machine.Progress) :
    (r.retag f).outcome = r.outcome.retag f := by
  cases r with
  | error e => rfl
  | ok s =>
    show outcome (.ok (s.retag f)) = _
    rw [outcome, outcome, State.result?_retag]
    cases s.result? <;> rfl

/-- A program has no tags to rename. -/
theorem Term.Written.retag_initial {e : Term} (h : e.Written) (f : Nat → Nat) :
    (State.initial e).retag f = .initial e := by
  have hTerm : e.recolor (Ident.retag f) = e := by
    refine recolor_eq_self (fun id hid => ?_) fun id hid =>
      Ident.retag_of_not_isColored (h.binders id hid)
    have hRaw := h.vars id hid
    cases id with
    | raw => rfl
    | generated | colored => cases hRaw
  show State.eval .empty (e.recolor (Ident.retag f)) .halt = _
  rw [hTerm]
  rfl

/-! ### Renamings that grow -/

/-- The renaming `f` of the tags below `n`, and the tags from `next` on for all others. -/
def graft (f : Nat → Nat) (n next : Nat) (t : Nat) : Nat :=
  if t < n then f t else next + (t - n)

section

variable {f : Nat → Nat} {n next : Nat}

theorem graft_of_lt {t : Nat} (h : t < n) : graft f n next t = f t := if_pos h

theorem graft_self : graft f n next n = next := by
  rw [graft, if_neg (Nat.lt_irrefl n), Nat.sub_self, Nat.add_zero]

theorem strictMono_graft (hf : StrictMono f) (hBelow : ∀ t < n, f t < next) :
    StrictMono (graft f n next) := by
  intro t u htu
  by_cases hu : u < n
  · rw [graft_of_lt (htu.trans hu), graft_of_lt hu]
    exact hf htu
  · by_cases ht : t < n
    · have := hBelow t ht
      rw [graft_of_lt ht, graft, if_neg hu]
      omega
    · rw [graft, graft, if_neg ht, if_neg hu]
      omega

/-- After a turn of both palettes the grafted renaming stays within the tags that are issued. -/
theorem graft_lt {p q p' q' : Palette} (hBelow : ∀ t < p.issued, f t < q.issued)
    (h : p.Alike q p' q') : ∀ t < p'.issued, graft f p.issued q.issued t < q'.issued := by
  intro t ht
  cases h with
  | same =>
    rw [graft_of_lt ht]
    exact hBelow t ht
  | issue =>
    rw [Palette.issued_advance]
    rcases Nat.lt_succ_iff_lt_or_eq.mp ht with ht | rfl
    · rw [graft_of_lt ht]
      exact Nat.lt_succ_of_lt (hBelow t ht)
    · rw [graft_self]
      exact Nat.lt_succ_self _

end

/-! ### Pools -/

/-- Runs that share one machine. -/
structure Pool (ι : Type) where
  machine : Machine
  runs : ι → Machine.Progress

namespace Pool

variable {ι : Type} [DecidableEq ι]

/-- Programs before their first transition, on a machine that may have run others. -/
def load (m : Machine) (programs : ι → Term) : Pool ι := ⟨m, fun i => .ok (.initial (programs i))⟩

/-- One of the runs takes its next transition. -/
def turn (pool : Pool ι) (i : ι) : Pool ι :=
  match pool.machine.turn (pool.runs i) with
  | (r, m) => ⟨m, Function.update pool.runs i r⟩

/-- The runs take transitions in the order of a schedule. -/
def follow (pool : Pool ι) (schedule : List ι) : Pool ι := schedule.foldl turn pool

theorem follow_concat (pool : Pool ι) (schedule : List ι) (i : ι) :
    pool.follow (schedule ++ [i]) = (pool.follow schedule).turn i := by
  rw [follow, List.foldl_concat]
  rfl

theorem turn_eq {pool : Pool ι} {i : ι} {r : Machine.Progress} {m : Machine}
    (h : pool.machine.turn (pool.runs i) = (r, m)) :
    pool.turn i = ⟨m, Function.update pool.runs i r⟩ := by
  rw [turn, h]

theorem runs_turn_of_ne {pool : Pool ι} {i j : ι} (h : i ≠ j) :
    (pool.turn j).runs i = pool.runs i := Function.update_of_ne h _ _

/-- The run that a program has by itself, on a fresh machine. -/
def alone (e : Term) (n : Nat) : Machine.Progress × Machine :=
  ({} : Machine).after (.initial e) n

/-- The renaming `f` carries the run that a program has by itself over to the run number `i` of a
pool, at every point of a schedule. -/
structure Carries (pool : Pool ι) (schedule : List ι) (i : ι) (e : Term) (f : Nat → Nat) :
    Prop where
  strictMono : StrictMono f
  issued : ∀ t < (alone e (schedule.count i)).2.palette.issued,
    f t < (pool.follow schedule).machine.palette.issued
  runs : ∀ taken, taken <+: schedule →
    (pool.follow taken).runs i = (alone e (taken.count i)).1.retag f

section

variable {pool : Pool ι} {schedule : List ι} {i j : ι} {e : Term} {f : Nat → Nat}

theorem carries_nil (hWritten : e.Written) (hLoaded : pool.runs i = .ok (.initial e)) :
    pool.Carries [] i e id := by
  refine ⟨strictMono_id, nofun, ?_⟩
  intro taken hTaken
  rw [List.prefix_nil.mp hTaken]
  exact hLoaded.trans (congrArg Except.ok (hWritten.retag_initial id).symm)

/-- Another run's turn does not matter. -/
theorem Carries.of_ne (h : pool.Carries schedule i e f) (hij : i ≠ j) :
    pool.Carries (schedule ++ [j]) i e f := by
  have hCount : (schedule ++ [j]).count i = schedule.count i := by
    rw [List.count_append, List.count_singleton, beq_false_of_ne hij.symm]
    rfl
  have hRuns : (pool.follow (schedule ++ [j])).runs i = (pool.follow schedule).runs i := by
    rw [follow_concat, runs_turn_of_ne hij]
  refine ⟨h.strictMono, ?_, ?_⟩
  · intro t ht
    rw [hCount] at ht
    rw [follow_concat]
    exact Nat.lt_of_lt_of_le (h.issued t ht) (Machine.issued_le_turn _ _)
  · intro taken hTaken
    rcases List.prefix_concat_iff.mp hTaken with rfl | hTaken
    · rw [hRuns, hCount]
      exact h.runs schedule (List.prefix_refl _)
    · exact h.runs taken hTaken

/-- **The run's own turn**: a tag that the program issues next by itself is sent to the tag that
the pool issues now. -/
theorem Carries.turn (hWritten : e.Written) (h : pool.Carries schedule i e f) :
    ∃ g, pool.Carries (schedule ++ [i]) i e g := by
  obtain ⟨r, m, hAlone⟩ : ∃ r m, alone e (schedule.count i) = (r, m) := ⟨_, _, rfl⟩
  obtain ⟨r', m', hTurn⟩ : ∃ r' m', m.turn r = (r', m') := ⟨_, _, rfl⟩
  have hCount : (schedule ++ [i]).count i = schedule.count i + 1 := by
    rw [List.count_append, List.count_singleton_self]
  have hNext : alone e ((schedule ++ [i]).count i) = (r', m') := by
    rw [hCount, alone, Machine.after_succ hAlone, hTurn]
  let shared := (pool.follow schedule).machine
  let g := graft f m.palette.issued shared.palette.issued
  have hBelow : ∀ t < m.palette.issued, f t < shared.palette.issued := by
    intro t ht
    exact h.issued t (by rwa [hAlone])
  have hg : StrictMono g := strictMono_graft h.strictMono hBelow
  -- Up to now no other tags have been issued, so the larger renaming does for all that was.
  have hGrown : ∀ taken, taken <+: schedule →
      (pool.follow taken).runs i = (alone e (taken.count i)).1.retag g := by
    intro taken hTaken
    rw [h.runs taken hTaken]
    refine Machine.retag_after_congr h.strictMono.injective hg.injective
      hWritten.retag_initial _ fun t ht => (graft_of_lt ?_).symm
    have hLe := Machine.issued_le_after {} (.initial e) (hTaken.sublist.count_le i)
    have hNow : (({} : Machine).after (.initial e) (schedule.count i)).2 = m :=
      congrArg Prod.snd hAlone
    exact Nat.lt_of_lt_of_le ht (hNow ▸ hLe)
  have hRun : (pool.follow schedule).runs i = r.retag g := by
    rw [hGrown schedule (List.prefix_refl _), hAlone]
  obtain ⟨shared', hShared, hAlike⟩ :=
    Machine.turn_retag hg.injective hTurn shared fun _ => graft_self
  rw [← hRun] at hShared
  refine ⟨g, hg, ?_, ?_⟩
  · rw [hNext, follow_concat, turn_eq hShared]
    exact graft_lt hBelow hAlike
  · intro taken hTaken
    rcases List.prefix_concat_iff.mp hTaken with rfl | hTaken
    · rw [follow_concat, turn_eq hShared, hNext]
      exact Function.update_self i _ _
    · exact hGrown taken hTaken

theorem exists_carries (pool : Pool ι) (hWritten : e.Written)
    (hLoaded : pool.runs i = .ok (.initial e)) (schedule : List ι) :
    ∃ f, pool.Carries schedule i e f := by
  induction schedule using List.reverseRecOn with
  | nil => exact ⟨id, carries_nil hWritten hLoaded⟩
  | append_singleton schedule j ih =>
    obtain ⟨f, hCarries⟩ := ih
    by_cases hij : i = j
    · subst hij
      exact hCarries.turn hWritten
    · exact ⟨f, hCarries.of_ne hij⟩

end

/-- **Runs that share a machine do not interfere.**  Programs are loaded on one machine and take
transitions in any order.  Then for each of them one strictly increasing renaming of tags turns
the states that it has by itself on a fresh machine into those that it has in the pool, one by
one; in particular it finishes or fails after as many transitions of its own, with the same
outcome up to that renaming. -/
theorem isolated {programs : ι → Term} (hWritten : ∀ i, (programs i).Written) (m : Machine)
    (schedule : List ι) (i : ι) :
    ∃ f : Nat → Nat, StrictMono f ∧ ∀ taken, taken <+: schedule →
      let shared := ((load m programs).follow taken).runs i
      let alone := (({} : Machine).after (.initial (programs i)) (taken.count i)).1
      shared = alone.retag f ∧ shared.outcome = alone.outcome.retag f := by
  obtain ⟨f, hCarries⟩ := exists_carries (load m programs) (hWritten i) rfl schedule
  refine ⟨f, hCarries.strictMono, ?_⟩
  intro taken hTaken shared alone
  have hRun : shared = alone.retag f := hCarries.runs taken hTaken
  exact ⟨hRun, hRun ▸ alone.outcome_retag f⟩

/-- Two runs of one program that take turns until both have colored their binders: the second gets
every other tag, and comes to the same code as by itself but for this. -/
theorem isolated_alternating :
    let e : Term := .quote (.lam (.raw "x") (.lam (.raw "y") (.var (.raw "x"))))
    let code (x y : Nat) : Term :=
      .lam (.colored "x" x) (.lam (.colored "y" y) (.var (.colored "x" x)))
    let schedule : List Bool :=
      [true, false, true, false, true, false, true, false, false, false, false]
    let shared := ((load {} fun _ => e).follow schedule).runs false
    let alone := (({} : Machine).after (.initial e) 7).1
    e.Written ∧ (∃ f : Nat → Nat, StrictMono f ∧ shared = alone.retag f) ∧
      alone.outcome = .finished (.code (code 0 1)) ∧
      shared.outcome = .finished (.code (code 1 3)) := by
  intro e code schedule shared alone
  have hWritten : e.Written := by decide
  obtain ⟨f, hf, hRuns⟩ := isolated (fun _ : Bool => hWritten) {} schedule false
  exact ⟨hWritten, ⟨f, hf, (hRuns schedule (List.prefix_refl _)).1⟩, rfl, rfl⟩

end Pool

end StagedLambda
