import Mathlib
import StagedLambda.Machine.Arithmetic
import StagedLambda.Proofs.Machine.Checks

/-!
# Meanings as sets of observations

A *meaning* is a set of observations.  Of a number or a truth value one can observe which it is; of
a function one can observe that from finitely many observations of its argument there follows one of
its result.  So a function is known by its finite parts, and may be given any meaning as its
argument, its own included.  No order of evaluation is part of this: it is the same whether an
argument is computed before a call or not at all.

This is the graph model of the lambda calculus with numbers and truth values.  A map of meanings is
*finitary* when each observation of its result rests on finitely many of its argument.

* `Meaning.apply_function`: a finitary map, made a function and applied, is the map.
* `Meaning.fix_unfold`: the meaning of a fixpoint.
* `Finitary.apply`, `Finitary.function`, `Finitary.fix`, `Finitary.branch`, `Finitary.operate`: all
  operations are finitary.
-/

namespace StagedLambda

/-- A number or a truth value. -/
inductive Datum
  | int (n : Int64)
  | bool (b : Bool)

def Datum.value : Datum → Value
  | .int n => .int n
  | .bool b => .bool b

theorem Datum.value_injective : Function.Injective Datum.value := by
  intro a b h
  cases a <;> cases b <;> cases h <;> rfl

theorem Datum.exists_value {v : Value} (h : v.kind = .int ∨ v.kind = .bool) :
    ∃ d : Datum, v = d.value := by
  cases v with
  | int n => exact ⟨.int n, rfl⟩
  | bool b => exact ⟨.bool b, rfl⟩
  | closure | code => rcases h with h | h <;> cases h

inductive Observation
  | datum (d : Datum)
  /-- When all that is given is observed of the argument, the result is observed. -/
  | maps (given : List Observation) (result : Observation)

/-- All that can be observed. -/
abbrev Meaning := Set Observation

namespace Meaning

/-- The meaning of which a finite list of observations is known. -/
def seen (given : List Observation) : Meaning := {o | o ∈ given}

theorem seen_append (g h : List Observation) : seen (g ++ h) = seen g ∪ seen h := by
  ext o
  exact List.mem_append

/-! ### Operations -/

def datum (d : Datum) : Meaning := {.datum d}

def apply (f a : Meaning) : Meaning := {o | ∃ given, seen given ⊆ a ∧ .maps given o ∈ f}

def function (F : Meaning → Meaning) : Meaning :=
  {o | ∃ given result, o = .maps given result ∧ result ∈ F (seen given)}

/-- The least meaning closed under `F`. -/
def fix (F : Meaning → Meaning) : Meaning := sInf {X | F X ⊆ X}

def branch (cond yes no : Meaning) : Meaning :=
  {o | .datum (.bool true) ∈ cond ∧ o ∈ yes ∨ .datum (.bool false) ∈ cond ∧ o ∈ no}

/-- A connective is a choice between its right operand and what settles it. -/
def connective (op : LogicOp) (left right : Meaning) : Meaning :=
  if op.settling then branch left (datum (.bool true)) right
  else branch left right (datum (.bool false))

def operate (op : PrimOp) (args : List Meaning) : Meaning :=
  {o | ∃ (ds : List Datum) (d : Datum), List.Forall₂ (fun d m => .datum d ∈ m) ds args ∧
    Arithmetic.apply op (ds.map Datum.value) = .ok d.value ∧ o = .datum d}

theorem mem_function {F : Meaning → Meaning} {given : List Observation} {result : Observation} :
    .maps given result ∈ function F ↔ result ∈ F (seen given) := by
  constructor
  · rintro ⟨_, _, h, hResult⟩
    cases h
    exact hResult
  · exact fun h => ⟨given, result, rfl, h⟩

theorem branch_datum (b : Bool) (yes no : Meaning) :
    branch (datum (.bool b)) yes no = if b then yes else no := by
  ext o
  cases b <;> simp [branch, datum]

theorem connective_settled (op : LogicOp) (right : Meaning) :
    connective op (datum (.bool op.settling)) right = datum (.bool op.settling) := by
  cases op <;> simp [connective, branch_datum, LogicOp.settling]

theorem connective_open {op : LogicOp} {b : Bool} (hOpen : b ≠ op.settling) (right : Meaning) :
    connective op (datum (.bool b)) right = right := by
  cases op <;> cases b <;> simp_all [connective, branch_datum, LogicOp.settling]

/-- What is observed of data are the data. -/
theorem eq_of_forall₂_datum {ds ds' : List Datum}
    (h : List.Forall₂ (fun d m => Observation.datum d ∈ m) ds (ds'.map datum)) : ds = ds' := by
  induction ds' generalizing ds with
  | nil =>
    cases h
    rfl
  | cons d' ds' ih =>
    cases h with
    | cons hHead hTail =>
      cases hHead
      rw [ih hTail]

theorem forall₂_datum (ds : List Datum) :
    List.Forall₂ (fun d m => Observation.datum d ∈ m) ds (ds.map datum) := by
  induction ds with
  | nil => exact .nil
  | cons d ds ih => exact .cons rfl ih

theorem operate_data {op : PrimOp} {ds : List Datum} {d : Datum}
    (h : Arithmetic.apply op (ds.map Datum.value) = .ok d.value) :
    operate op (ds.map datum) = datum d := by
  ext o
  constructor
  · rintro ⟨ds', d', hArgs, hApply, rfl⟩
    rw [eq_of_forall₂_datum hArgs, h] at hApply
    rw [Datum.value_injective (Except.ok.inj hApply)]
    rfl
  · rintro rfl
    exact ⟨ds, d, forall₂_datum ds, h, rfl⟩

end Meaning

/-- A primitive that has a result was applied to data and gives a datum. -/
theorem Arithmetic.exists_data {op : PrimOp} {vs : List Value} {v : Value}
    (h : Arithmetic.apply op vs = .ok v) :
    ∃ (ds : List Datum) (d : Datum), vs = ds.map Datum.value ∧ v = d.value := by
  have hResult : ∃ d : Datum, v = d.value := by
    rcases Arithmetic.apply_eq_ok h with ⟨n, rfl⟩ | ⟨b, rfl⟩
    · exact ⟨.int n, rfl⟩
    · exact ⟨.bool b, rfl⟩
  obtain ⟨d, rfl⟩ := hResult
  unfold Arithmetic.apply at h
  split at h
  · cases h
  · split at h
    next b _ => exact ⟨[.bool b], d, rfl, rfl⟩
    next m n _ => exact ⟨[.int m, .int n], d, rfl, rfl⟩
    next m n _ => exact ⟨[.int m, .int n], d, rfl, rfl⟩
    next => cases h

/-! ### Finitary maps -/

namespace Meaning

/-- Finitely many of the observations are enough for a property. -/
def Supports (X : Meaning) (P : Meaning → Prop) : Prop := ∃ given, seen given ⊆ X ∧ P (seen given)

section

variable {X : Meaning} {P Q : Meaning → Prop}

theorem Supports.imp (h : X.Supports P) (hPQ : ∀ Y, P Y → Q Y) : X.Supports Q := by
  obtain ⟨given, hGiven, hP⟩ := h
  exact ⟨given, hGiven, hPQ _ hP⟩

theorem Supports.and (hP : Monotone P) (hQ : Monotone Q) (h : X.Supports P) (h' : X.Supports Q) :
    X.Supports fun Y => P Y ∧ Q Y := by
  obtain ⟨g, hg, hP'⟩ := h
  obtain ⟨g', hg', hQ'⟩ := h'
  refine ⟨g ++ g', ?_, ?_⟩
  · rw [seen_append]
    exact Set.union_subset hg hg'
  · rw [seen_append]
    exact ⟨hP Set.subset_union_left hP', hQ Set.subset_union_right hQ'⟩

/-- **Finitely many properties rest on finitely many observations together.** -/
theorem Supports.all {α : Type} {P : α → Meaning → Prop} {l : List α}
    (hP : ∀ a ∈ l, Monotone (P a)) (h : ∀ a ∈ l, X.Supports (P a)) :
    X.Supports fun Y => ∀ a ∈ l, P a Y := by
  induction l with
  | nil => exact ⟨[], nofun, nofun⟩
  | cons a l ih =>
    obtain ⟨hHead, hTail⟩ := List.forall_mem_cons.mp hP
    obtain ⟨ha, hl⟩ := List.forall_mem_cons.mp h
    have hRest : Monotone fun Y => ∀ b ∈ l, P b Y := fun _ _ hYZ hY b hb => hTail b hb hYZ (hY b hb)
    exact (ha.and hHead hRest (ih hTail hl)).imp fun _ hY => List.forall_mem_cons.mpr hY

end

end Meaning

/-- The map is monotone, and each observation of its result rests on finitely many observations of
its argument. -/
structure Finitary (F : Meaning → Meaning) : Prop where
  mono : Monotone F
  finite : ∀ {X o}, o ∈ F X → X.Supports (o ∈ F ·)

theorem Finitary.mem_mono {F : Meaning → Meaning} (hF : Finitary F) (o : Observation) :
    Monotone (o ∈ F ·) := fun _ _ hXY ho => hF.mono hXY ho

namespace Meaning

/-- **A finitary map, made a function and applied, is the map.** -/
theorem apply_function {F : Meaning → Meaning} (hF : Finitary F) (a : Meaning) :
    apply (function F) a = F a := by
  ext o
  constructor
  · rintro ⟨given, hGiven, hMaps⟩
    exact hF.mono hGiven (mem_function.mp hMaps)
  · intro ho
    obtain ⟨given, hGiven, hResult⟩ := hF.finite ho
    exact ⟨given, hGiven, mem_function.mpr hResult⟩

theorem fix_unfold {F : Meaning → Meaning} (hF : Monotone F) : F (fix F) = fix F :=
  OrderHom.map_lfp ⟨F, hF⟩

theorem fix_le {F : Meaning → Meaning} {X : Meaning} (h : F X ⊆ X) : fix F ⊆ X := sInf_le h

theorem fix_mono {F G : Meaning → Meaning} (h : ∀ X, F X ⊆ G X) : fix F ⊆ fix G :=
  sInf_le_sInf fun X hX => (h X).trans hX

end Meaning

namespace Finitary

open Meaning

variable {F G H : Meaning → Meaning}

theorem const (m : Meaning) : Finitary fun _ => m :=
  ⟨fun _ _ _ => subset_rfl, fun ho => ⟨[], nofun, ho⟩⟩

theorem identity : Finitary fun X => X := by
  refine ⟨fun _ _ h => h, fun {X o} ho => ⟨[o], ?_, List.mem_singleton_self o⟩⟩
  intro p hp
  rwa [List.mem_singleton.mp hp]

theorem apply (hF : Finitary F) (hG : Finitary G) :
    Finitary fun X => Meaning.apply (F X) (G X) := by
  have hSeen : ∀ given : List Observation, Monotone fun X => ∀ p ∈ given, p ∈ G X :=
    fun given X Y hXY h p hp => hG.mono hXY (h p hp)
  constructor
  · rintro X Y hXY o ⟨given, hGiven, hMaps⟩
    exact ⟨given, hSeen given hXY hGiven, hF.mono hXY hMaps⟩
  · rintro X o ⟨given, hGiven, hMaps⟩
    have hArgument : X.Supports fun Y => ∀ p ∈ given, p ∈ G Y :=
      .all (fun p _ => hG.mem_mono p) fun p hp => hG.finite (hGiven hp)
    exact (hArgument.and (hSeen given) (hF.mem_mono _) (hF.finite hMaps)).imp
      fun _ h => ⟨given, h.1, h.2⟩

theorem function {F : Meaning → Meaning → Meaning} (hF : ∀ d, Finitary fun X => F X d) :
    Finitary fun X => Meaning.function (F X) := by
  constructor
  · rintro X Y hXY o ⟨given, result, rfl, hResult⟩
    exact ⟨given, result, rfl, (hF (seen given)).mono hXY hResult⟩
  · rintro X o ⟨given, result, rfl, hResult⟩
    exact ((hF (seen given)).finite hResult).imp fun _ h => ⟨given, result, rfl, h⟩

theorem fix {F : Meaning → Meaning → Meaning} (hLeft : ∀ d, Finitary fun X => F X d)
    (hRight : ∀ X, Finitary (F X)) : Finitary fun X => Meaning.fix (F X) := by
  have hMono : Monotone fun X => Meaning.fix (F X) :=
    fun X Y hXY => fix_mono fun d => (hLeft d).mono hXY
  refine ⟨hMono, ?_⟩
  intro X o ho
  -- The observations that finitely many support are closed under the map, so they are all.
  let based : Meaning := {p | X.Supports fun Y => p ∈ Meaning.fix (F Y)}
  have hBased : F X based ⊆ based := by
    intro p hp
    obtain ⟨rest, hRest, hp⟩ := (hRight X).finite hp
    have hSeen : Monotone fun Y => ∀ q ∈ rest, q ∈ Meaning.fix (F Y) :=
      fun Y Z hYZ h q hq => hMono hYZ (h q hq)
    have hPrior : X.Supports fun Y => ∀ q ∈ rest, q ∈ Meaning.fix (F Y) :=
      .all (fun q _ Y Z hYZ hq => hMono hYZ hq) fun q hq => hRest hq
    have hBoth := hPrior.and hSeen ((hLeft (seen rest)).mem_mono p)
      ((hLeft (seen rest)).finite hp)
    show X.Supports fun Y => p ∈ Meaning.fix (F Y)
    refine hBoth.imp fun Y h => ?_
    rw [← fix_unfold (hRight Y).mono]
    exact (hRight Y).mono h.1 h.2
  exact fix_le hBased ho

theorem branch (hF : Finitary F) (hG : Finitary G) (hH : Finitary H) :
    Finitary fun X => Meaning.branch (F X) (G X) (H X) := by
  constructor
  · rintro X Y hXY o (⟨hCond, ho⟩ | ⟨hCond, ho⟩)
    · exact .inl ⟨hF.mono hXY hCond, hG.mono hXY ho⟩
    · exact .inr ⟨hF.mono hXY hCond, hH.mono hXY ho⟩
  · rintro X o (⟨hCond, ho⟩ | ⟨hCond, ho⟩)
    · exact ((hF.finite hCond).and (hF.mem_mono _) (hG.mem_mono _) (hG.finite ho)).imp fun _ => .inl
    · exact ((hF.finite hCond).and (hF.mem_mono _) (hH.mem_mono _) (hH.finite ho)).imp fun _ => .inr

theorem connective (op : LogicOp) (hF : Finitary F) (hG : Finitary G) :
    Finitary fun X => Meaning.connective op (F X) (G X) := by
  cases op with
  | and => exact hF.branch hG (const _)
  | or => exact hF.branch (const _) hG

theorem operate {α : Type} (op : PrimOp) {Fs : α → Meaning → Meaning} {args : List α}
    (h : ∀ t ∈ args, Finitary (Fs t)) :
    Finitary fun X => Meaning.operate op (args.map (Fs · X)) := by
  -- That operands are data is a statement about finitely many pairs of the two.
  have hPairs : ∀ (ds : List Datum) (X : Meaning),
      List.Forall₂ (fun d m => Observation.datum d ∈ m) ds (args.map (Fs · X)) ↔
        ds.length = args.length ∧ ∀ q ∈ ds.zip args, Observation.datum q.1 ∈ Fs q.2 X := by
    intro ds X
    rw [List.forall₂_map_right_iff, List.forall₂_iff_zip, Prod.forall]
  have hMem : ∀ {ds : List Datum}, ∀ q ∈ ds.zip args, Finitary (Fs q.2) :=
    fun q hq => h q.2 (List.of_mem_zip hq).2
  constructor
  · rintro X Y hXY o ⟨ds, d, hArgs, hApply, rfl⟩
    obtain ⟨hLength, hArgs⟩ := (hPairs ds X).mp hArgs
    exact ⟨ds, d, (hPairs ds Y).mpr ⟨hLength, fun q hq => (hMem q hq).mono hXY (hArgs q hq)⟩,
      hApply, rfl⟩
  · rintro X o ⟨ds, d, hArgs, hApply, rfl⟩
    obtain ⟨hLength, hArgs⟩ := (hPairs ds X).mp hArgs
    have hAll : X.Supports fun Y => ∀ q ∈ ds.zip args, Observation.datum q.1 ∈ Fs q.2 Y :=
      .all (fun q hq => (hMem q hq).mem_mono _) fun q hq => (hMem q hq).finite (hArgs q hq)
    exact hAll.imp fun Y hY => ⟨ds, d, (hPairs ds Y).mpr ⟨hLength, hY⟩, hApply, rfl⟩

end Finitary

end StagedLambda
