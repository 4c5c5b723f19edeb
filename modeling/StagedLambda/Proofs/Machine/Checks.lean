import Mathlib.Data.List.Forall2
import StagedLambda.Machine.Step
import StagedLambda.Proofs.Machine.Division

/-!
# What the checks accept and refuse

A transition depends on a few checks: of the number and the kinds of operands, of the shift of a
splice, of the level inside or outside a construct, of the kind of a value, and of code that leaves
the scope of a binding.  For each of them this file says what an accepted argument looks like and
which fault a refused one gives.
-/

namespace StagedLambda

/-! ### What the checks accept -/

theorem Step.firstOperand_eq_ok {op : PrimOp} {args : List Term} {first : Term}
    (h : Step.firstOperand op args = .ok first) :
    args.length = op.arity ∧ ∃ rest, args = first :: rest := by
  cases args with
  | nil => simp [Step.firstOperand] at h
  | cons a rest =>
    by_cases hLength : (a :: rest).length = op.arity
    · rw [Step.firstOperand, if_pos hLength] at h
      exact ⟨hLength, rest, by rw [Except.ok.inj h]⟩
    · rw [Step.firstOperand, if_neg hLength] at h
      cases h

/-- A shift that is not negative is the same number as a word without a sign. -/
theorem toNat_toUInt64_of_nonneg {shift : Int64} (h : ¬shift < 0) :
    (shift.toUInt64.toNat : Int) = shift.toInt := by
  have hNonneg : 0 ≤ shift.toInt := by
    have := Int64.le_iff_toInt_le.mp (Int64.not_lt.mp h)
    simpa using this
  rw [Int64.toNat_toUInt64_of_le (Int64.not_lt.mp h), Int64.toNatClampNeg]
  omega

/-- A shift that the check accepts is not negative and at most the level. -/
theorem Step.stages_eq_ok {shift : Int64} {level crossed : UInt64}
    (h : Step.stages shift level = .ok crossed) :
    (crossed.toNat : Int) = shift.toInt ∧ crossed.toNat ≤ level.toNat := by
  rw [Step.stages] at h
  split at h
  · cases h
  · rename_i hNonneg
    split at h
    · cases h
    · split at h
      · cases h
      · rename_i hBelow
        obtain rfl := Except.ok.inj h
        have hLe := UInt64.not_lt.mp hBelow
        exact ⟨toNat_toUInt64_of_nonneg hNonneg, UInt64.le_iff_toNat_le.mp hLe⟩

/-- So the level is not lowered below zero. -/
theorem Step.lower_of_stages {shift : Int64} {level crossed : UInt64}
    (h : Step.stages shift level = .ok crossed) :
    Step.lower level crossed = .ok (level - crossed) := by
  rw [Step.lower, if_pos (UInt64.le_iff_toNat_le.mpr (Step.stages_eq_ok h).2)]
  rfl

theorem Step.lower_one {level : UInt64} (h : 2 ≤ level) :
    Step.lower level 1 = .ok (level - 1) := by
  rw [Step.lower, if_pos (UInt64.le_trans (by decide) h)]
  rfl

theorem Step.raise_of_lt {level stages : UInt64}
    (h : level.toNat + stages.toNat < UInt64.size) :
    Step.raise level stages = .ok (level + stages) := by
  rw [Step.raise, if_pos h]
  rfl

/-- A level that has been lowered can be raised again. -/
theorem Step.raise_sub {level stages : UInt64} (h : stages ≤ level) :
    Step.raise (level - stages) stages = .ok level := by
  have hSum : (level - stages).toNat + stages.toNat = level.toNat := by
    rw [UInt64.toNat_sub_of_le _ _ h, Nat.sub_add_cancel (UInt64.le_iff_toNat_le.mp h)]
  rw [Step.raise_of_lt (hSum ▸ level.toNat_lt), UInt64.sub_add_cancel]

/-- A level that could be raised is the exact sum. -/
theorem Step.raise_eq_ok {level stages above : UInt64}
    (h : Step.raise level stages = .ok above) :
    above = level + stages ∧ above.toNat = level.toNat + stages.toNat := by
  rw [Step.raise] at h
  split at h
  next hFits =>
    obtain rfl := Except.ok.inj h
    exact ⟨rfl, by rw [UInt64.toNat_add, Nat.mod_eq_of_lt hFits]⟩
  next => cases h

/-- A value that leaves a binding behind comes out as it was, unless it is a function, which
takes the binding along. -/
theorem Step.leave_eq_ok {id : Ident} {bound v v' : Value} (h : Step.leave id bound v = .ok v') :
    (∃ fn captured, v = .closure fn captured ∧ v' = .closure fn ((id, bound) :: captured)) ∨
      (∃ c, v = .code c ∧ v' = .code c ∧ c.occursFree id = false) ∨
      (∃ n, v = .int n ∧ v' = .int n) ∨ ∃ b, v = .bool b ∧ v' = .bool b := by
  cases v with
  | closure fn captured => exact .inl ⟨fn, captured, rfl, (Except.ok.inj h).symm⟩
  | code c =>
    by_cases hFree : c.occursFree id
    · rw [Step.leave, if_pos hFree] at h
      cases h
    · rw [Step.leave, if_neg hFree] at h
      exact .inr (.inl ⟨c, rfl, (Except.ok.inj h).symm, by simpa using hFree⟩)
  | int n => exact .inr (.inr (.inl ⟨n, rfl, (Except.ok.inj h).symm⟩))
  | bool b => exact .inr (.inr (.inr ⟨b, rfl, (Except.ok.inj h).symm⟩))

/-! ### What the checks refuse -/

theorem Step.firstOperand_eq_error {op : PrimOp} {args : List Term} {f : Fault}
    (h : Step.firstOperand op args = .error f) :
    f = .noOperands op ∨ f = .arity op args.length := by
  cases args with
  | nil => exact .inl (Except.error.inj h).symm
  | cons a rest =>
    by_cases hLength : (a :: rest).length = op.arity
    · rw [Step.firstOperand, if_pos hLength] at h
      cases h
    · rw [Step.firstOperand, if_neg hLength] at h
      exact .inr (Except.error.inj h).symm

theorem Step.stages_eq_error {shift : Int64} {level : UInt64} {f : Fault}
    (h : Step.stages shift level = .error f) :
    f = .invalidShift shift level ∨ f = .belowStageZero shift := by
  rw [Step.stages] at h
  split at h
  · exact .inl (Except.error.inj h).symm
  · split at h
    · exact .inr (Except.error.inj h).symm
    · split at h
      · exact .inl (Except.error.inj h).symm
      · cases h

/-- A level is refused only where the sum is no word. -/
theorem Step.raise_eq_error {level stages : UInt64} {f : Fault}
    (h : Step.raise level stages = .error f) :
    f = .trap .add ∧ UInt64.size ≤ level.toNat + stages.toNat := by
  rw [Step.raise] at h
  split at h
  next => cases h
  next hFits => exact ⟨(Except.error.inj h).symm, Nat.le_of_not_lt hFits⟩

theorem Step.truth_eq_error {consumer : Consumer} {v : Value} {f : Fault}
    (h : Step.truth consumer v = .error f) : f = .mismatch consumer .bool v.kind := by
  cases v with
  | bool => cases h
  | int | closure | code => exact (Except.error.inj h).symm

theorem Step.fragment_eq_error {consumer : Consumer} {v : Value} {f : Fault}
    (h : Step.fragment consumer v = .error f) : f = .mismatch consumer .code v.kind := by
  cases v with
  | code => cases h
  | int | bool | closure => exact (Except.error.inj h).symm

theorem Step.leave_eq_error {id : Ident} {bound v : Value} {f : Fault}
    (h : Step.leave id bound v = .error f) :
    f = .scopeExtrusion id ∧ ∃ c, v = .code c ∧ c.occursFree id = true := by
  cases v with
  | code c =>
    by_cases hFree : c.occursFree id
    · rw [Step.leave, if_pos hFree] at h
      exact ⟨(Except.error.inj h).symm, c, rfl, hFree⟩
    · rw [Step.leave, if_neg hFree] at h
      cases h
  | int | bool | closure => cases h

/-- Arithmetic refuses the divisor zero and results that are no word, and it never traps. -/
theorem Arithmetic.compute_eq_error {op : ArithOp} {a b : Int64} {f : Fault}
    (h : Arithmetic.compute op a b = .error f) : f = .divisionByZero op ∨ f = .overflow op := by
  have hFits : ∀ {r : Option Int64}, Arithmetic.fits op r = .error f → f = .overflow op := by
    intro r hr
    cases r with
    | some => cases hr
    | none => exact (Except.error.inj hr).symm
  cases op with
  | add | sub | mul => exact .inr (hFits h)
  | div =>
    by_cases hb : b = 0
    · rw [Arithmetic.compute, if_pos hb] at h
      exact .inl (Except.error.inj h).symm
    · rw [Arithmetic.compute, if_neg hb, Arithmetic.floorDiv?_eq hb] at h
      exact .inr (hFits h)
  | mod =>
    by_cases hb : b = 0
    · rw [Arithmetic.compute, if_pos hb] at h
      exact .inl (Except.error.inj h).symm
    · rw [Arithmetic.compute, if_neg hb, Arithmetic.floorMod_eq hb] at h
      cases h

theorem Value.isOf_int {v : Value} (h : v.isOf .int = true) : ∃ n, v = .int n := by
  cases v with
  | int n => exact ⟨n, rfl⟩
  | bool | closure | code => cases h

theorem Value.isOf_bool {v : Value} (h : v.isOf .bool = true) : ∃ b, v = .bool b := by
  cases v with
  | bool b => exact ⟨b, rfl⟩
  | int | closure | code => cases h

/-- The operands of an operator that takes two integers, once they have been checked. -/
theorem Arithmetic.eq_ints_of_misfit? {op : PrimOp} {args : List Value}
    (h : Arithmetic.misfit? op args = none) (hKinds : op.operands = [.int, .int])
    (hLength : args.length = op.arity) : ∃ a b, args = [.int a, .int b] := by
  rw [PrimOp.arity, hKinds] at hLength
  obtain ⟨v, w, rfl⟩ : ∃ v w, args = [v, w] := by
    match args, hLength with
    | [v, w], _ => exact ⟨v, w, rfl⟩
  simp only [Arithmetic.misfit?, hKinds, List.zip_cons_cons, List.zip_nil_left,
    List.find?_eq_none, List.forall_mem_cons] at h
  obtain ⟨hv, hw, -⟩ := h
  obtain ⟨a, rfl⟩ := Value.isOf_int (by simpa using hv)
  obtain ⟨b, rfl⟩ := Value.isOf_int (by simpa using hw)
  exact ⟨a, b, rfl⟩

theorem Arithmetic.eq_bool_of_misfit? {args : List Value}
    (h : Arithmetic.misfit? .negate args = none) (hLength : args.length = PrimOp.negate.arity) :
    ∃ b, args = [.bool b] := by
  obtain ⟨v, rfl⟩ := List.length_eq_one_iff.mp hLength
  simp only [Arithmetic.misfit?, PrimOp.operands, List.zip_cons_cons, List.zip_nil_left,
    List.find?_eq_none, List.forall_mem_cons] at h
  obtain ⟨b, rfl⟩ := Value.isOf_bool (by simpa using h.1)
  exact ⟨b, rfl⟩

theorem Arithmetic.apply_of_length_ne {op : PrimOp} {args : List Value}
    (h : Arithmetic.misfit? op args = none) (hLength : args.length ≠ op.arity) :
    Arithmetic.apply op args = .error (.impossible .operandCount) := by
  unfold Arithmetic.apply
  rw [h]
  dsimp only
  split <;> simp_all [PrimOp.arity, PrimOp.operands]

/-- A primitive refuses an operand of the wrong kind or a result that it cannot give. With the
declared number of operands nothing else can happen. -/
theorem Arithmetic.apply_eq_error {op : PrimOp} {args : List Value} {f : Fault}
    (h : Arithmetic.apply op args = .error f) :
    (∃ expected found, f = .mismatch (.primitive op) expected found) ∨
      (∃ o, f = .divisionByZero o ∨ f = .overflow o) ∨
      f = .impossible .operandCount ∧ args.length ≠ op.arity := by
  cases hMisfit : Arithmetic.misfit? op args with
  | some misfit =>
    unfold Arithmetic.apply at h
    rw [hMisfit] at h
    exact .inl ⟨_, _, (Except.error.inj h).symm⟩
  | none =>
    right
    by_cases hLength : args.length = op.arity
    · left
      cases op with
      | negate =>
        obtain ⟨b, rfl⟩ := Arithmetic.eq_bool_of_misfit? hMisfit hLength
        rw [Arithmetic.apply, hMisfit] at h
        cases h
      | compare op =>
        obtain ⟨a, b, rfl⟩ := Arithmetic.eq_ints_of_misfit? hMisfit rfl hLength
        rw [Arithmetic.apply, hMisfit] at h
        cases h
      | arith op =>
        obtain ⟨a, b, rfl⟩ := Arithmetic.eq_ints_of_misfit? hMisfit rfl hLength
        rw [Arithmetic.apply, hMisfit] at h
        cases hCompute : Arithmetic.compute op a b with
        | ok n =>
          simp only [hCompute] at h
          cases h
        | error f' =>
          simp only [hCompute] at h
          obtain rfl : f' = f := Except.error.inj h
          exact ⟨op, Arithmetic.compute_eq_error hCompute⟩
    · rw [Arithmetic.apply_of_length_ne hMisfit hLength] at h
      exact .inr ⟨(Except.error.inj h).symm, hLength⟩

theorem Arithmetic.apply_eq_ok {op : PrimOp} {args : List Value} {v : Value}
    (h : Arithmetic.apply op args = .ok v) : (∃ n, v = .int n) ∨ ∃ b, v = .bool b := by
  have hInt : ∀ {r : Except Fault Int64}, r.map Value.int = .ok v → ∃ n, v = .int n := by
    intro r hr
    cases r with
    | ok n => exact ⟨n, (Except.ok.inj hr).symm⟩
    | error => cases hr
  unfold Arithmetic.apply at h
  split at h
  · cases h
  · split at h
    · exact .inr ⟨_, (Except.ok.inj h).symm⟩
    · exact .inl (hInt h)
    · exact .inr ⟨_, (Except.ok.inj h).symm⟩
    · cases h

/-! ### Operands that a primitive cannot tell apart -/

/-- Values of one kind that are the same if they are numbers or truth values. -/
def Value.Tallies (v w : Value) : Prop :=
  v.kind = w.kind ∧ ∀ kind : BaseKind, v.isOf kind = true → w = v

namespace Arithmetic

variable {op : PrimOp} {vs ws : List Value}

/-- The operands are of the right kind at the same places. -/
theorem misfit?_congr (h : List.Forall₂ Value.Tallies vs ws) (op : PrimOp) :
    (misfit? op vs).map (fun m => (m.1, m.2.kind)) =
      (misfit? op ws).map fun m => (m.1, m.2.kind) := by
  rw [misfit?, misfit?]
  generalize op.operands = kinds
  induction h generalizing kinds with
  | nil => rfl
  | @cons v w vs ws hvw _ ih =>
    cases kinds with
    | nil => rfl
    | cons kind kinds =>
      have hKind : w.isOf kind = v.isOf kind := by rw [Value.isOf, Value.isOf, hvw.1]
      simp only [List.zip_cons_cons, List.find?_cons, hKind]
      cases v.isOf kind with
      | true => exact ih kinds
      | false => simp [hvw.1]

/-- Operands that have been checked are numbers and truth values. -/
theorem take_eq_of_misfit? (h : List.Forall₂ Value.Tallies vs ws)
    (hFit : misfit? op vs = none) : ws.take op.arity = vs.take op.arity := by
  rw [misfit?] at hFit
  rw [PrimOp.arity]
  generalize op.operands = kinds at hFit
  induction h generalizing kinds with
  | nil => rfl
  | @cons v w vs ws hvw _ ih =>
    cases kinds with
    | nil => rfl
    | cons kind kinds =>
      simp only [List.zip_cons_cons, List.find?_eq_none, List.forall_mem_cons] at hFit
      have hRest := ih kinds (List.find?_eq_none.mpr hFit.2)
      have hHere : v.isOf kind = true := by simpa using hFit.1
      simp only [List.length_cons, List.take_succ_cons, hRest, hvw.2 kind hHere]

/-- **A primitive does the same to operands that tally.** -/
theorem apply_congr (h : List.Forall₂ Value.Tallies vs ws) (op : PrimOp) :
    apply op ws = apply op vs := by
  have hMisfit := misfit?_congr h op
  cases hv : misfit? op vs with
  | some m =>
    rw [hv] at hMisfit
    obtain ⟨m', hw, hSame⟩ := Option.map_eq_some_iff.mp hMisfit.symm
    unfold apply
    rw [hv, hw]
    simp only [Prod.mk.injEq] at hSame
    simp only [hSame]
  | none =>
    have hw : misfit? op ws = none := by
      rw [hv] at hMisfit
      exact Option.map_eq_none_iff.mp hMisfit.symm
    by_cases hLength : vs.length = op.arity
    · have hTake := take_eq_of_misfit? h hv
      rw [← hLength, List.take_length, h.length_eq, List.take_length] at hTake
      rw [hTake]
    · rw [apply_of_length_ne hv hLength, apply_of_length_ne hw (h.length_eq ▸ hLength)]

end Arithmetic

end StagedLambda
