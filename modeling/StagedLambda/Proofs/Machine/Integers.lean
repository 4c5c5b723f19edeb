import Mathlib.Data.Rat.Floor
import StagedLambda.Proofs.Machine.Checks

/-!
# Exact arithmetic

What the primitives compute on words, told in terms of integers without bounds.  Addition,
subtraction and multiplication are exact or overflow.  Division is the quotient rounded down: the
machine's own division cuts toward zero, and the correction of its quotient and of its remainder
is the same step (`floorDivides_corrected`), so one description serves for both.  On the way
nothing is computed that is no word (`StaysInWords`).

* `Arithmetic.FloorDivides`: quotient and remainder of a division that rounds down.
* `Arithmetic.apply_exact`: kinds are checked in order, and the results are exact.
-/

namespace StagedLambda.Arithmetic

/-! ### Words -/

/-- A result that is the integer `n` if a word can hold it, and an overflow if not. -/
inductive Checked (op : ArithOp) (n : Int) : Except Fault Value → Prop
  | word {m : Int64} (h : m.toInt = n) : Checked op n (.ok (.int m))
  | overflow (h : ¬IsWord n) : Checked op n (.error (.overflow op))

section

variable {op : ArithOp} {n : Int} {m : Int64}

/-- A word that is only given when its test for overflow fails. -/
theorem checked_unless {overflows : Bool} (hExact : ¬overflows = true → m.toInt = n)
    (hOverflow : overflows = true → ¬IsWord n) :
    Checked op n ((fits op (if overflows then none else some m)).map .int) := by
  cases overflows with
  | false => exact .word (hExact Bool.false_ne_true)
  | true => exact .overflow (hOverflow rfl)

end

/-! ### Rounding down -/

/-- Dividing `a` by `b` gives `q` and leaves `r`, which is zero or of the sign of `b`, and smaller
than `b`. -/
structure FloorDivides (a b q r : Int) : Prop where
  eq : a = b * q + r
  between : 0 ≤ r ∧ r < b ∨ b < r ∧ r ≤ 0

theorem FloorDivides.floor_eq {a b q r : Int} (h : FloorDivides a b q r) :
    ⌊(a / b : ℚ)⌋ = q := by
  obtain ⟨hEq, hBetween⟩ := h
  have hb : (b : ℚ) ≠ 0 := by
    rw [Int.cast_ne_zero]
    omega
  have hSplit : (a / b : ℚ) = q + r / b := by
    rw [hEq]
    push_cast
    field_simp
  rw [Int.floor_eq_iff, hSplit]
  rcases hBetween with ⟨hr, hrb⟩ | ⟨hrb, hr⟩
  · have hPos : (0 : ℚ) < b := by exact_mod_cast hr.trans_lt hrb
    have hLow : (0 : ℚ) ≤ r / b := div_nonneg (by exact_mod_cast hr) hPos.le
    have hHigh : (r / b : ℚ) < 1 := (div_lt_one hPos).mpr (by exact_mod_cast hrb)
    exact ⟨by linarith, by linarith⟩
  · have hNeg : (b : ℚ) < 0 := by exact_mod_cast hrb.trans_le hr
    have hLow : (0 : ℚ) ≤ r / b := div_nonneg_of_nonpos (by exact_mod_cast hr) hNeg.le
    have hHigh : (r / b : ℚ) < 1 := (div_lt_one_of_neg hNeg).mpr (by exact_mod_cast hrb)
    exact ⟨by linarith, by linarith⟩

/-- **The correction of a quotient that is cut toward zero.**  The quotient goes down by one
exactly when the remainder goes up by the divisor. -/
theorem floorDivides_corrected (a : Int) {b : Int} (hb : b ≠ 0) :
    FloorDivides a b
      (if a.tmod b ≠ 0 ∧ ¬(a < 0 ↔ b < 0) then a.tdiv b - 1 else a.tdiv b)
      (if a.tmod b ≠ 0 ∧ ¬(a.tmod b < 0 ↔ b < 0) then a.tmod b + b else a.tmod b) := by
  obtain ⟨hSmall, hNonneg, hNonpos⟩ := tmod_between a hb
  have hCut : a = b * a.tdiv b + a.tmod b := (Int.mul_tdiv_add_tmod a b).symm
  by_cases hLowered : a.tmod b ≠ 0 ∧ ¬(a < 0 ↔ b < 0)
  · have hRaised : a.tmod b ≠ 0 ∧ ¬(a.tmod b < 0 ↔ b < 0) := by omega
    rw [if_pos hLowered, if_pos hRaised]
    exact ⟨by rw [Int.mul_sub, Int.mul_one]; omega, by omega⟩
  · have hKept : ¬(a.tmod b ≠ 0 ∧ ¬(a.tmod b < 0 ↔ b < 0)) := by omega
    rw [if_neg hLowered, if_neg hKept]
    exact ⟨hCut, by omega⟩

/-! ### Division of words -/

section

variable {a b : Int64}

theorem toInt_of_add? {n : Int64} (h : add? a b = some n) : n.toInt = a.toInt + b.toInt := by
  obtain ⟨hFits, hSum⟩ := Option.ite_none_left_eq_some.mp h
  obtain rfl := Option.some.inj hSum
  exact BitVec.toInt_add_of_not_saddOverflow hFits

theorem toInt_of_sub? {n : Int64} (h : sub? a b = some n) : n.toInt = a.toInt - b.toInt := by
  obtain ⟨hFits, hDifference⟩ := Option.ite_none_left_eq_some.mp h
  obtain rfl := Option.some.inj hDifference
  exact BitVec.toInt_sub_of_not_ssubOverflow hFits

/-- Words are corrected when the integers are, by the sign of the dividend or of the remainder. -/
theorem corrects_iff (c : Int64) :
    a % b ≠ 0 ∧ ¬(c < 0 ↔ b < 0) ↔
      a.toInt.tmod b.toInt ≠ 0 ∧ ¬(c.toInt < 0 ↔ b.toInt < 0) := by
  rw [Ne, ← Int64.toInt_inj, toInt_zero, neg_iff_toInt_neg, neg_iff_toInt_neg, Int64.toInt_mod]

/-- The remainder of words that goes with the quotient rounded down. -/
theorem floorDivides_floorMod (hb : b ≠ 0) :
    ∃ r : Int64, floorMod a b = .ok r ∧
      FloorDivides a.toInt b.toInt ⌊(a.toInt / b.toInt : ℚ)⌋ r.toInt := by
  refine ⟨_, floorMod_eq hb, ?_⟩
  have hCorrected := floorDivides_corrected a.toInt (toInt_ne_zero hb)
  have hRaises := corrects_iff (a := a) (b := b) (a % b)
  rw [Int64.toInt_mod] at hRaises
  rw [hCorrected.floor_eq]
  by_cases hRaised : a % b ≠ 0 ∧ ¬(a % b < 0 ↔ b < 0)
  · rw [if_pos (hRaises.mp hRaised)] at hCorrected
    rw [if_pos hRaised, toInt_of_add? (add?_remainder hb hRaised.2), Int64.toInt_mod]
    exact hCorrected
  · rw [if_neg (hRaises.not.mp hRaised)] at hCorrected
    rw [if_neg hRaised, Int64.toInt_mod]
    exact hCorrected

/-- Division is refused in the one case in which even the quotient cut toward zero is no word. -/
theorem checked_div (hb : b ≠ 0) :
    Checked .div ⌊(a.toInt / b.toInt : ℚ)⌋ ((floorDiv? a b >>= fits .div).map .int) := by
  have hFloor := (floorDivides_corrected a.toInt (toInt_ne_zero hb)).floor_eq
  rw [hFloor, floorDiv?_eq hb]
  by_cases hLeast : a = Int64.minValue ∧ b = -1
  · rw [if_pos hLeast]
    obtain ⟨rfl, rfl⟩ := hLeast
    exact .overflow (by decide)
  · rw [if_neg hLeast]
    by_cases hLowered : a % b ≠ 0 ∧ ¬(a < 0 ↔ b < 0)
    · rw [if_pos hLowered, if_pos ((corrects_iff a).mp hLowered)]
      refine .word ?_
      rw [toInt_of_sub? (sub?_quotient hb hLeast hLowered.1), toInt_div hb hLeast, toInt_one]
    · rw [if_neg hLowered, if_neg ((corrects_iff a).not.mp hLowered)]
      exact .word (toInt_div hb hLeast)

end

/-! ### Operands -/

/-- The operand in a place, if the operator takes one there and there is one, is of the declared
kind. -/
def Suits (op : PrimOp) (args : List Value) (i : Nat) : Prop :=
  ∀ kind ∈ op.operands[i]?, ∀ v ∈ args[i]?, v.kind = kind.toKind

section

variable {op : PrimOp} {args : List Value}

/-- What a place of the operands paired with their declared kinds holds. -/
theorem suits_iff {i : Nat} {p : BaseKind × Value}
    (h : (op.operands.zip args)[i]? = some p) : Suits op args i ↔ p.2.isOf p.1 = true := by
  obtain ⟨hKind, hValue⟩ := List.getElem?_zip_eq_some.mp h
  simp [Suits, hKind, hValue, Value.isOf]

/-- **The first operand of the wrong kind is found.** -/
theorem misfit?_eq_some {i : Nat} {kind : BaseKind} {v : Value}
    (hKind : op.operands[i]? = some kind) (hValue : args[i]? = some v)
    (hMisfit : v.kind ≠ kind.toKind) (hBefore : ∀ j < i, Suits op args j) :
    misfit? op args = some (kind, v) := by
  have hPlace : (op.operands.zip args)[i]? = some (kind, v) :=
    List.getElem?_zip_eq_some.mpr ⟨hKind, hValue⟩
  obtain ⟨hLength, hPair⟩ := List.getElem?_eq_some_iff.mp hPlace
  refine List.find?_eq_some_iff_getElem.mpr ⟨by simp [Value.isOf, hMisfit], i, hLength, hPair, ?_⟩
  intro j hj
  have hSuits := (suits_iff (List.getElem?_eq_getElem (hj.trans hLength))).mp (hBefore j hj)
  rw [hSuits]
  rfl

theorem misfit?_eq_none (h : ∀ i, Suits op args i) : misfit? op args = none := by
  refine List.find?_eq_none.mpr fun p hp => ?_
  obtain ⟨i, hPlace⟩ := List.mem_iff_getElem?.mp hp
  rw [(suits_iff hPlace).mp (h i)]
  exact Bool.false_ne_true

end

theorem apply_ints (op : ArithOp) (a b : Int64) :
    apply (.arith op) [.int a, .int b] = (compute op a b).map .int := rfl

/-- The operands that an operator gets past the check of their kinds: a truth value for negation,
and two integers for every other operator. -/
theorem operands_of_suits {op : PrimOp} {args : List Value} (hLength : args.length = op.arity)
    (h : ∀ i, Suits op args i) :
    op = .negate ∧ (∃ b, args = [.bool b]) ∨ op ≠ .negate ∧ ∃ a b, args = [.int a, .int b] := by
  have hMisfit := misfit?_eq_none h
  cases op with
  | negate => exact .inl ⟨rfl, eq_bool_of_misfit? hMisfit hLength⟩
  | arith | compare => exact .inr ⟨nofun, eq_ints_of_misfit? hMisfit rfl hLength⟩

/-! ### Results -/

/-- Division by a divisor other than zero, with the quotient rounded down. -/
structure DividesExactly (a b : Int64) : Prop where
  quotient : Checked .div ⌊(a.toInt / b.toInt : ℚ)⌋ (apply (.arith .div) [.int a, .int b])
  /-- There is one quotient that is not a word. -/
  refused_iff : apply (.arith .div) [.int a, .int b] = .error (.overflow .div) ↔
    a = Int64.minValue ∧ b = -1
  /-- There always is a remainder, and it is on the side of the divisor. -/
  remainder : ∃ r : Int64, apply (.arith .mod) [.int a, .int b] = .ok (.int r) ∧
    r.toInt = a.toInt - b.toInt * ⌊(a.toInt / b.toInt : ℚ)⌋ ∧
    (r.toInt = 0 ∨ (r.toInt < 0 ↔ b.toInt < 0)) ∧ |r.toInt| < |b.toInt|

/-- What is computed on the way to a quotient and a remainder, where it is computed, is a word,
and the two corrections are exact.  Nothing checks the operations named here before they are made,
other than the test of the quotient in front of `rest`. -/
structure StaysInWords (a b : Int64) : Prop where
  /-- Once there is a quotient cut toward zero, there is a remainder. -/
  rest : ∀ q, div? a b = some q →
    ∃ r, rem? a b = some r ∧ r.toInt = a.toInt.tmod b.toInt
  lowered : ∀ q r, div? a b = some q → rem? a b = some r → r ≠ 0 → ¬(a < 0 ↔ b < 0) →
    ∃ n, sub? q 1 = some n ∧ n.toInt = q.toInt - 1
  raised : ∀ r, (rem? a b).getD 0 = r → r ≠ 0 → ¬(r < 0 ↔ b < 0) →
    ∃ n, add? r b = some n ∧ n.toInt = r.toInt + b.toInt
  /-- So the two functions never trap. -/
  divides : ∃ q?, floorDiv? a b = .ok q?
  leaves : ∃ r, floorMod a b = .ok r

section

variable {a b : Int64}

theorem div?_eq_some {q : Int64} (h : div? a b = some q) :
    b ≠ 0 ∧ ¬(a = Int64.minValue ∧ b = -1) ∧ a / b = q := by
  obtain ⟨hFits, hQuotient⟩ := Option.ite_none_left_eq_some.mp h
  obtain ⟨hb, hLeast⟩ := not_or.mp hFits
  exact ⟨hb, hLeast, Option.some.inj hQuotient⟩

theorem staysInWords (hb : b ≠ 0) : StaysInWords a b where
  rest q hQuotient := by
    obtain ⟨-, hFits, -⟩ := div?_eq_some hQuotient
    exact ⟨a % b, rem?_of_fits hb hFits, Int64.toInt_mod a b⟩
  lowered q r hQuotient hRest hr _ := by
    obtain ⟨-, hFits, rfl⟩ := div?_eq_some hQuotient
    obtain rfl := Option.some.inj ((rem?_of_fits hb hFits).symm.trans hRest)
    have hLowered := sub?_quotient hb hFits hr
    exact ⟨_, hLowered, toInt_of_sub? hLowered⟩
  raised r hRest _ hSigns := by
    obtain rfl := (rem?_getD hb).symm.trans hRest
    have hRaised := add?_remainder hb hSigns
    exact ⟨_, hRaised, toInt_of_add? hRaised⟩
  divides := ⟨_, floorDiv?_eq hb⟩
  leaves := ⟨_, floorMod_eq hb⟩

theorem dividesExactly (hb : b ≠ 0) : DividesExactly a b := by
  have hDiv : apply (.arith .div) [.int a, .int b] =
      (floorDiv? a b >>= fits .div).map .int := by
    rw [apply_ints, compute, if_neg hb]
  obtain ⟨r, hr, hEq, hBetween⟩ := floorDivides_floorMod (a := a) hb
  have hMod : apply (.arith .mod) [.int a, .int b] = .ok (.int r) := by
    rw [apply_ints, compute, if_neg hb, hr]
    rfl
  refine ⟨hDiv ▸ checked_div hb, ?_, r, hMod, by omega, by omega, ?_⟩
  · rw [hDiv, floorDiv?_eq hb]
    by_cases hLeast : a = Int64.minValue ∧ b = -1
    · rw [if_pos hLeast]
      exact iff_of_true rfl hLeast
    · rw [if_neg hLeast]
      refine iff_of_false (fun hRefused => ?_) hLeast
      split at hRefused <;> cases hRefused
  · rw [Int.abs_eq_natAbs, Int.abs_eq_natAbs]
    omega

end

/-- **Primitive arithmetic is exact.**  With as many operands as it takes, a primitive refuses the
first operand that is not of the declared kind, if there is one.  On integers, sums, differences
and products are exact or overflow; a division is refused for the divisor zero only, and else its
quotient is rounded down and its remainder goes with the quotient.  No operand makes a primitive
trap: what is computed on the way to a quotient or a remainder is a word. -/
theorem apply_exact :
    (∀ (op : PrimOp) (args : List Value), args.length = op.arity →
      (∀ i kind v, op.operands[i]? = some kind → args[i]? = some v → v.kind ≠ kind.toKind →
        (∀ j < i, Suits op args j) →
        apply op args = .error (.mismatch (.primitive op) kind.toKind v.kind)) ∧
      ((∀ i, Suits op args i) →
        op = .negate ∧ (∃ b, args = [.bool b]) ∨
        op ≠ .negate ∧ ∃ a b, args = [.int a, .int b])) ∧
    (∀ op args trap, apply op args ≠ .error (.trap trap)) ∧
    ∀ a b : Int64,
      Checked .add (a.toInt + b.toInt) (apply (.arith .add) [.int a, .int b]) ∧
      Checked .sub (a.toInt - b.toInt) (apply (.arith .sub) [.int a, .int b]) ∧
      Checked .mul (a.toInt * b.toInt) (apply (.arith .mul) [.int a, .int b]) ∧
      (∀ op ∈ [ArithOp.div, .mod],
        apply (.arith op) [.int a, .int b] = .error (.divisionByZero op) ↔ b = 0) ∧
      (b ≠ 0 → DividesExactly a b ∧ StaysInWords a b) := by
  refine ⟨fun op args hLength => ⟨?_, operands_of_suits hLength⟩, fun op args trap hTrap => ?_,
    fun a b => ⟨?_, ?_, ?_, ?_, ?_⟩⟩
  · intro i kind v hKind hValue hMisfit hBefore
    unfold apply
    rw [misfit?_eq_some hKind hValue hMisfit hBefore]
  · rcases apply_eq_error hTrap with ⟨_, _, h⟩ | ⟨_, h | h⟩ | ⟨h, -⟩ <;> cases h
  · exact checked_unless BitVec.toInt_add_of_not_saddOverflow not_isWord_of_overflow
  · exact checked_unless BitVec.toInt_sub_of_not_ssubOverflow not_isWord_of_overflow
  · exact checked_unless BitVec.toInt_mul_of_not_smulOverflow not_isWord_of_overflow
  · intro op hOp
    simp only [List.mem_cons, List.not_mem_nil, or_false] at hOp
    by_cases hb : b = 0
    · rcases hOp with rfl | rfl <;> simp [apply_ints, compute, hb, Except.map]
    · refine iff_of_false (fun hZero => ?_) hb
      rcases hOp with rfl | rfl
      · cases hZero ▸ (dividesExactly hb).quotient
      · obtain ⟨r, hr, -⟩ := (dividesExactly (a := a) hb).remainder
        cases hr.symm.trans hZero
  · exact fun hb => ⟨dividesExactly hb, staysInWords hb⟩

/-- The one quotient that is no word and its remainder, and operands of which only the second is of
the wrong kind. -/
theorem apply_exact_corners :
    (apply (.arith .div) [.int Int64.minValue, .int (-1)] = .error (.overflow .div) ∧
      ∃ r : Int64, apply (.arith .mod) [.int Int64.minValue, .int (-1)] = .ok (.int r) ∧
        |r.toInt| < |(-1 : Int64).toInt|) ∧
    apply (.arith .add) [.int 1, .bool true] =
      .error (.mismatch (.primitive (.arith .add)) .int .bool) := by
  obtain ⟨hOperands, -, hWords⟩ := apply_exact
  have hExact := ((hWords Int64.minValue (-1)).2.2.2.2 (by decide)).1
  obtain ⟨r, hMod, -, -, hSmall⟩ := hExact.remainder
  refine ⟨⟨hExact.refused_iff.mpr ⟨rfl, rfl⟩, r, hMod, hSmall⟩, ?_⟩
  refine (hOperands (.arith .add) [.int 1, .bool true] rfl).1 1 .int (.bool true) rfl rfl nofun ?_
  intro j hj
  obtain rfl : j = 0 := by omega
  rintro kind ⟨⟩ v ⟨⟩
  rfl

end StagedLambda.Arithmetic
