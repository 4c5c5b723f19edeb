import Mathlib.Algebra.Group.Int.Defs
import StagedLambda.Machine.Arithmetic

/-!
# Division of words never traps

The quotient and the remainder that round down are corrected from those that cut toward zero, and
on the way two differences and sums are computed that nothing checks.  The remainder is smaller
than the divisor and a quotient that is corrected is at most half of the dividend, so all of these
are words: for a divisor other than zero both functions come to an answer.

* `Arithmetic.floorDiv?_eq`, `Arithmetic.floorMod_eq`: the answers.
-/

namespace StagedLambda.Arithmetic

/-! ### Words -/

/-- The integers that a word can hold. -/
def IsWord (n : Int) : Prop := -2 ^ 63 ≤ n ∧ n < 2 ^ 63

instance : DecidablePred IsWord := fun n =>
  inferInstanceAs (Decidable (-2 ^ 63 ≤ n ∧ n < 2 ^ 63))

theorem isWord_toInt (a : Int64) : IsWord a.toInt := ⟨a.le_toInt, a.toInt_lt⟩

/-- A word operation overflows when the exact result is out of range. -/
theorem not_isWord_of_overflow {n : Int}
    (h : (decide (n ≥ 2 ^ (64 - 1)) || decide (n < -2 ^ (64 - 1))) = true) : ¬IsWord n := by
  rw [Bool.or_eq_true, decide_eq_true_iff, decide_eq_true_iff] at h
  rw [IsWord]
  omega

theorem toInt_minValue : Int64.minValue.toInt = -2 ^ 63 := by decide

theorem toInt_zero : (0 : Int64).toInt = 0 := by decide

theorem toInt_one : (1 : Int64).toInt = 1 := by decide

theorem toInt_minus_one : (-1 : Int64).toInt = -1 := by decide

theorem toInt_ne_zero {a : Int64} (h : a ≠ 0) : a.toInt ≠ 0 := by
  rwa [← toInt_zero, Ne, Int64.toInt_inj]

theorem neg_iff_toInt_neg {a : Int64} : a < 0 ↔ a.toInt < 0 := by
  rw [Int64.lt_iff_toInt_lt, toInt_zero]

/-! ### Cutting toward zero -/

/-- What is left when the quotient is cut toward zero has the sign of the dividend. -/
theorem tmod_between (a : Int) {b : Int} (hb : b ≠ 0) :
    (a.tmod b).natAbs < b.natAbs ∧ (0 ≤ a → 0 ≤ a.tmod b) ∧ (a < 0 → a.tmod b ≤ 0) := by
  refine ⟨?_, Int.tmod_nonneg b, fun ha => ?_⟩
  · rw [Int.natAbs_tmod]
    exact Nat.mod_lt _ (Int.natAbs_pos.mpr hb)
  · have hOpposite := Int.tmod_nonneg b (Int.neg_nonneg_of_nonpos (Int.le_of_lt ha))
    rw [Int.neg_tmod] at hOpposite
    omega

/-- A divisor other than one and minus one halves at least. -/
theorem natAbs_tdiv_le (a : Int) {b : Int} (hb : 2 ≤ b.natAbs) :
    (a.tdiv b).natAbs ≤ a.natAbs / 2 := by
  rw [Int.natAbs_tdiv]
  exact Nat.div_le_div_left hb Nat.two_pos

section

variable {a b : Int64}

/-- The quotient cut toward zero is a word but in one case. -/
theorem isWord_tdiv_iff (hb : b ≠ 0) :
    IsWord (a.toInt.tdiv b.toInt) ↔ ¬(a = Int64.minValue ∧ b = -1) := by
  rw [← Int64.toInt_inj (y := Int64.minValue), ← Int64.toInt_inj (y := -1), toInt_minValue,
    toInt_minus_one]
  have hb := toInt_ne_zero hb
  obtain ⟨hLow, hHigh⟩ := isWord_toInt a
  by_cases hOne : b.toInt.natAbs = 1
  · rcases Int.natAbs_eq_natAbs_iff (b := 1) |>.mp hOne with h | h
    · rw [h, Int.tdiv_one, IsWord]
      omega
    · rw [h, Int.tdiv_neg, Int.tdiv_one, IsWord]
      omega
  · have hHalf := natAbs_tdiv_le a.toInt (b := b.toInt) (by omega)
    rw [IsWord]
    omega

theorem toInt_div (hb : b ≠ 0) (hFits : ¬(a = Int64.minValue ∧ b = -1)) :
    (a / b).toInt = a.toInt.tdiv b.toInt := by
  obtain ⟨hLow, hHigh⟩ := (isWord_tdiv_iff hb).mpr hFits
  rw [Int64.toInt_div]
  exact Int.bmod_eq_of_le (by omega) (by omega)

/-! ### Partial operations with a result -/

theorem add?_of_isWord (h : IsWord (a.toInt + b.toInt)) : add? a b = some (a + b) :=
  if_neg fun hOverflow => not_isWord_of_overflow hOverflow h

theorem sub?_of_isWord (h : IsWord (a.toInt - b.toInt)) : sub? a b = some (a - b) :=
  if_neg fun hOverflow => not_isWord_of_overflow hOverflow h

theorem div?_of_fits (hb : b ≠ 0) (hFits : ¬(a = Int64.minValue ∧ b = -1)) :
    div? a b = some (a / b) := if_neg (not_or.mpr ⟨hb, hFits⟩)

theorem rem?_of_fits (hb : b ≠ 0) (hFits : ¬(a = Int64.minValue ∧ b = -1)) :
    rem? a b = some (a % b) := if_neg (not_or.mpr ⟨hb, hFits⟩)

/-- The remainder that is refused would be zero. -/
theorem rem?_getD (hb : b ≠ 0) : (rem? a b).getD 0 = a % b := by
  by_cases hFits : a = Int64.minValue ∧ b = -1
  · obtain ⟨rfl, rfl⟩ := hFits
    decide
  · rw [rem?_of_fits hb hFits, Option.getD_some]

/-- A quotient that is lowered is not exact, so it is far from the least integer. -/
theorem sub?_quotient (hb : b ≠ 0) (hFits : ¬(a = Int64.minValue ∧ b = -1)) (h : a % b ≠ 0) :
    sub? (a / b) 1 = some (a / b - 1) := by
  obtain ⟨hSmall, -, -⟩ := tmod_between a.toInt (toInt_ne_zero hb)
  have hRest := toInt_ne_zero h
  rw [Int64.toInt_mod] at hRest
  have hHalf := natAbs_tdiv_le a.toInt (b := b.toInt) (by omega)
  obtain ⟨hLow, hHigh⟩ := isWord_toInt a
  refine sub?_of_isWord ?_
  rw [toInt_div hb hFits, toInt_one, IsWord]
  omega

/-- Adding the divisor to a remainder of the other sign stays between the two. -/
theorem add?_remainder (hb : b ≠ 0) (h : ¬(a % b < 0 ↔ b < 0)) :
    add? (a % b) b = some (a % b + b) := by
  rw [neg_iff_toInt_neg, neg_iff_toInt_neg] at h
  obtain ⟨hSmall, -, -⟩ := tmod_between a.toInt (toInt_ne_zero hb)
  rw [← Int64.toInt_mod] at hSmall
  obtain ⟨hLow, hHigh⟩ := isWord_toInt b
  refine add?_of_isWord ?_
  rw [IsWord]
  omega

/-! ### Rounding down -/

/-- **The quotient rounded down.**  It is refused where the quotient cut toward zero is no word,
and nothing else goes wrong. -/
theorem floorDiv?_eq (hb : b ≠ 0) :
    floorDiv? a b = .ok (if a = Int64.minValue ∧ b = -1 then none
      else if a % b ≠ 0 ∧ ¬(a < 0 ↔ b < 0) then some (a / b - 1) else some (a / b)) := by
  by_cases hFits : a = Int64.minValue ∧ b = -1
  · have hRefused : div? a b = none := if_pos (.inr hFits)
    rw [floorDiv?, hRefused, if_pos hFits]
    rfl
  · have hOpen : floorDiv? a b = if a % b ≠ 0 ∧ ¬(a < 0 ↔ b < 0) then
        (do return some (← Trap.sub.guard (sub? (a / b) 1))) else return some (a / b) := by
      rw [floorDiv?, div?_of_fits hb hFits, rem?_of_fits hb hFits]
      rfl
    rw [hOpen, if_neg hFits]
    by_cases hLowered : a % b ≠ 0 ∧ ¬(a < 0 ↔ b < 0)
    · rw [if_pos hLowered, if_pos hLowered, sub?_quotient hb hFits hLowered.1]
      rfl
    · rw [if_neg hLowered, if_neg hLowered]
      rfl

/-- **The remainder that goes with it.**  There always is one. -/
theorem floorMod_eq (hb : b ≠ 0) :
    floorMod a b =
      .ok (if a % b ≠ 0 ∧ ¬(a % b < 0 ↔ b < 0) then a % b + b else a % b) := by
  rw [floorMod, rem?_getD hb]
  by_cases hRaised : a % b ≠ 0 ∧ ¬(a % b < 0 ↔ b < 0)
  · rw [if_pos hRaised, if_pos hRaised, add?_remainder hb hRaised.2]
    rfl
  · rw [if_neg hRaised, if_neg hRaised]

end

end StagedLambda.Arithmetic
