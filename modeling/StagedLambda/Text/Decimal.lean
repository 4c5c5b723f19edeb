/-!
# Decimal numerals

Whole numbers are written in base ten, most significant digit first and without leading zeros;
a run of digits reads back as its value. `value_digits` says that reading undoes writing.
-/

namespace StagedLambda.Decimal

/-- The character that stands for a number below ten. -/
def digit (n : Nat) : Char := Char.ofNat (48 + n)

/-- The numeral of `n`, most significant digit first. -/
def digits (n : Nat) : List Char :=
  if n < 10 then [digit n] else digits (n / 10) ++ [digit (n % 10)]
termination_by n

/-- The number that a run of digits stands for; leading zeros count for nothing. -/
def value (cs : List Char) : Nat :=
  cs.foldl (fun total c => 10 * total + (c.toNat - 48)) 0

def ofNat (n : Nat) : String := String.ofList (digits n)

/-- A negative number is its magnitude after a minus sign. -/
def ofInt : Int → String
  | .ofNat n => ofNat n
  | .negSucc n => "-" ++ ofNat (n + 1)

theorem digits_of_lt {n : Nat} (h : n < 10) : digits n = [digit n] := by
  rw [digits, if_pos h]

theorem digits_of_ge {n : Nat} (h : 10 ≤ n) :
    digits n = digits (n / 10) ++ [digit (n % 10)] := by
  rw [digits, if_neg (by omega)]

theorem toNat_digit {n : Nat} (h : n < 10) : (digit n).toNat = 48 + n := by
  have : n = 0 ∨ n = 1 ∨ n = 2 ∨ n = 3 ∨ n = 4 ∨ n = 5 ∨ n = 6 ∨ n = 7 ∨ n = 8 ∨ n = 9 := by omega
  rcases this with rfl | rfl | rfl | rfl | rfl | rfl | rfl | rfl | rfl | rfl <;> rfl

theorem isDigit_digit {n : Nat} (h : n < 10) : (digit n).isDigit = true := by
  have : n = 0 ∨ n = 1 ∨ n = 2 ∨ n = 3 ∨ n = 4 ∨ n = 5 ∨ n = 6 ∨ n = 7 ∨ n = 8 ∨ n = 9 := by omega
  rcases this with rfl | rfl | rfl | rfl | rfl | rfl | rfl | rfl | rfl | rfl <;> rfl

theorem value_append_digit (cs : List Char) {n : Nat} (h : n < 10) :
    value (cs ++ [digit n]) = 10 * value cs + n := by
  simp [value, toNat_digit h]

theorem value_digits (n : Nat) : value (digits n) = n := by
  induction n using Nat.strongRecOn with
  | ind n ih =>
    by_cases h : n < 10
    · rw [digits_of_lt h]
      simp [value, toNat_digit h]
    · rw [digits_of_ge (by omega), value_append_digit _ (Nat.mod_lt _ (by decide)),
        ih (n / 10) (by omega)]
      omega

end StagedLambda.Decimal
