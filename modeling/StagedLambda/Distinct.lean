/-!
# Counting different elements

`distinct xs` is the number of different elements of a list. It does not grow when elements are
taken away, and it shrinks when all copies of one of them are.
-/

namespace StagedLambda

variable {α : Type} [DecidableEq α]

/-- How many different elements a list has. -/
def distinct : List α → Nat
  | [] => 0
  | x :: xs => if x ∈ xs then distinct xs else distinct xs + 1

theorem distinct_filter_ne (x : α) (xs : List α) :
    distinct xs = distinct (xs.filter (· ≠ x)) + if x ∈ xs then 1 else 0 := by
  induction xs with
  | nil => rfl
  | cons y ys ih =>
    by_cases hyx : y = x
    · subst hyx
      by_cases hy : y ∈ ys <;> simp_all [distinct]
    · have hxy : x ≠ y := fun h => hyx h.symm
      by_cases hy : y ∈ ys <;> by_cases hx : x ∈ ys <;> simp_all [distinct]

theorem distinct_le_of_subset {xs ys : List α} (h : xs ⊆ ys) : distinct xs ≤ distinct ys := by
  induction xs generalizing ys with
  | nil => exact Nat.zero_le _
  | cons x xs ih =>
    have hxs : xs ⊆ ys := fun a ha => h (List.mem_cons_of_mem _ ha)
    by_cases hx : x ∈ xs
    · simp only [distinct, if_pos hx]
      exact ih hxs
    · have hRest : xs ⊆ ys.filter (· ≠ x) := fun a ha =>
        List.mem_filter.mpr ⟨hxs ha, by simp only [ne_eq, decide_eq_true_eq]; rintro rfl; exact hx ha⟩
      have hCount := distinct_filter_ne x ys
      rw [if_pos (h List.mem_cons_self)] at hCount
      simp only [distinct, if_neg hx]
      have := ih hRest
      omega

theorem distinct_lt_of_subset {xs ys : List α} {x : α} (h : xs ⊆ ys) (hy : x ∈ ys)
    (hx : x ∉ xs) : distinct xs < distinct ys := by
  have hRest : xs ⊆ ys.filter (· ≠ x) := fun a ha =>
    List.mem_filter.mpr ⟨h ha, by simp only [ne_eq, decide_eq_true_eq]; rintro rfl; exact hx ha⟩
  have hCount := distinct_filter_ne x ys
  rw [if_pos hy] at hCount
  have := distinct_le_of_subset hRest
  omega

end StagedLambda
