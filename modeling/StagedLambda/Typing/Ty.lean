import StagedLambda.Operator
import StagedLambda.Text.Decimal

/-!
# Types

The types of unstaged terms: integers, booleans, functions, and variables that inference has yet
to solve. A substitution replaces variables by types. Variables are numbered in the order in which
inference makes them, so a type that is `Below n` holds only variables that had been made when the
next number was `n`.
-/

namespace StagedLambda

inductive Ty
  | int
  | bool
  | fn (param result : Ty)
  /-- A variable of inference. In a finished type it is one that nothing determines. -/
  | var (id : Nat)
deriving DecidableEq

def BaseKind.toTy : BaseKind → Ty
  | .int => .int
  | .bool => .bool

namespace Ty

def isFn : Ty → Bool
  | .fn _ _ => true
  | _ => false

/-- The arrow groups to the right, so only a function to the left of it needs parentheses. -/
def text : Ty → String
  | .int => "int"
  | .bool => "bool"
  | .fn param result =>
    (if param.isFn then "(" ++ param.text ++ ")" else param.text) ++ " -> " ++ result.text
  | .var id => "\x27t" ++ Decimal.ofNat id

/-- The variables of a type, from left to right. -/
def vars : Ty → List Nat
  | .int | .bool => []
  | .fn param result => param.vars ++ result.vars
  | .var id => [id]

def size : Ty → Nat
  | .int | .bool | .var _ => 1
  | .fn param result => param.size + result.size + 1

/-- Replaces every variable. -/
def subst (f : Nat → Ty) : Ty → Ty
  | .int => .int
  | .bool => .bool
  | .fn param result => .fn (param.subst f) (result.subst f)
  | .var id => f id

/-! ### Substitution -/

theorem subst_congr {f g : Nat → Ty} {t : Ty} (h : ∀ v ∈ t.vars, f v = g v) :
    t.subst f = t.subst g := by
  induction t with
  | int | bool => rfl
  | fn param result ihParam ihResult =>
    rw [subst, subst, ihParam fun v hv => h v (List.mem_append_left _ hv),
      ihResult fun v hv => h v (List.mem_append_right _ hv)]
  | var id => exact h id (List.mem_singleton_self id)

theorem subst_subst (f g : Nat → Ty) (t : Ty) :
    (t.subst f).subst g = t.subst fun v => (f v).subst g := by
  induction t with
  | int | bool | var => rfl
  | fn param result ihParam ihResult => rw [subst, subst, subst, ihParam, ihResult]

theorem mem_vars_subst {f : Nat → Ty} {t : Ty} {v : Nat} :
    v ∈ (t.subst f).vars ↔ ∃ w ∈ t.vars, v ∈ (f w).vars := by
  induction t with
  | int | bool => simp [subst, vars]
  | fn param result ihParam ihResult =>
    rw [subst, vars, vars, List.mem_append, ihParam, ihResult]
    simp only [List.mem_append, or_and_right, exists_or]
  | var id => simp [subst, vars]

/-- A variable has no larger type than a type that holds it. -/
theorem size_le_size_subst {σ : Nat → Ty} {v : Nat} {t : Ty} (h : v ∈ t.vars) :
    (σ v).size ≤ (t.subst σ).size := by
  induction t with
  | int | bool => cases h
  | var id => exact Nat.le_of_eq (by rw [List.mem_singleton.mp h, subst])
  | fn param result ihParam ihResult =>
    rw [subst, size]
    rcases List.mem_append.mp h with h | h
    · have := ihParam h
      omega
    · have := ihResult h
      omega

/-- **No assignment makes a variable equal to a type that properly holds it.** -/
theorem eq_var_of_mem_vars {σ : Nat → Ty} {v : Nat} {t : Ty} (h : v ∈ t.vars)
    (hEqual : σ v = t.subst σ) : t = .var v := by
  cases t with
  | int | bool => cases h
  | var id => rw [List.mem_singleton.mp h]
  | fn param result =>
    have hSize : (σ v).size = ((fn param result).subst σ).size := congrArg size hEqual
    rw [subst, size] at hSize
    rcases List.mem_append.mp h with h | h
    · have := size_le_size_subst (σ := σ) h
      omega
    · have := size_le_size_subst (σ := σ) h
      omega

/-! ### Variables that have been made -/

/-- The variables of a type are numbered below `n`. -/
def Below (n : Nat) (t : Ty) : Prop := ∀ v ∈ t.vars, v < n

theorem below_var {n id : Nat} : (var id).Below n ↔ id < n := by
  rw [Below, vars, List.forall_mem_singleton]

theorem below_fn {n : Nat} {param result : Ty} :
    (fn param result).Below n ↔ param.Below n ∧ result.Below n :=
  List.forall_mem_append

theorem Below.mono {m n : Nat} {t : Ty} (h : t.Below m) (hmn : m ≤ n) : t.Below n :=
  fun v hv => Nat.lt_of_lt_of_le (h v hv) hmn

theorem exists_below (t : Ty) : ∃ n, t.Below n := by
  induction t with
  | int | bool => exact ⟨0, nofun⟩
  | fn param result ihParam ihResult =>
    obtain ⟨m, hm⟩ := ihParam
    obtain ⟨n, hn⟩ := ihResult
    exact ⟨max m n, below_fn.mpr ⟨hm.mono (Nat.le_max_left m n), hn.mono (Nat.le_max_right m n)⟩⟩
  | var id => exact ⟨id + 1, below_var.mpr (Nat.lt_succ_self id)⟩

end Ty

end StagedLambda
