/-
A range of `n` elements split into `T` consecutive parts as evenly as possible:
the first `n % T` parts have one element more than the others.
-/
import Mathlib.Data.Nat.Basic
import Mathlib.Order.Basic
import Mathlib.Tactic.Ring

namespace Split

variable {n T t i : ℕ}

/-- The size of part `t`. -/
def size (n T t : ℕ) : ℕ := if t < n % T then n / T + 1 else n / T

/-- Where part `t` starts. -/
def start (n T t : ℕ) : ℕ := if t < n % T then t * (n / T + 1) else t * (n / T) + n % T

theorem start_eq : start n T t = t * (n / T) + min t (n % T) := by
  unfold start
  split
  · rw [Nat.min_eq_left (by omega)]; ring
  · rw [Nat.min_eq_right (by omega)]

@[simp] theorem start_zero : start n T 0 = 0 := by simp [start_eq]

/-- A part starts where the one before it ends. -/
theorem start_succ : start n T (t + 1) = start n T t + size n T t := by
  rw [start_eq, start_eq, size]
  have h : (t + 1) * (n / T) = t * (n / T) + n / T := by ring
  split <;> omega

/-- The last part ends where the range does. -/
theorem start_self (hT : 0 < T) : start n T T = n := by
  have h1 : n % T < T := Nat.mod_lt _ hT
  have h2 := Nat.div_add_mod n T
  rw [start_eq, Nat.min_eq_right h1.le]
  exact h2

theorem start_mono {t t' : ℕ} (h : t ≤ t') : start n T t ≤ start n T t' := by
  induction h with
  | refl => exact le_rfl
  | step _ ih => rw [start_succ]; omega

theorem start_add_size_le (hT : 0 < T) (h : t < T) : start n T t + size n T t ≤ n := by
  rw [← start_succ]
  calc start n T (t + 1) ≤ start n T T := start_mono h
    _ = n := start_self hT

theorem size_le_size_add_one {t t' : ℕ} : size n T t ≤ size n T t' + 1 := by
  unfold size
  split <;> split <;> omega

/-- A point below the start of some part is in one of the parts before it. -/
theorem exists_part {m : ℕ} (h : i < start n T m) :
    ∃ t < m, start n T t ≤ i ∧ i < start n T t + size n T t := by
  induction m with
  | zero => simp at h
  | succ m ih =>
    by_cases hm : i < start n T m
    · obtain ⟨t, ht, hi⟩ := ih hm
      exact ⟨t, by omega, hi⟩
    · rw [start_succ] at h
      exact ⟨m, by omega, by omega, h⟩

/-- Two parts that have a point in common are the same. -/
theorem part_unique {t t' : ℕ} (h : start n T t ≤ i ∧ i < start n T t + size n T t)
    (h' : start n T t' ≤ i ∧ i < start n T t' + size n T t') : t = t' := by
  rw [← start_succ] at h h'
  by_contra hne
  rcases Nat.lt_or_gt_of_ne hne with hlt | hlt
  · have h1 := start_mono (n := n) (T := T) (show t + 1 ≤ t' from hlt)
    omega
  · have h1 := start_mono (n := n) (T := T) (show t' + 1 ≤ t from hlt)
    omega

end Split
