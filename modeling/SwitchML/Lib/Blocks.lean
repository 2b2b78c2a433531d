/-
Blocks of any sizes, laid out one after the other.
-/
import Mathlib.Algebra.BigOperators.Group.Finset.Basic

namespace Blocks

variable {size : ℕ → ℕ} {k l i j : ℕ}

/-- Where block `k` starts. -/
def start (size : ℕ → ℕ) (k : ℕ) : ℕ := ∑ j ∈ Finset.range k, size j

@[simp] theorem start_zero : start size 0 = 0 := Finset.sum_range_zero _

theorem start_succ (size : ℕ → ℕ) (k : ℕ) : start size (k + 1) = start size k + size k := Finset.sum_range_succ ..

theorem start_mono (h : k ≤ l) : start size k ≤ start size l := by
  induction l, h using Nat.le_induction with
  | base => exact le_rfl
  | succ l _ ih =>
    rw [start_succ]
    exact Nat.le_add_right_of_le ih

/-- A place is in one block only. -/
theorem place_unique (hi : i < size k) (hj : j < size l) (h : start size k + i = start size l + j) : k = l ∧ i = j := by
  have hnot {k l i j : ℕ} (hi : i < size k) (h : start size k + i = start size l + j) : ¬k < l := by
    intro hlt
    have hle : start size (k + 1) ≤ start size l := start_mono (Nat.succ_le_of_lt hlt)
    rw [start_succ] at hle
    omega
  obtain rfl : k = l := by
    have h1 := hnot hi h
    have h2 := hnot hj h.symm
    omega
  exact ⟨rfl, Nat.add_left_cancel h⟩

end Blocks
