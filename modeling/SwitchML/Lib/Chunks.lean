/-
A range of `n` elements cut into chunks of `c`, the last of which may be
shorter.
-/
import Mathlib.Data.List.Nodup
import Mathlib.Data.List.Range
import Mathlib.Data.Nat.Basic
import Mathlib.Tactic.Ring

namespace Chunks

variable {n c l i m : ℕ}

/-- The elements of chunk `l`. -/
def chunk (n c l : ℕ) : List ℕ := (List.range (min c (n - l * c))).map (l * c + ·)

/-- The number of chunks. -/
def count (n c : ℕ) : ℕ := (n + c - 1) / c

theorem lt_count_iff (hc : 0 < c) : l < count n c ↔ l * c < n := by
  rw [count, ← Nat.succ_le_iff, Nat.le_div_iff_mul_le hc, Nat.succ_mul]
  omega

theorem mem_chunk (hc : 0 < c) : i ∈ chunk n c l ↔ i < n ∧ i / c = l := by
  simp only [chunk, List.mem_map, List.mem_range]
  constructor
  · rintro ⟨k, hk, rfl⟩
    refine ⟨by omega, ?_⟩
    rw [Nat.mul_comm, Nat.mul_add_div hc, Nat.div_eq_of_lt (by omega), Nat.add_zero]
  · rintro ⟨hi, rfl⟩
    have h1 := Nat.div_add_mod i c
    have h2 := Nat.mod_lt i hc
    rw [Nat.mul_comm] at h1
    exact ⟨i % c, by omega, h1⟩

theorem nodup_chunk : (chunk n c l).Nodup :=
  List.nodup_range.map fun _ _ h => Nat.add_left_cancel h

/-- The first chunks one after the other are the elements up to where they end. -/
theorem flatMap_range (n c m : ℕ) : (List.range m).flatMap (chunk n c) = List.range (min (m * c) n) := by
  induction m with
  | zero => simp
  | succ m ih =>
    have hring : (m + 1) * c = m * c + c := by ring
    rw [List.range_succ, List.flatMap_append, ih, List.flatMap_singleton, chunk]
    rcases Nat.lt_or_ge (m * c) n with h | h
    · have h1 : min ((m + 1) * c) n = m * c + min c (n - m * c) := by omega
      rw [Nat.min_eq_left h.le, h1, List.range_add]
    · have h1 : min c (n - m * c) = 0 := by omega
      rw [h1, Nat.min_eq_right h, Nat.min_eq_right (by omega)]
      simp

/-- All chunks together are the whole range. -/
theorem flatMap_count (hc : 0 < c) : (List.range (count n c)).flatMap (chunk n c) = List.range n := by
  rw [flatMap_range]
  congr 1
  refine Nat.min_eq_right ?_
  by_contra h
  have h1 := (lt_count_iff (n := n) (l := count n c) hc).mpr (by omega)
  omega

end Chunks
