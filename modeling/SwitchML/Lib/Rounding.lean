/-
Rounding a number to a positive multiple of another. Of two multiples that are
equally near, the lower one is taken.
-/
import Mathlib.Data.Nat.Dist
import Mathlib.Tactic.Ring

namespace Rounding

/-- The positive multiple of `d` nearest to `n`. -/
def nearestMultiple (d n : ℕ) : ℕ :=
  if 1 ≤ n / d ∧ d < 2 * (n % d) then (n / d + 1) * d else max 1 (n / d) * d

variable {d n : ℕ}

theorem dvd_nearestMultiple (d n : ℕ) : d ∣ nearestMultiple d n := by
  unfold nearestMultiple
  split <;> exact Nat.dvd_mul_left d _

theorem nearestMultiple_pos (hd : 0 < d) (n : ℕ) : 0 < nearestMultiple d n := by
  unfold nearestMultiple
  split
  · exact Nat.mul_pos (Nat.succ_pos _) hd
  · exact Nat.mul_pos (by omega) hd

/-- A positive multiple is its own. -/
theorem nearestMultiple_of_dvd (hn : 0 < n) (h : d ∣ n) : nearestMultiple d n = n := by
  have hmod := Nat.mod_eq_zero_of_dvd h
  have hpos := Nat.div_pos (Nat.le_of_dvd hn h) (Nat.pos_of_dvd_of_pos h hn)
  rw [nearestMultiple, hmod, if_neg (by omega), max_eq_right hpos, Nat.div_mul_cancel h]

/-- It is at most half a multiple above a number that reaches the first one. -/
theorem nearestMultiple_le (h : d ≤ n) : 2 * nearestMultiple d n ≤ 2 * n + d := by
  rcases Nat.eq_zero_or_pos d with rfl | hd
  · simp [nearestMultiple]
  have hpos := Nat.div_pos h hd
  have hdiv := Nat.div_add_mod' n d
  have hlt := Nat.mod_lt n hd
  unfold nearestMultiple
  split
  · rename_i hup
    have hup := hup.2
    rw [Nat.add_mul, Nat.one_mul]
    omega
  · rw [max_eq_right hpos]
    omega

/-- No positive multiple is nearer. -/
theorem nearestMultiple_nearest (hd : 0 < d) {m : ℕ} (hm : 0 < m) (hdvd : d ∣ m) :
    Nat.dist n (nearestMultiple d n) ≤ Nat.dist n m := by
  obtain ⟨k, rfl⟩ := hdvd
  have hk : 0 < k := Nat.pos_of_mul_pos_left hm
  have hdiv := Nat.div_add_mod' n d
  have hlt := Nat.mod_lt n hd
  rw [Nat.mul_comm d k]
  unfold Nat.dist nearestMultiple
  -- the multiple is below the quotient's, or above it
  rcases Nat.lt_or_ge (n / d) k with hk' | hk'
  · have hge := Nat.mul_le_mul_right d (Nat.succ_le_of_lt hk')
    rw [Nat.succ_mul] at hge
    split
    · rw [Nat.add_mul, Nat.one_mul]
      omega
    · rcases Nat.eq_zero_or_pos (n / d) with h0 | hpos
      · have hle := Nat.mul_le_mul_right d hk
        rw [h0, max_eq_left (by omega)]
        rw [h0] at hdiv
        omega
      · rw [max_eq_right hpos]
        omega
  · have hle := Nat.mul_le_mul_right d hk'
    have hpos : 1 ≤ n / d := le_trans hk hk'
    split
    · rw [Nat.add_mul, Nat.one_mul]
      omega
    · rw [max_eq_right hpos]
      omega

end Rounding
