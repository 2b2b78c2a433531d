/-
A barrier that is used again and again with one counter and one flag. A
participant that arrives copies the flag and counts itself; the last one to
arrive flips the flag and resets the counter, and the others leave once the
flag differs from their copy.

`Rounds` says what the counter and the flag mean: `round` rounds are over, a
participant has arrived at these or at one more, the ones ahead are still
waiting with the current flag, and who waits from the last round has the old
one. So a flag that is flipped twice never strands anybody: the second flip
needs everyone to have left.
-/
import Mathlib.Data.Fintype.Card
import Mathlib.Data.Fintype.Basic
import Mathlib.Logic.Function.Basic

universe u

variable {ι : Type u} [Fintype ι]

/-- The participants that are ahead of `round`. -/
def aheadOf (arrived : ι → ℕ) (round : ℕ) : Finset ι := Finset.univ.filter (round < arrived ·)

/-- `round` rounds are over; `copy w` is the flag participant `w` waits with. -/
structure Rounds (count : ℤ) (flag : Bool) (round : ℕ) (arrived : ι → ℕ) (copy : ι → Option Bool) : Prop where
  near : ∀ w, arrived w = round ∨ arrived w = round + 1
  ahead : ∀ w, arrived w = round + 1 → copy w = some flag
  behind : ∀ w c, arrived w = round → copy w = some c → c = !flag
  count_eq : count = Fintype.card ι - (aheadOf arrived round).card
  count_pos : 0 < count

namespace Rounds

variable {count : ℤ} {flag : Bool} {round : ℕ} {arrived : ι → ℕ} {copy : ι → Option Bool} {w : ι}

@[simp] theorem mem_aheadOf {v : ι} : v ∈ aheadOf arrived round ↔ round < arrived v := by
  simp [aheadOf]

theorem zero (h : 0 < Fintype.card ι) (flag : Bool) :
    Rounds (Fintype.card ι : ℤ) flag 0 (fun _ : ι => 0) (fun _ => none) := by
  refine ⟨fun w => .inl rfl, by simp, by simp, by simp [aheadOf], by omega⟩

theorem count_le (h : Rounds count flag round arrived copy) : count ≤ Fintype.card ι := by
  have h1 := h.count_eq
  omega

/-- Who is not waiting has been through the rounds that are over and no other. -/
theorem eq_of_outside (h : Rounds count flag round arrived copy) (hw : copy w = none) : arrived w = round := by
  rcases h.near w with h1 | h1
  · exact h1
  · rw [h.ahead w h1] at hw
    cases hw

/-- Who waits with another flag than the current one is in a round that is over. -/
theorem eq_of_released (h : Rounds count flag round arrived copy) {c : Bool} (hw : copy w = some c)
    (hc : c ≠ flag) : arrived w = round := by
  rcases h.near w with h1 | h1
  · exact h1
  · rw [h.ahead w h1, Option.some.injEq] at hw
    exact absurd hw.symm hc

/-- Everyone has arrived at the rounds that are over. -/
theorem le (h : Rounds count flag round arrived copy) (v : ι) : round ≤ arrived v := by
  rcases h.near v with h1 | h1 <;> omega

variable [DecidableEq ι]

theorem aheadOf_update :
    aheadOf (Function.update arrived w (round + 1)) round = insert w (aheadOf arrived round) := by
  ext v
  rw [mem_aheadOf, Finset.mem_insert, mem_aheadOf]
  by_cases hv : v = w
  · simp [hv]
  · rw [Function.update_of_ne hv]
    exact ⟨Or.inr, fun h => h.resolve_left hv⟩

theorem card_update (h : Rounds count flag round arrived copy) (hw : arrived w = round) :
    ((aheadOf (Function.update arrived w (round + 1)) round).card : ℤ) = Fintype.card ι - (count - 1) := by
  have h1 := h.count_eq
  rw [aheadOf_update, Finset.card_insert_of_notMem (by simp [hw])]
  push_cast
  omega

/-- A participant arrives that is not the last one. -/
theorem arrive (h : Rounds count flag round arrived copy) (hw : copy w = none) (hc : 0 < count - 1) :
    Rounds (count - 1) flag round (Function.update arrived w (round + 1)) (Function.update copy w (some flag)) := by
  have hr := h.eq_of_outside hw
  refine ⟨fun v => ?_, fun v hv => ?_, fun v c hv hcopy => ?_, ?_, hc⟩
  · by_cases hvw : v = w
    · simp [hvw]
    · rw [Function.update_of_ne hvw]; exact h.near v
  · by_cases hvw : v = w
    · simp [hvw]
    · rw [Function.update_of_ne hvw] at hv ⊢; exact h.ahead v hv
  · by_cases hvw : v = w
    · rw [hvw, Function.update_self] at hv; omega
    · rw [Function.update_of_ne hvw] at hv hcopy; exact h.behind v c hv hcopy
  · rw [h.card_update hr]; omega

/-- Where only one participant is still to arrive, the others are ahead. -/
theorem others_ahead (h : Rounds count flag round arrived copy) (hw : copy w = none) (hc : ¬0 < count - 1) {v : ι}
    (hv : v ≠ w) : arrived v = round + 1 := by
  have h1 := h.card_update (h.eq_of_outside hw)
  have h2 := h.count_pos
  have h3 : (aheadOf (Function.update arrived w (round + 1)) round).card = Fintype.card ι := by omega
  rw [Finset.card_eq_iff_eq_univ, Finset.ext_iff] at h3
  have h4 := (h3 v).mpr (Finset.mem_univ v)
  rw [mem_aheadOf, Function.update_of_ne hv] at h4
  rcases h.near v with h5 | h5 <;> omega

/-- The last participant arrives: the next round begins, and it is not waiting. -/
theorem last (h : Rounds count flag round arrived copy) (hw : copy w = none) (hc : ¬0 < count - 1) :
    Rounds (Fintype.card ι : ℤ) (!flag) (round + 1) (Function.update arrived w (round + 1)) copy := by
  -- with the last one, all are ahead
  have heq : ∀ v, Function.update arrived w (round + 1) v = round + 1 := by
    intro v
    by_cases hvw : v = w
    · rw [hvw, Function.update_self]
    · rw [Function.update_of_ne hvw]
      exact h.others_ahead hw hc hvw
  have hcard : 0 < Fintype.card ι := Fintype.card_pos_iff.mpr ⟨w⟩
  refine ⟨fun v => .inl (heq v), fun v hv => ?_, fun v c hv hcopy => ?_, ?_, by omega⟩
  · rw [heq v] at hv; omega
  · by_cases hvw : v = w
    · rw [hvw, hw] at hcopy; cases hcopy
    · rw [h.ahead v (h.others_ahead hw hc hvw), Option.some.injEq] at hcopy
      rw [← hcopy, Bool.not_not]
  · have h1 : aheadOf (Function.update arrived w (round + 1)) (round + 1) = ∅ := by
      ext v
      simp [heq v]
    simp [h1]

/-- A participant leaves whose copy differs from the flag. -/
theorem leave (h : Rounds count flag round arrived copy) {c : Bool} (hw : copy w = some c) (hc : c ≠ flag) :
    Rounds count flag round arrived (Function.update copy w none) := by
  have hr := h.eq_of_released hw hc
  refine ⟨h.near, fun v hv => ?_, fun v c hv hcopy => ?_, h.count_eq, h.count_pos⟩
  · by_cases hvw : v = w
    · rw [hvw] at hv; omega
    · rw [Function.update_of_ne hvw]; exact h.ahead v hv
  · by_cases hvw : v = w
    · rw [hvw, Function.update_self] at hcopy; cases hcopy
    · rw [Function.update_of_ne hvw] at hcopy; exact h.behind v c hv hcopy

end Rounds
