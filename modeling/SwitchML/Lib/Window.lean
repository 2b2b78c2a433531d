/-
A window of `B` ids out of `total`. The first `B` ids are sent at once, and
when an id is accepted its successor, `B` further on, is sent if there is one.
So the ids with one residue form a chain of which at most one is outstanding,
whatever the order of the acceptances.

Ids that share a ring of `M` slots use each slot in turn: `InTurn` says that no
id was used before the one `M` before it.
-/
import Mathlib.Data.Finset.Card
import Mathlib.Data.Finset.Range
import Mathlib.Tactic.Ring

variable {total B p q : ℕ} {A : Finset ℕ}

/-- The ids that are sent once those in `A` are accepted. -/
def Window.Sent (total B : ℕ) (A : Finset ℕ) (p : ℕ) : Prop := p < total ∧ (p < B ∨ B ≤ p ∧ p - B ∈ A)

/-- Only ids that were sent are accepted. -/
def Window (total B : ℕ) (A : Finset ℕ) : Prop := ∀ p ∈ A, Window.Sent total B A p

namespace Window

instance : Decidable (Sent total B A p) := inferInstanceAs (Decidable (_ ∧ _))

/-- An id that was sent and is not accepted. -/
def Outstanding (total B : ℕ) (A : Finset ℕ) (p : ℕ) : Prop := Sent total B A p ∧ p ∉ A

instance : Decidable (Outstanding total B A p) := inferInstanceAs (Decidable (_ ∧ _))

theorem empty : Window total B ∅ := fun p hp => absurd hp (Finset.notMem_empty p)

theorem sent_empty (hB : B ≤ total) : Sent total B ∅ p ↔ p < B := by
  simp only [Sent, Finset.notMem_empty, and_false, or_false]
  omega

theorem Sent.mono {A' : Finset ℕ} (h : Sent total B A p) (hA : A ⊆ A') : Sent total B A' p :=
  ⟨h.1, h.2.imp_right fun h' => ⟨h'.1, hA h'.2⟩⟩

/-- Accepting an id sends its successor and nothing else. -/
theorem sent_insert : Sent total B (insert p A) q ↔ Sent total B A q ∨ q = p + B ∧ q < total := by
  simp only [Sent, Finset.mem_insert]
  constructor
  · rintro ⟨h1, h2 | ⟨h2, h3 | h3⟩⟩
    · exact .inl ⟨h1, .inl h2⟩
    · exact .inr ⟨by omega, h1⟩
    · exact .inl ⟨h1, .inr ⟨h2, h3⟩⟩
  · rintro (⟨h1, h2 | h2⟩ | ⟨rfl, h2⟩)
    · exact ⟨h1, .inl h2⟩
    · exact ⟨h1, .inr ⟨h2.1, .inr h2.2⟩⟩
    · exact ⟨h2, .inr ⟨by omega, .inl (by omega)⟩⟩

/-- An outstanding id is accepted. -/
theorem accept (h : Window total B A) (hp : Outstanding total B A p) : Window total B (insert p A) := by
  intro q hq
  rcases Finset.mem_insert.mp hq with rfl | hq
  · exact hp.1.mono (Finset.subset_insert q A)
  · exact (h q hq).mono (Finset.subset_insert p A)

/-- After an outstanding id is accepted its successor is outstanding in its place. -/
theorem outstanding_insert (h : Window total B A) (hB : 0 < B) (hp : Outstanding total B A p) :
    Outstanding total B (insert p A) q ↔ Outstanding total B A q ∧ q ≠ p ∨ q = p + B ∧ q < total := by
  simp only [Outstanding, sent_insert, Finset.mem_insert, not_or]
  constructor
  · rintro ⟨h1 | h1, h2, h3⟩
    · exact .inl ⟨⟨h1, h3⟩, h2⟩
    · exact .inr h1
  · rintro (⟨⟨h1, h2⟩, h3⟩ | ⟨rfl, h1⟩)
    · exact ⟨.inl h1, h3, h2⟩
    · refine ⟨.inr ⟨rfl, h1⟩, by omega, fun hA => ?_⟩
      rcases (h _ hA).2 with h2 | ⟨-, h2⟩
      · omega
      · rw [Nat.add_sub_cancel] at h2
        exact hp.2 h2

theorem lt (h : Window total B A) (hp : p ∈ A) : p < total := (h p hp).1

theorem subset (h : Window total B A) : A ⊆ Finset.range total := fun _ hp => Finset.mem_range.mpr (h.lt hp)

/-- The ids before an accepted one in its chain are accepted. -/
theorem mem_of_add_mul (h : Window total B A) (k : ℕ) (hp : p + k * B ∈ A) : p ∈ A := by
  induction k with
  | zero => simpa using hp
  | succ k ih =>
    have hring : p + (k + 1) * B = p + k * B + B := by ring
    rcases (h _ hp).2 with h1 | ⟨-, h1⟩
    · -- below `B` there is nothing before it
      have h2 : k * B = 0 := by
        rcases Nat.eq_zero_or_pos (k * B) with h0 | h0
        · exact h0
        · omega
      rw [hring] at h1
      omega
    · refine ih ?_
      rwa [hring, Nat.add_sub_cancel] at h1

theorem mem_of_modEq (h : Window total B A) (hq : q ∈ A) (hmod : p % B = q % B) (hle : p ≤ q) : p ∈ A := by
  refine h.mem_of_add_mul (q / B - p / B) ?_
  have h1 := Nat.div_add_mod p B
  have h2 := Nat.div_add_mod q B
  have h3 : p / B ≤ q / B := Nat.div_le_div_right hle
  have h4 : p + (q / B - p / B) * B = q := by
    rw [Nat.sub_mul]
    have h5 : p / B * B ≤ q / B * B := Nat.mul_le_mul_right B h3
    rw [Nat.mul_comm B] at h1 h2
    omega
  rwa [h4]

theorem le_of_outstanding (h : Window total B A) (hp : Outstanding total B A p)
    (hq : Sent total B A q) (hmod : p % B = q % B) : q ≤ p := by
  by_contra hlt
  rcases hq.2 with h1 | ⟨h1, h2⟩
  · -- both are in the first batch
    rw [Nat.mod_eq_of_lt h1, Nat.mod_eq_of_lt (by omega)] at hmod
    omega
  · have h3 : (q - B) % B = q % B := by
      rw [← Nat.add_mod_right, Nat.sub_add_cancel h1]
    have h4 : p ≤ q - B := by
      by_contra h4
      have h5 := Nat.div_add_mod p B
      have h6 := Nat.div_add_mod q B
      have h7 : p / B < q / B := by
        by_contra h7
        have h8 := Nat.mul_le_mul_left B (Nat.le_of_not_lt h7)
        omega
      have h8 := Nat.mul_le_mul_left B (Nat.succ_le_of_lt h7)
      rw [Nat.succ_eq_add_one, Nat.mul_add, Nat.mul_one] at h8
      omega
    exact hp.2 (h.mem_of_modEq h2 (hmod.trans h3.symm) h4)

/-- No two outstanding ids have the same residue. -/
theorem outstanding_unique (h : Window total B A) (hp : Outstanding total B A p)
    (hq : Outstanding total B A q) (hmod : p % B = q % B) : p = q :=
  Nat.le_antisymm (h.le_of_outstanding hq hp.1 hmod.symm) (h.le_of_outstanding hp hq.1 hmod)

/-- The outstanding ids. -/
def outstanding (total B : ℕ) (A : Finset ℕ) : Finset ℕ := (Finset.range total).filter (Outstanding total B A)

@[simp] theorem mem_outstanding : p ∈ outstanding total B A ↔ Outstanding total B A p := by
  rw [outstanding, Finset.mem_filter, Finset.mem_range]
  exact ⟨fun h => h.2, fun h => ⟨h.1.1, h⟩⟩

theorem card_outstanding_le (h : Window total B A) (hB : 0 < B) : (outstanding total B A).card ≤ B := by
  calc (outstanding total B A).card ≤ (Finset.range B).card := by
        refine Finset.card_le_card_of_injOn (· % B) (fun p _ => ?_) fun p hp q hq hmod => ?_
        · exact Finset.mem_coe.mpr (Finset.mem_range.mpr (Nat.mod_lt p hB))
        · exact h.outstanding_unique (mem_outstanding.mp hp) (mem_outstanding.mp hq) hmod
    _ = B := Finset.card_range B

/-- While an id is missing one is outstanding. -/
theorem exists_outstanding (hB : 0 < B) (hp : p < total) (hpA : p ∉ A) : ∃ q, Outstanding total B A q := by
  induction p using Nat.strong_induction_on with
  | _ p ih =>
    by_cases h1 : p < B
    · exact ⟨p, ⟨hp, .inl h1⟩, hpA⟩
    · by_cases h2 : p - B ∈ A
      · exact ⟨p, ⟨hp, .inr ⟨by omega, h2⟩⟩, hpA⟩
      · exact ih (p - B) (by omega) (by omega) h2

/-- All ids are accepted exactly when as many are as there are. -/
theorem card_eq_iff (h : Window total B A) : A.card = total ↔ A = Finset.range total := by
  constructor
  · intro hc
    exact Finset.eq_of_subset_of_card_le h.subset (by rw [Finset.card_range, hc])
  · intro hA
    rw [hA, Finset.card_range]

theorem card_le (h : Window total B A) : A.card ≤ total := by
  rw [← Finset.card_range total]
  exact Finset.card_le_card h.subset

end Window

/-! ## Taking turns on a ring of slots -/

/-- Of the ids of one slot the used ones are the first ones. -/
def InTurn (M : ℕ) (S : Set ℕ) : Prop := ∀ q ∈ S, M ≤ q → q - M ∈ S

/-- The id is the one whose turn it is on its slot. -/
def NextTurn (M : ℕ) (S : Set ℕ) (p : ℕ) : Prop := p ∉ S ∧ (M ≤ p → p - M ∈ S)

namespace InTurn

variable {M : ℕ} {S : Set ℕ}

theorem mem_of_add_mul (h : InTurn M S) (k : ℕ) (hp : p + k * M ∈ S) : p ∈ S := by
  induction k with
  | zero => simpa using hp
  | succ k ih =>
    have hring : p + (k + 1) * M = p + k * M + M := by ring
    rw [hring] at hp
    have hprev := h _ hp (Nat.le_add_left _ _)
    rw [Nat.add_sub_cancel] at hprev
    exact ih hprev

theorem mem_of_le (h : InTurn M S) (hq : q ∈ S) (hmod : p % M = q % M) (hle : p ≤ q) : p ∈ S := by
  obtain ⟨k, hk⟩ := Nat.dvd_of_mod_eq_zero (Nat.sub_mod_eq_zero_of_mod_eq hmod.symm)
  refine h.mem_of_add_mul k ?_
  have hpq : p + k * M = q := by
    rw [Nat.mul_comm, ← hk]
    omega
  rw [hpq]
  exact hq

theorem le_of_next (h : InTurn M S) (hp : NextTurn M S p) (hq : NextTurn M S q) (hmod : p % M = q % M) : q ≤ p := by
  by_contra hlt
  obtain ⟨k, hk⟩ := Nat.dvd_of_mod_eq_zero (Nat.sub_mod_eq_zero_of_mod_eq hmod.symm)
  cases k with
  | zero => omega
  | succ k =>
    -- then `p` is not after the id before `q`
    rw [Nat.mul_succ] at hk
    have hprev := hq.2 (by omega)
    refine hp.1 (h.mem_of_le hprev ?_ (by omega))
    rw [hmod, ← Nat.add_mod_right (q - M) M, Nat.sub_add_cancel (by omega)]

/-- It is one id's turn on each slot. -/
theorem next_unique (h : InTurn M S) (hp : NextTurn M S p) (hq : NextTurn M S q) (hmod : p % M = q % M) : p = q :=
  Nat.le_antisymm (h.le_of_next hq hp hmod.symm) (h.le_of_next hp hq hmod)

theorem insert (h : InTurn M S) (hq : NextTurn M S q) : InTurn M (insert q S) := by
  intro p hp hM
  rcases hp with rfl | hp
  · exact .inr (hq.2 hM)
  · exact .inr (h p hp hM)

/-- When an id has had its turn, it is the one after it on its slot and the same
ids as before on the others. -/
theorem next_insert (h : InTurn M S) (hq : NextTurn M S q) (hp : NextTurn M (Insert.insert q S) p) :
    p = q + M ∨ NextTurn M S p ∧ p % M ≠ q % M := by
  have hpS : p ∉ S := fun hmem => hp.1 (.inr hmem)
  by_cases hpq : p = q + M
  · exact .inl hpq
  · have hnext : NextTurn M S p := by
      refine ⟨hpS, fun hM => ?_⟩
      rcases hp.2 hM with heq | hmem
      · omega
      · exact hmem
    refine .inr ⟨hnext, fun hmod => hp.1 (.inl ?_)⟩
    exact h.next_unique hnext hq hmod

/-- On the slot of the last id that was used it is the one after it. -/
theorem next_of_last (h : InTurn M S) (hq : q ∈ S) (hlast : q + M ∉ S) (hp : NextTurn M S p)
    (hmod : p % M = q % M) : p = q + M := by
  refine h.next_unique hp ⟨hlast, fun _ => ?_⟩ ?_
  · rw [Nat.add_sub_cancel]
    exact hq
  · rw [hmod, Nat.add_mod_right]

end InTurn
