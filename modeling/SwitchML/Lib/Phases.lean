/-
Workers going through numbered phases almost in step, and cells that take
turns: phase `k` uses the cell `set k`, the next phase the other one.

`seen w` is the number of phases worker `w` has been through. A cell may be
used again by phase `k + 2` once every worker has been through `k` and `k + 1`
has been begun by all; what `Current` says of a phase is that its cell is
neither still in use by phase `k - 2` nor already taken by phase `k + 2`.
-/
import Mathlib.Data.Fintype.Card
import Mathlib.Data.Fintype.Basic
import Mathlib.Logic.Function.Basic

universe u v

namespace Phases

variable {ι : Type u}

/-- The workers that have been through phase `k`. -/
def through [Fintype ι] (seen : ι → ℕ) (k : ℕ) : Finset ι := Finset.univ.filter (k < seen ·)

/-- All workers have been through phase `k`. -/
def Complete (seen : ι → ℕ) (k : ℕ) : Prop := ∀ w, k < seen w

instance [Fintype ι] (seen : ι → ℕ) (k : ℕ) : Decidable (Complete seen k) := inferInstanceAs (Decidable (∀ w, k < seen w))

/-- No worker is more than a phase ahead of another. -/
def Spread (seen : ι → ℕ) : Prop := ∀ w w', seen w ≤ seen w' + 1

/-- Phase `k - 2` is over and phase `k + 2` has not begun. -/
def Current (seen : ι → ℕ) (k : ℕ) : Prop := (∀ w, k ≤ seen w + 1) ∧ ∀ w, seen w ≤ k + 2

/-- Worker `w` has now been through phase `k`. -/
def visit [DecidableEq ι] (seen : ι → ℕ) (w : ι) (k : ℕ) : ι → ℕ := Function.update seen w (k + 1)

variable {seen : ι → ℕ} {w : ι} {k : ℕ}

section Through

variable [Fintype ι]

@[simp] theorem mem_through {v : ι} : v ∈ through seen k ↔ k < seen v := by
  simp [through]

theorem through_eq_univ : through seen k = Finset.univ ↔ Complete seen k := by
  simp [Finset.ext_iff, Complete]

theorem card_through_eq : (through seen k).card = Fintype.card ι ↔ Complete seen k := by
  rw [Finset.card_eq_iff_eq_univ, through_eq_univ]

theorem card_through_le : (through seen k).card ≤ Fintype.card ι := Finset.card_le_univ _

end Through

variable [DecidableEq ι]

@[simp] theorem visit_self : visit seen w k w = k + 1 := Function.update_self ..

theorem visit_of_ne {v : ι} (h : v ≠ w) : visit seen w k v = seen v := Function.update_of_ne h ..

/-- A repeated visit changes nothing. -/
theorem visit_eq_self (h : seen w = k + 1) : visit seen w k = seen := by
  rw [visit, ← h, Function.update_eq_self]

theorem le_visit (h : seen w ≤ k + 1) (v : ι) : seen v ≤ visit seen w k v := by
  by_cases hv : v = w
  · rw [hv, visit_self]; exact h
  · rw [visit_of_ne hv]

theorem Complete.visit {j : ℕ} (hc : Complete seen j) (h : seen w ≤ k + 1) : Complete (visit seen w k) j :=
  fun v => lt_of_lt_of_le (hc v) (le_visit h v)

theorem Spread.visit (hs : Spread seen) (hw : seen w = k) (hmin : ∀ v, k ≤ seen v) : Spread (visit seen w k) := by
  intro v v'
  have h1 := hmin v
  have h2 := hmin v'
  have h3 := hs v v'
  have h4 := hs v w
  by_cases hv : v = w <;> by_cases hv' : v' = w
  · rw [hv, hv']; omega
  · rw [hv, visit_self, visit_of_ne hv']; omega
  · rw [hv', visit_self, visit_of_ne hv]; omega
  · rw [visit_of_ne hv, visit_of_ne hv']; exact h3

/-! ## Cells that take turns -/

variable {α : Type v} {set : ℕ → Bool}

theorem set_add_two (hset : ∀ k, set (k + 1) = !set k) (k : ℕ) : set (k + 2) = set k := by
  rw [hset, hset, Bool.not_not]

/-- After a new visit, only the phase visited and, once all are through it, the
one after the next have that phase's cell. -/
theorem Current.of_visit {j : ℕ} (hset : ∀ k, set (k + 1) = !set k) (hw : seen w = k)
    (hj : Current (visit seen w k) j) (hne : j ≠ k) (hturn : set j = set k) :
    j = k + 2 ∧ Complete (visit seen w k) k := by
  have h1 := hj.1 w
  have h2 := hj.2 w
  rw [visit_self] at h1 h2
  have hk1 : j ≠ k + 1 := by
    rintro rfl
    rw [hset] at hturn
    cases hk : set k <;> simp [hk] at hturn
  have hk2 : j + 1 ≠ k := by
    rintro rfl
    rw [hset] at hturn
    cases hj : set j <;> simp [hj] at hturn
  have hj2 : j = k + 2 := by omega
  refine ⟨hj2, fun v => ?_⟩
  have h3 := hj.1 v
  omega

theorem Current.of_visit_other {j : ℕ} (hset : ∀ k, set (k + 1) = !set k) (hw : seen w = k)
    (hj : Current (visit seen w k) j) (hturn : set j ≠ set k) : Current seen j := by
  have hk2 : j ≠ k + 2 := by
    rintro rfl
    exact hturn (set_add_two hset k)
  refine ⟨fun v => ?_, fun v => (le_visit (by omega) v).trans (hj.2 v)⟩
  have h1 := hj.1 v
  by_cases hv : v = w
  · rw [hv, visit_self] at h1
    rw [hv]
    omega
  · rwa [visit_of_ne hv] at h1

variable [Fintype ι]

theorem through_visit_self : through (visit seen w k) k = insert w (through seen k) := by
  ext v
  rw [mem_through, Finset.mem_insert, mem_through]
  by_cases hv : v = w
  · simp [hv]
  · rw [visit_of_ne hv]
    exact ⟨Or.inr, fun h => h.resolve_left hv⟩

theorem through_visit_of_ne {j : ℕ} (hw : seen w = k) (hj : j ≠ k) :
    through (visit seen w k) j = through seen j := by
  ext v
  rw [mem_through, mem_through]
  by_cases hv : v = w
  · rw [hv, visit_self, hw]; omega
  · rw [visit_of_ne hv]

/-- Every current phase some worker has been through has in its cell what
`Holds` says of it, for the workers through it. -/
def CellsOK (seen : ι → ℕ) (set : ℕ → Bool) (Holds : ℕ → Finset ι → α → Prop) (cell : Bool → α) : Prop :=
  ∀ k, Current seen k → (through seen k).Nonempty → Holds k (through seen k) (cell (set k))

theorem CellsOK.visit {Holds : ℕ → Finset ι → α → Prop} {cell : Bool → α} (h : CellsOK seen set Holds cell)
    (hset : ∀ k, set (k + 1) = !set k) (hs : Spread seen) (hw : seen w = k) {new : α}
    (hnew : Holds k (insert w (through seen k)) new) :
    CellsOK (visit seen w k) set Holds (Function.update cell (set k) new) := by
  intro j hj hne
  by_cases hjk : j = k
  · subst hjk
    rw [through_visit_self, Function.update_self]
    exact hnew
  · by_cases hturn : set j = set k
    · -- then `j` is the phase after the next one, which nobody has been through
      obtain ⟨hj2, -⟩ := hj.of_visit hset hw hjk hturn
      obtain ⟨v, hv⟩ := hne
      rw [mem_through] at hv
      have h1 := hs v w
      by_cases hvw : v = w
      · rw [hvw, visit_self] at hv; omega
      · rw [visit_of_ne hvw] at hv; omega
    · rw [through_visit_of_ne hw hjk] at hne ⊢
      rw [Function.update_of_ne hturn]
      exact h j (hj.of_visit_other hset hw hturn) hne

end Phases
