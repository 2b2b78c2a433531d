/-
A family of queues, one for each key: elements are taken from one queue and
put at the end of another. Queues that are passed through one after the other
form a line (`line`), the furthest queue first: the head of one queue moving to
the end of the next keeps its place in the line.
-/
import Mathlib.Algebra.Order.BigOperators.Group.Finset
import Mathlib.Data.Fintype.Basic
import Mathlib.Data.List.Basic

universe u v

/-- One list for each key. -/
abbrev Queues (κ : Type u) (α : Type v) := κ → List α

namespace Queues

variable {κ : Type u} {α : Type v}

/-- The queues without the `i`-th element of one of them. -/
def take [DecidableEq κ] (Q : Queues κ α) (key : κ) (i : ℕ) : Queues κ α := Function.update Q key ((Q key).eraseIdx i)

/-- The queues with an element at the end of one of them. -/
def put [DecidableEq κ] (Q : Queues κ α) (key : κ) (a : α) : Queues κ α := Function.update Q key (Q key ++ [a])

variable {Q : Queues κ α} {key key' : κ} {i : ℕ} {a b : α}

section Update

variable [DecidableEq κ]

theorem take_self : Q.take key i key = (Q key).eraseIdx i := Function.update_self ..

theorem take_of_ne (h : key' ≠ key) : Q.take key i key' = Q key' := Function.update_of_ne h ..

theorem put_self : Q.put key a key = Q key ++ [a] := Function.update_self ..

theorem put_of_ne (h : key' ≠ key) : Q.put key a key' = Q key' := Function.update_of_ne h ..

theorem mem_of_mem_take (h : b ∈ Q.take key i key') : b ∈ Q key' := by
  by_cases hk : key' = key
  · subst hk
    rw [take_self] at h
    exact List.mem_of_mem_eraseIdx h
  · rwa [take_of_ne hk] at h

/-- Only the element taken leaves its queue. -/
theorem mem_take_or (key : κ) (i : ℕ) (h : b ∈ Q key') : b ∈ Q.take key i key' ∨ key' = key ∧ (Q key)[i]? = some b := by
  by_cases hk : key' = key
  · subst hk
    rw [take_self]
    obtain ⟨j, hj⟩ := List.mem_iff_getElem?.mp h
    by_cases hji : j = i
    · exact Or.inr ⟨rfl, hji ▸ hj⟩
    · refine Or.inl (List.mem_eraseIdx_iff_getElem?.mpr ⟨j, hji, hj⟩)
  · rw [take_of_ne hk]
    exact Or.inl h

theorem mem_put : b ∈ Q.put key a key' ↔ b ∈ Q key' ∨ key' = key ∧ b = a := by
  by_cases hk : key' = key
  · subst hk
    simp [put_self]
  · simp [put_of_ne hk, hk]

end Update

/-! ## Counting -/

section Total

variable [Fintype κ] {p : α → Bool}

/-- How many elements of all queues meet `p`. -/
def total (Q : Queues κ α) (p : α → Bool) : ℕ := ∑ key, (Q key).countP p

theorem le_total (h : a ∈ Q key) (hp : p a = true) : 1 ≤ Q.total p := by
  have h1 : 0 < (Q key).countP p := List.countP_pos_iff.mpr ⟨a, h, hp⟩
  have h2 : (Q key).countP p ≤ Q.total p :=
    Finset.single_le_sum (f := fun k => (Q k).countP p) (fun _ _ => Nat.zero_le _) (Finset.mem_univ key)
  omega

/-- The elements of all queues, where each counts for the cost of its queue. -/
def load (Q : Queues κ α) (cost : κ → ℕ) : ℕ := ∑ key, (Q key).length * cost key

variable {cost : κ → ℕ}

variable [DecidableEq κ]

theorem total_update (Q : Queues κ α) (key : κ) (l : List α) (p : α → Bool) :
    total (Function.update Q key l) p + (Q key).countP p = total Q p + l.countP p := by
  unfold total
  rw [← Finset.add_sum_erase _ _ (Finset.mem_univ key), ← Finset.add_sum_erase _ (fun k => (Q k).countP p)
    (Finset.mem_univ key), Function.update_self]
  have hrest : ∑ k ∈ Finset.univ.erase key, (Function.update Q key l k).countP p =
      ∑ k ∈ Finset.univ.erase key, (Q k).countP p := by
    refine Finset.sum_congr rfl fun k hk => ?_
    rw [Function.update_of_ne (Finset.ne_of_mem_erase hk)]
  rw [hrest]
  omega

theorem countP_eraseIdx {l : List α} (h : l[i]? = some a) :
    (l.eraseIdx i).countP p + (if p a then 1 else 0) = l.countP p := by
  induction l generalizing i with
  | nil => simp at h
  | cons b l ih =>
    cases i with
    | zero =>
      simp only [List.getElem?_cons_zero, Option.some.injEq] at h
      rw [List.eraseIdx_cons_zero, List.countP_cons, h]
    | succ i =>
      rw [List.getElem?_cons_succ] at h
      rw [List.eraseIdx_cons_succ, List.countP_cons, List.countP_cons, ← ih h]
      omega

theorem total_take (h : (Q key)[i]? = some a) : (Q.take key i).total p + (if p a then 1 else 0) = Q.total p := by
  have h1 := total_update Q key ((Q key).eraseIdx i) p
  have h2 := countP_eraseIdx (p := p) h
  unfold take
  omega

theorem total_put : (Q.put key a).total p = Q.total p + (if p a then 1 else 0) := by
  have h1 := total_update Q key (Q key ++ [a]) p
  rw [List.countP_append, List.countP_singleton] at h1
  unfold put
  omega

end Total

/-! ## Lines -/

/-- The queues of some keys, one after the other. -/
def line (Q : Queues κ α) (keys : List κ) : List α := keys.flatMap Q

theorem mem_line {keys : List κ} : a ∈ Q.line keys ↔ ∃ key ∈ keys, a ∈ Q key := List.mem_flatMap

theorem line_congr {Q' : Queues κ α} {keys : List κ} (h : ∀ key ∈ keys, Q' key = Q key) :
    Q'.line keys = Q.line keys := List.flatMap_congr h

theorem line_sublist {Q' : Queues κ α} {keys : List κ} (h : ∀ key ∈ keys, List.Sublist (Q' key) (Q key)) :
    List.Sublist (Q'.line keys) (Q.line keys) := by
  induction keys with
  | nil => exact List.Sublist.slnil
  | cons k keys ih =>
    exact List.Sublist.append (h k (List.mem_cons_self ..)) (ih fun key hkey => h key (List.mem_cons_of_mem _ hkey))

/-- In a line ordered by `R`, the head of a queue stands before the rest of its
queue and before the queues behind. -/
theorem rel_of_head {R : α → α → Prop} {pre post : List κ} (hline : (Q.line (pre ++ key :: post)).Pairwise R)
    (h : (Q key)[0]? = some a) :
    (∀ b ∈ (Q key).eraseIdx 0, R a b) ∧ ∀ k ∈ post, ∀ b ∈ Q k, R a b := by
  obtain ⟨tail, htail⟩ : ∃ tail, Q key = a :: tail := by
    cases hq : Q key with
    | nil => simp [hq] at h
    | cons c tail => simp only [hq, List.getElem?_cons_zero, Option.some.injEq] at h; exact ⟨tail, by rw [h]⟩
  have hcons : Q.line (pre ++ key :: post) = Q.line pre ++ (a :: (tail ++ Q.line post)) := by
    simp only [line, List.flatMap_append, List.flatMap_cons, htail, List.cons_append]
  rw [hcons, List.pairwise_append, List.pairwise_cons] at hline
  obtain ⟨-, ⟨hrel, -⟩, -⟩ := hline
  rw [htail, List.eraseIdx_cons_zero]
  exact ⟨fun b hb => hrel b (List.mem_append_left _ hb),
    fun k hk b hb => hrel b (List.mem_append_right _ (mem_line.mpr ⟨k, hk, hb⟩))⟩

variable [DecidableEq κ]

theorem take_sublist (key' : κ) : List.Sublist (Q.take key i key') (Q key') := by
  by_cases hk : key' = key
  · subst hk
    rw [take_self]
    exact List.eraseIdx_sublist ..
  · rw [take_of_ne hk]

theorem line_take_sublist (keys : List κ) : List.Sublist ((Q.take key i).line keys) (Q.line keys) :=
  line_sublist fun k _ => take_sublist k

/-- Joining the last queue of a line is joining its end. -/
theorem line_put_last {keys : List κ} (hn : key ∉ keys) :
    (Q.put key a).line (keys ++ [key]) = Q.line (keys ++ [key]) ++ [a] := by
  have hkeys : (Q.put key a).line keys = Q.line keys := by
    refine line_congr fun k hk => put_of_ne ?_
    rintro rfl
    exact hn hk
  have hcons : ∀ R : Queues κ α, R.line (keys ++ [key]) = R.line keys ++ R key := by
    intro R
    simp only [line, List.flatMap_append, List.flatMap_singleton]
  rw [hcons, hcons, hkeys, put_self, List.append_assoc]

/-- The head of a queue moves to the end of the queue before it: the line stays
as it was, with `b` in the place of `a`. -/
theorem line_move {pre post : List κ} (hnd : (pre ++ key' :: key :: post).Nodup) (h : (Q key)[0]? = some a) :
    ∃ l r, Q.line (pre ++ key' :: key :: post) = l ++ a :: r ∧
      ((Q.take key 0).put key' b).line (pre ++ key' :: key :: post) = l ++ b :: r ∧
      ∀ c ∈ l, ∃ k ∈ pre ++ [key'], c ∈ Q k := by
  obtain ⟨tail, htail⟩ : ∃ tail, Q key = a :: tail := by
    cases hq : Q key with
    | nil => simp [hq] at h
    | cons c tail => simp only [hq, List.getElem?_cons_zero, Option.some.injEq] at h; exact ⟨tail, by rw [h]⟩
  rw [List.nodup_append] at hnd
  obtain ⟨-, hnd, hdisj⟩ := hnd
  rw [List.nodup_cons, List.nodup_cons, List.mem_cons, not_or] at hnd
  obtain ⟨⟨hne, hk'⟩, hk, -⟩ := hnd
  refine ⟨Q.line pre ++ Q key', tail ++ Q.line post, ?_, ?_, ?_⟩
  · simp only [line, List.flatMap_append, List.flatMap_cons, htail, List.append_assoc, List.cons_append]
  · have hpre : ((Q.take key 0).put key' b).line pre = Q.line pre := by
      refine line_congr fun k hmem => ?_
      rw [put_of_ne fun h => hdisj k hmem k (by simp [h]) rfl,
        take_of_ne fun h => hdisj k hmem k (by simp [h]) rfl]
    have hpost : ((Q.take key 0).put key' b).line post = Q.line post := by
      refine line_congr fun k hmem => ?_
      rw [put_of_ne (ne_of_mem_of_not_mem hmem hk'), take_of_ne (ne_of_mem_of_not_mem hmem hk)]
    have hcons : ∀ R : Queues κ α, R.line (pre ++ key' :: key :: post) =
        R.line pre ++ (R key' ++ (R key ++ R.line post)) := by
      intro R
      simp only [line, List.flatMap_append, List.flatMap_cons]
    rw [hcons, hpre, hpost, put_self, put_of_ne (Ne.symm hne), take_of_ne hne, take_self, htail]
    simp only [List.eraseIdx_cons_zero, List.append_assoc, List.cons_append, List.nil_append]
  · intro c hc
    rcases List.mem_append.mp hc with hc | hc
    · obtain ⟨k, hk, hc⟩ := mem_line.mp hc
      exact ⟨k, List.mem_append_left _ hk, hc⟩
    · exact ⟨key', List.mem_append_right _ (List.mem_singleton.mpr rfl), hc⟩

end Queues
