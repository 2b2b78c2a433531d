/-
`rdma_timeout_queue.cc`: the queue of the running timers. The entries are linked
from the newest one to the oldest, and the oldest one is checked.

`-1` for an index is `none` here. The fields of the entries are functions of the
index, a time point is a number of nanoseconds. The counter and its threshold are
`uint32_t`.
-/
import SwitchML.Lib.Links
import Mathlib.Algebra.Group.Nat.Defs

namespace SwitchML.Client

structure TimeoutQueue (numEntries : ℕ) where
  valid : Fin numEntries → Bool
  /-- `next` and `previous` of the entries, `head_` and `tail_` -/
  links : Links (Fin numEntries)
  timestamp : Fin numEntries → ℕ
  /-- In milliseconds. -/
  timeout : ℕ
  timeoutsCounter : ℕ
  timeoutsThreshold : ℕ
  timeoutsThresholdIncrement : ℕ

namespace TimeoutQueue

variable {n : ℕ}

def new (n timeout timeoutsThreshold timeoutsThresholdIncrement : ℕ) : TimeoutQueue n where
  valid _ := false
  links := .empty
  timestamp _ := 0
  timeout
  timeoutsCounter := 0
  timeoutsThreshold
  timeoutsThresholdIncrement

/-- The new insertion is older than the current head, which is fatal. -/
def outOfOrder (tq : TimeoutQueue n) (timestamp : ℕ) : Bool :=
  match tq.links.head with
  | some head => timestamp < tq.timestamp head
  | none => false

def remove (tq : TimeoutQueue n) (index : Fin n) : TimeoutQueue n :=
  if tq.valid index then
    { tq with
      links := tq.links.unlink index
      valid := Function.update tq.valid index false }
  else tq

/-- `Push`, where the insertion is in order. -/
def push (tq : TimeoutQueue n) (index : Fin n) (timestamp : ℕ) : TimeoutQueue n :=
  -- Remove current entry for this index
  let tq := tq.remove index
  { tq with
    valid := Function.update tq.valid index true
    links := tq.links.pushFront index
    timestamp := Function.update tq.timestamp index timestamp }

/-- The index of the oldest entry if it has timed out. -/
def check (tq : TimeoutQueue n) (timestamp : ℕ) : TimeoutQueue n × Option (Fin n) :=
  match tq.links.tail with
  | some tail =>
    let interval := (timestamp - tq.timestamp tail) / 10 ^ 6
    if tq.timeout < interval then
      let tq := { tq with timeoutsCounter := (tq.timeoutsCounter + 1) % 2 ^ 32 }
      let tq :=
        if tq.timeoutsThreshold < tq.timeoutsCounter then
          -- Backoff: we double the timeout once the timeouts exceed the threshold
          { tq with
            timeoutsCounter := 0
            timeout := tq.timeout * 2
            timeoutsThreshold := (tq.timeoutsThreshold + tq.timeoutsThresholdIncrement) % 2 ^ 32 }
        else tq
      (tq, some tail)
    else (tq, none)
  | none => (tq, none)

/-! ## The list of the entries -/

/-- The valid entries are those of the list, from the newest to the oldest. -/
structure Lists (tq : TimeoutQueue n) (l : List (Fin n)) : Prop where
  links : tq.links.Lists l
  valid : ∀ i, tq.valid i = true ↔ i ∈ l

variable {tq : TimeoutQueue n} {l : List (Fin n)}

theorem Lists.new (timeout threshold increment : ℕ) : (new n timeout threshold increment).Lists [] where
  links := .empty
  valid i := by simp [TimeoutQueue.new]

theorem Lists.remove (h : tq.Lists l) (i : Fin n) : (tq.remove i).Lists (l.erase i) := by
  unfold TimeoutQueue.remove
  by_cases hv : tq.valid i = true
  · have hi := (h.valid i).mp hv
    obtain ⟨xs, ys, rfl⟩ := List.append_of_mem hi
    have hxs := h.links.neighbours.1
    have herase : (xs ++ i :: ys).erase i = xs ++ ys := by
      rw [List.erase_append_right _ hxs, List.erase_cons_head]
    rw [if_pos hv, herase]
    refine ⟨h.links.unlink, fun j => ?_⟩
    show Function.update tq.valid i false j = true ↔ _
    rw [← herase, h.links.nodup.mem_erase_iff, ← h.valid]
    by_cases hj : j = i
    · simp [hj]
    · simp [hj]
  · have hi : i ∉ l := fun hm => hv ((h.valid i).mpr hm)
    rw [if_neg hv, List.erase_of_not_mem hi]
    exact h

/-- A push puts the entry first, wherever it was. -/
theorem Lists.push (h : tq.Lists l) (i : Fin n) (timestamp : ℕ) :
    (tq.push i timestamp).Lists (i :: l.erase i) := by
  have hr := h.remove i
  have hi : i ∉ l.erase i := h.links.nodup.not_mem_erase
  refine ⟨hr.links.pushFront hi, fun j => ?_⟩
  show Function.update (tq.remove i).valid i true j = true ↔ _
  by_cases hj : j = i
  · simp [hj]
  · simp [hj, hr.valid]

/-! ## What a check does -/

/-- The oldest entry has timed out. -/
def TimedOut (tq : TimeoutQueue n) (timestamp : ℕ) (i : Fin n) : Prop :=
  tq.links.tail = some i ∧ tq.timeout < (timestamp - tq.timestamp i) / 10 ^ 6

/-- The counter passes the threshold with one more timeout. -/
def Passes (tq : TimeoutQueue n) : Prop := tq.timeoutsThreshold < (tq.timeoutsCounter + 1) % 2 ^ 32

instance (tq : TimeoutQueue n) : Decidable tq.Passes := Nat.decLt _ _

/-- A check changes the counter, and the timeout with its threshold, and only
where the oldest entry has timed out. -/
theorem check_cases (tq : TimeoutQueue n) (timestamp : ℕ) :
    (∃ i, tq.TimedOut timestamp i ∧ (tq.check timestamp).2 = some i ∧ (tq.check timestamp).1 =
      { tq with
        timeoutsCounter := if tq.Passes then 0 else (tq.timeoutsCounter + 1) % 2 ^ 32
        timeout := if tq.Passes then tq.timeout * 2 else tq.timeout
        timeoutsThreshold :=
          if tq.Passes then (tq.timeoutsThreshold + tq.timeoutsThresholdIncrement) % 2 ^ 32 else tq.timeoutsThreshold }) ∨
    (∀ i, ¬tq.TimedOut timestamp i) ∧ tq.check timestamp = (tq, none) := by
  unfold TimeoutQueue.check
  cases htail : tq.links.tail with
  | none =>
    refine .inr ⟨fun i hi => ?_, rfl⟩
    have hsome := hi.1
    rw [htail] at hsome
    cases hsome
  | some tail =>
    dsimp only
    by_cases hlate : tq.timeout < (timestamp - tq.timestamp tail) / 10 ^ 6
    · refine .inl ⟨tail, ⟨htail, hlate⟩, ?_, ?_⟩
      · rw [if_pos hlate]
      · rw [if_pos hlate]
        by_cases hpass : tq.timeoutsThreshold < (tq.timeoutsCounter + 1) % 2 ^ 32
        · have hp : tq.Passes := hpass
          simp only [hpass, hp, if_true]
        · have hp : ¬tq.Passes := hpass
          simp only [hpass, hp, if_false]
    · refine .inr ⟨fun i hi => ?_, ?_⟩
      · obtain ⟨hsome, hlate'⟩ := hi
        rw [htail, Option.some.injEq] at hsome
        subst hsome
        exact hlate hlate'
      · rw [if_neg hlate]

/-- The list stays as it is. -/
theorem check_links (tq : TimeoutQueue n) (timestamp : ℕ) :
    (tq.check timestamp).1.links = tq.links ∧ (tq.check timestamp).1.valid = tq.valid ∧
      (tq.check timestamp).1.timestamp = tq.timestamp := by
  rcases tq.check_cases timestamp with ⟨i, -, -, hc⟩ | ⟨-, hc⟩
  · rw [hc]
    exact ⟨rfl, rfl, rfl⟩
  · rw [hc]
    exact ⟨rfl, rfl, rfl⟩

theorem Lists.check (h : tq.Lists l) (timestamp : ℕ) : (tq.check timestamp).1.Lists l := by
  obtain ⟨hlinks, hvalid, -⟩ := tq.check_links timestamp
  exact ⟨by rw [hlinks]; exact h.links, by rw [hvalid]; exact h.valid⟩

theorem check_eq_some_iff {timestamp : ℕ} {i : Fin n} :
    (tq.check timestamp).2 = some i ↔ tq.TimedOut timestamp i := by
  rcases tq.check_cases timestamp with ⟨j, hj, hc, -⟩ | ⟨hnone, hc⟩
  · rw [hc, Option.some.injEq]
    constructor
    · rintro rfl
      exact hj
    · intro hi
      have htail := hi.1
      rw [hj.1, Option.some.injEq] at htail
      exact htail
  · rw [hc]
    constructor
    · intro hi
      cases hi
    · intro hi
      exact absurd hi (hnone i)

/-- What has timed out is the oldest entry. -/
theorem Lists.check_eq_some (h : tq.Lists l) {timestamp : ℕ} {i : Fin n} (hc : (tq.check timestamp).2 = some i) :
    l.getLast? = some i := by
  rw [← h.links.tail]
  exact (check_eq_some_iff.mp hc).1

/-- The timeout is a number of milliseconds in 64 bits: where it is doubled it is
less than an interval, which is as many nanoseconds at most. -/
theorem check_timeout_lt {timestamp : ℕ} (ht : timestamp < 2 ^ 63) (h : tq.timeout < 2 ^ 63) :
    (tq.check timestamp).1.timeout < 2 ^ 63 := by
  rcases tq.check_cases timestamp with ⟨i, hi, -, hc⟩ | ⟨-, hc⟩
  · rw [hc]
    have hlate := hi.2
    show (if tq.Passes then tq.timeout * 2 else tq.timeout) < 2 ^ 63
    split <;> omega
  · rw [hc]
    exact h

end TimeoutQueue

end SwitchML.Client
