/-
What the timeout queue does over its calls. The list it stands for is made from
the calls alone (`entries`): a push puts an index first, and a removal takes it
out. It is in the order of the last pushes, and since no push comes with an
earlier time than a call before it, in the order of the timestamps too.
-/
import SwitchML.Client.TimeoutQueue
import SwitchML.Lib.Machine
import Mathlib.Data.List.Induction
import Mathlib.Data.List.Pairwise

namespace SwitchML.Client

open Links (Follows)

inductive TimerCall (n : ℕ)
  | push (index : Fin n) (timestamp : ℕ)
  | remove (index : Fin n)
  | check (timestamp : ℕ)

namespace TimerCall

variable {n : ℕ}

def isPush (i : Fin n) : TimerCall n → Bool
  | .push j _ => i = j
  | _ => false

def isRemove (i : Fin n) : TimerCall n → Bool
  | .remove j => i = j
  | _ => false

/-! ## The ordered list -/

/-- The list after some calls, of which the last one comes first. -/
def entries : List (TimerCall n) → List (Fin n)
  | [] => []
  | .push i _ :: calls => i :: (entries calls).erase i
  | .remove i :: calls => (entries calls).erase i
  | .check _ :: calls => entries calls

/-- How many calls ago an index was pushed; it was not if this is their number. -/
def sincePush (calls : List (TimerCall n)) (i : Fin n) : ℕ := calls.findIdx (isPush i)

def sinceRemove (calls : List (TimerCall n)) (i : Fin n) : ℕ := calls.findIdx (isRemove i)

variable {calls : List (TimerCall n)} {i j : Fin n} {t : ℕ}

theorem sincePush_push : sincePush (.push j t :: calls) i = if i = j then 0 else sincePush calls i + 1 := by
  by_cases h : i = j <;> simp [sincePush, List.findIdx_cons, isPush, h]

theorem sincePush_cons {c : TimerCall n} (h : isPush i c = false) :
    sincePush (c :: calls) i = sincePush calls i + 1 := by
  simp [sincePush, List.findIdx_cons, h]

theorem sinceRemove_remove : sinceRemove (.remove j :: calls) i = if i = j then 0 else sinceRemove calls i + 1 := by
  by_cases h : i = j <;> simp [sinceRemove, List.findIdx_cons, isRemove, h]

theorem sinceRemove_cons {c : TimerCall n} (h : isRemove i c = false) :
    sinceRemove (c :: calls) i = sinceRemove calls i + 1 := by
  simp [sinceRemove, List.findIdx_cons, h]

theorem nodup_entries (calls : List (TimerCall n)) : (entries calls).Nodup := by
  induction calls with
  | nil => exact List.nodup_nil
  | cons c calls ih =>
    cases c with
    | push i t => exact List.nodup_cons.mpr ⟨ih.not_mem_erase, ih.erase i⟩
    | remove i => exact ih.erase i
    | check t => exact ih

/-- An index is in the list if its last push is later than its last removal. -/
theorem mem_entries (calls : List (TimerCall n)) (i : Fin n) :
    i ∈ entries calls ↔ sincePush calls i < sinceRemove calls i := by
  induction calls with
  | nil => simp [entries, sincePush, sinceRemove]
  | cons c calls ih =>
    have hnodup := nodup_entries calls
    cases c with
    | push j t =>
      rw [entries, List.mem_cons, hnodup.mem_erase_iff, sincePush_push, sinceRemove_cons rfl]
      by_cases h : i = j
      · simp [h]
      · simp [h, ih]
    | remove j =>
      rw [entries, hnodup.mem_erase_iff, sinceRemove_remove, sincePush_cons rfl]
      by_cases h : i = j
      · simp [h]
      · simp [h, ih]
    | check t => rw [entries, sincePush_cons rfl, sinceRemove_cons rfl, ih, Nat.add_lt_add_iff_right]

/-- The list is in the order of the last pushes, the newest one first. -/
theorem entries_sorted (calls : List (TimerCall n)) :
    (entries calls).Pairwise fun i j => sincePush calls i < sincePush calls j := by
  induction calls with
  | nil => exact List.Pairwise.nil
  | cons c calls ih =>
    have hnodup := nodup_entries calls
    cases c with
    | push i t =>
      have hold := ih.sublist (List.erase_sublist (a := i))
      refine List.pairwise_cons.mpr ⟨fun j hj => ?_, hold.imp_of_mem fun hj hk hjk => ?_⟩
      · have hne := (hnodup.mem_erase_iff.mp hj).1
        simp [sincePush_push, hne]
      · have hne := (hnodup.mem_erase_iff.mp hj).1
        have hne' := (hnodup.mem_erase_iff.mp hk).1
        rw [sincePush_push, sincePush_push, if_neg hne, if_neg hne']
        omega
    | remove i =>
      refine (ih.sublist List.erase_sublist).imp fun hjk => ?_
      rw [sincePush_cons rfl, sincePush_cons rfl]
      omega
    | check t =>
      refine ih.imp fun hjk => ?_
      rw [sincePush_cons rfl, sincePush_cons rfl]
      omega

end TimerCall

/-! ## The calls -/

structure TimerRun (n : ℕ) where
  queue : TimeoutQueue n
  /-- The process has died in `Push`. -/
  fatal : Bool
  /-- The greatest timestamp so far. -/
  now : ℕ
  /-- The calls, the last one first. -/
  calls : List (TimerCall n)

namespace TimerRun

open TimerCall

variable {n : ℕ}

def next (s : TimerRun n) (call : TimerCall n) : Option (TimerRun n) :=
  if s.fatal then none
  else
    match call with
    | .push index timestamp =>
      if s.now ≤ timestamp then
        some {
          queue := s.queue.push index timestamp
          fatal := s.queue.outOfOrder timestamp
          now := timestamp
          calls := call :: s.calls }
      else none
    | .remove index => some { s with queue := s.queue.remove index, calls := call :: s.calls }
    | .check timestamp =>
      if s.now ≤ timestamp then
        some { s with queue := (s.queue.check timestamp).1, now := timestamp, calls := call :: s.calls }
      else none

def machine (n : ℕ) : Machine (TimerRun n) (TimerCall n) where
  init s := ∃ timeout threshold increment,
    s = { queue := .new n timeout threshold increment, fatal := false, now := 0, calls := [] }
  next := next

/-- The queue is the list that the calls make, in the order of the timestamps. -/
structure Inv (s : TimerRun n) : Prop where
  alive : s.fatal = false
  lists : s.queue.Lists (entries s.calls)
  pushed : ∀ i ∈ entries s.calls, s.calls[sincePush s.calls i]? = some (.push i (s.queue.timestamp i))
  le_now : ∀ i ∈ entries s.calls, s.queue.timestamp i ≤ s.now
  sorted : (entries s.calls).Pairwise fun i j => s.queue.timestamp j ≤ s.queue.timestamp i

variable {s s' : TimerRun n} {i : Fin n} {t : ℕ}

theorem Inv.init (timeout threshold increment : ℕ) :
    Inv { queue := .new n timeout threshold increment, fatal := false, now := 0, calls := [] } where
  alive := rfl
  lists := .new _ _ _
  pushed _ hi := by cases hi
  le_now _ hi := by cases hi
  sorted := .nil

/-- The head is not younger than the calls. -/
theorem Inv.outOfOrder (h : Inv s) (ht : s.now ≤ t) : s.queue.outOfOrder t = false := by
  unfold TimeoutQueue.outOfOrder
  rw [h.lists.links.head]
  cases hhead : (entries s.calls).head? with
  | none => rfl
  | some head =>
    have hle := h.le_now head (List.mem_of_head? hhead)
    simp only [decide_eq_false_iff_not]
    omega

theorem timestamp_push (tq : TimeoutQueue n) (i j : Fin n) (t : ℕ) :
    (tq.push i t).timestamp j = if j = i then t else tq.timestamp j := by
  have hremove : (tq.remove i).timestamp = tq.timestamp := by
    unfold TimeoutQueue.remove
    split <;> rfl
  show Function.update (tq.remove i).timestamp i t j = _
  rw [hremove, Function.update_apply]

theorem timestamp_remove (tq : TimeoutQueue n) (i : Fin n) : (tq.remove i).timestamp = tq.timestamp := by
  unfold TimeoutQueue.remove
  split <;> rfl

theorem Inv.push (h : Inv s) (ht : s.now ≤ t) :
    Inv { queue := s.queue.push i t, fatal := s.queue.outOfOrder t, now := t, calls := .push i t :: s.calls } := by
  have hnodup := nodup_entries s.calls
  have hother {j : Fin n} (hj : j ∈ (entries s.calls).erase i) : j ≠ i ∧ j ∈ entries s.calls :=
    hnodup.mem_erase_iff.mp hj
  refine ⟨h.outOfOrder ht, h.lists.push i t, fun j hj => ?_, fun j hj => ?_, ?_⟩
  · show (TimerCall.push i t :: s.calls)[sincePush (.push i t :: s.calls) j]? = _
    rw [sincePush_push, timestamp_push]
    rcases List.mem_cons.mp hj with rfl | hj
    · simp
    · obtain ⟨hne, hmem⟩ := hother hj
      rw [if_neg hne, if_neg hne, List.getElem?_cons_succ]
      exact h.pushed j hmem
  · rw [timestamp_push]
    rcases List.mem_cons.mp hj with rfl | hj
    · simp
    · obtain ⟨hne, hmem⟩ := hother hj
      rw [if_neg hne]
      exact Nat.le_trans (h.le_now j hmem) ht
  · refine List.pairwise_cons.mpr ⟨fun j hj => ?_, ?_⟩
    · obtain ⟨hne, hmem⟩ := hother hj
      rw [timestamp_push, timestamp_push, if_neg hne, if_pos rfl]
      exact Nat.le_trans (h.le_now j hmem) ht
    · refine (h.sorted.sublist List.erase_sublist).imp_of_mem fun hj hk hjk => ?_
      rw [timestamp_push, timestamp_push, if_neg (hother hj).1, if_neg (hother hk).1]
      exact hjk

theorem Inv.remove (h : Inv s) : Inv { s with queue := s.queue.remove i, calls := .remove i :: s.calls } := by
  have hsub : (entries s.calls).erase i ⊆ entries s.calls := List.erase_subset
  refine ⟨h.alive, h.lists.remove i, fun j hj => ?_, fun j hj => ?_, ?_⟩
  · show (TimerCall.remove i :: s.calls)[sincePush (.remove i :: s.calls) j]? = _
    rw [sincePush_cons rfl, timestamp_remove, List.getElem?_cons_succ]
    exact h.pushed j (hsub hj)
  · rw [timestamp_remove]
    exact h.le_now j (hsub hj)
  · rw [timestamp_remove]
    exact h.sorted.sublist List.erase_sublist

theorem Inv.check (h : Inv s) (ht : s.now ≤ t) :
    Inv { s with queue := (s.queue.check t).1, now := t, calls := .check t :: s.calls } := by
  obtain ⟨-, -, hstamp⟩ := s.queue.check_links t
  refine ⟨h.alive, h.lists.check t, fun j hj => ?_, fun j hj => ?_, ?_⟩
  · show (TimerCall.check t :: s.calls)[sincePush (.check t :: s.calls) j]? = _
    rw [sincePush_cons rfl, hstamp, List.getElem?_cons_succ]
    exact h.pushed j hj
  · rw [hstamp]
    exact Nat.le_trans (h.le_now j hj) ht
  · rw [hstamp]
    exact h.sorted

theorem Inv.step (h : Inv s) {call : TimerCall n} (hn : s.next call = some s') : Inv s' := by
  unfold next at hn
  rw [if_neg (by simp [h.alive])] at hn
  cases call with
  | push i t =>
    simp only [Option.ite_none_right_eq_some, Option.some.injEq] at hn
    obtain ⟨ht, rfl⟩ := hn
    exact h.push ht
  | remove i =>
    simp only [Option.some.injEq] at hn
    exact hn ▸ h.remove
  | check t =>
    simp only [Option.ite_none_right_eq_some, Option.some.injEq] at hn
    obtain ⟨ht, rfl⟩ := hn
    exact h.check ht

theorem Inv.of_reachable (h : (machine n).Reachable s) : Inv s := by
  refine h.invariant (fun s hs => ?_) fun s call s' hI hn => hI.step hn
  obtain ⟨timeout, threshold, increment, rfl⟩ := hs
  exact .init timeout threshold increment

/-! ## What the queue is for -/

/-- The queue is a list of the entries that were pushed and not removed, linked
both ways and ordered by their time. -/
structure OrderedList (s : TimerRun n) (l : List (Fin n)) : Prop where
  forward : Follows s.queue.links.next s.queue.links.head l
  backward : Follows s.queue.links.previous s.queue.links.tail l.reverse
  nodup : l.Nodup
  valid : ∀ i, i ∈ l ↔ s.queue.valid i = true
  unlinked : ∀ i, s.queue.valid i = false → s.queue.links.next i = none ∧ s.queue.links.previous i = none
  sorted : l.Pairwise fun i j => s.queue.timestamp j ≤ s.queue.timestamp i
  member : ∀ i, i ∈ l ↔ sincePush s.calls i < sinceRemove s.calls i
  pushed : ∀ i ∈ l, s.calls[sincePush s.calls i]? = some (.push i (s.queue.timestamp i))

/-- A check finds the entry that was pushed longest ago if it is late. Nothing
else changes the timeout, and only the counter passing its threshold does. -/
structure ChecksOldest (s : TimerRun n) (t : ℕ) : Prop where
  found : ∀ i, (s.queue.check t).2 = some i ↔
    (s.queue.valid i = true ∧ ∀ j, s.queue.valid j = true → sincePush s.calls j ≤ sincePush s.calls i) ∧
      s.queue.timeout < (t - s.queue.timestamp i) / 10 ^ 6
  links : (s.queue.check t).1.links = s.queue.links ∧ (s.queue.check t).1.valid = s.queue.valid ∧
    (s.queue.check t).1.timestamp = s.queue.timestamp
  timeout : (s.queue.check t).1.timeout =
    if (s.queue.check t).2.isSome ∧ s.queue.Passes then s.queue.timeout * 2 else s.queue.timeout

theorem Inv.orderedList (h : Inv s) : s.OrderedList (entries s.calls) where
  forward := h.lists.links.follows_next
  backward := h.lists.links.follows_previous
  nodup := nodup_entries s.calls
  valid i := (h.lists.valid i).symm
  unlinked i hi := by
    refine h.lists.links.others i fun hmem => ?_
    rw [(h.lists.valid i).mpr hmem] at hi
    cases hi
  sorted := h.sorted
  member := mem_entries s.calls
  pushed := h.pushed

/-- The last entry is the one pushed longest ago. -/
theorem Inv.tail_iff (h : Inv s) : s.queue.links.tail = some i ↔
    s.queue.valid i = true ∧ ∀ j, s.queue.valid j = true → sincePush s.calls j ≤ sincePush s.calls i := by
  have hsorted := entries_sorted s.calls
  rw [h.lists.links.tail]
  simp only [h.lists.valid]
  constructor
  · intro hlast
    obtain ⟨l, hl⟩ := List.getLast?_eq_some_iff.mp hlast
    refine ⟨List.mem_of_getLast? hlast, fun j hj => ?_⟩
    rw [hl] at hsorted hj
    rcases List.mem_append.mp hj with hj | hj
    · exact Nat.le_of_lt ((List.pairwise_append.mp hsorted).2.2 j hj i (List.mem_singleton_self i))
    · exact Nat.le_of_eq (congrArg (sincePush s.calls) (List.mem_singleton.mp hj))
  · intro ⟨hi, hall⟩
    obtain ⟨xs, ys, hsplit⟩ := List.append_of_mem hi
    cases ys using List.reverseRecOn with
    | nil => rw [hsplit, List.getLast?_concat]
    | append_singleton ys j =>
      -- the last entry would have been pushed before
      have hlt : sincePush s.calls i < sincePush s.calls j := by
        rw [hsplit] at hsorted
        have hcons := (List.pairwise_append.mp hsorted).2.1
        exact (List.pairwise_cons.mp hcons).1 j (by simp)
      have hle := hall j (by rw [hsplit]; simp)
      omega

theorem Inv.checksOldest (h : Inv s) (t : ℕ) : s.ChecksOldest t where
  found i := by
    rw [TimeoutQueue.check_eq_some_iff, TimeoutQueue.TimedOut, h.tail_iff]
  links := s.queue.check_links t
  timeout := by
    rcases s.queue.check_cases t with ⟨i, -, hi, hc⟩ | ⟨-, hc⟩
    · rw [hi, hc]
      simp
    · rw [hc]
      simp

/-- The `FATAL` check never fires, and the queue is an ordered list. -/
theorem timeoutQueue_refines (h : (machine n).Reachable s) :
    s.fatal = false ∧ (∃ l, s.OrderedList l) ∧ ∀ t, s.now ≤ t → s.ChecksOldest t := by
  have hI := Inv.of_reachable h
  exact ⟨hI.alive, ⟨_, hI.orderedList⟩, fun t _ => hI.checksOldest t⟩

/-- Of three entries one is pushed again and one is removed. -/
def timerCalls : List (TimerCall 3) :=
  [.push 0 0, .push 1 (10 ^ 6), .push 2 (2 * 10 ^ 6), .push 0 (3 * 10 ^ 6), .remove 2]

theorem timeoutQueue_refines_three : ∃ (s : TimerRun 3) (l : List (Fin 3)), (machine 3).Reachable s ∧ s.fatal = false ∧
    s.OrderedList l ∧ 0 ∈ l ∧ 1 ∈ l ∧ 2 ∉ l ∧ (s.queue.check (10 * 10 ^ 6)).2 = some 1 := by
  have hrun : ((machine 3).run { queue := .new 3 1 100 100, fatal := false, now := 0, calls := [] } timerCalls).map
      (fun s => ((s.queue.valid 0, s.queue.valid 1, s.queue.valid 2), (sincePush s.calls 0, sincePush s.calls 1),
        s.now, s.queue.timeout, s.queue.timestamp 1)) =
      some ((true, true, false), (1, 3), 3 * 10 ^ 6, 1, 10 ^ 6) := by
    decide +kernel
  obtain ⟨s, hr, hs⟩ := Option.map_eq_some_iff.mp hrun
  simp only [Prod.mk.injEq] at hs
  obtain ⟨⟨h0, h1, h2⟩, ⟨hpush0, hpush1⟩, hnow, htimeout, hstamp⟩ := hs
  have hreach : (machine 3).Reachable s := Machine.Reachable.run (.init ⟨1, 100, 100, rfl⟩) hr
  obtain ⟨halive, ⟨l, hl⟩, hchecks⟩ := timeoutQueue_refines hreach
  refine ⟨s, l, hreach, halive, hl, (hl.valid 0).mpr h0, (hl.valid 1).mpr h1, ?_, ?_⟩
  · rw [hl.valid 2, h2]
    decide
  · refine ((hchecks (10 * 10 ^ 6) (by rw [hnow]; decide)).found 1).mpr ⟨⟨h1, fun j hj => ?_⟩, ?_⟩
    · match j with
      | 0 => rw [hpush0, hpush1]; decide
      | 1 => exact Nat.le_refl _
      | 2 => rw [h2] at hj; cases hj
    · rw [htimeout, hstamp]
      decide

end TimerRun

end SwitchML.Client
