/-
The all-reduce of `INT32` slices by RDMA workers, with 256 byte packets, from
the elements in the workers' memory to those that each worker's loop leaves
there. Messages of a number are for the same elements of all workers' slices
(`Placed.same`), so their sums are the results that a worker waits for.
-/
import SwitchML.Aggregation.RdmaSums
import SwitchML.Client.RdmaSlices

namespace SwitchML.Aggregation

open P4 Tna Phases Controller Client

namespace RdmaState

variable {n : ℕ} {S : RdmaSession n} {K : Type} {ops : FloatOps K} {s s' : RdmaState S K} {w : Fin n}
  {q : S.config.Qpn} {jobs : Fin n → ℕ → JobSlice} {input : Fin n → ℕ → ℕ → Word} {numel : ℕ → ℕ}

/-- Responses are in time, and each worker begins its slices in order, with its
elements in the input, and has the buffers to itself while it works on them. -/
def reduces (jobs : Fin n → ℕ → JobSlice) (input : Fin n → ℕ → ℕ → Word) (s : RdmaState S K) (e : RdmaEvent S) :
    Bool :=
  s.inTime e &&
    match e with
    | .thread w e => (s.threads w).keepsBuffers (jobs w) (input w) e
    | _ => true

/-- Every worker's slices end with the sums over all workers. -/
def Sums (jobs : Fin n → ℕ → JobSlice) (input : Fin n → ℕ → ℕ → Word) (numel : ℕ → ℕ) (s : RdmaState S K) : Prop :=
  ∀ w, (s.threads w).Plays (jobs w) numel (input w) fun k i => ∑ v, input v k i

theorem inTime_of_reduces {e : RdmaEvent S} (h : s.reduces jobs input e = true) : s.inTime e = true := by
  unfold reduces at h
  rw [Bool.and_eq_true] at h
  exact h.1

/-- What an accepted message holds are the sums of the elements it is for. -/
theorem Sums.accepted (h : s.Sums jobs input numel) (h256 : S.packetSize = .MTU_256)
    (hr : (machine ops).Reach (fun s e => s.inTime e = true) s) {r : Response n} {t : RdmaWorkerThread S.config K}
    (hmem : r ∈ s.completions (q, w)) (ht : (s.threads w).next ops (.complete (completion q r)) = some t)
    (hacc : (s.threads w).isExpected (completion q r) = true) {k : ℕ} (hk : (s.threads w).slices = k + 1) {j : ℕ}
    (hj : j < S.config.msgNumel) (hlt : (s.threads w).msgIds q * S.config.msgNumel + j < numel k) :
    htonl ((s.threads w).buffers q j) = ∑ v, input v k ((s.threads w).msgIds q * S.config.msgNumel + j) := by
  obtain ⟨⟨l, hout⟩, -⟩ := expected_id hr.reachable ht hacc
  obtain ⟨post, hpost⟩ := exists_posts hr hmem
  have hnum : (s.threads w).Numbered q := .of_reachable (threads_reachable hr.reachable w) q
  have hcurrent : (post w).wr = s.currentWr q w := hnum.current _ (hpost w).1 (hpost w).2
  rw [completed_word h256 hr hmem hpost hj, htonl_htonl]
  refine Finset.sum_congr rfl fun v _ => ?_
  obtain ⟨-, -, k', hk', hwords⟩ := ((h w).posts q _ (hpost w).1).same ((h v).posts q _ (hpost v).1)
    ((hpost w).2.trans (hpost v).2.symm)
  have hid : (post w).wr.msgId = (s.threads w).msgIds q := by
    rw [hcurrent]
    exact hout.msgId
  obtain rfl : k = k' := by
    have hslice : (post w).wr.slice = (s.threads w).slices := by
      rw [hcurrent]
      exact hout.slice
    omega
  rw [hid] at hwords
  rw [hwords j hj hlt, htonl_htonl]

/-- A worker's step. -/
theorem Sums.setThread (h : s.Sums jobs input numel) {t : RdmaWorkerThread S.config K}
    (ht : t.Plays (jobs w) numel (input w) fun k i => ∑ v, input v k i) : (s.setThread w t).Sums jobs input numel := by
  intro u
  by_cases hu : u = w
  · subst hu
    rw [setThread_self]
    exact ht
  · rw [setThread_of_ne hu]
    exact h u

theorem Sums.step (h : s.Sums jobs input numel) (h256 : S.packetSize = .MTU_256)
    (hjobs : ∀ w k, (jobs w k).slice.dataType = .int32 ∧ (jobs w k).slice.numel = numel k ∧ (jobs w k).slice.Separate)
    (hr : (machine ops).Reach (fun s e => s.inTime e = true) s) {e : RdmaEvent S} (hok : s.reduces jobs input e = true)
    (hn : s.next ops e = some s') : s'.Sums jobs input numel := by
  have hB (w : Fin n) := RdmaWorkerThread.Bookkeeping.of_reachable (threads_reachable hr.reachable w)
  cases RdmaState.step hn with
  | threaded w e t he ht =>
    simp only [reduces, inTime, Bool.true_and] at hok
    refine h.setThread ((h w).step (hB w) ht (hjobs w) hok fun completion hc => ?_)
    rw [hc] at he
    cases he
  | emitted => exact h
  | slotted => exact h
  | lost => exact h
  | delivered x w i r hin =>
    intro u
    by_cases hu : u = w
    · subst hu
      have hthread : (s.deliver x u i r).threads u = { s.threads u with
          buffers := Function.update (s.threads u).buffers x.1 (S.write x r.wire.payload ((s.threads u).buffers x.1)) } :=
        Function.update_self ..
      rw [hthread]
      exact (h u).congr ⟨rfl, rfl, rfl, rfl, rfl, rfl⟩ (fun _ => rfl) fun _ _ hp => .inl hp
    · have hthread : (s.deliver x w i r).threads u = s.threads u := Function.update_of_ne hu ..
      rw [hthread]
      exact h u
  | polled q w r t hhead ht =>
    have hmem := List.mem_of_getElem? hhead
    exact h.setThread ((h w).complete (hB w) ht fun hacc k hk j hj hlt => h.accepted h256 hr hmem ht hacc hk hj hlt)

theorem Sums.of_reach (h256 : S.packetSize = .MTU_256)
    (hjobs : ∀ w k, (jobs w k).slice.dataType = .int32 ∧ (jobs w k).slice.numel = numel k ∧ (jobs w k).slice.Separate)
    (h : (machine ops).Reach (fun s e => s.reduces jobs input e = true) s) : s.Sums jobs input numel := by
  induction h with
  | init hs =>
    obtain ⟨memory, buffers, rfl⟩ := hs
    exact fun w => .init (memory w) (buffers w)
  | step hr hok hn ih => exact ih.step h256 hjobs (hr.mono fun _ _ => inTime_of_reduces) hok hn

end RdmaState

end SwitchML.Aggregation
