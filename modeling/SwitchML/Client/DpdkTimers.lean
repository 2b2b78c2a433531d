/-
The timers of the DPDK worker thread. A packet's timer is meant to hold the
packet's own id and pool index. The first batch sets them after it has
incremented the id: packet `j` gets the timer of packet `j + 1`, with the id
`j + 1` and the pool index of packet `j`. So there is never a slice during which
the timers are as they are meant to be.
-/
import SwitchML.Client.DpdkReceive

namespace SwitchML.Client

namespace DpdkWorkerThread

variable {K : Type} {c : DpdkConfig} {ops : FloatOps K} {s s' : DpdkWorkerThread K} {sl : DpdkSlice}

/-- The arguments the timer of a packet should have. -/
def ownArgs (c : DpdkConfig) (s : DpdkWorkerThread K) (sl : DpdkSlice) (pktId : ℕ) : ResendPacketCallbackArgs where
  jobId := sl.jobId
  pktId := pktId
  switchPoolIndex := s.poolIndex c pktId

/-- The timers that are armed are those of the outstanding packets, one each. -/
structure TimersTrack (c : DpdkConfig) (s : DpdkWorkerThread K) (sl : DpdkSlice) : Prop where
  own : ∀ p ∈ sl.sent, p ∉ sl.accepted → ∃! i, s.timers i = some (s.ownArgs c sl p)
  only : ∀ i args, s.timers i = some args → ∃ p ∈ sl.sent, p ∉ sl.accepted ∧ args = s.ownArgs c sl p

/-- The arguments the first batch gives the timer it sets for packet `j`. -/
def batchArgs (c : DpdkConfig) (s : DpdkWorkerThread K) (jobId j : ℕ) : ResendPacketCallbackArgs where
  jobId := jobId
  pktId := (j + 1) % 2 ^ 32
  switchPoolIndex := s.poolIndex c j

/-- As long as there are as many timers as packets, each keeps what it was given. -/
theorem armBatch_eq (s : DpdkWorkerThread K) (jobId : ℕ) {n j : ℕ} (hj : j < n) (hn : n ≤ c.maxOutstandingPkts) :
    s.armBatch c jobId n ((j + 1) % c.maxOutstandingPkts) = some (s.batchArgs c jobId j) := by
  induction n with
  | zero => omega
  | succ n ih =>
    rw [armBatch, List.range_succ, List.foldl_append, List.foldl_cons, List.foldl_nil]
    by_cases hjn : j = n
    · subst hjn
      exact Function.update_self ..
    · rw [Function.update_of_ne]
      · exact ih (by omega) (by omega)
      · -- the residues of two ids of a batch differ
        intro heq
        by_cases hlast : n + 1 = c.maxOutstandingPkts
        · rw [hlast, Nat.mod_self, Nat.mod_eq_of_lt (by omega)] at heq
          omega
        · rw [Nat.mod_eq_of_lt (by omega), Nat.mod_eq_of_lt (by omega)] at heq
          omega

/-- When the receive loop is entered, every packet of the first batch has the
timer that belongs to the next one. -/
theorem begin_timers (ht : c.timeouts = true) {job : JobSlice} {bufs : ℕ → Packet}
    (hb : s.begin c ops job bufs = some s') : ∃ sl, s'.current = some sl ∧ sl.posts = [] ∧
      sl.sent = List.range sl.batchNumPkts ∧ sl.batchNumPkts < 2 ^ 16 ∧ sl.batchNumPkts ≤ c.maxOutstandingPkts ∧
      ∀ j < sl.batchNumPkts, s'.timers ((j + 1) % c.maxOutstandingPkts) = some (s'.batchArgs c sl.jobId j) := by
  obtain ⟨hbatch, -, rfl⟩ := begin_eq_some hb
  refine ⟨_, rfl, rfl, rfl, hbatch, min_le_left _ _, fun j hj => ?_⟩
  simp only [ht, if_true]
  exact armBatch_eq _ _ hj (min_le_left _ _)

/-- Whatever the slice, the timers are not those of the outstanding packets when
the receive loop is entered. -/
theorem timers_never_track (ht : c.timeouts = true) (h : (machine c ops).Reachable s) {job : JobSlice}
    {bufs : ℕ → Packet} (hn : s.next c ops (.begin job bufs) = some s') :
    ∃ sl, s'.current = some sl ∧ ¬TimersTrack c s' sl := by
  have hstatic := Static.of_reachable h
  cases DpdkWorkerThread.step hn with
  | began _ _ _ _ hnumel hb =>
    obtain ⟨sl, hs, -, hsent, hlt, -, htimers⟩ := begin_timers ht hb
    refine ⟨sl, hs, fun htrack => ?_⟩
    have hpos : 0 < sl.batchNumPkts := by
      obtain ⟨-, -, rfl⟩ := begin_eq_some hb
      cases hs
      exact hstatic.batch_pos hnumel
    -- the last packet's timer has the id of a packet that was not sent
    have hlast := htimers (sl.batchNumPkts - 1) (by omega)
    obtain ⟨p, hp, -, hargs⟩ := htrack.only _ _ hlast
    have hid : (sl.batchNumPkts - 1 + 1) % 2 ^ 32 = p := congrArg ResendPacketCallbackArgs.pktId hargs
    rw [hsent, List.mem_range] at hp
    rw [Nat.sub_add_cancel hpos, Nat.mod_eq_of_lt (by omega)] at hid
    omega

/-- A slice of one packet: its timer has the id 1. -/
theorem timers_track_next : ∃ (s : DpdkWorkerThread ℕ) (sl : DpdkSlice),
    (machine (exampleConfig 1 (by decide)) exampleOps).Reachable s ∧ s.current = some sl ∧
    ¬TimersTrack (exampleConfig 1 (by decide)) s sl := by
  have hrun : ((machine (exampleConfig 1 (by decide)) exampleOps).run (new (exampleConfig 1 (by decide)) fun _ => 0)
      [.begin (exampleSlice 0 1 .int32) fun _ => examplePacket]).bind
      (fun s => s.current.map fun sl => (sl.sent, s.timers 0)) =
      some ([0], some { jobId := 0, pktId := 1, switchPoolIndex := 0 }) := by
    decide +kernel
  obtain ⟨s, hr, hcur⟩ := Option.bind_eq_some_iff.mp hrun
  obtain ⟨sl, hs, heq⟩ := Option.map_eq_some_iff.mp hcur
  simp only [Prod.mk.injEq] at heq
  obtain ⟨hsent, htimer⟩ := heq
  refine ⟨s, sl, Machine.Reachable.run (.init ⟨_, rfl⟩) hr, hs, fun htrack => ?_⟩
  obtain ⟨p, hp, -, hargs⟩ := htrack.only 0 _ htimer
  have hid : 1 = p := congrArg ResendPacketCallbackArgs.pktId hargs
  rw [hsent, List.mem_singleton] at hp
  omega

/-- The same in terms of a step from the thread's first state. -/
theorem timers_never_track_first : ∃ (s' : DpdkWorkerThread ℕ) (sl : DpdkSlice), s'.current = some sl ∧
    ¬TimersTrack (exampleConfig 1 (by decide)) s' sl := by
  have hsome : (next (exampleConfig 1 (by decide)) exampleOps (new (exampleConfig 1 (by decide)) fun _ => 0)
      (.begin (exampleSlice 0 1 .int32) fun _ => examplePacket)).isSome = true := by decide +kernel
  obtain ⟨s', hn⟩ := Option.isSome_iff_exists.mp hsome
  obtain ⟨sl, hs, htrack⟩ := timers_never_track rfl (.init ⟨_, rfl⟩) hn
  exact ⟨s', sl, hs, htrack⟩

end DpdkWorkerThread

end SwitchML.Client
