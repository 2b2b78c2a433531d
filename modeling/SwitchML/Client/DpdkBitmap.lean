/-
The ids the DPDK worker thread looks up in its bitmap. The bitmap has a bit for
each id of the current slice, and a received id is looked up before the job of
the packet is: so a late response to a packet of an earlier slice is looked up
whatever its id. The ids of the slice itself are in range, but for those that a
timer has sent.
-/
import SwitchML.Client.DpdkReceive

namespace SwitchML.Client

namespace DpdkWorkerThread

variable {K : Type} {c : DpdkConfig} {ops : FloatOps K} {s s' : DpdkWorkerThread K} {sl : DpdkSlice}

/-- What is received is a response to a packet the thread has sent, in this or
an earlier slice. -/
def answers (s : DpdkWorkerThread K) : Event → Bool
  | .receive hdr _ _ => s.log.any fun a =>
      match a with
      | .sent m => m.hdr = hdr
      | .accepted _ _ => false
  | _ => true

/-- The responses to packets of earlier slices have ids of the current one, and
so have the timers that expire. -/
def inRange (s : DpdkWorkerThread K) : Event → Bool
  | .receive hdr _ _ =>
    match s.current with
    | some sl => s.hasSent hdr || hdr.pktId < sl.totalNumPkts
    | none => true
  | .expire i _ =>
    match s.current, s.timers i with
    | some sl, some args => args.pktId < sl.totalNumPkts
    | _, _ => true
  | _ => true

/-- The packets of the current slice and what was looked up are in range. -/
structure InRange (s : DpdkWorkerThread K) : Prop where
  past : ∀ m, .sent m ∈ s.log → m.slice ≤ s.slices
  now : ∀ sl, s.current = some sl → ∀ m, s.SentNow m → m.pktId < sl.totalNumPkts
  indexed : ∀ sl, s.current = some sl → ∀ p ∈ sl.indexed, p < sl.totalNumPkts

theorem InRange.begin (h : InRange s) {job : JobSlice} {bufs : ℕ → Packet} (hb : s.begin c ops job bufs = some s') :
    InRange s' := by
  obtain ⟨-, -, rfl⟩ := begin_eq_some hb
  refine ⟨?_, ?_, ?_⟩
  · intro m hm
    rcases List.mem_append.mp hm with hm | hm
    · exact (h.past m hm).trans (Nat.le_succ _)
    · obtain ⟨j, -, hj⟩ := List.mem_map.mp hm
      cases hj
      exact le_rfl
  · intro sl hsl m hm
    simp only [Option.some.injEq] at hsl
    subst hsl
    rcases List.mem_append.mp hm.1 with h1 | h1
    · have h2 := h.past m h1
      have h3 : m.slice = s.slices + 1 := hm.2
      omega
    · obtain ⟨j, hj, he⟩ := List.mem_map.mp h1
      cases he
      rw [List.mem_range] at hj
      calc j % 2 ^ 32 ≤ j := Nat.mod_le _ _
        _ < _ := hj
        _ ≤ _ := batchNumPkts_le
  · intro sl hsl p hp
    simp only [Option.some.injEq] at hsl
    subst hsl
    cases hp

theorem InRange.accept (h : InRange s) (hs : s.current = some sl) {hdr : DpdkPacketHdr} (pkt : Packet)
    (hlt : hdr.pktId < sl.totalNumPkts) : InRange (s.accept c ops sl hdr pkt) := by
  have hidx : ∀ p ∈ sl.indexed ++ [hdr.pktId, hdr.pktId], p < sl.totalNumPkts := by
    intro p hp
    rcases List.mem_append.mp hp with hp | hp
    · exact h.indexed sl hs p hp
    · simp only [List.mem_cons, List.not_mem_nil, or_false, or_self] at hp
      rwa [hp]
  unfold DpdkWorkerThread.accept
  dsimp only
  split
  · refine ⟨fun m hm => ?_, fun sl' hsl' m hm => ?_, fun sl' hsl' => ?_⟩
    · exact h.past m (by simpa using hm)
    · cases hsl'
      exact h.now sl hs m ⟨by simpa using hm.1, hm.2⟩
    · cases hsl'
      exact hidx
  · rename_i hnext
    have hmod : (hdr.pktId + sl.batchNumPkts) % 2 ^ 32 % 2 ^ 32 < sl.totalNumPkts := by
      rw [Nat.mod_mod]
      exact Nat.lt_of_not_le hnext
    refine ⟨fun m hm => ?_, fun sl' hsl' m hm => ?_, fun sl' hsl' => ?_⟩
    · simp only [List.mem_append, List.mem_singleton, reduceCtorEq, or_false, DpdkAction.sent.injEq] at hm
      rcases hm with hm | rfl
      · exact h.past m hm
      · exact le_rfl
    · cases hsl'
      have h1 := hm.1
      simp only [List.mem_append, List.mem_singleton, reduceCtorEq, or_false, DpdkAction.sent.injEq] at h1
      rcases h1 with h1 | rfl
      · exact h.now sl hs m ⟨h1, hm.2⟩
      · exact hmod
    · cases hsl'
      exact hidx

theorem InRange.step (h : InRange s) {e : Event} (hk : s.inRange e = true) (hn : s.next c ops e = some s') :
    InRange s' := by
  cases DpdkWorkerThread.step hn with
  | began job bufs _ _ _ hb => exact h.begin hb
  | received sl hdr pkt bit hs =>
    have hlt : hdr.pktId < sl.totalNumPkts := by
      simp only [inRange, hs, Bool.or_eq_true, decide_eq_true_eq, hasSent_iff] at hk
      rcases hk with ⟨m, hm, rfl⟩ | hk
      · exact h.now sl hs m hm
      · exact hk
    rcases receive_or c ops s sl hdr pkt bit with heq | heq
    · rw [heq]
      refine ⟨h.past, fun sl' hsl' => ?_, fun sl' hsl' p hp => ?_⟩
      · cases hsl'
        exact h.now sl hs
      · cases hsl'
        rcases List.mem_append.mp hp with hp | hp
        · exact h.indexed sl hs p hp
        · rw [List.mem_singleton] at hp
          rwa [hp]
    · rw [heq]
      exact h.accept hs pkt hlt
  | expired sl args i buf hs ht _ =>
    have hlt : args.pktId < sl.totalNumPkts := by simpa [inRange, hs, ht] using hk
    refine ⟨fun m hm => ?_, fun sl' hsl' m hm => ?_, h.indexed⟩
    · rcases List.mem_append.mp hm with hm | hm
      · exact h.past m hm
      · simp only [List.mem_singleton, DpdkAction.sent.injEq] at hm
        rw [hm]
        exact le_rfl
    · rcases List.mem_append.mp hm.1 with h1 | h1
      · exact h.now sl' hsl' m ⟨h1, hm.2⟩
      · simp only [List.mem_singleton, DpdkAction.sent.injEq] at h1
        obtain rfl : sl = sl' := Option.some.inj (hs.symm.trans hsl')
        rw [h1]
        exact (Nat.mod_le _ _).trans_lt hlt
  | finished => exact ⟨h.past, fun _ hc => (by cases hc), fun _ hc => (by cases hc)⟩
  | stopped => exact ⟨h.past, h.now, h.indexed⟩
  | wrote => exact ⟨h.past, h.now, h.indexed⟩

theorem InRange.of_reach (h : (machine c ops).Reach (fun s e => s.answers e = true ∧ s.inRange e = true) s) :
    InRange s := by
  refine Machine.Reach.invariant (fun s hs => ?_) (fun s e s' hI hok hn => hI.step hok.2 hn) h
  obtain ⟨memory, rfl⟩ := hs
  exact ⟨fun _ hm => (by cases hm), fun _ hc => (by cases hc), fun _ hc => (by cases hc)⟩

/-- In these runs every id that is looked up is in range, and what is received
next is looked up in range exactly when it meets the condition. -/
theorem bitmap_in_range (h : (machine c ops).Reach (fun s e => s.answers e = true ∧ s.inRange e = true) s)
    (hs : s.current = some sl) :
    (∀ p ∈ sl.indexed, p < sl.totalNumPkts) ∧
    ∀ hdr pkt bit sl', (s.receive c ops sl hdr pkt bit).current = some sl' →
      ((∀ p ∈ sl'.indexed, p < sl'.totalNumPkts) ↔ s.inRange (.receive hdr pkt bit) = true) := by
  have hI := InRange.of_reach h
  refine ⟨hI.indexed sl hs, fun hdr pkt bit sl' hsl' => ?_⟩
  constructor
  · intro hall
    have hlt : hdr.pktId < sl.totalNumPkts := by
      rcases receive_or c ops s sl hdr pkt bit with heq | heq
      · rw [heq] at hsl'
        cases hsl'
        exact hall _ (by simp)
      · rw [heq, DpdkWorkerThread.accept] at hsl'
        dsimp only at hsl'
        split at hsl'
        · cases hsl'
          exact hall _ (by simp)
        · cases hsl'
          exact hall _ (by simp)
    simp [inRange, hs, hlt]
  · intro hk
    have hn : s.next c ops (.receive hdr pkt bit) = some (s.receive c ops sl hdr pkt bit) := by simp [next, hs]
    exact (hI.step hk hn).indexed sl' hsl'

/-- A slice of two packets is followed by one of a single packet, during which
the response to the second packet of the first slice comes again. -/
theorem bitmap_out_of_range : ∃ (s : DpdkWorkerThread ℕ) (sl : DpdkSlice),
    (machine (exampleConfig 2 (by decide)) exampleOps).Reach (fun s e => s.answers e = true) s ∧
    s.current = some sl ∧ ∃ p ∈ sl.indexed, ¬p < sl.totalNumPkts := by
  let hdr (pktId shortJobId : ℕ) : DpdkPacketHdr := { pktId, shortJobId }
  have hrun : ((machine (exampleConfig 2 (by decide)) exampleOps).runWhile (fun s e => s.answers e = true)
      (new (exampleConfig 2 (by decide)) fun _ => 0)
      [.begin (exampleSlice 0 128 .int32) fun _ => examplePacket, .receive (hdr 0 0) examplePacket false,
        .receive (hdr 1 0) examplePacket false, .finish,
        .begin (exampleSlice 1 64 .int32) fun _ => examplePacket, .receive (hdr 1 0) examplePacket false]).bind
      (fun s => s.current.map fun sl => (sl.indexed, sl.totalNumPkts)) = some ([1], 1) := by
    decide +kernel
  obtain ⟨s, hr, hcur⟩ := Option.bind_eq_some_iff.mp hrun
  obtain ⟨sl, hs, heq⟩ := Option.map_eq_some_iff.mp hcur
  simp only [Prod.mk.injEq] at heq
  obtain ⟨h1, h2⟩ := heq
  exact ⟨s, sl, Machine.Reach.runWhile (.init ⟨_, rfl⟩) hr, hs, 1, by simp [h1], by omega⟩

/-- The same where the late response is that to the first packet. -/
theorem bitmap_in_range_late : ∃ (s : DpdkWorkerThread ℕ) (sl : DpdkSlice), s.current = some sl ∧
    sl.indexed = [0] ∧ ∀ p ∈ sl.indexed, p < sl.totalNumPkts := by
  let hdr (pktId shortJobId : ℕ) : DpdkPacketHdr := { pktId, shortJobId }
  have hrun : ((machine (exampleConfig 2 (by decide)) exampleOps).runWhile
      (fun s e => s.answers e = true ∧ s.inRange e = true) (new (exampleConfig 2 (by decide)) fun _ => 0)
      [.begin (exampleSlice 0 128 .int32) fun _ => examplePacket, .receive (hdr 0 0) examplePacket false,
        .receive (hdr 1 0) examplePacket false, .finish,
        .begin (exampleSlice 1 64 .int32) fun _ => examplePacket, .receive (hdr 0 0) examplePacket false]).bind
      (fun s => s.current.map fun sl => sl.indexed) = some [0] := by
    decide +kernel
  obtain ⟨s, hr, hcur⟩ := Option.bind_eq_some_iff.mp hrun
  obtain ⟨sl, hs, heq⟩ := Option.map_eq_some_iff.mp hcur
  exact ⟨s, sl, hs, heq, (bitmap_in_range (Machine.Reach.runWhile (.init ⟨_, rfl⟩) hr) hs).1⟩

end DpdkWorkerThread

end SwitchML.Client
