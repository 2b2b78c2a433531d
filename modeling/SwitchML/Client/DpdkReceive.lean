/-
The receive loop of the DPDK worker thread. The bitmap, the count and the new
packets follow one thing: the set of the ids that were accepted. The ids of the
new packets are a window over the slice, so with each id that is accepted its
successor is sent and no id twice.

This rests on two things the code does not see to. The ids are `uint32_t`, so
the successor of the last ones must not wrap around. And after the first batch
the timers hold the ids that follow theirs, of which the last was not sent yet:
if that timer expires an id is sent out of turn.
-/
import SwitchML.Client.DpdkWorkerThread
import Mathlib.Data.Finset.Dedup

namespace SwitchML.Client

namespace DpdkSlice

/-- The ids that were accepted. -/
def accepted (sl : DpdkSlice) : Finset ℕ := (sl.posts.map DpdkPacketHdr.pktId).toFinset

theorem mem_accepted {sl : DpdkSlice} {p : ℕ} : p ∈ sl.accepted ↔ ∃ hdr ∈ sl.posts, hdr.pktId = p := by
  simp [accepted]

/-- The ids of the bits that are set. -/
def setBits (sl : DpdkSlice) : Finset ℕ := (Finset.range sl.totalNumPkts).filter fun p => sl.bitmap p = true

/-- What the receive loop keeps. -/
structure Receiving (sl : DpdkSlice) : Prop where
  batch_pos : 0 < sl.batchNumPkts
  batch_le : sl.batchNumPkts ≤ sl.totalNumPkts
  fits : sl.totalNumPkts + sl.batchNumPkts ≤ 2 ^ 32
  window : Window sl.totalNumPkts sl.batchNumPkts sl.accepted
  bitmap : ∀ p, sl.bitmap p = true ↔ p ∈ sl.accepted
  nodup : (sl.posts.map DpdkPacketHdr.pktId).Nodup
  count : sl.numReceivedPkts = sl.posts.length
  short : ∀ hdr ∈ sl.posts, hdr.shortJobId = shortJobId sl.jobId
  sent : sl.sent = List.range sl.batchNumPkts ++
    (sl.posts.map fun hdr => hdr.pktId + sl.batchNumPkts).filter (· < sl.totalNumPkts)

variable {sl : DpdkSlice} {hdr : DpdkPacketHdr} {p : ℕ}

theorem Receiving.mem_sent (h : sl.Receiving) :
    p ∈ sl.sent ↔ Window.Sent sl.totalNumPkts sl.batchNumPkts sl.accepted p := by
  rw [h.sent, List.mem_append, List.mem_range, List.mem_filter, List.mem_map, Window.Sent]
  have hle := h.batch_le
  constructor
  · rintro (hp | ⟨⟨hdr, hh, rfl⟩, hlt⟩)
    · exact ⟨by omega, .inl hp⟩
    · refine ⟨by simpa using hlt, .inr ⟨by omega, ?_⟩⟩
      rw [Nat.add_sub_cancel]
      exact mem_accepted.mpr ⟨hdr, hh, rfl⟩
  · rintro ⟨hlt, hp | ⟨hb, hp⟩⟩
    · exact .inl hp
    · obtain ⟨hdr, hh, hid⟩ := mem_accepted.mp hp
      exact .inr ⟨⟨hdr, hh, by omega⟩, by simpa using hlt⟩

theorem Receiving.card_accepted (h : sl.Receiving) : sl.accepted.card = sl.numReceivedPkts := by
  rw [accepted, List.toFinset_card_of_nodup h.nodup, List.length_map, h.count]

theorem Receiving.setBits_eq (h : sl.Receiving) : sl.setBits = sl.accepted := by
  ext p
  rw [setBits, Finset.mem_filter, Finset.mem_range, h.bitmap]
  exact ⟨fun hp => hp.2, fun hp => ⟨h.window.lt hp, hp⟩⟩

/-- Within the bitmap a bit is read as it is. -/
theorem Receiving.mod_total (h : sl.Receiving) : sl.totalNumPkts % 2 ^ 32 = sl.totalNumPkts := by
  have h1 := h.fits
  have h2 := h.batch_pos
  exact Nat.mod_eq_of_lt (by omega)

/-! ## An accepted packet -/

/-- The variables after an outstanding packet was accepted. -/
def acceptedPacket (sl : DpdkSlice) (hdr : DpdkPacketHdr) : DpdkSlice :=
  { sl with
    bitmap := Function.update sl.bitmap hdr.pktId true
    numReceivedPkts := (sl.numReceivedPkts + 1) % 2 ^ 32
    posts := sl.posts ++ [hdr]
    indexed := sl.indexed ++ [hdr.pktId, hdr.pktId]
    sent := sl.sent ++ if hdr.pktId + sl.batchNumPkts < sl.totalNumPkts then [hdr.pktId + sl.batchNumPkts] else [] }

theorem accepted_acceptedPacket : (sl.acceptedPacket hdr).accepted = insert hdr.pktId sl.accepted := by
  ext p
  simp only [mem_accepted, Finset.mem_insert, acceptedPacket, List.mem_append, List.mem_singleton]
  constructor
  · rintro ⟨h', hh | rfl, rfl⟩
    · exact .inr ⟨h', hh, rfl⟩
    · exact .inl rfl
  · rintro (rfl | ⟨h', hh, rfl⟩)
    · exact ⟨hdr, .inr rfl, rfl⟩
    · exact ⟨h', .inl hh, rfl⟩

theorem Receiving.acceptedPacket (h : sl.Receiving) (hp : hdr.pktId ∈ sl.sent) (hnew : hdr.pktId ∉ sl.accepted)
    (hshort : hdr.shortJobId = shortJobId sl.jobId) : (sl.acceptedPacket hdr).Receiving := by
  have hout : Window.Outstanding sl.totalNumPkts sl.batchNumPkts sl.accepted hdr.pktId := ⟨h.mem_sent.mp hp, hnew⟩
  refine ⟨h.batch_pos, h.batch_le, h.fits, ?_, ?_, ?_, ?_, ?_, ?_⟩
  · rw [accepted_acceptedPacket]
    exact h.window.accept hout
  · intro p
    rw [accepted_acceptedPacket, Finset.mem_insert, ← h.bitmap]
    show Function.update sl.bitmap hdr.pktId true p = true ↔ _
    by_cases hpe : p = hdr.pktId
    · simp [hpe]
    · simp [hpe]
  · show ((sl.posts ++ [hdr]).map DpdkPacketHdr.pktId).Nodup
    rw [List.map_append, List.map_singleton]
    refine List.nodup_append.mpr ⟨h.nodup, List.nodup_singleton _, fun a ha b hb => ?_⟩
    rw [List.mem_singleton] at hb
    rintro rfl
    rw [hb, List.mem_map] at ha
    exact hnew (mem_accepted.mpr ha)
  · show (sl.numReceivedPkts + 1) % 2 ^ 32 = (sl.posts ++ [hdr]).length
    have h1 := (h.window.accept hout).card_le
    rw [Finset.card_insert_of_notMem hnew, h.card_accepted] at h1
    have h2 := h.fits
    have h3 := h.batch_pos
    rw [List.length_append, List.length_singleton, ← h.count, Nat.mod_eq_of_lt]
    omega
  · intro h' hh
    rcases List.mem_append.mp hh with hh | hh
    · exact h.short h' hh
    · rw [List.mem_singleton] at hh
      rw [hh]
      exact hshort
  · show sl.sent ++ _ = List.range sl.batchNumPkts ++
      ((sl.posts ++ [hdr]).map fun hdr => hdr.pktId + sl.batchNumPkts).filter (· < sl.totalNumPkts)
    rw [h.sent, List.map_append, List.filter_append, List.append_assoc, List.map_singleton, List.filter_singleton]
    simp

theorem Receiving.indexed (h : sl.Receiving) (l : List ℕ) : ({ sl with indexed := l } : DpdkSlice).Receiving := by
  obtain ⟨h1, h2, h3, h4, h5, h6, h7, h8, h9⟩ := h
  exact ⟨h1, h2, h3, h4, h5, h6, h7, h8, h9⟩

end DpdkSlice

namespace DpdkWorkerThread

variable {K : Type} {c : DpdkConfig} {ops : FloatOps K} {s s' : DpdkWorkerThread K} {sl : DpdkSlice}

/-! ## The runs -/

/-- The thread has sent a packet with this header while it worked on the slice. -/
def hasSent (s : DpdkWorkerThread K) (hdr : DpdkPacketHdr) : Bool :=
  s.log.any fun a =>
    match a with
    | .sent m => m.slice = s.slices && m.hdr = hdr
    | .accepted _ _ => false

theorem hasSent_iff {hdr : DpdkPacketHdr} : s.hasSent hdr = true ↔ ∃ m, s.SentNow m ∧ m.hdr = hdr := by
  rw [hasSent, List.any_eq_true]
  constructor
  · rintro ⟨a, ha, hm⟩
    cases a with
    | sent m =>
      simp only [Bool.and_eq_true, decide_eq_true_eq] at hm
      exact ⟨m, ⟨ha, hm.1⟩, hm.2⟩
    | accepted slice pktId => cases hm
  · rintro ⟨m, ⟨ha, hs⟩, hm⟩
    exact ⟨.sent m, ha, by simp [hs, hm]⟩

/-- What is received with the slice's own short job id is a response to a packet
of the slice. -/
def genuine (s : DpdkWorkerThread K) : Event → Bool
  | .receive hdr _ _ =>
    match s.current with
    | some sl => hdr.shortJobId != shortJobId sl.jobId || s.hasSent hdr
    | none => true
  | _ => true

/-- The ids of a slice and of the batch after it are `uint32_t`s. -/
def fits (c : DpdkConfig) (s : DpdkWorkerThread K) (job : JobSlice) : Bool :=
  (s.prepare job).totalNumPkts c + (s.prepare job).batchNumPkts c ≤ 2 ^ 32

/-- No id wraps around, and no timer expires that has the slice's short job id
and the id of a packet that was not sent. -/
def keepsOrder (c : DpdkConfig) (s : DpdkWorkerThread K) : Event → Bool
  | .begin job _ => s.fits c job
  | .expire i _ =>
    match s.current, s.timers i with
    | some sl, some args => shortJobId args.jobId != shortJobId sl.jobId || sl.sent.contains args.pktId
    | _, _ => true
  | _ => true

/-! ## The invariant -/

/-- What the thread keeps from one slice to the next. -/
structure Inv (c : DpdkConfig) (s : DpdkWorkerThread K) : Prop where
  static : Static c s
  past : ∀ m, .sent m ∈ s.log → m.slice ≤ s.slices
  receiving : ∀ sl, s.current = some sl → sl.Receiving
  now : ∀ sl, s.current = some sl → ∀ m, s.SentNow m → m.hdr.shortJobId = shortJobId sl.jobId → m.pktId ∈ sl.sent

theorem Inv.init (c : DpdkConfig) (memory : Memory) : Inv c (new c memory : DpdkWorkerThread K) where
  static := ⟨rfl, rfl⟩
  past _ h := by cases h
  receiving _ h := by cases h
  now _ h := by cases h

theorem Inv.begin (h : Inv c s) {job : JobSlice} {bufs : ℕ → Packet} (hnumel : 0 < job.slice.numel)
    (hfits : s.fits c job = true) (hb : s.begin c ops job bufs = some s') : Inv c s' := by
  obtain ⟨hbatch, -, rfl⟩ := begin_eq_some hb
  refine ⟨⟨h.static.ltuSize, h.static.batchMaxNumLtus⟩, ?_, ?_, ?_⟩
  · intro m hm
    rcases List.mem_append.mp hm with hm | hm
    · exact (h.past m hm).trans (Nat.le_succ _)
    · obtain ⟨j, -, hj⟩ := List.mem_map.mp hm
      cases hj
      exact le_rfl
  · intro sl hsl
    simp only [Option.some.injEq] at hsl
    subst hsl
    exact ⟨h.static.batch_pos hnumel, batchNumPkts_le, of_decide_eq_true hfits, Window.empty,
      by simp [DpdkSlice.accepted], by simp, rfl, by simp, by simp⟩
  · intro sl hsl m hm _
    simp only [Option.some.injEq] at hsl
    subst hsl
    rcases List.mem_append.mp hm.1 with h1 | h1
    · have h2 := h.past m h1
      have h3 : m.slice = s.slices + 1 := hm.2
      omega
    · obtain ⟨j, hj, he⟩ := List.mem_map.mp h1
      cases he
      rw [List.mem_range] at hj ⊢
      show j % 2 ^ 32 < _
      rw [Nat.mod_eq_of_lt (by omega)]
      exact hj

/-- The timers after the packet before `pktId` in its chain was accepted. -/
def timersAfter (c : DpdkConfig) (s : DpdkWorkerThread K) (sl : DpdkSlice) (pktId : ℕ) :
    ℕ → Option ResendPacketCallbackArgs :=
  if c.timeouts then
    Function.update s.timers (pktId % c.maxOutstandingPkts)
      (if pktId < sl.totalNumPkts then some { jobId := sl.jobId, pktId, switchPoolIndex := s.poolIndex c pktId }
      else none)
  else s.timers

/-- The thread after `PostprocessSingle`. -/
def postprocessed (ops : FloatOps K) (s : DpdkWorkerThread K) (pktId : ℕ) (pkt : Packet) : DpdkWorkerThread K :=
  { s with
    ppp := (s.ppp.postprocessSingle ops s.memory pktId pkt).1
    memory := (s.ppp.postprocessSingle ops s.memory pktId pkt).2.1 }

/-- Where no id wraps around, an accepted packet does this. -/
theorem accept_eq (hsl : sl.Receiving) {hdr : DpdkPacketHdr} (pkt : Packet) (hlt : hdr.pktId < sl.totalNumPkts) :
    s.accept c ops sl hdr pkt = { s.postprocessed ops hdr.pktId pkt with
      timers := s.timersAfter c sl (hdr.pktId + sl.batchNumPkts)
      current := some (sl.acceptedPacket hdr)
      log := s.log ++ .accepted s.slices hdr.pktId ::
        if hdr.pktId + sl.batchNumPkts < sl.totalNumPkts then
          [.sent ((s.postprocessed ops hdr.pktId pkt).buildPacket ops true sl.jobId (hdr.pktId + sl.batchNumPkts)
            (s.poolIndex c (hdr.pktId + sl.batchNumPkts)) pkt)]
        else [] } := by
  have hmod : (hdr.pktId + sl.batchNumPkts) % 2 ^ 32 = hdr.pktId + sl.batchNumPkts := by
    have h1 := hsl.fits
    exact Nat.mod_eq_of_lt (by omega)
  unfold accept
  simp only [hmod]
  by_cases hnext : hdr.pktId + sl.batchNumPkts < sl.totalNumPkts
  · rw [if_neg (by omega)]
    simp only [DpdkSlice.acceptedPacket, timersAfter, if_pos hnext, List.append_assoc, List.singleton_append]
    cases c.timeouts <;> simp [postprocessed, poolIndex, buildPacket]
  · rw [if_pos (by omega)]
    simp only [DpdkSlice.acceptedPacket, timersAfter, if_neg hnext, List.append_nil, postprocessed]

/-- A received packet is a duplicate, or of another job, or the response to an
outstanding packet. -/
theorem receive_cases (hsl : sl.Receiving) (hdr : DpdkPacketHdr) (pkt : Packet) (bit : Bool)
    (hg : hdr.shortJobId = shortJobId sl.jobId → hdr.pktId ∈ sl.sent) :
    s.receive c ops sl hdr pkt bit = { s with current := some { sl with indexed := sl.indexed ++ [hdr.pktId] } } ∨
      hdr.pktId ∈ sl.sent ∧ hdr.pktId ∉ sl.accepted ∧ hdr.shortJobId = shortJobId sl.jobId ∧
        hdr.pktId < sl.totalNumPkts ∧ s.receive c ops sl hdr pkt bit = s.accept c ops sl hdr pkt := by
  unfold receive
  by_cases hshort : hdr.shortJobId = shortJobId sl.jobId
  · have hsent := hg hshort
    have hlt := (hsl.mem_sent.mp hsent).1
    simp only [hsl.mod_total, if_pos hlt, hshort, not_true, or_false, ne_eq]
    by_cases hbit : sl.bitmap hdr.pktId = true
    · exact .inl (if_pos hbit)
    · exact .inr ⟨hsent, fun hm => hbit ((hsl.bitmap _).mpr hm), trivial, hlt, if_neg hbit⟩
  · exact .inl (if_pos (.inr hshort))

/-! ## Every step -/

theorem Inv.accept (h : Inv c s) (hs : s.current = some sl) {hdr : DpdkPacketHdr} (pkt : Packet)
    (hsent : hdr.pktId ∈ sl.sent) (hnew : hdr.pktId ∉ sl.accepted) (hshort : hdr.shortJobId = shortJobId sl.jobId)
    (hlt : hdr.pktId < sl.totalNumPkts) : Inv c (s.accept c ops sl hdr pkt) := by
  have hsl := h.receiving sl hs
  have hstatic := h.static.accept ops sl hdr pkt
  rw [accept_eq hsl pkt hlt] at hstatic ⊢
  refine ⟨hstatic, fun m hm => ?_, fun sl' hsl' => ?_, fun sl' hsl' m hm hj => ?_⟩
  · rcases List.mem_append.mp hm with hm | hm
    · exact h.past m hm
    · split at hm
      · simp only [List.mem_cons, reduceCtorEq, List.not_mem_nil, or_false, false_or, DpdkAction.sent.injEq] at hm
        rw [hm]
        exact le_rfl
      · simp at hm
  · simp only [Option.some.injEq] at hsl'
    subst hsl'
    exact hsl.acceptedPacket hsent hnew hshort
  · simp only [Option.some.injEq] at hsl'
    subst hsl'
    rcases List.mem_append.mp hm.1 with h1 | h1
    · exact List.mem_append_left _ (h.now sl hs m ⟨h1, hm.2⟩ hj)
    · split at h1
      · rename_i hnext
        simp only [List.mem_cons, reduceCtorEq, List.not_mem_nil, or_false, false_or, DpdkAction.sent.injEq] at h1
        have h2 : m.pktId = hdr.pktId + sl.batchNumPkts := by
          rw [h1]
          have h3 := hsl.fits
          exact Nat.mod_eq_of_lt (by omega)
        rw [h2, DpdkSlice.acceptedPacket, if_pos hnext]
        simp
      · simp at h1

/-- A genuine response is to a new packet of the slice. -/
theorem Inv.mem_sent_of_genuine (h : Inv c s) (hs : s.current = some sl) {hdr : DpdkPacketHdr} {pkt : Packet} {bit : Bool}
    (hg : s.genuine (.receive hdr pkt bit) = true) (hshort : hdr.shortJobId = shortJobId sl.jobId) :
    hdr.pktId ∈ sl.sent := by
  simp only [genuine, hs, hshort, bne_self_eq_false, Bool.false_or, hasSent_iff] at hg
  obtain ⟨m, hm, rfl⟩ := hg
  exact h.now sl hs m hm hshort

theorem Inv.step (h : Inv c s) {e : Event} (hg : s.genuine e = true) (hk : s.keepsOrder c e = true)
    (hn : s.next c ops e = some s') : Inv c s' := by
  have hstatic := h.static.step hn
  cases DpdkWorkerThread.step hn with
  | began job bufs _ _ hnumel hb => exact h.begin hnumel hk hb
  | received sl hdr pkt bit hs =>
    have hsl := h.receiving sl hs
    rcases receive_cases hsl hdr pkt bit (h.mem_sent_of_genuine hs hg) with heq | ⟨h1, h2, h3, h4, heq⟩
    · rw [heq] at hstatic ⊢
      refine ⟨hstatic, h.past, ?_, ?_⟩
      · intro sl' hsl'
        simp only [Option.some.injEq] at hsl'
        subst hsl'
        exact hsl.indexed _
      · intro sl' hsl'
        simp only [Option.some.injEq] at hsl'
        subst hsl'
        exact h.now sl hs
    · rw [heq]
      exact h.accept hs pkt h1 h2 h3 h4
  | expired sl args i buf hs ht hlt =>
    refine ⟨hstatic, ?_, h.receiving, ?_⟩
    · intro m hm
      rcases List.mem_append.mp hm with hm | hm
      · exact h.past m hm
      · simp only [List.mem_singleton, DpdkAction.sent.injEq] at hm
        rw [hm]
        exact le_rfl
    · intro sl' hs' m hm hj
      rcases List.mem_append.mp hm.1 with h1 | h1
      · exact h.now sl' hs' m ⟨h1, hm.2⟩ hj
      · simp only [List.mem_singleton, DpdkAction.sent.injEq] at h1
        obtain rfl : sl = sl' := Option.some.inj (hs.symm.trans hs')
        have h2 := (h.receiving sl hs).mem_sent (p := args.pktId)
        have h3 : sl.sent.contains args.pktId = true := by
          simp only [keepsOrder, hs, ht] at hk
          rw [h1] at hj
          simpa [show shortJobId args.jobId = shortJobId sl.jobId from hj] using hk
        rw [List.contains_iff_mem] at h3
        have h4 : m.pktId = args.pktId := by
          rw [h1]
          have h5 := (h2.mp h3).1
          have h6 := (h.receiving sl hs).fits
          exact Nat.mod_eq_of_lt (by omega)
        rw [h4]
        exact h3
  | finished sl hs hlt => exact ⟨hstatic, h.past, fun _ hc => (by cases hc), fun _ hc => (by cases hc)⟩
  | stopped => exact ⟨hstatic, h.past, h.receiving, h.now⟩
  | wrote addr w hr => exact ⟨hstatic, h.past, h.receiving, h.now⟩

theorem Inv.of_reach (h : (machine c ops).Reach (fun s e => s.genuine e = true ∧ s.keepsOrder c e = true) s) :
    Inv c s := by
  refine Machine.Reach.invariant (fun s hs => ?_) (fun s e s' hI hok hn => hI.step hok.1 hok.2 hn) h
  obtain ⟨memory, rfl⟩ := hs
  exact Inv.init c memory

/-- In the runs that keep the order of the ids, each packet is accepted once. -/
theorem receives_once (h : (machine c ops).Reach (fun s e => s.genuine e = true ∧ s.keepsOrder c e = true) s)
    (hs : s.current = some sl) :
    (∀ hdr ∈ sl.posts, hdr.shortJobId = shortJobId sl.jobId) ∧
    (sl.posts.map DpdkPacketHdr.pktId).Nodup ∧
    (sl.numReceivedPkts = sl.setBits.card ∧ ∀ p, sl.bitmap p = true ↔ p ∈ sl.posts.map DpdkPacketHdr.pktId) ∧
    (sl.sent = List.range sl.batchNumPkts ++
      (sl.posts.map fun hdr => hdr.pktId + sl.batchNumPkts).filter (· < sl.totalNumPkts) ∧ sl.sent.Nodup) ∧
    (sl.sent.toFinset \ sl.accepted).card ≤ sl.batchNumPkts ∧
    (¬sl.numReceivedPkts < sl.totalNumPkts ↔
      (sl.posts.map DpdkPacketHdr.pktId).Perm (List.range sl.totalNumPkts)) := by
  have hsl := (Inv.of_reach h).receiving sl hs
  have hmem : ∀ p, p ∈ sl.accepted ↔ p ∈ sl.posts.map DpdkPacketHdr.pktId := fun p => by
    rw [DpdkSlice.accepted, List.mem_toFinset]
  refine ⟨hsl.short, hsl.nodup, ⟨?_, fun p => (hsl.bitmap p).trans (hmem p)⟩, ⟨hsl.sent, ?_⟩, ?_, ?_⟩
  · rw [hsl.setBits_eq, hsl.card_accepted]
  · -- the successors of different ids are different, and not in the first batch
    rw [hsl.sent]
    refine List.nodup_append.mpr ⟨List.nodup_range, ?_, fun a ha b hb => ?_⟩
    · refine List.Nodup.filter _ ?_
      have h1 := hsl.nodup.map (f := (· + sl.batchNumPkts)) fun a b hab => Nat.add_right_cancel hab
      rwa [List.map_map] at h1
    · rw [List.mem_range] at ha
      rw [List.mem_filter, List.mem_map] at hb
      obtain ⟨⟨hdr, -, rfl⟩, -⟩ := hb
      omega
  · have hsub : sl.sent.toFinset \ sl.accepted ⊆
        Window.outstanding sl.totalNumPkts sl.batchNumPkts sl.accepted := by
      intro p hp
      rw [Finset.mem_sdiff, List.mem_toFinset, hsl.mem_sent] at hp
      exact Window.mem_outstanding.mpr hp
    exact (Finset.card_le_card hsub).trans (hsl.window.card_outstanding_le hsl.batch_pos)
  · have h1 := hsl.window.card_le
    rw [hsl.card_accepted] at h1
    have h2 := hsl.window.card_eq_iff
    rw [hsl.card_accepted] at h2
    have h3 : ¬sl.numReceivedPkts < sl.totalNumPkts ↔ sl.numReceivedPkts = sl.totalNumPkts := by omega
    rw [h3, h2, List.perm_ext_iff_of_nodup hsl.nodup List.nodup_range]
    constructor
    · intro he p
      rw [← hmem, he, Finset.mem_range, List.mem_range]
    · intro hp
      ext p
      rw [hmem, hp, List.mem_range, Finset.mem_range]

/-- One thread with a window of `maxOutstandingPkts`, compiled with timeouts. -/
def exampleConfig (maxOutstandingPkts : ℕ) (h : 0 < maxOutstandingPkts) : DpdkConfig where
  tid := 0
  maxOutstandingPkts := maxOutstandingPkts
  packetNumel := 64
  numWorkers := 2
  timeouts := true
  maxOutstandingPkts_pos := h
  packetNumel_pos := by decide

def examplePacket : Packet := { entries := fun _ => 0, exponent := 0 }

/-- The slice has one packet, with id 0, and its timer the id 1. The timer
expires, and the response ends the loop. -/
theorem receives_other : ∃ (s : DpdkWorkerThread ℕ) (sl : DpdkSlice),
    (machine (exampleConfig 1 (by decide)) exampleOps).Reach (fun s e => s.genuine e = true) s ∧
    s.current = some sl ∧ ¬sl.numReceivedPkts < sl.totalNumPkts ∧
    ¬(sl.posts.map DpdkPacketHdr.pktId).Perm (List.range sl.totalNumPkts) := by
  have hrun : ((machine (exampleConfig 1 (by decide)) exampleOps).runWhile (fun s e => s.genuine e = true)
      (new (exampleConfig 1 (by decide)) fun _ => 0)
      [.begin (exampleSlice 0 1 .int32) fun _ => examplePacket, .expire 0 examplePacket,
        .receive { pktId := 1, shortJobId := 0 } examplePacket false]).bind (fun s => s.current.map
      fun sl => (sl.numReceivedPkts, sl.totalNumPkts, sl.posts.map DpdkPacketHdr.pktId)) = some (1, 1, [1]) := by
    decide +kernel
  obtain ⟨s, hr, hcur⟩ := Option.bind_eq_some_iff.mp hrun
  obtain ⟨sl, hs, heq⟩ := Option.map_eq_some_iff.mp hcur
  simp only [Prod.mk.injEq] at heq
  obtain ⟨h1, h2, h3⟩ := heq
  refine ⟨s, sl, Machine.Reach.runWhile (.init ⟨_, rfl⟩) hr, hs, by omega, ?_⟩
  rw [h2, h3]
  decide

/-- Three packets with a window of two; the second comes first and twice. -/
theorem receives_once_three : ∃ (s : DpdkWorkerThread ℕ) (sl : DpdkSlice), s.current = some sl ∧
    (sl.posts.map DpdkPacketHdr.pktId).Perm (List.range 3) := by
  let hdr (pktId : ℕ) : DpdkPacketHdr := { pktId, shortJobId := 0 }
  have hrun : ((machine (exampleConfig 2 (by decide)) exampleOps).runWhile
      (fun s e => s.genuine e = true ∧ s.keepsOrder (exampleConfig 2 (by decide)) e = true)
      (new (exampleConfig 2 (by decide)) fun _ => 0)
      [.begin (exampleSlice 0 130 .int32) fun _ => examplePacket, .receive (hdr 1) examplePacket false,
        .receive (hdr 1) examplePacket false, .receive (hdr 0) examplePacket false,
        .receive (hdr 2) examplePacket false]).bind (fun s => s.current.map
      fun sl => (sl.numReceivedPkts, sl.totalNumPkts)) = some (3, 3) := by
    decide +kernel
  obtain ⟨s, hr, hcur⟩ := Option.bind_eq_some_iff.mp hrun
  obtain ⟨sl, hs, heq⟩ := Option.map_eq_some_iff.mp hcur
  simp only [Prod.mk.injEq] at heq
  obtain ⟨h1, h2⟩ := heq
  obtain ⟨-, -, -, -, -, hend⟩ := receives_once (Machine.Reach.runWhile (.init ⟨_, rfl⟩) hr) hs
  rw [h1, h2] at hend
  exact ⟨s, sl, hs, hend.mp (by decide)⟩

end DpdkWorkerThread

end SwitchML.Client
