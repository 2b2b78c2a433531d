/-
Packets of the DPDK worker thread that are built again. While a packet is
outstanding, no other packet that is postprocessed writes to the LTUs or the
scaling factor it is built from: the one that would, a batch further on, is sent
only once it was accepted. So a timer that expires sends what was sent before,
also where the output of the job is its input.

The order of the packets rests on the responses being those to packets of the
slice, which the 8 bits of the job id in the header do not ensure.
-/
import SwitchML.Client.DpdkBitmap

namespace SwitchML.Client

namespace Ppp

variable {K : Type} {p q : Ppp K} {mem : Memory} {ltuId : ℕ} {a b d : Packet}

theorem Agree.trans (h : p.Agree ltuId a b) (h' : p.Agree ltuId b d) : p.Agree ltuId a d :=
  ⟨fun l hl i hi => (h.entries l hl i hi).trans (h'.entries l hl i hi),
    fun l hl => (h.exponent l hl).trans (h'.exponent l hl)⟩

theorem Agree.shape (h : p.Agree ltuId a b) (hq : q = { p with scalingFactors := q.scalingFactors }) :
    q.Agree ltuId a b := by
  rw [hq]
  exact ⟨h.entries, h.exponent⟩

theorem SameInputs.refl : SameInputs p p mem mem ltuId := ⟨rfl, fun _ _ _ _ => rfl, fun _ _ _ => rfl, fun _ _ _ _ => rfl⟩

end Ppp

namespace DpdkWorkerThread

variable {K : Type} {c : DpdkConfig} {ops : FloatOps K} {s s' : DpdkWorkerThread K} {sl : DpdkSlice}

/-- The input and the output of a job are the same or do not overlap. -/
def separateBuffers : Event → Bool
  | .begin job _ => job.slice.Separate
  | _ => true

/-- An outstanding packet can be built again from what is there. -/
structure Building (ops : FloatOps K) (s : DpdkWorkerThread K) (sl : DpdkSlice) : Prop where
  setUp : s.ppp.SetUp
  total : sl.totalNumPkts = s.ppp.totalMainNumLtus + if s.ppp.slice.dataType = .float32 then s.ppp.batchNumLtus else 0
  batch : sl.batchNumPkts = s.ppp.batchNumLtus
  separate : s.ppp.slice.Separate
  jobId : ∀ m, s.SentNow m → m.fresh = true → m.jobId = sl.jobId
  same : ∀ m, s.SentNow m → m.fresh = true → m.pktId ∉ sl.accepted → ∀ buf,
    s.ppp.Agree m.pktId m.content (s.ppp.preprocessSingle ops s.memory m.pktId buf).1

theorem Building.lt (h : Building ops s sl) {p l : ℕ} (hp : p < sl.totalNumPkts) (hl : s.ppp.payloadLtu p = some l) :
    l < s.ppp.totalMainNumLtus :=
  Ppp.lt_of_payloadLtu (by rwa [← h.total]) hl

/-- Another packet's payload is that of another LTU. -/
theorem payloadLtu_ne {p : Ppp K} {i j l : ℕ} (hne : i ≠ j) (hi : p.payloadLtu i = some l) : p.payloadLtu j ≠ some l := by
  intro hj
  unfold Ppp.payloadLtu at hi hj
  cases hd : p.slice.dataType with
  | float32 =>
    simp only [hd, Option.ite_none_right_eq_some, Option.some.injEq] at hi hj
    omega
  | int32 =>
    simp only [hd, Option.some.injEq] at hi hj
    omega

/-- Postprocessing an outstanding packet leaves what the others are built from. -/
theorem Building.sameInputs (h : Building ops s sl) (hsl : sl.Receiving) {p q : ℕ} (pkt : Packet) (hp : p ∈ sl.sent)
    (hpnew : p ∉ sl.accepted) (hq : q ∈ sl.sent) (hqnew : q ∉ sl.accepted) (hne : p ≠ q) :
    Ppp.SameInputs s.ppp (s.postprocessed ops q pkt).ppp s.memory (s.postprocessed ops q pkt).memory p := by
  have hps := hsl.mem_sent.mp hp
  have hqs := hsl.mem_sent.mp hq
  have hqlt : ∀ l', s.ppp.payloadLtu q = some l' → l' < s.ppp.totalMainNumLtus := fun l' => h.lt hqs.1
  refine ⟨Ppp.postprocessSingle_eq _ _ _ _, fun l hl i hi => ?_, fun hd l hl => ?_, fun l hl i hi => ?_⟩
  · exact (Ppp.postprocessSingle_input h.setUp h.separate (h.lt hps.1 hl) hqlt (payloadLtu_ne hne hl) hi).symm
  · -- the packet before it in its chain brought the factor
    refine (Ppp.postprocessSingle_factor ?_).symm
    simp only [Ppp.payloadLtu, hd, Option.ite_none_right_eq_some, Option.some.injEq] at hl
    obtain ⟨hb, rfl⟩ := hl
    rw [← h.batch] at hb ⊢
    have h1 := (hps.2.resolve_left (by omega)).2
    rintro rfl
    exact hqnew h1
  · obtain ⟨rfl, hlt⟩ := Ppp.lt_of_exponentLtu hl
    refine (Ppp.postprocessSingle_input h.setUp h.separate hlt hqlt ?_ hi).symm
    -- the packet that overwrites the LTU is one batch further on
    intro hpay
    cases hd : s.ppp.slice.dataType with
    | float32 =>
      simp only [Ppp.payloadLtu, hd, Option.ite_none_right_eq_some, Option.some.injEq] at hpay
      obtain ⟨hb, he⟩ := hpay
      rw [← h.batch] at hb he
      have h1 := (hqs.2.resolve_left (by omega)).2
      rw [he] at h1
      exact hpnew h1
    | int32 => simp [Ppp.exponentLtu, hd] at hl

theorem Building.begin (hI : Inv c s) {job : JobSlice} {bufs : ℕ → Packet} (hnumel : 0 < job.slice.numel)
    (hsep : job.slice.Separate) (hb : s.begin c ops job bufs = some s') (hs : s'.current = some sl) :
    Building ops s' sl := by
  have hset := hI.static.setUp hnumel
  have hmax : (s.prepare job).ppp.batchMaxNumLtus = c.maxOutstandingPkts := hI.static.batchMaxNumLtus
  have hbeq : (s.prepare job).batchNumPkts c = (s.prepare job).ppp.batchNumLtus := by
    rw [batchNumPkts, ← hmax]
    exact (min_comm _ _).trans hset.batch.symm
  obtain ⟨-, -, rfl⟩ := begin_eq_some hb
  cases hs
  have hnow : ∀ m, .sent m ∈ s.log ++ (List.range ((s.prepare job).batchNumPkts c)).map (fun j => DpdkAction.sent
        ((s.prepare job).buildPacket ops true job.job.id j ((s.prepare job).poolIndex c j) (bufs j))) →
      m.slice = s.slices + 1 →
      ∃ j, m = (s.prepare job).buildPacket ops true job.job.id j ((s.prepare job).poolIndex c j) (bufs j) := by
    intro m hm hslice
    rcases List.mem_append.mp hm with h1 | h1
    · have h2 := hI.past m h1
      omega
    · obtain ⟨j, -, he⟩ := List.mem_map.mp h1
      cases he
      exact ⟨j, rfl⟩
  refine ⟨hset, ?_, hbeq, hsep, fun m hm _ => ?_, fun m hm _ _ buf => ?_⟩
  · rw [← hbeq]
    cases hd : job.slice.dataType with
    | float32 =>
      have h1 : (s.prepare job).ppp.slice.dataType = .float32 := hd
      simp [totalNumPkts, Ppp.needsExtraBatch, h1]
    | int32 =>
      have h1 : (s.prepare job).ppp.slice.dataType = .int32 := hd
      simp [totalNumPkts, Ppp.needsExtraBatch, h1]
  · obtain ⟨j, rfl⟩ := hnow m hm.1 hm.2
    rfl
  · obtain ⟨j, rfl⟩ := hnow m hm.1 hm.2
    exact Ppp.preprocessSingle_agree Ppp.SameInputs.refl

theorem Building.accept (h : Building ops s sl) (hI : Inv c s) (hs : s.current = some sl) {hdr : DpdkPacketHdr}
    (pkt : Packet) (hsent : hdr.pktId ∈ sl.sent) (hnew : hdr.pktId ∉ sl.accepted) (hlt : hdr.pktId < sl.totalNumPkts) :
    Building ops (s.accept c ops sl hdr pkt) (sl.acceptedPacket hdr) := by
  have hsl := hI.receiving sl hs
  have hshape : (s.postprocessed ops hdr.pktId pkt).ppp =
      { s.ppp with scalingFactors := (s.postprocessed ops hdr.pktId pkt).ppp.scalingFactors } :=
    Ppp.postprocessSingle_eq _ _ _ _
  -- a packet that was sent is an old one or the successor
  have hnow : ∀ m, (s.accept c ops sl hdr pkt).SentNow m → s.SentNow m ∨
      m = (s.postprocessed ops hdr.pktId pkt).buildPacket ops true sl.jobId (hdr.pktId + sl.batchNumPkts)
        (s.poolIndex c (hdr.pktId + sl.batchNumPkts)) pkt := by
    intro m hm
    rw [accept_eq hsl pkt hlt] at hm
    rcases List.mem_append.mp hm.1 with h1 | h1
    · exact .inl ⟨h1, hm.2⟩
    · split at h1
      · simp only [List.mem_cons, reduceCtorEq, List.not_mem_nil, or_false, false_or, DpdkAction.sent.injEq] at h1
        exact .inr h1
      · simp at h1
  have hppp : (s.accept c ops sl hdr pkt).ppp = (s.postprocessed ops hdr.pktId pkt).ppp := by rw [accept_eq hsl pkt hlt]
  have hmem : (s.accept c ops sl hdr pkt).memory = (s.postprocessed ops hdr.pktId pkt).memory := by
    rw [accept_eq hsl pkt hlt]
  refine ⟨?_, ?_, ?_, ?_, fun m hm hf => ?_, fun m hm hf hout buf => ?_⟩
  · rw [hppp, hshape]
    exact ⟨h.setUp.ltuNumel_pos, h.setUp.total, h.setUp.batch, h.setUp.batch_pos⟩
  · rw [hppp, hshape]
    exact h.total
  · rw [hppp, hshape]
    exact h.batch
  · rw [hppp, hshape]
    exact h.separate
  · rcases hnow m hm with hm | rfl
    · exact h.jobId m hm hf
    · rfl
  · rw [hppp, hmem]
    rcases hnow m hm with hm | rfl
    · rw [DpdkSlice.accepted_acceptedPacket, Finset.mem_insert, not_or] at hout
      have hid : m.hdr.shortJobId = shortJobId sl.jobId := congrArg shortJobId (h.jobId m hm hf)
      have hsame := h.sameInputs hsl pkt (hI.now sl hs m hm hid) hout.2 hsent hnew hout.1
      exact ((h.same m hm hf hout.2 buf).trans (Ppp.preprocessSingle_agree hsame)).shape hshape
    · exact Ppp.preprocessSingle_agree Ppp.SameInputs.refl

/-- What another thread writes is not read. -/
theorem Building.wrote (h : Building ops s sl) (hI : Inv c s) (hs : s.current = some sl) {addr : ℕ} (w : Word)
    (hr : ¬s.reads addr) : Building ops { s with memory := Function.update s.memory addr w } sl := by
  have hsl := hI.receiving sl hs
  refine ⟨h.setUp, h.total, h.batch, h.separate, h.jobId, fun m hm hf hout buf => ?_⟩
  have hid : m.hdr.shortJobId = shortJobId sl.jobId := congrArg shortJobId (h.jobId m hm hf)
  have hlt := (hsl.mem_sent.mp (hI.now sl hs m hm hid)).1
  have hin : ∀ l < s.ppp.totalMainNumLtus, ∀ i ∈ s.ppp.indices l,
      s.ppp.input s.memory i = s.ppp.input (Function.update s.memory addr w) i := by
    intro l hl i hi
    rw [h.setUp.indices hl, Chunks.mem_chunk h.setUp.ltuNumel_pos] at hi
    have hne : s.ppp.slice.inPtr + 4 * i ≠ addr := by
      rintro rfl
      exact hr ⟨by rw [hs]; rfl, by omega, by omega⟩
    exact (Function.update_of_ne hne w s.memory).symm
  refine (h.same m hm hf hout buf).trans (Ppp.preprocessSingle_agree ⟨rfl, fun l hl => hin l (h.lt hlt hl),
    fun _ _ _ => rfl, fun l hl => hin l (Ppp.lt_of_exponentLtu hl).2⟩)

/-- While the thread works on a slice, its outstanding packets can be built. -/
def Buildable (ops : FloatOps K) (s : DpdkWorkerThread K) : Prop := ∀ sl, s.current = some sl → Building ops s sl

theorem Buildable.step (hI : Inv c s) (h : s.Buildable ops) {e : Event} (hg : s.genuine e = true)
    (hsep : separateBuffers e = true) (hn : s.next c ops e = some s') : s'.Buildable ops := by
  cases DpdkWorkerThread.step hn with
  | began job bufs _ _ hnumel hb =>
    intro sl hs
    exact Building.begin hI hnumel (of_decide_eq_true hsep) hb hs
  | received sl hdr pkt bit hs =>
    intro sl' hs'
    have hsl := hI.receiving sl hs
    rcases receive_cases hsl hdr pkt bit (hI.mem_sent_of_genuine hs hg) with heq | ⟨h1, h2, -, h4, heq⟩
    · rw [heq] at hs' ⊢
      cases hs'
      obtain ⟨g1, g2, g3, g4, g5, g6⟩ := h sl hs
      exact ⟨g1, g2, g3, g4, g5, g6⟩
    · rw [heq] at hs' ⊢
      have hcur : (s.accept c ops sl hdr pkt).current = some (sl.acceptedPacket hdr) := by rw [accept_eq hsl pkt h4]
      obtain rfl : sl.acceptedPacket hdr = sl' := Option.some.inj (hcur.symm.trans hs')
      exact (h sl hs).accept hI hs pkt h1 h2 h4
  | expired sl args i buf hs ht hlt =>
    intro sl' hs'
    obtain ⟨g1, g2, g3, g4, g5, g6⟩ := h sl' hs'
    have hnow : ∀ m, (s.resend ops args buf).SentNow m → m.fresh = true → s.SentNow m := by
      intro m hm hf
      rcases List.mem_append.mp hm.1 with h1 | h1
      · exact ⟨h1, hm.2⟩
      · simp only [List.mem_singleton, DpdkAction.sent.injEq] at h1
        rw [h1] at hf
        cases hf
    exact ⟨g1, g2, g3, g4, fun m hm hf => g5 m (hnow m hm hf) hf, fun m hm hf => g6 m (hnow m hm hf) hf⟩
  | finished => exact fun _ hc => (by cases hc)
  | stopped =>
    intro sl' hs'
    obtain ⟨g1, g2, g3, g4, g5, g6⟩ := h sl' hs'
    exact ⟨g1, g2, g3, g4, g5, g6⟩
  | wrote addr w hr => exact fun sl' hs' => (h sl' hs').wrote hI hs' w hr

/-- The conditions on a step under which packets can be built again. -/
def keepsPackets (c : DpdkConfig) (s : DpdkWorkerThread K) (e : Event) : Bool :=
  s.genuine e && s.keepsOrder c e && separateBuffers e

/-- An outstanding packet that is built again is the same in all that
`PostprocessSingle` uses. -/
theorem rebuilds_same (h : (machine c ops).Reach (fun s e => s.keepsPackets c e = true) s) (hs : s.current = some sl)
    {m : DpdkPacket} (hm : s.SentNow m) (hf : m.fresh = true) (hout : m.pktId ∉ sl.posts.map DpdkPacketHdr.pktId)
    (buf : Packet) : s.ppp.Agree m.pktId m.content (s.ppp.preprocessSingle ops s.memory m.pktId buf).1 := by
  have hand : ∀ (s : DpdkWorkerThread K) e, s.keepsPackets c e = true →
      (s.genuine e = true ∧ s.keepsOrder c e = true) ∧ separateBuffers e = true := fun s e hk => by
    simpa only [keepsPackets, Bool.and_eq_true] using hk
  have hB : s.Buildable ops := by
    refine Machine.Reach.invariant_of (I := Inv c) (fun s hs => ?_) (fun s hs => ?_) (fun s e s' hI hB hk hn => ?_) h
    · exact Inv.of_reach (hs.mono fun s e hk => (hand s e hk).1)
    · obtain ⟨memory, rfl⟩ := hs
      exact fun sl hc => by cases hc
    · exact Buildable.step hI hB (hand s e hk).1.1 (hand s e hk).2 hn
  refine (hB sl hs).same m hm hf ?_ buf
  rwa [DpdkSlice.accepted, List.mem_toFinset]

/-- The first packet with this id that was sent in the current slice. -/
def firstSent (s : DpdkWorkerThread K) (pktId : ℕ) : Option DpdkPacket :=
  s.log.findSome? fun a =>
    match a with
    | .sent m => if m.slice = s.slices ∧ m.pktId = pktId then some m else none
    | .accepted _ _ => none

theorem sentNow_of_firstSent {pktId : ℕ} {m : DpdkPacket} (h : s.firstSent pktId = some m) :
    s.SentNow m ∧ m.pktId = pktId := by
  obtain ⟨a, ha, hm⟩ := List.exists_of_findSome?_eq_some h
  cases a with
  | sent m' =>
    simp only [Option.ite_none_right_eq_some, Option.some.injEq] at hm
    obtain ⟨⟨hslice, hid⟩, rfl⟩ := hm
    exact ⟨⟨ha, hslice⟩, hid⟩
  | accepted slice pktId => cases hm

/-- A response to packet 1 of slice 0 comes again in slice 256, which is reduced
in place and has the same short job id. It is taken for the response to packet 1,
which was not sent, and writes over what packet 0 is built from. -/
theorem rebuilds_other : ∃ (s : DpdkWorkerThread ℕ) (sl : DpdkSlice) (m : DpdkPacket),
    (machine (exampleConfig 1 (by decide)) exampleOps).Reach
      (fun s e => (s.answers e = true ∧ s.keepsOrder (exampleConfig 1 (by decide)) e = true) ∧
        separateBuffers e = true) s ∧
    s.current = some sl ∧ s.SentNow m ∧ m.fresh = true ∧ m.pktId ∉ sl.posts.map DpdkPacketHdr.pktId ∧
    ¬s.ppp.Agree m.pktId m.content (s.ppp.preprocessSingle exampleOps s.memory m.pktId examplePacket).1 := by
  let hdr (pktId : ℕ) : DpdkPacketHdr := { pktId, shortJobId := 0 }
  have hrun : ((machine (exampleConfig 1 (by decide)) exampleOps).runWhile
      (fun s e => (s.answers e = true ∧ s.keepsOrder (exampleConfig 1 (by decide)) e = true) ∧
        separateBuffers e = true)
      (new (exampleConfig 1 (by decide)) fun _ => 0)
      [.begin (exampleSlice 0 64 .float32) fun _ => examplePacket, .receive (hdr 0) examplePacket false,
        .receive (hdr 1) examplePacket false, .finish, .write 0 0x3f800000#32,
        .begin (exampleSlice 256 64 .float32) fun _ => examplePacket,
        .receive (hdr 1) examplePacket false]).bind (fun s => s.current.bind fun sl => (s.firstSent 0).map fun m =>
      (sl.posts.map DpdkPacketHdr.pktId, m.fresh, m.content.exponent,
        (s.ppp.preprocessSingle exampleOps s.memory 0 examplePacket).1.exponent, s.ppp.exponentLtu 0)) =
      some ([1], true, 1, -126, some 0) := by
    decide +kernel
  obtain ⟨s, hr, hcur⟩ := Option.bind_eq_some_iff.mp hrun
  obtain ⟨sl, hs, hfirst⟩ := Option.bind_eq_some_iff.mp hcur
  obtain ⟨m, hm, heq⟩ := Option.map_eq_some_iff.mp hfirst
  simp only [Prod.mk.injEq] at heq
  obtain ⟨hposts, hfresh, hexp, hbuilt, hltu⟩ := heq
  obtain ⟨hsent, hid⟩ := sentNow_of_firstSent hm
  refine ⟨s, sl, m, Machine.Reach.runWhile (.init ⟨_, rfl⟩) hr, hs, hsent, hfresh, ?_, fun hagree => ?_⟩
  · rw [hposts, hid]
    decide
  · rw [hid] at hagree
    have h1 := hagree.exponent 0 hltu
    rw [hexp, hbuilt] at h1
    exact absurd h1 (by decide)

/-- A slice of three LTUs, reduced in place: packet 1 was accepted, and packet 0
is built again. -/
theorem rebuilds_same_in_place : ∃ (s : DpdkWorkerThread ℕ) (sl : DpdkSlice) (m : DpdkPacket), s.current = some sl ∧
    s.SentNow m ∧ m.pktId = 0 ∧ sl.posts.map DpdkPacketHdr.pktId = [1] ∧
    s.ppp.Agree m.pktId m.content (s.ppp.preprocessSingle exampleOps s.memory m.pktId examplePacket).1 := by
  have hrun : ((machine (exampleConfig 2 (by decide)) exampleOps).runWhile
      (fun s e => s.keepsPackets (exampleConfig 2 (by decide)) e = true)
      (new (exampleConfig 2 (by decide)) fun _ => 0x3f800000#32)
      [.begin (exampleSlice 0 130 .float32) fun _ => examplePacket,
        .receive { pktId := 1, shortJobId := 0 } examplePacket false]).bind (fun s => s.current.bind fun sl =>
      (s.firstSent 0).map fun m => (sl.posts.map DpdkPacketHdr.pktId, m.fresh)) = some ([1], true) := by
    decide +kernel
  obtain ⟨s, hr, hcur⟩ := Option.bind_eq_some_iff.mp hrun
  obtain ⟨sl, hs, hfirst⟩ := Option.bind_eq_some_iff.mp hcur
  obtain ⟨m, hm, heq⟩ := Option.map_eq_some_iff.mp hfirst
  simp only [Prod.mk.injEq] at heq
  obtain ⟨hposts, hfresh⟩ := heq
  obtain ⟨hsent, hid⟩ := sentNow_of_firstSent hm
  have hout : m.pktId ∉ sl.posts.map DpdkPacketHdr.pktId := by
    rw [hposts, hid]
    decide
  exact ⟨s, sl, m, hs, hsent, hid, hposts,
    rebuilds_same (Machine.Reach.runWhile (.init ⟨_, rfl⟩) hr) hs hsent hfresh hout examplePacket⟩

end DpdkWorkerThread

end SwitchML.Client
