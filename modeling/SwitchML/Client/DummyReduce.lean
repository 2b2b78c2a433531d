/-
What the receive loop of the dummy backend makes of an `INT32` slice: the
elements of the packets that were postprocessed are multiplied by the number of
workers, those of the others are as they were, and a packet carries the ones or
the others, in network byte order. The two byte swaps of the backend and the two
of the prepostprocessor cancel out.
-/
import SwitchML.Client.DummyRuns
import Mathlib.Tactic.IntervalCases

namespace SwitchML.Client

/-! ## Byte order -/

theorem swapInt32_eq (w : Word) : swapInt32 w = htonl w := by
  apply BitVec.eq_of_getLsbD_eq
  intro i hi
  simp only [htonl, swapInt32, BitVec.getLsbD_append, BitVec.getLsbD_extractLsb', BitVec.getLsbD_or,
    BitVec.getLsbD_and, BitVec.getLsbD_shiftLeft, BitVec.getLsbD_sshiftRight]
  interval_cases i <;> simp

theorem processEntry_htonl (numWorkers : ℕ) (w : Word) :
    processEntry numWorkers (htonl w) = htonl (w * BitVec.ofNat 32 numWorkers) := by
  rw [processEntry, swapInt32_eq, swapInt32_eq, htonl_htonl]

/-! ## What packets carry -/

/-- The packet's buffer holds the values `f`, of which there are `size`, in
network byte order. -/
def DummyPacket.Carries (size : ℕ → ℕ) (f : ℕ → ℕ → Word) (outstanding : ℕ → Packet) (pkt : DummyPacket) : Prop :=
  ∀ k < size pkt.pktId, (outstanding pkt.buffer).entries k = htonl (f pkt.pktId k)

namespace DummyWorkerThread

variable {T : ℕ} {K : Type} {c : DummyConfig T} {ops : FloatOps K} {w w' : DummyWorkerThread K} {lp : DummyLoop}
  {ppp : Ppp K} {memory memory' memory₀ : Memory} {outstanding : ℕ → Packet} {pkt pkt' : DummyPacket}
  {size : ℕ → ℕ} {f : ℕ → ℕ → Word}

theorem carries_update {p : Packet} (h : pkt.Carries size f outstanding) (hne : pkt.buffer ≠ pkt'.buffer) :
    pkt.Carries size f (Function.update outstanding pkt'.buffer p) := by
  intro k hk
  rw [Function.update_of_ne hne]
  exact h k hk

theorem carries_processPacket (h : pkt.Carries size f outstanding) (hnumel : size pkt.pktId ≤ pkt.numel) :
    pkt.Carries size (fun p k => f p k * BitVec.ofNat 32 c.numWorkers) (processPacket c outstanding pkt) := by
  intro k hk
  rw [processPacket, Function.update_self]
  simp only [Ppp.fill, if_pos (Nat.lt_of_lt_of_le hk hnumel), h k hk, processEntry_htonl]

/-- In a burst, what is received is multiplied and what stays pending is not. -/
theorem receiveBurst_carries (hproc : c.processPackets = true) {received received' : List DummyPacket} {choices : List ℕ}
    (hr : w.receiveBurst c received choices = some (w', received'))
    (hbuf : ((w.pendingPackets ++ received).map DummyPacket.buffer).Nodup)
    (hsize : ∀ pkt ∈ w.pendingPackets, size pkt.pktId ≤ pkt.numel)
    (hpend : ∀ pkt ∈ w.pendingPackets, pkt.Carries size f w.outstanding)
    (hrec : ∀ pkt ∈ received, pkt.Carries size (fun p k => f p k * BitVec.ofNat 32 c.numWorkers) w.outstanding) :
    (∀ pkt ∈ w'.pendingPackets, pkt.Carries size f w'.outstanding) ∧
    ∀ pkt ∈ received', pkt.Carries size (fun p k => f p k * BitVec.ofNat 32 c.numWorkers) w'.outstanding := by
  induction choices generalizing w received with
  | nil =>
    cases hr
    exact ⟨hpend, hrec⟩
  | cons i choices ih =>
    simp only [receiveBurst] at hr
    split at hr
    · rename_i pkt hi
      obtain ⟨hlt, hget⟩ := List.getElem?_eq_some_iff.mp hi
      have hmem : pkt ∈ w.pendingPackets := hget ▸ List.getElem_mem hlt
      have hperm : (pkt :: (w.pendingPackets.eraseIdx i ++ received)).Perm (w.pendingPackets ++ received) := by
        have herase := List.getElem_cons_eraseIdx_perm hlt
        rw [hget] at herase
        exact herase.append_right received
      have hbuf' := (hperm.map DummyPacket.buffer).nodup_iff.mpr hbuf
      rw [List.map_cons, List.nodup_cons] at hbuf'
      have hne : ∀ pkt' ∈ w.pendingPackets.eraseIdx i ++ received, pkt'.buffer ≠ pkt.buffer := fun pkt' hm he =>
        hbuf'.1 (he ▸ List.mem_map_of_mem hm)
      simp only [hproc, if_true] at hr
      refine ih hr ?_ ?_ ?_ ?_
      · have hperm' : (w.pendingPackets.eraseIdx i ++ (received ++ [pkt])).Perm
            (pkt :: (w.pendingPackets.eraseIdx i ++ received)) := by
          rw [← List.append_assoc]
          exact List.perm_append_singleton ..
        exact ((hperm'.trans hperm).map DummyPacket.buffer).nodup_iff.mpr hbuf
      · exact fun pkt' hm => hsize pkt' (List.mem_of_mem_eraseIdx hm)
      · intro pkt' hm
        exact carries_update (hpend pkt' (List.mem_of_mem_eraseIdx hm)) (hne pkt' (List.mem_append_left _ hm))
      · intro pkt' hm
        rcases List.mem_append.mp hm with hm | hm
        · exact carries_update (hrec pkt' hm) (hne pkt' (List.mem_append_right _ hm))
        · rw [List.mem_singleton] at hm
          rw [hm]
          exact carries_processPacket (hpend pkt hmem) (hsize pkt hmem)
    · cases hr

/-! ## Building packets -/

theorem carries_preprocess (hd : ppp.slice.dataType = .int32) :
    pkt.Carries ppp.numelToProcess (fun p k => ppp.input memory (p * ppp.ltuNumel + k))
      (preprocess ops ppp memory outstanding pkt) := by
  intro k hk
  rw [preprocess, Function.update_self, Ppp.preprocessSingle, hd]
  exact if_pos hk

theorem carries_foldl (hd : ppp.slice.dataType = .int32) {pkts : List DummyPacket}
    (hbuf : (pkts.map DummyPacket.buffer).Nodup) {outstanding : ℕ → Packet} :
    ∀ pkt ∈ pkts, pkt.Carries ppp.numelToProcess (fun p k => ppp.input memory (p * ppp.ltuNumel + k))
      (pkts.foldl (preprocess ops ppp memory) outstanding) := by
  induction pkts generalizing outstanding with
  | nil => exact fun pkt hm => (by cases hm)
  | cons pkt₁ pkts ih =>
    rw [List.map_cons, List.nodup_cons] at hbuf
    intro pkt hm
    rcases List.mem_cons.mp hm with rfl | hm
    · -- the packets after it have other buffers
      have hkeep : ∀ (l : List DummyPacket) (o : ℕ → Packet), pkt.buffer ∉ l.map DummyPacket.buffer →
          (l.foldl (preprocess ops ppp memory) o) pkt.buffer = o pkt.buffer := by
        intro l
        induction l with
        | nil => exact fun o _ => rfl
        | cons q l ihl =>
          intro o hnot
          rw [List.map_cons, List.mem_cons, not_or] at hnot
          rw [List.foldl_cons, ihl _ hnot.2, preprocess, Function.update_of_ne hnot.1]
      intro k hk
      rw [List.foldl_cons, hkeep pkts _ hbuf.1]
      exact carries_preprocess hd k hk
    · exact ih hbuf.2 pkt hm

/-! ## The slice -/

/-- The elements of the slice in `memory₀`, by packet. -/
def elements (w : DummyWorkerThread K) (memory₀ : Memory) (p k : ℕ) : Word :=
  w.ppp.input memory₀ (p * w.ppp.ltuNumel + k)

/-- What the loop keeps of an `INT32` slice whose elements are those of
`memory₀`. -/
structure Reducing (c : DummyConfig T) (memory₀ memory : Memory) (w : DummyWorkerThread K) (lp : DummyLoop) : Prop where
  int32 : w.ppp.slice.dataType = .int32
  separate : w.ppp.slice.Separate
  todo : ∀ p < w.ppp.totalMainNumLtus, p ∉ lp.posts → ∀ i ∈ w.ppp.indices p,
    w.ppp.input memory i = w.ppp.input memory₀ i
  done : ∀ p ∈ lp.posts, ∀ i ∈ w.ppp.indices p,
    memory (w.ppp.slice.outPtr + 4 * i) = w.ppp.input memory₀ i * BitVec.ofNat 32 c.numWorkers
  sent : ∀ pkt ∈ w.pendingPackets ++ lp.packetsToSend,
    pkt.Carries w.ppp.numelToProcess (w.elements memory₀) w.outstanding
  received : ∀ pkt ∈ lp.receivedPackets,
    pkt.Carries w.ppp.numelToProcess (fun p k => w.elements memory₀ p k * BitVec.ofNat 32 c.numWorkers) w.outstanding

theorem lt_of_mem_indices (hset : ppp.SetUp) {p i : ℕ} (hp : p < ppp.totalMainNumLtus) (hi : i ∈ ppp.indices p) :
    i < ppp.slice.numel ∧ i / ppp.ltuNumel = p := by
  rwa [hset.indices hp, Chunks.mem_chunk hset.ltuNumel_pos] at hi

theorem mem_indices_of_lt (hset : ppp.SetUp) {i : ℕ} (hi : i < ppp.slice.numel) :
    i / ppp.ltuNumel < ppp.totalMainNumLtus ∧ i ∈ ppp.indices (i / ppp.ltuNumel) := by
  have hlt : i / ppp.ltuNumel < ppp.totalMainNumLtus :=
    hset.lt_iff.mpr ((Nat.div_mul_le_self i ppp.ltuNumel).trans_lt hi)
  refine ⟨hlt, ?_⟩
  rw [hset.indices hlt, Chunks.mem_chunk hset.ltuNumel_pos]
  exact ⟨hi, rfl⟩

/-- The elements of the slice are all that counts of the memory. -/
theorem Reducing.frame (h : Reducing c memory₀ memory w lp) (hset : w.ppp.SetUp)
    (hposts : ∀ p ∈ lp.posts, p < w.ppp.totalMainNumLtus)
    (hin : ∀ i < w.ppp.slice.numel, w.ppp.input memory' i = w.ppp.input memory i)
    (hout : ∀ i < w.ppp.slice.numel, memory' (w.ppp.slice.outPtr + 4 * i) = memory (w.ppp.slice.outPtr + 4 * i)) :
    Reducing c memory₀ memory' w lp := by
  refine ⟨h.int32, h.separate, fun p hp hnew i hi => ?_, fun p hp i hi => ?_, h.sent, h.received⟩
  · rw [hin i (lt_of_mem_indices hset hp hi).1]
    exact h.todo p hp hnew i hi
  · rw [hout i (lt_of_mem_indices hset (hposts p hp) hi).1]
    exact h.done p hp i hi

/-- Once every packet was postprocessed the slice is reduced. -/
theorem Reducing.reduced (h : Reducing c memory₀ memory w lp) (hset : w.ppp.SetUp)
    (hall : lp.posts.Perm (List.range w.ppp.totalMainNumLtus)) {i : ℕ} (hi : i < w.ppp.slice.numel) :
    memory (w.ppp.slice.outPtr + 4 * i) = w.ppp.input memory₀ i * BitVec.ofNat 32 c.numWorkers := by
  obtain ⟨hlt, hmem⟩ := mem_indices_of_lt hset hi
  exact h.done _ (hall.mem_iff.mpr (List.mem_range.mpr hlt)) i hmem

/-- The first batch carries the first elements. -/
theorem Reducing.begin {job : JobSlice} (hpending : w.pendingPackets = []) (hd : job.slice.dataType = .int32)
    (hsep : job.slice.Separate) (hrec : Receiving c (w.begin c ops memory job) lp)
    (htotal : lp.totalNumPkts = (w.begin c ops memory job).ppp.totalMainNumLtus)
    (hset : (w.begin c ops memory job).ppp.SetUp) (hlp : (w.begin c ops memory job).current = some lp)
    (hin : ∀ i < job.slice.numel, memory (job.slice.inPtr + 4 * i) = memory₀ (job.slice.inPtr + 4 * i)) :
    Reducing c memory₀ memory (w.begin c ops memory job) lp := by
  have hposts : lp.posts = [] := by
    cases hlp
    rfl
  have hburst : lp.receivedPackets = [] := by
    cases hlp
    rfl
  have hlive : (w.begin c ops memory job).live lp = (w.begin c ops memory job).pendingPackets := by
    rw [live, hburst, hrec.toSend hburst, List.append_nil, List.append_nil]
  have hfirst : (w.begin c ops memory job).pendingPackets =
      firstBatchPkts c job (batchNumPkts c (w.ppp.setupJobSlice job.slice)) := by
    simp [DummyWorkerThread.begin, hpending]
  refine ⟨hd, hsep, fun p hp _ i hi => ?_, fun p hp => ?_, fun pkt hm k hk => ?_, fun pkt hm => ?_⟩
  · exact hin i (lt_of_mem_indices hset hp hi).1
  · rw [hposts] at hp
    cases hp
  · rw [hrec.toSend hburst, List.append_nil] at hm
    have hout := hrec.outstanding (hlive ▸ hm)
    have hlt : pkt.pktId < (w.begin c ops memory job).ppp.totalMainNumLtus := htotal ▸ hout.1.1
    have hbuf := hrec.buffers
    rw [hlive] at hbuf
    rw [hfirst] at hm hbuf
    have hcarry : pkt.Carries (w.begin c ops memory job).ppp.numelToProcess ((w.begin c ops memory job).elements memory)
        (w.begin c ops memory job).outstanding := carries_foldl hd hbuf pkt hm
    rw [hcarry k hk]
    exact congrArg htonl (hin _ (lt_of_mem_indices hset hlt (Ppp.mem_indices hk)).1)
  · rw [hburst] at hm
    cases hm

theorem numelToProcess_le (p : Ppp K) (l : ℕ) : p.numelToProcess l ≤ p.ltuNumel := min_le_left _ _

theorem Reducing.receiveBurst (h : Reducing c memory₀ memory w lp) (hrec : Receiving c w lp)
    (hproc : c.processPackets = true) (hltu : w.ppp.ltuNumel = c.packetNumel) (hburst : lp.receivedPackets = [])
    {choices : List ℕ} {received : List DummyPacket} (hr : w.receiveBurst c [] choices = some (w', received)) :
    Reducing c memory₀ memory { w' with
      current := some { lp with
        receivedPackets := received, numPacketsReceived := lp.numPacketsReceived + received.length } }
      { lp with receivedPackets := received, numPacketsReceived := lp.numPacketsReceived + received.length } := by
  have hsend := hrec.toSend hburst
  have hlive : w.live lp = w.pendingPackets := by
    rw [live, hburst, hsend, List.append_nil, List.append_nil]
  have hppp := receiveBurst_ppp hr
  have hbuf := hrec.buffers
  rw [hlive] at hbuf
  obtain ⟨hpend, hgot⟩ := receiveBurst_carries (f := w.elements memory₀) hproc hr (by rwa [List.append_nil])
    (fun pkt hm => by
      rw [hrec.numel pkt (hlive ▸ hm), ← hltu]
      exact numelToProcess_le w.ppp pkt.pktId)
    (fun pkt hm => h.sent pkt (List.mem_append_left _ hm)) (fun pkt hm => by cases hm)
  refine ⟨?_, ?_, ?_, ?_, fun pkt hm => ?_, fun pkt hm => ?_⟩
  · rw [hppp]
    exact h.int32
  · rw [hppp]
    exact h.separate
  · rw [hppp]
    exact h.todo
  · rw [hppp]
    exact h.done
  · rw [hsend, List.append_nil] at hm
    rw [hppp]
    exact hpend pkt hm
  · rw [hppp]
    exact hgot pkt hm

/-- Postprocessing an `INT32` packet leaves the prepostprocessor as it is. -/
theorem process_ppp (hd : w.ppp.slice.dataType = .int32) (rest : List DummyPacket) :
    (w.process ops memory lp pkt rest).1.ppp = w.ppp := by
  show (w.ppp.postprocessSingle ops memory pkt.pktId (w.outstanding pkt.buffer)).1 = w.ppp
  unfold Ppp.postprocessSingle
  rw [hd]

/-- What was to be sent stays so, and the successor comes with it. -/
theorem mem_process_sent {rest : List DummyPacket} {pkt' : DummyPacket}
    (hm : pkt' ∈ (w.process ops memory lp pkt rest).1.pendingPackets ++ (processed lp pkt rest).packetsToSend) :
    pkt' ∈ w.pendingPackets ++ lp.packetsToSend ∨ pkt' = reuse lp pkt ∧ (reuse lp pkt).pktId < lp.totalNumPkts := by
  simp only [DummyWorkerThread.process, processed] at hm
  by_cases hrest : rest = []
  · simp only [hrest, if_true, List.append_nil] at hm
    split at hm
    · rename_i hreused
      rw [← List.append_assoc, List.mem_append, List.mem_singleton] at hm
      exact hm.imp_right fun he => ⟨he, hreused⟩
    · exact .inl hm
  · simp only [if_neg hrest] at hm
    split at hm
    · rename_i hreused
      rw [← List.append_assoc, List.mem_append, List.mem_singleton] at hm
      exact hm.imp_right fun he => ⟨he, hreused⟩
    · exact .inl hm

theorem Reducing.process (h : Reducing c memory₀ memory w lp) (hrec : Receiving c w lp) (hset : w.ppp.SetUp)
    (htotal : lp.totalNumPkts = w.ppp.totalMainNumLtus) {rest : List DummyPacket}
    (hburst : lp.receivedPackets = pkt :: rest) :
    Reducing c memory₀ (w.process ops memory lp pkt rest).2 (w.process ops memory lp pkt rest).1
      (processed lp pkt rest) := by
  have hppp : (w.process ops memory lp pkt rest).1.ppp = w.ppp := process_ppp h.int32 rest
  have hlive := live_perm w hburst
  have hpkt : pkt ∈ w.live lp := hlive.mem_iff.mpr List.mem_cons_self
  have hout := hrec.outstanding hpkt
  have hnew : pkt.pktId ∉ lp.posts := fun hp => hout.2 (List.mem_toFinset.mpr hp)
  have hlt : pkt.pktId < w.ppp.totalMainNumLtus := htotal ▸ hout.1.1
  have hpay : ∀ p, w.ppp.payloadLtu p = some p := fun p => by simp [Ppp.payloadLtu, h.int32]
  have hbuf := (hlive.map DummyPacket.buffer).nodup_iff.mp hrec.buffers
  rw [List.map_cons, List.nodup_cons] at hbuf
  have hne : ∀ pkt' ∈ w.pendingPackets ++ rest ++ lp.packetsToSend, pkt'.buffer ≠ pkt.buffer := fun pkt' hm he =>
    hbuf.1 (he ▸ List.mem_map_of_mem hm)
  -- the successor gets the buffer of the packet
  have hreuse : (reuse lp pkt).buffer = pkt.buffer := by
    rw [hrec.buffer pkt hpkt]
    exact Nat.add_mod_right ..
  have hkeep : ∀ {f : ℕ → ℕ → Word}, ∀ pkt' ∈ w.pendingPackets ++ rest ++ lp.packetsToSend,
      pkt'.Carries w.ppp.numelToProcess f w.outstanding →
      pkt'.Carries w.ppp.numelToProcess f (w.process ops memory lp pkt rest).1.outstanding := by
    intro f pkt' hm hcarry
    show pkt'.Carries _ _ (if _ then _ else _)
    split
    · refine carries_update hcarry ?_
      rw [hreuse]
      exact hne pkt' hm
    · exact hcarry
  have htodo : ∀ p < w.ppp.totalMainNumLtus, p ∉ lp.posts ++ [pkt.pktId] → ∀ i ∈ w.ppp.indices p,
      w.ppp.input (w.process ops memory lp pkt rest).2 i = w.ppp.input memory₀ i := by
    intro p hp hnot i hi
    rw [List.mem_append, not_or, List.mem_singleton] at hnot
    rw [← h.todo p hp hnot.1 i hi]
    refine Ppp.postprocessSingle_input hset h.separate hp (fun l hl => ?_) (fun he => ?_) hi
    · obtain rfl := Option.some.inj ((hpay _).symm.trans hl)
      exact hlt
    · exact hnot.2 (Option.some.inj ((hpay _).symm.trans he)).symm
  refine ⟨by rw [hppp]; exact h.int32, by rw [hppp]; exact h.separate, ?_, ?_, fun pkt' hm => ?_, fun pkt' hm => ?_⟩
  · rw [hppp]
    exact htodo
  · rw [hppp]
    intro p hp i hi
    by_cases hpe : p = pkt.pktId
    · subst hpe
      obtain ⟨k, hk, rfl⟩ := List.mem_map.mp hi
      rw [List.mem_range] at hk
      have hcarry := h.received pkt (by rw [hburst]; exact List.mem_cons_self) k hk
      calc (w.process ops memory lp pkt rest).2 _
          _ = htonl ((w.outstanding pkt.buffer).entries k) := Ppp.postprocessSingle_int32 h.int32 hk
          _ = w.elements memory₀ pkt.pktId k * BitVec.ofNat 32 c.numWorkers := by rw [hcarry, htonl_htonl]
    · have hp' : p ∈ lp.posts := by
        rcases List.mem_append.mp hp with hp | hp
        · exact hp
        · exact absurd (List.mem_singleton.mp hp) hpe
      rw [← h.done p hp' i hi]
      refine Ppp.postprocessSingle_int32_of_notMem h.int32 fun hi' => hpe ?_
      have hp'' := htotal ▸ hrec.window.lt (List.mem_toFinset.mpr hp')
      rw [← (lt_of_mem_indices hset hp'' hi).2, (lt_of_mem_indices hset hlt hi').2]
  · rw [hppp]
    have helem : (w.process ops memory lp pkt rest).1.elements memory₀ = w.elements memory₀ := by
      funext p k
      rw [elements, elements, hppp]
    rw [helem]
    rcases mem_process_sent hm with hm | ⟨rfl, hreused⟩
    · refine hkeep pkt' ?_ (h.sent pkt' hm)
      rw [List.append_assoc]
      rcases List.mem_append.mp hm with hm | hm
      · exact List.mem_append_left _ hm
      · exact List.mem_append_right _ (List.mem_append_right _ hm)
    · have hcarry : (reuse lp pkt).Carries w.ppp.numelToProcess
          (fun p k => w.ppp.input (w.process ops memory lp pkt rest).2 (p * w.ppp.ltuNumel + k))
          (w.process ops memory lp pkt rest).1.outstanding := by
        have hprep : (w.process ops memory lp pkt rest).1.outstanding = preprocess ops
            (w.process ops memory lp pkt rest).1.ppp (w.process ops memory lp pkt rest).2 w.outstanding (reuse lp pkt) :=
          if_pos hreused
        rw [hprep, hppp]
        exact carries_preprocess h.int32
      intro k hk
      rw [hcarry k hk]
      refine congrArg htonl (htodo _ (htotal ▸ hreused) ?_ _ (Ppp.mem_indices hk))
      -- it was not postprocessed, since it was not sent
      rw [List.mem_append, not_or, List.mem_singleton]
      have hid : (reuse lp pkt).pktId = pkt.pktId + lp.batchNumPkts := rfl
      have hB := hrec.batch_pos
      refine ⟨fun hp => ?_, by omega⟩
      rcases (hrec.window _ (List.mem_toFinset.mpr hp)).2 with h1 | ⟨-, h1⟩
      · omega
      · rw [hid, Nat.add_sub_cancel] at h1
        exact hout.2 h1
  · rw [hppp]
    have helem : (w.process ops memory lp pkt rest).1.elements memory₀ = w.elements memory₀ := by
      funext p k
      rw [elements, elements, hppp]
    rw [helem]
    refine hkeep pkt' ?_ (h.received pkt' (by rw [hburst]; exact List.mem_cons_of_mem _ hm))
    exact List.mem_append_left _ (List.mem_append_right _ hm)

end DummyWorkerThread

end SwitchML.Client
