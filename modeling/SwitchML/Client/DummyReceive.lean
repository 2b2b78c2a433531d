/-
The receive loop of a thread of the dummy backend. The ids that are pending, in
the last burst or about to be sent are those outstanding in a window over the
slice, so their buffers differ, and while an id is missing one is pending. This
holds for every order in which packets are received.
-/
import SwitchML.Client.DummyBackend
import SwitchML.Client.Holding
import SwitchML.Lib.Window
import Mathlib.Data.Finset.Dedup
import Mathlib.Data.List.Perm.Basic

namespace SwitchML.Client

namespace DummyWorkerThread

variable {T : ℕ} {K : Type} {c : DummyConfig T} {ops : FloatOps K} {w w' : DummyWorkerThread K} {lp : DummyLoop}

/-- The packets that are not postprocessed. -/
def live (w : DummyWorkerThread K) (lp : DummyLoop) : List DummyPacket :=
  w.pendingPackets ++ lp.receivedPackets ++ lp.packetsToSend

/-- What the receive loop keeps. -/
structure Receiving (c : DummyConfig T) (w : DummyWorkerThread K) (lp : DummyLoop) : Prop where
  batch_pos : 0 < lp.batchNumPkts
  window : Window lp.totalNumPkts lp.batchNumPkts lp.posts.toFinset
  nodup : lp.posts.Nodup
  ids : ((w.live lp).map DummyPacket.pktId).Nodup
  mem_ids : ∀ p, p ∈ (w.live lp).map DummyPacket.pktId ↔
    Window.Outstanding lp.totalNumPkts lp.batchNumPkts lp.posts.toFinset p
  buffer : ∀ pkt ∈ w.live lp, pkt.buffer = pkt.pktId % lp.batchNumPkts
  numel : ∀ pkt ∈ w.live lp, pkt.numel = c.packetNumel
  count : lp.numPacketsReceived = lp.posts.length + lp.receivedPackets.length
  toSend : lp.receivedPackets = [] → lp.packetsToSend = []

theorem Receiving.outstanding (h : Receiving c w lp) {pkt : DummyPacket} (hm : pkt ∈ w.live lp) :
    Window.Outstanding lp.totalNumPkts lp.batchNumPkts lp.posts.toFinset pkt.pktId :=
  (h.mem_ids _).mp (List.mem_map_of_mem hm)

/-- No two of the packets share a buffer. -/
theorem Receiving.buffers (h : Receiving c w lp) : ((w.live lp).map DummyPacket.buffer).Nodup := by
  have hmap : (w.live lp).map DummyPacket.buffer =
      ((w.live lp).map DummyPacket.pktId).map (· % lp.batchNumPkts) := by
    rw [List.map_map]
    exact List.map_congr_left fun pkt hm => h.buffer pkt hm
  rw [hmap]
  refine h.ids.map_on fun p hp q hq hmod => ?_
  exact h.window.outstanding_unique ((h.mem_ids p).mp hp) ((h.mem_ids q).mp hq) hmod

theorem Receiving.card_posts (h : Receiving c w lp) : lp.posts.toFinset.card = lp.posts.length :=
  List.toFinset_card_of_nodup h.nodup

/-- At the head of the loop, while not all packets are received, one is pending. -/
theorem Receiving.pending (h : Receiving c w lp) (hburst : lp.receivedPackets = [])
    (hnum : lp.numPacketsReceived ≠ lp.totalNumPkts) : w.pendingPackets ≠ [] := by
  have hcard : lp.posts.toFinset.card ≠ lp.totalNumPkts := by
    rw [h.card_posts]
    have h1 := h.count
    rw [hburst, List.length_nil, Nat.add_zero] at h1
    rwa [← h1]
  have hmiss : ∃ p < lp.totalNumPkts, p ∉ lp.posts.toFinset := by
    by_contra hall
    refine hcard (h.window.card_eq_iff.mpr (Finset.Subset.antisymm h.window.subset fun p hp => ?_))
    by_contra hp'
    exact hall ⟨p, Finset.mem_range.mp hp, hp'⟩
  obtain ⟨p, hp, hpA⟩ := hmiss
  obtain ⟨q, hq⟩ := Window.exists_outstanding h.batch_pos hp hpA
  have hmem := (h.mem_ids q).mpr hq
  rw [live, hburst, h.toSend hburst, List.append_nil, List.append_nil] at hmem
  intro hnil
  rw [hnil] at hmem
  cases hmem

/-- The loop is done once each id was postprocessed, and each was once. -/
theorem Receiving.perm_iff (h : Receiving c w lp) (hburst : lp.receivedPackets = []) :
    lp.numPacketsReceived = lp.totalNumPkts ↔ lp.posts.Perm (List.range lp.totalNumPkts) := by
  have h1 := h.count
  rw [hburst, List.length_nil, Nat.add_zero] at h1
  rw [h1, ← h.card_posts, h.window.card_eq_iff, List.perm_ext_iff_of_nodup h.nodup List.nodup_range]
  simp only [Finset.ext_iff, List.mem_toFinset, Finset.mem_range, List.mem_range]

/-- What the invariant says of the packets does not depend on where they are. -/
theorem Receiving.of_perm (h : Receiving c w lp) {w' : DummyWorkerThread K} {lp' : DummyLoop}
    (hperm : (w'.live lp').Perm (w.live lp)) (htotal : lp'.totalNumPkts = lp.totalNumPkts)
    (hbatch : lp'.batchNumPkts = lp.batchNumPkts) (hposts : lp'.posts = lp.posts)
    (hcount : lp'.numPacketsReceived = lp'.posts.length + lp'.receivedPackets.length)
    (hsend : lp'.receivedPackets = [] → lp'.packetsToSend = []) : Receiving c w' lp' := by
  refine ⟨by rw [hbatch]; exact h.batch_pos, ?_, by rw [hposts]; exact h.nodup, ?_, fun p => ?_, fun pkt hm => ?_,
    fun pkt hm => h.numel pkt (hperm.mem_iff.mp hm), hcount, hsend⟩
  · rw [htotal, hbatch, hposts]
    exact h.window
  · exact (hperm.map _).nodup_iff.mpr h.ids
  · rw [(hperm.map _).mem_iff, htotal, hbatch, hposts]
    exact h.mem_ids p
  · rw [hbatch]
    exact h.buffer pkt (hperm.mem_iff.mp hm)

/-! ## The first batch -/

theorem pktId_firstBatchPkts (job : JobSlice) (n : ℕ) : (firstBatchPkts c job n).map DummyPacket.pktId = List.range n := by
  rw [firstBatchPkts, List.map_map]
  exact List.map_id _

theorem Receiving.begin (hpending : w.pendingPackets = []) {memory : Memory} {job : JobSlice}
    (hb : batchNumPkts c (w.ppp.setupJobSlice job.slice) ≠ 0) (hc : (w.begin c ops memory job).current = some lp) :
    Receiving c (w.begin c ops memory job) lp := by
  cases hc
  have hlive : (w.begin c ops memory job).live {
      totalNumPkts := totalNumPkts c (w.ppp.setupJobSlice job.slice)
      batchNumPkts := batchNumPkts c (w.ppp.setupJobSlice job.slice)
      numPacketsReceived := 0
      receivedPackets := []
      packetsToSend := []
      posts := [] } = firstBatchPkts c job (batchNumPkts c (w.ppp.setupJobSlice job.slice)) := by
    simp [live, DummyWorkerThread.begin, hpending]
  have hle : batchNumPkts c (w.ppp.setupJobSlice job.slice) ≤ totalNumPkts c (w.ppp.setupJobSlice job.slice) := by
    simp only [totalNumPkts, batchNumPkts]
    split <;> omega
  refine ⟨Nat.pos_of_ne_zero hb, Window.empty, List.nodup_nil, ?_, fun p => ?_, fun pkt hm => ?_, fun pkt hm => ?_, rfl,
    fun _ => rfl⟩
  · rw [hlive, pktId_firstBatchPkts]
    exact List.nodup_range
  · rw [hlive, pktId_firstBatchPkts, List.mem_range]
    show _ ↔ Window.Sent _ _ ∅ p ∧ p ∉ (∅ : Finset ℕ)
    rw [Window.sent_empty hle]
    simp
  · rw [hlive] at hm
    obtain ⟨i, -, rfl⟩ := List.mem_map.mp hm
    rfl
  · rw [hlive] at hm
    obtain ⟨i, -, rfl⟩ := List.mem_map.mp hm
    rfl

/-! ## A burst -/

/-- The packets of a burst are taken out of those that are pending. -/
theorem receiveBurst_perm {received received' : List DummyPacket} {choices : List ℕ}
    (hr : w.receiveBurst c received choices = some (w', received')) :
    (w'.pendingPackets ++ received').Perm (w.pendingPackets ++ received) := by
  induction choices generalizing w received with
  | nil =>
    cases hr
    exact .refl _
  | cons i choices ih =>
    simp only [receiveBurst] at hr
    split at hr
    · rename_i pkt hi
      obtain ⟨hlt, hget⟩ := List.getElem?_eq_some_iff.mp hi
      refine (ih hr).trans ?_
      have herase := List.getElem_cons_eraseIdx_perm hlt
      rw [hget] at herase
      calc w.pendingPackets.eraseIdx i ++ (received ++ [pkt])
          _ = w.pendingPackets.eraseIdx i ++ received ++ [pkt] := (List.append_assoc ..).symm
          _ |>.Perm <| pkt :: (w.pendingPackets.eraseIdx i ++ received) := List.perm_append_singleton ..
          _ |>.Perm <| w.pendingPackets ++ received := herase.append_right received
    · cases hr

theorem receiveBurst_ppp {received received' : List DummyPacket} {choices : List ℕ}
    (hr : w.receiveBurst c received choices = some (w', received')) : w'.ppp = w.ppp := by
  induction choices generalizing w received with
  | nil =>
    cases hr
    rfl
  | cons i choices ih =>
    simp only [receiveBurst] at hr
    split at hr
    · have h1 := ih hr
      exact h1
    · cases hr

theorem Receiving.receiveBurst (h : Receiving c w lp) (hburst : lp.receivedPackets = []) {choices : List ℕ}
    {received : List DummyPacket} (hr : w.receiveBurst c [] choices = some (w', received)) {lp' : DummyLoop}
    (hlp : lp' = { lp with
      receivedPackets := received, numPacketsReceived := lp.numPacketsReceived + received.length }) :
    Receiving c { w' with current := some lp' } lp' := by
  have hsend := h.toSend hburst
  have hperm := receiveBurst_perm hr
  rw [List.append_nil] at hperm
  subst hlp
  refine h.of_perm ?_ rfl rfl rfl ?_ fun _ => hsend
  · simp only [live, hburst, hsend, List.append_nil]
    exact hperm
  · have h1 := h.count
    rw [hburst, List.length_nil, Nat.add_zero] at h1
    exact congrArg (· + received.length) h1

/-! ## A received packet -/

/-- The loop after a packet was postprocessed, before its successor is sent. -/
def processed (lp : DummyLoop) (pkt : DummyPacket) (rest : List DummyPacket) : DummyLoop :=
  { lp with
    receivedPackets := rest
    packetsToSend :=
      if rest = [] then []
      else if (reuse lp pkt).pktId < lp.totalNumPkts then lp.packetsToSend ++ [reuse lp pkt] else lp.packetsToSend
    posts := lp.posts ++ [pkt.pktId] }

/-- The packets after one was postprocessed: the others and its successor. -/
theorem live_process (memory : Memory) (pkt : DummyPacket) (rest : List DummyPacket) :
    (w.process ops memory lp pkt rest).1.live (processed lp pkt rest) =
      w.pendingPackets ++ rest ++ lp.packetsToSend ++
        if (reuse lp pkt).pktId < lp.totalNumPkts then [reuse lp pkt] else [] := by
  simp only [live, processed, process]
  by_cases hrest : rest = []
  · simp only [hrest, if_true, List.append_nil]
    split
    · rw [List.append_assoc]
    · rw [List.append_nil]
  · simp only [if_neg hrest]
    split
    · simp only [List.append_assoc]
    · rw [List.append_nil]

/-- The packet that is processed next, before the others. -/
theorem live_perm (w : DummyWorkerThread K) {pkt : DummyPacket} {rest : List DummyPacket}
    (hburst : lp.receivedPackets = pkt :: rest) :
    (w.live lp).Perm (pkt :: (w.pendingPackets ++ rest ++ lp.packetsToSend)) := by
  rw [live, hburst, List.append_assoc, List.append_assoc]
  exact List.perm_middle

theorem Receiving.process (h : Receiving c w lp) {pkt : DummyPacket} {rest : List DummyPacket}
    (hburst : lp.receivedPackets = pkt :: rest) (memory : Memory) :
    Receiving c (w.process ops memory lp pkt rest).1 (processed lp pkt rest) := by
  have hlive := live_perm w hburst
  have hpkt : pkt ∈ w.live lp := hlive.mem_iff.mpr List.mem_cons_self
  have hout := h.outstanding hpkt
  have hids : (pkt.pktId :: (w.pendingPackets ++ rest ++ lp.packetsToSend).map DummyPacket.pktId).Nodup :=
    (hlive.map DummyPacket.pktId).nodup_iff.mp h.ids
  have hmem : ∀ p, p ∈ (w.pendingPackets ++ rest ++ lp.packetsToSend).map DummyPacket.pktId ↔
      Window.Outstanding lp.totalNumPkts lp.batchNumPkts lp.posts.toFinset p ∧ p ≠ pkt.pktId := by
    intro p
    have h1 := (hlive.map DummyPacket.pktId).mem_iff (a := p)
    rw [List.map_cons, List.mem_cons] at h1
    rw [← h.mem_ids, h1]
    constructor
    · intro hp
      refine ⟨.inr hp, ?_⟩
      rintro rfl
      exact (List.nodup_cons.mp hids).1 hp
    · rintro ⟨hp | hp, hne⟩
      · exact absurd hp hne
      · exact hp
  have hposts : (lp.posts ++ [pkt.pktId]).toFinset = insert pkt.pktId lp.posts.toFinset := by
    ext p
    simp
  have hnew : pkt.pktId ∉ lp.posts := fun hp => hout.2 (List.mem_toFinset.mpr hp)
  refine ⟨h.batch_pos, ?_, ?_, ?_, fun p => ?_, fun pkt' hm => ?_, fun pkt' hm => ?_, ?_, fun hrest => if_pos hrest⟩
  · show Window lp.totalNumPkts lp.batchNumPkts (lp.posts ++ [pkt.pktId]).toFinset
    rw [hposts]
    exact h.window.accept hout
  · refine List.nodup_append.mpr ⟨h.nodup, List.nodup_singleton _, fun a ha b hb => ?_⟩
    rw [List.mem_singleton] at hb
    rintro rfl
    exact hnew (hb ▸ ha)
  · rw [live_process, List.map_append]
    refine List.nodup_append.mpr ⟨(List.nodup_cons.mp hids).2, ?_, fun a ha b hb => ?_⟩
    · split
      · exact List.nodup_singleton _
      · exact List.nodup_nil
    · rintro rfl
      have ho := ((hmem _).mp ha).1
      split at hb
      · rw [List.map_singleton, List.mem_singleton] at hb
        -- the successor was not sent yet
        have h1 := (hb ▸ ho).1.2
        have h2 : (reuse lp pkt).pktId = pkt.pktId + lp.batchNumPkts := rfl
        rw [h2, Nat.add_sub_cancel] at h1
        rcases h1 with h1 | h1
        · omega
        · exact hout.2 h1.2
      · cases hb
  · rw [live_process, List.map_append, List.mem_append, hmem]
    show _ ↔ Window.Outstanding lp.totalNumPkts lp.batchNumPkts (lp.posts ++ [pkt.pktId]).toFinset p
    rw [hposts, h.window.outstanding_insert h.batch_pos hout]
    refine or_congr Iff.rfl ?_
    split
    · rename_i hlt
      rw [List.map_singleton, List.mem_singleton]
      exact ⟨fun hp => ⟨hp, hp ▸ hlt⟩, fun hp => hp.1⟩
    · rename_i hlt
      have hnot : ¬pkt.pktId + lp.batchNumPkts < lp.totalNumPkts := hlt
      exact ⟨fun hp => (by cases hp), fun hp => absurd (hp.1 ▸ hp.2) hnot⟩
  · rw [live_process] at hm
    rcases List.mem_append.mp hm with hm | hm
    · exact h.buffer pkt' (hlive.mem_iff.mpr (List.mem_cons_of_mem _ hm))
    · split at hm
      · rw [List.mem_singleton] at hm
        rw [hm]
        rfl
      · cases hm
  · rw [live_process] at hm
    rcases List.mem_append.mp hm with hm | hm
    · exact h.numel pkt' (hlive.mem_iff.mpr (List.mem_cons_of_mem _ hm))
    · split at hm
      · rw [List.mem_singleton] at hm
        rw [hm]
        exact h.numel pkt hpkt
      · cases hm
  · show lp.numPacketsReceived = (lp.posts ++ [pkt.pktId]).length + rest.length
    have h1 := h.count
    rw [hburst, List.length_cons] at h1
    rw [List.length_append, List.length_singleton]
    omega

end DummyWorkerThread

end SwitchML.Client
