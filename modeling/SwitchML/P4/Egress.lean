/-
The `Egress` control of `switchml.p4` and its runs. A copy that the replication
engine has made is for the worker of its replication id, which is written over
the worker ID in the metadata. But this is only done for packets whose type still
is BROADCAST, and the drop simulation changes the type just before. A copy that it
drops still goes through the sender, under the ID of the worker whose packet was
answered, and takes a sequence number from that worker's register.
-/
import SwitchML.P4.RDMASender

namespace SwitchML.P4

namespace Egress

open RDMASender (QpnEntry Apart)

structure Tables where
  udp : UDPSender.Tables
  rdma : RDMASender.Tables

/-- Simulate packet drops. -/
def simulateDrops (eg : Eg) : Eg :=
  if eg.md.simulateEgressDrop then { eg with md := { eg.md with packetType := .IGNORE }, dropCtl := true } else eg

/-- If it's BROADCAST, copy rid from PRE to worker id field so tables see it. -/
def copyRid (eg : Eg) : Eg :=
  if eg.md.packetType = .BROADCAST then { eg with md := { eg.md with workerId := eg.egressRid } } else eg

def apply (tables : Tables) (entries : List QpnEntry) (eg : Eg) : List QpnEntry × Eg :=
  if eg.md.packetType = .BROADCAST ∨ eg.md.packetType = .RETRANSMIT then
    let eg := copyRid (simulateDrops eg)
    if eg.md.workerType = .ROCEv2 then RDMASender.apply tables.rdma entries eg
    else (entries, UDPSender.apply tables.udp eg)
  else (entries, eg)

/-- A run of the pipeline: the registers after it and the packets as they leave
the control, dropped ones included. -/
def run (tables : Tables) : List QpnEntry → List Eg → List QpnEntry × List Eg
  | entries, [] => (entries, [])
  | entries, eg :: egs =>
    let r := apply tables entries eg
    let rest := run tables r.1 egs
    (rest.1, r.2 :: rest.2)

/-! ## Response copies -/

/-- A response to RoCE workers: one copy of a result that is broadcast, or a
result that is sent again. -/
def isRoceResponse (eg : Eg) : Bool :=
  (decide (eg.md.packetType = .BROADCAST) || decide (eg.md.packetType = .RETRANSMIT)) &&
    decide (eg.md.workerType = .ROCEv2)

/-- The worker it is for. -/
def destination (eg : Eg) : WorkerId := if eg.md.packetType = .BROADCAST then eg.egressRid else eg.md.workerId

/-- It is for the queue pair of an entry. -/
def addressedTo (e : QpnEntry) (eg : Eg) : Bool := isRoceResponse eg && e.hits (destination eg) eg.md.poolIndex

/-- The drop simulation does not change the worker: it leaves the copy alone, or
the copy is for the worker whose packet is answered. -/
def Undiverted (eg : Eg) : Prop :=
  isRoceResponse eg = true → eg.md.simulateEgressDrop = true → destination eg = eg.md.workerId

/-- The sequence numbers in the headers of the copies for an entry, in order. -/
def assigned (e : QpnEntry) (pkts outs : List Eg) : List (Option (BitVec 24)) :=
  ((pkts.zip outs).filter fun x => addressedTo e x.1).map fun x => x.2.hdr.ibBth.map IbBthH.psn

variable {tables : Tables} {entries : List QpnEntry} {eg : Eg} {e : QpnEntry}

theorem simulateDrops_workerType (eg : Eg) : (copyRid (simulateDrops eg)).md.workerType = eg.md.workerType := by
  unfold copyRid simulateDrops
  split <;> split <;> rfl

theorem simulateDrops_poolIndex (eg : Eg) : (copyRid (simulateDrops eg)).md.poolIndex = eg.md.poolIndex := by
  unfold copyRid simulateDrops
  split <;> split <;> rfl

/-- The tables see the worker that the copy is for. -/
theorem Undiverted.workerId (h : Undiverted eg) (hr : isRoceResponse eg = true) :
    (copyRid (simulateDrops eg)).md.workerId = destination eg := by
  by_cases hdrop : eg.md.simulateEgressDrop = true
  · rw [h hr hdrop, simulateDrops, if_pos hdrop, copyRid, if_neg (by simp)]
  · rw [simulateDrops, if_neg hdrop, copyRid, destination]
    split <;> rfl

theorem apply_of_isRoceResponse (h : isRoceResponse eg = true) :
    apply tables entries eg = RDMASender.apply tables.rdma entries (copyRid (simulateDrops eg)) := by
  simp only [isRoceResponse, Bool.and_eq_true, Bool.or_eq_true, decide_eq_true_eq] at h
  rw [apply, if_pos h.1]
  dsimp only
  rw [if_pos ((simulateDrops_workerType eg).trans h.2)]

/-- Other packets take no sequence number. -/
theorem apply_of_not_isRoceResponse (h : isRoceResponse eg = false) : (apply tables entries eg).1 = entries := by
  simp only [isRoceResponse, Bool.and_eq_false_iff, Bool.or_eq_false_iff, decide_eq_false_iff_not] at h
  unfold apply
  split
  · rename_i hresp
    dsimp only
    rw [simulateDrops_workerType, if_neg]
    intro hroce
    rcases h with h | h
    · exact hresp.elim h.1 h.2
    · exact h hroce
  · rfl

/-- One packet advances the entry it is addressed to, by one. -/
theorem apply_entries (hapart : Apart entries) (h : Undiverted eg) :
    (apply tables entries eg).1 = entries.map fun e => e.advanced (if addressedTo e eg then 1 else 0) := by
  cases hr : isRoceResponse eg with
  | true =>
    rw [apply_of_isRoceResponse hr, RDMASender.apply_entries, RDMASender.executePsn_entries hapart, h.workerId hr,
      simulateDrops_poolIndex]
    simp only [addressedTo, hr, Bool.true_and]
  | false =>
    rw [apply_of_not_isRoceResponse hr]
    simp [addressedTo, hr]

/-- And it gets this entry's number. -/
theorem apply_psn (hapart : Apart entries) (h : Undiverted eg) (he : e ∈ entries)
    (hcreate : e.workerId ∈ tables.rdma.createRocePacket.map (·.workerId)) (hto : addressedTo e eg = true) :
    (apply tables entries eg).2.hdr.ibBth.map IbBthH.psn = some (BitVec.ofNat 24 e.psn.toNat) := by
  rw [addressedTo, Bool.and_eq_true] at hto
  obtain ⟨hr, hhit⟩ := hto
  have hworker : e.workerId = destination eg := by
    rw [QpnEntry.hits, Bool.and_eq_true, decide_eq_true_eq] at hhit
    exact hhit.1
  rw [apply_of_isRoceResponse hr]
  have hread : (RDMASender.executePsn (copyRid (simulateDrops eg)).md.workerId
      (copyRid (simulateDrops eg)).md.poolIndex entries).2 = some (e.qpn, BitVec.ofNat 24 e.psn.toNat) := by
    rw [h.workerId hr, simulateDrops_poolIndex, RDMASender.executePsn_read hapart he hhit]
  refine RDMASender.apply_psn ?_ hread
  rw [h.workerId hr, ← hworker]
  exact hcreate

/-! ## Runs -/

@[simp]
theorem addressedTo_advanced (e : QpnEntry) (n : ℕ) (eg : Eg) : addressedTo (e.advanced n) eg = addressedTo e eg := rfl

theorem apart_advanced (h : Apart entries) (f : QpnEntry → ℕ) : Apart (entries.map fun e => e.advanced (f e)) := by
  rw [Apart, List.pairwise_map]
  exact h.imp fun hne => hne

/-- Each register counts the copies for its entry. -/
theorem run_entries (hapart : Apart entries) {pkts : List Eg} (h : ∀ eg ∈ pkts, Undiverted eg) :
    (run tables entries pkts).1 = entries.map fun e => e.advanced (pkts.countP (addressedTo e)) := by
  induction pkts generalizing entries with
  | nil => simp [run]
  | cons eg pkts ih =>
    rw [run, apply_entries hapart (h eg List.mem_cons_self)]
    dsimp only
    rw [ih (apart_advanced hapart _) fun eg' heg' => h eg' (List.mem_cons_of_mem _ heg'), List.map_map]
    refine List.map_congr_left fun e _ => ?_
    rw [Function.comp_apply, QpnEntry.advanced_advanced, List.countP_cons, Nat.add_comm]
    rfl

/-- The numbers they get follow each other, from that of the register at the start. -/
theorem run_assigned (hapart : Apart entries)
    (hcreate : ∀ e ∈ entries, e.workerId ∈ tables.rdma.createRocePacket.map (·.workerId)) {pkts : List Eg}
    (h : ∀ eg ∈ pkts, Undiverted eg) (he : e ∈ entries) :
    assigned e pkts (run tables entries pkts).2 =
      (List.range (pkts.countP (addressedTo e))).map fun n => some (BitVec.ofNat 24 (e.psn.toNat + n)) := by
  induction pkts generalizing entries e with
  | nil => rfl
  | cons eg pkts ih =>
    have hu := h eg List.mem_cons_self
    have hentries : (apply tables entries eg).1 = _ := apply_entries hapart hu
    have hmem : e.advanced (if addressedTo e eg then 1 else 0) ∈ (apply tables entries eg).1 := by
      rw [hentries]
      exact List.mem_map_of_mem he
    have hrest := ih (by rw [hentries]; exact apart_advanced hapart _)
      (by
        rw [hentries]
        intro e' he'
        obtain ⟨e'', he'', rfl⟩ := List.mem_map.mp he'
        exact hcreate e'' he'')
      (fun eg' heg' => h eg' (List.mem_cons_of_mem _ heg')) hmem
    have hsame (n : ℕ) : assigned (e.advanced n) = assigned e := rfl
    have hcount (n : ℕ) : addressedTo (e.advanced n) = addressedTo e := rfl
    rw [hsame, hcount] at hrest
    rw [run, assigned, List.zip_cons_cons, List.filter_cons, List.countP_cons]
    dsimp only
    by_cases hto : addressedTo e eg = true
    · rw [if_pos hto, List.map_cons, apply_psn hapart hu he (hcreate e he) hto, if_pos hto,
        List.range_succ_eq_map, List.map_cons, Nat.add_zero, List.map_map]
      congr 1
      refine hrest.trans (List.map_congr_left fun n _ => ?_)
      rw [if_pos hto, QpnEntry.advanced_psn, Function.comp_apply, Nat.add_comm 1 n]
    · rw [if_neg hto, if_neg hto, Nat.add_zero]
      refine hrest.trans (List.map_congr_left fun n _ => ?_)
      rw [if_neg hto, QpnEntry.advanced_zero]

end Egress

end SwitchML.P4
