/-
The sequence numbers of the responses to RoCE workers, over the tables that the
controller has filled. A worker has one entry for each of its queue pairs, so each
pool index of a queue pair is for one register, which starts with the number that
the worker has sent in its request.
-/
import SwitchML.Controller.Senders
import SwitchML.P4.Egress

namespace SwitchML.Controller

open P4 Tna
open P4.Egress (isRoceResponse destination Undiverted)
open P4.RDMASender (QpnEntry Apart)

/-! ## The entries of a worker -/

/-- The entries of a worker's queue pairs, in the order of these. -/
def Ctrl.queuePairEntries (c : Ctrl) (worker : ℕ) : List FillInQpnAndPsnEntry :=
  c.fillInQpnAndPsn.filter (·.workerId = worker)

/-- Each worker's entries were made for its queue pairs, with one number of packets
for a message. -/
structure WorkerEntries (c : Ctrl) : Prop where
  workers : ∀ e ∈ c.fillInQpnAndPsn, e.workerId < 32
  entries : ∀ worker, ∃ p, ∀ q e, (c.queuePairEntries worker)[q]? = some e →
    fillInEntry worker (2 ^ p) q (e.qpn, e.psn) = some e

variable {c : Ctrl} {req : SessionRequest}

theorem WorkerEntries.congr {c' : Ctrl} (h : WorkerEntries c) (heq : c'.fillInQpnAndPsn = c.fillInQpnAndPsn) :
    WorkerEntries c' := by
  refine ⟨?_, ?_⟩
  · rw [heq]
    exact h.workers
  · unfold Ctrl.queuePairEntries
    rw [heq]
    exact h.entries

theorem WorkerEntries.of_nil (h : c.fillInQpnAndPsn = []) : WorkerEntries c := by
  refine ⟨?_, fun worker => ⟨0, fun q e he => ?_⟩⟩
  · rw [h]
    intro e he
    cases he
  · rw [Ctrl.queuePairEntries, h] at he
    cases he

/-- The sender adds the entries of a worker that has none. -/
theorem WorkerEntries.rdmaSenderAdd (h : WorkerEntries c) (hc : SendersConsistent c) (hrank : req.rank < 32) :
    WorkerEntries (Controller.rdmaSenderAdd req c).2 := by
  unfold Controller.rdmaSenderAdd
  dsimp only
  split
  · exact h.congr rfl
  rename_i hcreate
  split
  · exact h.congr rfl
  rename_i hpow
  rw [not_or, not_not] at hpow
  obtain ⟨p, hp⟩ := Nat.ne_zero_and_sub_one_eq_zero_iff_isPowerOfTwo.mp ⟨hpow.2, hpow.1⟩
  -- the worker was not known, so it has no entries yet
  have hold : c.queuePairEntries req.rank = [] := by
    rw [Ctrl.queuePairEntries, List.filter_eq_nil_iff]
    intro e he hid
    have hmem := hc e he
    rw [of_decide_eq_true hid] at hmem
    simp [entryAdd, hmem] at hcreate
  obtain ⟨new, hnew, hpre⟩ := entryAdd_append (fun e : FillInQpnAndPsnEntry => (e.workerId, e.poolIndex))
    ((req.qpns.zip req.psns).mapIdx (fillInEntry req.rank (req.messageSize / packetBytes req.packetSize)))
    c.fillInQpnAndPsn
  have hentry (q : ℕ) (e : FillInQpnAndPsnEntry) (he : new[q]? = some e) :
      fillInEntry req.rank (2 ^ p) q (e.qpn, e.psn) = some e := by
    rw [hp] at hpre
    obtain ⟨qp, -, hsome⟩ := getElem?_of_prefix_mapIdx hpre he
    obtain ⟨-, -, hqpn, hpsn⟩ := fillInEntry_eq_some hsome
    rw [hqpn, hpsn]
    exact hsome
  have hworker (e : FillInQpnAndPsnEntry) (he : e ∈ new) : e.workerId = req.rank := by
    obtain ⟨q, hq⟩ := List.mem_iff_getElem?.mp he
    exact (fillInEntry_eq_some (hentry q e hq)).2.1
  refine ⟨fun e he => ?_, fun worker => ?_⟩
  · rw [hnew] at he
    rcases List.mem_append.mp he with he | he
    · exact h.workers e he
    · rw [hworker e he]
      exact hrank
  · by_cases hw : worker = req.rank
    · refine ⟨p, fun q e he => ?_⟩
      subst hw
      have hall : new.filter (·.workerId = req.rank) = new :=
        List.filter_eq_self.mpr fun e he => decide_eq_true (hworker e he)
      rw [Ctrl.queuePairEntries] at he hold
      rw [hnew, List.filter_append, hold, hall, List.nil_append] at he
      exact hentry q e he
    · obtain ⟨p', hp'⟩ := h.entries worker
      refine ⟨p', fun q e he => hp' q e ?_⟩
      have hnone : new.filter (·.workerId = worker) = [] := by
        rw [List.filter_eq_nil_iff]
        intro e he hid
        exact hw ((of_decide_eq_true hid).symm.trans (hworker e he))
      rw [Ctrl.queuePairEntries, hnew, List.filter_append, hnone, List.append_nil] at he
      exact he

theorem WorkerEntries.sessionStart (h : WorkerEntries c) (req : SessionRequest) :
    WorkerEntries (Controller.sessionStart c req) := by
  unfold Controller.sessionStart
  split
  · exact .of_nil rfl
  · exact h

theorem WorkerEntries.request (h : WorkerEntries c) (hc : SendersConsistent c) (protocol : Protocol)
    (req : SessionRequest) : WorkerEntries (protocol.request req c).2 := by
  cases protocol with
  | udp =>
    have hclear : WorkerEntries (if req.rank = 0 then clearUdpWorkers c else c) := by
      split
      · exact h.congr rfl
      · exact h
    exact addWorker_keeps req hclear (hclear.congr (udpReceiverAdd_senders req _).2) (fun c hc => hc.congr rfl)
      fun c port hc => hc.congr (addMulticastNode_senders _ port c).2
  | rdma =>
    change WorkerEntries (rdmaSession req c).2
    rw [rdmaSession_eq]
    have h0 := h.sessionStart req
    by_cases hrank : 32 ≤ req.rank
    · -- nothing is added for a rank that is too large
      have hsame : (addRdmaWorker (sizedRequest c req) (Controller.sessionStart c req)).2 =
          Controller.sessionStart c req := by
        rw [addRdmaWorker, addWorker, if_pos (show 32 ≤ (sizedRequest c req).rank from hrank)]
      rw [hsame]
      exact h0
    · have hreceiver := rdmaReceiverAdd_senders (sizedRequest c req) (Controller.sessionStart c req)
      refine (addWorker_keeps (P := fun c => WorkerEntries c ∧ SendersConsistent c) _
        ⟨h0, hc.sessionStart req⟩ ⟨h0.congr hreceiver.2, (hc.sessionStart req).congr hreceiver⟩
        (fun c hc => ?_) fun c port hc => ?_).1
      · rw [ignoreResult_snd]
        exact ⟨hc.1.rdmaSenderAdd hc.2 (Nat.lt_of_not_le hrank), hc.2.rdmaSenderAdd _⟩
      · have hnode := addMulticastNode_senders (sizedRequest c req).rank port c
        exact ⟨hc.1.congr hnode.2, hc.2.congr hnode⟩

theorem workerEntries_of_reachable (h : ctrlMachine.Reachable c) : WorkerEntries c := by
  refine Machine.Reachable.invariant_of (fun _ => sendersConsistent_of_reachable)
    (fun c hc => .of_nil hc.fillInQpnAndPsn) (fun c e c' hs hI hn => ?_) h
  cases e with
  | request protocol req =>
    cases hn
    exact hI.request hs protocol req
  | resetWorkers =>
    cases hn
    exact .of_nil rfl
  | setSwitchMacAndIp => cases hn; exact hI.congr rfl
  | setMacAddresses => cases hn; exact hI.congr rfl

/-! ## The tables of the egress pipe -/

/-- An entry as the pipe has it; its register starts with the number given. -/
def FillInQpnAndPsnEntry.qpnEntry (e : FillInQpnAndPsnEntry) : QpnEntry :=
  ⟨BitVec.ofNat 16 e.workerId, e.poolIndex, e.qpn, e.psn⟩

def Ctrl.qpnEntries (c : Ctrl) : List QpnEntry := c.fillInQpnAndPsn.map (·.qpnEntry)

def Ctrl.egressTables (c : Ctrl) : Egress.Tables where
  udp :=
    { switchMacAndIp := c.switchMacAndIp.map fun a => ⟨a.1, a.2⟩
      dstAddr := c.dstAddr.map fun e => (BitVec.ofNat 16 e.workerId, ⟨e.ethDstAddr, e.ipDstAddr⟩) }
  rdma :=
    { switchMacAndIp := c.switchMacAndIp.map fun a => ⟨a.1, a.2⟩
      createRocePacket := c.createRocePacket.map fun e =>
        ⟨BitVec.ofNat 16 e.workerId, ⟨e.destMac, e.destIp⟩, some e.rkey⟩ }

theorem ofNat_inj {w w' : ℕ} (hw : w < 32) (hw' : w' < 32) : BitVec.ofNat 16 w = BitVec.ofNat 16 w' ↔ w = w' := by
  rw [← BitVec.toNat_inj, BitVec.toNat_ofNat, BitVec.toNat_ofNat, Nat.mod_eq_of_lt (by omega),
    Nat.mod_eq_of_lt (by omega)]

/-- A worker's entry for a queue pair matches the pool indices of this queue pair. -/
theorem fillInEntry_qpnEntry_hits {w p q : ℕ} {qp : BitVec 24 × BitVec 32} {e : FillInQpnAndPsnEntry}
    (h : fillInEntry w (2 ^ p) q qp = some e) (worker : WorkerId) (k : PoolIndex) :
    e.qpnEntry.hits worker k = true ↔ worker = BitVec.ofNat 16 w ∧ k.toNat / (2 ^ p * 2) = q := by
  obtain ⟨-, hid, -, -⟩ := fillInEntry_eq_some h
  rw [QpnEntry.hits, Bool.and_eq_true, decide_eq_true_eq, FillInQpnAndPsnEntry.qpnEntry, hid]
  exact and_congr eq_comm (fillInEntry_hits h k)

/-- A key belongs to one worker and one of its queue pairs. -/
theorem WorkerEntries.apart (h : WorkerEntries c) : Apart c.qpnEntries := by
  rw [Apart, Ctrl.qpnEntries, List.pairwise_map, List.pairwise_iff_forall_sublist]
  intro e e' hsub worker k hhit
  by_contra hhit'
  rw [Bool.not_eq_false] at hhit'
  have hid : e.workerId = e'.workerId := by
    have hworker {e : FillInQpnAndPsnEntry} (hh : e.qpnEntry.hits worker k = true) :
        BitVec.ofNat 16 e.workerId = worker := by
      rw [QpnEntry.hits, Bool.and_eq_true, decide_eq_true_eq] at hh
      exact hh.1
    rw [← ofNat_inj (h.workers e (hsub.subset (by simp))) (h.workers e' (hsub.subset (by simp)))]
    exact (hworker hhit).trans (hworker hhit').symm
  obtain ⟨p, hp⟩ := h.entries e.workerId
  -- among the entries of one worker the places differ
  have hplaces : (c.queuePairEntries e.workerId).Pairwise
      fun e e' => e.qpnEntry.hits worker k = true → e'.qpnEntry.hits worker k = false := by
    rw [List.pairwise_iff_getElem]
    intro i j hi hj hlt hh
    by_contra hh'
    rw [Bool.not_eq_false] at hh'
    have hfirst := (fillInEntry_qpnEntry_hits (hp i _ (List.getElem?_eq_getElem hi)) worker k).mp hh
    have hsecond := (fillInEntry_qpnEntry_hits (hp j _ (List.getElem?_eq_getElem hj)) worker k).mp hh'
    omega
  have hfiltered := hsub.filter (fun x => decide (x.workerId = e.workerId))
  simp only [List.filter_cons, List.filter_nil, decide_true, if_true, ← hid] at hfiltered
  have hfalse := (List.pairwise_iff_forall_sublist.mp hplaces) hfiltered hhit
  rw [hhit'] at hfalse
  cases hfalse

/-! ## Streams -/

/-- A response copy addressed to a worker's queue pair, whose messages have `P`
packets. -/
def forQueuePair (worker q P : ℕ) (eg : Eg) : Bool :=
  isRoceResponse eg && (decide (destination eg = BitVec.ofNat 16 worker) &&
    decide (eg.md.poolIndex.toNat / (P * 2) = q))

/-- After a run the register of a worker's queue pair has counted the copies
addressed to it, and these have got consecutive numbers, from the one the worker
supplied. -/
structure GapFree (c : Ctrl) (pkts : List Eg) (worker q P : ℕ) (e : FillInQpnAndPsnEntry) : Prop where
  register : ((Egress.run c.egressTables c.qpnEntries pkts).1.filter
      (·.workerId = BitVec.ofNat 16 worker))[q]?.map (·.psn) =
    some (e.psn + BitVec.ofNat 32 (pkts.countP (forQueuePair worker q P)))
  numbers : ((pkts.zip (Egress.run c.egressTables c.qpnEntries pkts).2).filter
      fun x => forQueuePair worker q P x.1).map (fun x => x.2.hdr.ibBth.map IbBthH.psn) =
    (List.range (pkts.countP (forQueuePair worker q P))).map fun n => some (BitVec.ofNat 24 (e.psn.toNat + n))

/-- This holds for all queue pairs of all workers, with the packets that the
worker's messages have. -/
def StreamsGapFree (c : Ctrl) (pkts : List Eg) : Prop :=
  ∀ worker, ∃ P, ∀ q e, (c.queuePairEntries worker)[q]? = some e →
    fillInEntry worker P q (e.qpn, e.psn) = some e ∧ GapFree c pkts worker q P e

theorem addressedTo_qpnEntry {w p q : ℕ} {qp : BitVec 24 × BitVec 32} {e : FillInQpnAndPsnEntry}
    (h : fillInEntry w (2 ^ p) q qp = some e) : Egress.addressedTo e.qpnEntry = forQueuePair w q (2 ^ p) := by
  funext eg
  have hhits := fillInEntry_qpnEntry_hits h (destination eg) eg.md.poolIndex
  rw [Egress.addressedTo, forQueuePair, Bool.eq_iff_iff.mpr (hhits.trans ?_)]
  rw [Bool.and_eq_true, decide_eq_true_eq, decide_eq_true_eq]

/-- The registers of a worker's queue pairs after a run. -/
theorem run_queuePairEntries (h : WorkerEntries c) {worker : ℕ} (hw : worker < 32) {pkts : List Eg}
    (hpkts : ∀ eg ∈ pkts, Undiverted eg) :
    (Egress.run c.egressTables c.qpnEntries pkts).1.filter (·.workerId = BitVec.ofNat 16 worker) =
      (c.queuePairEntries worker).map fun e =>
        e.qpnEntry.advanced (pkts.countP (Egress.addressedTo e.qpnEntry)) := by
  rw [Egress.run_entries h.apart hpkts, Ctrl.qpnEntries, List.map_map, List.filter_map, Ctrl.queuePairEntries]
  refine congrArg _ (List.filter_congr fun e he => ?_)
  exact decide_eq_decide.mpr (ofNat_inj (h.workers e he) hw)

/-- Where no copy is diverted by the drop simulation, no stream has a gap. -/
theorem streamsGapFree (hc : ctrlMachine.Reachable c) {pkts : List Eg} (h : ∀ eg ∈ pkts, Undiverted eg) :
    StreamsGapFree c pkts := by
  have hentries := workerEntries_of_reachable hc
  intro worker
  obtain ⟨p, hp⟩ := hentries.entries worker
  refine ⟨2 ^ p, fun q e he => ⟨hp q e he, ?_⟩⟩
  have hmem := List.mem_filter.mp (List.mem_of_getElem? he)
  have hw : worker < 32 := by
    rw [← of_decide_eq_true hmem.2]
    exact hentries.workers e hmem.1
  have hto := addressedTo_qpnEntry (hp q e he)
  refine ⟨?_, ?_⟩
  · rw [run_queuePairEntries hentries hw h, List.getElem?_map, he, ← hto]
    rfl
  · have hcreate : ∀ e' ∈ c.qpnEntries, e'.workerId ∈ c.egressTables.rdma.createRocePacket.map (·.workerId) := by
      intro e' he'
      obtain ⟨e'', he'', rfl⟩ := List.mem_map.mp he'
      obtain ⟨entry, hentry, hid⟩ := List.mem_map.mp (sendersConsistent_of_reachable hc e'' he'')
      refine List.mem_map.mpr ⟨_, List.mem_map_of_mem hentry, ?_⟩
      exact congrArg (BitVec.ofNat 16) hid
    have hassigned := Egress.run_assigned hentries.apart hcreate h (List.mem_map_of_mem hmem.1)
    rw [← hto]
    exact hassigned

/-- A switch with the ports of two clients. -/
def pairCtrl : Ctrl where
  foldedPipe := false
  switchMacAndIp := some (0xa, 0xb)
  macAddresses := [(0xc, 5), (0xd, 6)]
  receiveUdp := []
  receiveRoce := []
  dstAddr := []
  createRocePacket := []
  fillInQpnAndPsn := []
  multicastGroup := none
  multicastNodes := []
  regs _ := Regs.zero

/-- One queue pair and messages of one packet. -/
def pairRequest (rank mac : ℕ) : SessionRequest where
  rank := rank
  numWorkers := 2
  mac := mac
  ipv4 := 0xe
  packetSize := .MTU_256
  rkey := 0
  messageSize := 256
  qpns := [70]
  psns := [7]

/-- Both workers have joined the session. -/
def pairSession : Ctrl := (rdmaSession (pairRequest 1 0xd) (rdmaSession (pairRequest 0 0xc) pairCtrl).2).2

theorem pairSession_reachable : ctrlMachine.Reachable pairSession := by
  have hinit : ctrlMachine.Reachable pairCtrl := .init ⟨rfl, rfl, rfl, rfl, rfl, rfl⟩
  have hfirst := hinit.step (e := .request .rdma (pairRequest 0 0xc)) rfl
  exact hfirst.step (e := .request .rdma (pairRequest 1 0xd)) rfl

/-- The copy for a worker of the result of worker 0's last packet. -/
def resultCopy (rid : WorkerId) (simulateEgressDrop : Bool) : Eg where
  hdr := {}
  md := { (default : SwitchmlMd) with
    packetType := .BROADCAST, workerType := .ROCEv2, workerId := 0, simulateEgressDrop := simulateEgressDrop }
  rdmaAddr := 0
  egressRid := rid
  dropCtl := false

/-- Without drops the two copies are in the two streams. -/
theorem streamsGapFree_pair : StreamsGapFree pairSession [resultCopy 0 false, resultCopy 1 false] := by
  refine streamsGapFree pairSession_reachable ?_
  intro eg heg _ hdrop
  simp only [List.mem_cons, List.not_mem_nil, or_false] at heg
  rcases heg with rfl | rfl <;> cases hdrop

/-- When they are dropped, both take their number from worker 0. -/
theorem not_streamsGapFree : ctrlMachine.Reachable pairSession ∧
    ¬ StreamsGapFree pairSession [resultCopy 0 true, resultCopy 1 true] := by
  refine ⟨pairSession_reachable, fun h => ?_⟩
  obtain ⟨P, hP⟩ := h 1
  have hentry : ((pairSession.queuePairEntries 1)[0]?).map (·.psn) = some 7 := by decide
  obtain ⟨e, he, hpsn⟩ := Option.map_eq_some_iff.mp hentry
  have hgap := (hP 0 e he).2.register
  have hcount : [resultCopy 0 true, resultCopy 1 true].countP (forQueuePair 1 0 P) = 1 := by
    have hfirst : forQueuePair 1 0 P (resultCopy 0 true) = false := rfl
    have hsecond : forQueuePair 1 0 P (resultCopy 1 true) = true := by
      have hzero : (resultCopy 1 true).md.poolIndex.toNat / (P * 2) = 0 := Nat.zero_div _
      rw [forQueuePair, hzero]
      rfl
    rw [List.countP_cons, List.countP_cons, hfirst, hsecond]
    rfl
  have hrun : ((Egress.run pairSession.egressTables pairSession.qpnEntries
      [resultCopy 0 true, resultCopy 1 true]).1.filter (·.workerId = BitVec.ofNat 16 1))[0]?.map (·.psn) =
        some 7 := by decide
  rw [hcount, hpsn, hrun] at hgap
  exact absurd hgap (by decide)

end SwitchML.Controller
