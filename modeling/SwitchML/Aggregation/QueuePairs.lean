/-
Who owns a slot in an RDMA session. A client's threads compute the slots of their
queue pairs from their ids, the switch advances the slot of a message with each
packet, and the controller splits the slots among the queue pairs the client
reported. All three make the same split.
-/
import SwitchML.Client.RdmaLoop
import SwitchML.Controller.RoceStream
import SwitchML.Controller.Senders
import Mathlib.Data.Nat.Bitwise
import Mathlib.Logic.Function.Iterate
import Mathlib.Tactic.Ring

namespace SwitchML.Client

/-- `GetWorkerThreadQueuePairs` -/
def workerThreadQueuePairs {α : Type} (queuePairs : List α) (numWorkerThreads workerThreadId : ℕ) : List α :=
  let qpsPerWorkerThread := queuePairs.length / numWorkerThreads
  (queuePairs.drop (qpsPerWorkerThread * workerThreadId)).take qpsPerWorkerThread

namespace RdmaConfig

variable (c : RdmaConfig)

/-- The place of a thread's queue pair among those of the client. -/
def globalIndex (qpn : ℕ) : ℕ := c.maxOutstandingMsgs * c.tid + qpn

/-- The `rkey` of a queue pair's messages, which has its initial pool bit or the other one. -/
def rkey (qpn : ℕ) (poolBit : Bool) : BitVec 32 := if poolBit then c.initialRkey qpn else c.initialRkey qpn ^^^ 1#32

variable {c}

theorem rkey_toNat {qpn : ℕ} (hlt : c.globalIndex qpn * c.numPktsPerMsg * 2 < 2 ^ 15) (poolBit : Bool) :
    (c.rkey qpn poolBit).toNat = c.globalIndex qpn * c.numPktsPerMsg * 2 + poolBit.toNat := by
  have hbase : c.baseSlot qpn * 2 = c.globalIndex qpn * c.numPktsPerMsg * 2 := rfl
  have hor : c.baseSlot qpn * 2 ||| 1 = c.baseSlot qpn * 2 + 1 := by
    rw [Nat.mul_comm]
    exact (Nat.two_pow_add_eq_or_of_lt (i := 1) (by decide) _).symm
  have hinit : (c.initialRkey qpn).toNat = c.baseSlot qpn * 2 + 1 := by
    rw [initialRkey, hor, BitVec.toNat_setWidth, BitVec.toNat_ofNat]
    omega
  cases poolBit with
  | true => rw [rkey, if_pos rfl, hinit, hbase, Bool.toNat_true]
  | false =>
    have hodd : Odd (c.baseSlot qpn * 2 + 1) := ⟨c.baseSlot qpn, by omega⟩
    rw [rkey, if_neg (by decide), BitVec.toNat_xor, hinit]
    exact Nat.xor_one_of_odd hodd

/-- The messages of a queue pair have no other `rkey`. -/
theorem posts_rkey {K : Type} {ops : FloatOps K} {s : RdmaWorkerThread c K}
    (h : (RdmaWorkerThread.machine ops).Reachable s) {qpn : c.Qpn} {p : Post} (hp : p ∈ s.posts qpn) :
    ∃ poolBit, p.wr.rkey = c.rkey qpn poolBit := by
  rcases (RdmaWorkerThread.flips_of_reachable h qpn).rkey hp with hr | hr
  · exact ⟨true, hr⟩
  · exact ⟨false, hr⟩

end RdmaConfig

end SwitchML.Client

namespace SwitchML.Aggregation

open P4 Tna Controller Client

/-! ## The packets of a message -/

/-- The pool index of a packet of a message: what comes out of the register after
as many increments. -/
def advance (rkey : BitVec 32) (packet : ℕ) : PoolIndex := ((satAdd · 2)^[packet] rkey).extractLsb' 0 15

theorem satAdd_iterate {rkey : BitVec 32} {packet : ℕ} (h : rkey.toNat + 2 * packet < 2 ^ 32) :
    ((satAdd · 2)^[packet] rkey).toNat = rkey.toNat + 2 * packet := by
  induction packet with
  | zero => rfl
  | succ packet ih =>
    have htwo : (2 : BitVec 32).toNat = 2 := rfl
    have hprev := ih (by omega)
    rw [Function.iterate_succ_apply', satAdd, if_pos (by rw [hprev, htwo]; omega), BitVec.toNat_add, hprev, htwo]
    omega

/-- It is the pool index the receiver finds for the packet. -/
theorem advance_eq_poolIndex {S : RoceStream} {p : StreamPacket} (hp : p ∈ S.packets) :
    advance p.message.rKey p.offset = p.poolIndex := by
  have hidx := S.poolIndex_toNat hp
  have hlt := p.poolIndex.isLt
  apply BitVec.eq_of_toNat_eq
  rw [advance, BitVec.extractLsb'_toNat, Nat.shiftRight_zero, satAdd_iterate (by omega)]
  omega

/-- The pool index of a packet is made of the queue pair, the place of the packet
in the message, and the pool bit. -/
theorem advance_rkey {c : RdmaConfig} {qpn packet : ℕ} (poolBit : Bool) (hpacket : packet < c.numPktsPerMsg)
    (hlt : (c.globalIndex qpn + 1) * c.numPktsPerMsg * 2 ≤ 2 ^ 15) :
    (advance (c.rkey qpn poolBit) packet).toNat =
      c.globalIndex qpn * (c.numPktsPerMsg * 2) + (2 * packet + poolBit.toNat) := by
  have hbit : poolBit.toNat < 2 := poolBit.toNat_lt
  have hmul : (c.globalIndex qpn + 1) * c.numPktsPerMsg * 2 =
      c.globalIndex qpn * (c.numPktsPerMsg * 2) + c.numPktsPerMsg * 2 := by ring
  have hassoc : c.globalIndex qpn * c.numPktsPerMsg * 2 = c.globalIndex qpn * (c.numPktsPerMsg * 2) := by ring
  have hrkey : (c.rkey qpn poolBit).toNat = _ := RdmaConfig.rkey_toNat (by omega) poolBit
  rw [advance, BitVec.extractLsb'_toNat, Nat.shiftRight_zero, satAdd_iterate (by omega), hrkey]
  omega

/-! ## The owner of a slot -/

theorem digits_eq {b m n x y : ℕ} (hx : x < b) (hy : y < b) (h : m * b + x = n * b + y) : m = n ∧ x = y := by
  have hmod := congrArg (· % b) h
  simp only [Nat.mul_add_mod_self_right, Nat.mod_eq_of_lt hx, Nat.mod_eq_of_lt hy] at hmod
  have hmul : m * b = n * b := by omega
  exact ⟨Nat.eq_of_mul_eq_mul_right (by omega) hmul, hmod⟩

/-- A worker thread of the client that sent a request: it has its share of the
queue pairs, and the client and the controller count the packets of a message alike. -/
structure ThreadOf (ctrl : Ctrl) (req : SessionRequest) (numWorkerThreads : ℕ) (c : RdmaConfig) : Prop where
  tid_lt : c.tid < numWorkerThreads
  queuePairs : c.maxOutstandingMsgs = req.qpns.length / numWorkerThreads
  numPktsPerMsg : c.numPktsPerMsg = packetsPerMessage ctrl req

variable {ctrl : Ctrl} {req : SessionRequest} {numWorkerThreads : ℕ} {c c' : RdmaConfig}

theorem ThreadOf.globalIndex_lt (h : ThreadOf ctrl req numWorkerThreads c) (q : c.Qpn) :
    c.globalIndex q < req.qpns.length := by
  have hq := q.isLt
  have htid : c.maxOutstandingMsgs * (c.tid + 1) ≤ c.maxOutstandingMsgs * numWorkerThreads :=
    Nat.mul_le_mul_left _ h.tid_lt
  have hall : c.maxOutstandingMsgs * numWorkerThreads ≤ req.qpns.length := by
    rw [h.queuePairs]
    exact Nat.div_mul_le_self _ _
  rw [Nat.mul_succ] at htid
  unfold RdmaConfig.globalIndex
  omega

/-- The queue pair of a thread is the one at its global index. -/
theorem ThreadOf.getElem?_queuePairs (h : ThreadOf ctrl req numWorkerThreads c) (q : c.Qpn) :
    (workerThreadQueuePairs req.qpns numWorkerThreads c.tid)[q.val]? = req.qpns[c.globalIndex q]? := by
  have hq := q.isLt
  unfold workerThreadQueuePairs RdmaConfig.globalIndex
  dsimp only
  generalize q.val = i at hq ⊢
  rw [h.queuePairs] at hq ⊢
  rw [List.getElem?_take, if_pos hq, List.getElem?_drop]

theorem ThreadOf.advance_toNat (h : ThreadOf ctrl req numWorkerThreads c)
    (hfits : req.qpns.length * packetsPerMessage ctrl req * 2 ≤ 2 ^ 15) (q : c.Qpn) (poolBit : Bool) {packet : ℕ}
    (hpacket : packet < c.numPktsPerMsg) :
    (advance (c.rkey q poolBit) packet).toNat =
      c.globalIndex q * (c.numPktsPerMsg * 2) + (2 * packet + poolBit.toNat) := by
  refine advance_rkey poolBit hpacket (le_trans ?_ hfits)
  rw [h.numPktsPerMsg]
  exact Nat.mul_le_mul_right _ (Nat.mul_le_mul_right _ (h.globalIndex_lt q))

/-- The messages of a thread have the `rkey`s of their queue pairs; every packet of
every queue pair finds exactly one entry of its worker, that of the queue pair; and
no two packets, queue pairs or sets share a pool index. -/
theorem owns_slots (numWorkerThreads : ℕ) (hreach : ctrlMachine.Reachable ctrl) (hok : (rdmaSession req ctrl).1 = .success)
    (hpow : (packetsPerMessage ctrl req).isPowerOfTwo) (hpsns : req.psns.length = req.qpns.length)
    (hfits : req.qpns.length * packetsPerMessage ctrl req * 2 ≤ 2 ^ 15) :
    (∀ (c : RdmaConfig) (K : Type) (ops : FloatOps K) (s : RdmaWorkerThread c K) (q : c.Qpn),
      (RdmaWorkerThread.machine ops).Reachable s → ∀ p ∈ s.posts q, ∃ poolBit, p.wr.rkey = c.rkey q poolBit) ∧
    (∀ c, ThreadOf ctrl req numWorkerThreads c → ∀ (q : c.Qpn) poolBit, ∀ packet < c.numPktsPerMsg,
      ∃ e, (rdmaSession req ctrl).2.fillInQpnAndPsn.filter (fun e => decide (e.workerId = req.rank) &&
          e.poolIndex.hits (advance (c.rkey q poolBit) packet)) = [e] ∧
        req.qpns[c.globalIndex q]? = some e.qpn ∧
        (workerThreadQueuePairs req.qpns numWorkerThreads c.tid)[q.val]? = some e.qpn) ∧
    (∀ c c', ThreadOf ctrl req numWorkerThreads c → ThreadOf ctrl req numWorkerThreads c' →
      ∀ (q : c.Qpn) (q' : c'.Qpn) poolBit poolBit', ∀ packet < c.numPktsPerMsg, ∀ packet' < c'.numPktsPerMsg,
      advance (c.rkey q poolBit) packet = advance (c'.rkey q' poolBit') packet' →
        c.tid = c'.tid ∧ q.val = q'.val ∧ packet = packet' ∧ poolBit = poolBit') := by
  refine ⟨fun c K ops s q hs p hp => RdmaConfig.posts_rkey hs hp, ?_, ?_⟩
  · intro c hc q poolBit packet hpacket
    obtain ⟨old, new, hnew, hfill, hold⟩ :=
      rdmaSession_entries (sendersConsistent_of_reachable hreach) hok hpow
    have hidx := hc.globalIndex_lt q
    have hpsn : c.globalIndex q < req.psns.length := by omega
    have hbit : poolBit.toNat < 2 := poolBit.toNat_lt
    -- the entry that was added for each queue pair
    have hentry (i : ℕ) : (new[i]?).map some =
        ((req.qpns.zip req.psns)[i]?).map (fillInEntry req.rank (packetsPerMessage ctrl req) i) := by
      rw [← List.getElem?_mapIdx, hnew, List.getElem?_map]
    have hzip : (req.qpns.zip req.psns)[c.globalIndex q]? =
        some (req.qpns[c.globalIndex q], req.psns[c.globalIndex q]) := by
      rw [List.getElem?_eq_getElem (by rw [List.length_zip]; omega), List.getElem_zip]
    have hadded := hentry (c.globalIndex q)
    rw [hzip, Option.map_some, Option.map_eq_some_iff] at hadded
    obtain ⟨e, he, hesome⟩ := hadded
    have hqpn : req.qpns[c.globalIndex q]? = some e.qpn := by
      rw [(fillInEntry_eq_some hesome.symm).2.2.1, List.getElem?_eq_getElem hidx]
    refine ⟨e, ?_, hqpn, (hc.getElem?_queuePairs q).trans hqpn⟩
    have hnone : old.filter (fun e => decide (e.workerId = req.rank) &&
        e.poolIndex.hits (advance (c.rkey q poolBit) packet)) = [] := by
      rw [List.filter_eq_nil_iff]
      intro e' he'
      simp [hold e' he']
    rw [hfill, List.filter_append, hnone, List.nil_append]
    refine filter_unique he fun j e' hj => ?_
    have hj' := hentry j
    rw [hj, Option.map_some, eq_comm, Option.map_eq_some_iff] at hj'
    obtain ⟨qp, -, hsome⟩ := hj'
    obtain ⟨p, hp⟩ := hpow
    rw [hp] at hsome
    have hdiv : (advance (c.rkey q poolBit) packet).toNat / (2 ^ p * 2) = c.globalIndex q := by
      rw [hc.advance_toNat hfits q poolBit hpacket]
      rw [hc.numPktsPerMsg, hp] at hpacket ⊢
      rw [Nat.mul_comm, Nat.mul_add_div (by omega), Nat.div_eq_of_lt (by omega), Nat.add_zero]
    rw [(fillInEntry_eq_some hsome).2.1, decide_eq_true rfl, Bool.true_and, fillInEntry_hits hsome, hdiv, eq_comm]
  · intro c c' hc hc' q q' poolBit poolBit' packet hpacket packet' hpacket' heq
    have hnat := congrArg BitVec.toNat heq
    rw [hc.advance_toNat hfits q poolBit hpacket, hc'.advance_toNat hfits q' poolBit' hpacket'] at hnat
    have hP : c.numPktsPerMsg = c'.numPktsPerMsg := hc.numPktsPerMsg.trans hc'.numPktsPerMsg.symm
    have hM : c.maxOutstandingMsgs = c'.maxOutstandingMsgs := hc.queuePairs.trans hc'.queuePairs.symm
    have hbit : poolBit.toNat < 2 := poolBit.toNat_lt
    have hbit' : poolBit'.toNat < 2 := poolBit'.toNat_lt
    rw [← hP] at hnat hpacket'
    -- the digits of the index in base `2 * numPktsPerMsg`, then in base `maxOutstandingMsgs`
    obtain ⟨hglobal, hrest⟩ := digits_eq (by omega) (by omega) hnat
    have hq := q.isLt
    have hq' := q'.isLt
    unfold RdmaConfig.globalIndex at hglobal
    generalize q.val = i at hq hglobal ⊢
    generalize q'.val = i' at hq' hglobal ⊢
    rw [← hM] at hq' hglobal
    rw [Nat.mul_comm, Nat.mul_comm c.maxOutstandingMsgs] at hglobal
    obtain ⟨htid, hqq⟩ := digits_eq hq hq' hglobal
    have hpacketEq : packet = packet' := by omega
    refine ⟨htid, hqq, hpacketEq, ?_⟩
    rw [hpacketEq] at hrest
    cases poolBit <;> cases poolBit' <;> simp at hrest ⊢

/-- The controller of a switch that knows its addresses and the port of one client. -/
def exampleCtrl : Ctrl where
  foldedPipe := false
  switchMacAndIp := some (0xa, 0xb)
  macAddresses := [(0xc, 5)]
  receiveUdp := []
  receiveRoce := []
  dstAddr := []
  createRocePacket := []
  fillInQpnAndPsn := []
  multicastGroup := none
  multicastNodes := []
  regs _ := Regs.zero

/-- Four queue pairs and messages of two packets. -/
def exampleRdmaRequest : SessionRequest where
  rank := 0
  numWorkers := 2
  mac := 0xc
  ipv4 := 0xd
  packetSize := .MTU_256
  rkey := 0
  messageSize := 512
  qpns := [70, 71, 72, 73]
  psns := [35, 35, 36, 36]

/-- The second one of two threads. -/
theorem exampleThread_packetNumel : 0 < 64 := by decide

def exampleThread : RdmaConfig where
  tid := 1
  maxOutstandingMsgs := 2
  numPktsPerMsg := 2
  packetNumel := 64
  numWorkers := 2
  timeout := 1
  timeoutThreshold := 100
  timeoutThresholdIncrement := 100
  maxOutstandingMsgs_pos := Nat.two_pos
  numPktsPerMsg_pos := Nat.two_pos
  packetNumel_pos := exampleThread_packetNumel

/-- The last packet of the thread's second queue pair, in set 0. -/
theorem owns_slots_four : ∃ e, (rdmaSession exampleRdmaRequest exampleCtrl).2.fillInQpnAndPsn.filter (fun e =>
      decide (e.workerId = 0) && e.poolIndex.hits 14#15) = [e] ∧ e.qpn = 73 := by
  have hreach : ctrlMachine.Reachable exampleCtrl := .init ⟨rfl, rfl, rfl, rfl, rfl, rfl⟩
  have hthread : ThreadOf exampleCtrl exampleRdmaRequest 2 exampleThread := ⟨by decide, by decide, by decide⟩
  have hadvance : advance (exampleThread.rkey (1 : exampleThread.Qpn) false) 1 = 14#15 := by decide
  obtain ⟨e, hfilter, hqpn, -⟩ := (owns_slots 2 hreach (by decide) ⟨1, by decide⟩ rfl (by decide)).2.1 exampleThread hthread 1 false 1 (by decide)
  have hglobal : exampleRdmaRequest.qpns[exampleThread.globalIndex (1 : exampleThread.Qpn)]? = some 73#24 := by decide
  rw [hadvance] at hfilter
  rw [hglobal, Option.some.injEq] at hqpn
  exact ⟨e, hfilter, hqpn.symm⟩

end SwitchML.Aggregation
