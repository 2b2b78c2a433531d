/-
What `RDMASender.add_rdma_worker` puts into the tables of the egress pipe: an
entry for the worker, and one for each of its queue pairs. The packets of a
message have consecutive pool indices in each set, so with a power of two of
them the entry of a queue pair matches by the upper bits.
-/
import SwitchML.Controller.Sessions
import SwitchML.Lib.Machine

namespace SwitchML.Controller

open P4 Tna

/-! ## The entry of a queue pair -/

/-- The bits of the mask are those above the offset and the pool bit. -/
theorem fillInMask_getLsbD {p i : ℕ} (hi : i < 15) :
    (0x7ffe#15 &&& ~~~(BitVec.ofNat 15 ((2 ^ p - 1) <<< 1))).getLsbD i = decide (p + 1 ≤ i) := by
  have hones : ∀ j < 15, (0x7ffe#15).getLsbD j = decide (1 ≤ j) := by decide
  rw [BitVec.getLsbD_and, hones i hi, BitVec.getLsbD_not, BitVec.getLsbD_ofNat]
  simp only [hi, decide_true, Bool.true_and, Nat.testBit_shiftLeft, Nat.testBit_two_pow_sub_one]
  by_cases h1 : 1 ≤ i
  · by_cases hp : p + 1 ≤ i
    · have hle : ¬i - 1 < p := by omega
      simp [h1, hp, hle]
    · have hlt : i - 1 < p := by omega
      simp [h1, hp, hlt]
  · have hp : ¬p + 1 ≤ i := by omega
    simp [h1, hp]

/-- Under the mask, indices agree if they belong to the same message. -/
theorem fillInMask_hits {p : ℕ} (k v : PoolIndex) :
    (Tern.mk v (0x7ffe#15 &&& ~~~(BitVec.ofNat 15 ((2 ^ p - 1) <<< 1)))).hits k = true ↔
      k.toNat / 2 ^ (p + 1) = v.toNat / 2 ^ (p + 1) := by
  rw [Tern.hits, beq_iff_eq]
  dsimp only
  have hbits : ∀ i < 15, _ := fun i hi => fillInMask_getLsbD (p := p) (i := i) hi
  generalize 0x7ffe#15 &&& ~~~(BitVec.ofNat 15 ((2 ^ p - 1) <<< 1)) = mask at hbits ⊢
  have hshift : k.toNat / 2 ^ (p + 1) = v.toNat / 2 ^ (p + 1) ↔ k >>> (p + 1) = v >>> (p + 1) := by
    rw [← BitVec.toNat_inj, BitVec.toNat_ushiftRight, BitVec.toNat_ushiftRight, Nat.shiftRight_eq_div_pow,
      Nat.shiftRight_eq_div_pow]
  rw [hshift]
  constructor
  · intro h
    apply BitVec.eq_of_getLsbD_eq
    intro i _
    rw [BitVec.getLsbD_ushiftRight, BitVec.getLsbD_ushiftRight]
    by_cases hi : p + 1 + i < 15
    · have hbit := congrArg (BitVec.getLsbD · (p + 1 + i)) h
      simpa [BitVec.getLsbD_and, hbits _ hi] using hbit
    · rw [BitVec.getLsbD_of_ge _ _ (by omega), BitVec.getLsbD_of_ge _ _ (by omega)]
  · intro h
    apply BitVec.eq_of_getLsbD_eq
    intro i hi
    rw [BitVec.getLsbD_and, BitVec.getLsbD_and, hbits i hi]
    by_cases hp : p + 1 ≤ i
    · have hbit := congrArg (BitVec.getLsbD · (i - (p + 1))) h
      simp only [BitVec.getLsbD_ushiftRight, Nat.add_sub_cancel' hp] at hbit
      rw [hbit]
    · simp [hp]

/-- What the entry of a queue pair is made of, where its index fits. -/
theorem fillInEntry_eq_some {rank packetsPerMessage index : ℕ} {qp : BitVec 24 × BitVec 32}
    {e : FillInQpnAndPsnEntry} (h : fillInEntry rank packetsPerMessage index qp = some e) :
    index * packetsPerMessage * 2 < 2 ^ 15 ∧ e.workerId = rank ∧ e.qpn = qp.1 ∧ e.psn = qp.2 := by
  unfold fillInEntry at h
  simp only [Option.ite_none_right_eq_some, Option.some.injEq] at h
  obtain ⟨hlt, rfl⟩ := h
  exact ⟨hlt, rfl, rfl, rfl⟩

/-- It matches the pool indices of its own queue pair, in both sets. -/
theorem fillInEntry_hits {rank p index : ℕ} {qp : BitVec 24 × BitVec 32} {e : FillInQpnAndPsnEntry}
    (h : fillInEntry rank (2 ^ p) index qp = some e) (k : PoolIndex) :
    e.poolIndex.hits k = true ↔ k.toNat / (2 ^ p * 2) = index := by
  unfold fillInEntry at h
  simp only [Option.ite_none_right_eq_some, Option.some.injEq] at h
  obtain ⟨hlt, rfl⟩ := h
  have hpow : 2 ^ p * 2 = 2 ^ (p + 1) := (Nat.pow_succ 2 p).symm
  have hdiv : index * 2 ^ p * 2 / 2 ^ (p + 1) = index := by
    rw [Nat.mul_assoc, hpow, Nat.mul_div_cancel _ (Nat.two_pow_pos _)]
  refine (fillInMask_hits k _).trans ?_
  rw [BitVec.toNat_ofNat, Nat.mod_eq_of_lt hlt, hdiv, hpow]

/-! ## The controller -/

/-- `reset_workers`, beside the barriers and broadcasts. -/
def resetWorkers (c : Ctrl) : Ctrl := clearUdpWorkers (clearRdmaWorkers c)

inductive CtrlEvent
  | request (protocol : Protocol) (req : SessionRequest)
  | resetWorkers
  | setSwitchMacAndIp (mac : BitVec 48) (ip : BitVec 32)
  /-- A port is added to the forwarder or removed. -/
  | setMacAddresses (macAddresses : List (BitVec 48 × PortId))

def Ctrl.next (c : Ctrl) : CtrlEvent → Option Ctrl
  | .request protocol req => some (protocol.request req c).2
  | .resetWorkers => some (Controller.resetWorkers c)
  | .setSwitchMacAndIp mac ip => some { c with switchMacAndIp := some (mac, ip) }
  | .setMacAddresses macAddresses => some { c with macAddresses := macAddresses }

/-- The controller starts with no workers; the nodes of the group of all ports are there. -/
structure Ctrl.Fresh (c : Ctrl) : Prop where
  receiveUdp : c.receiveUdp = []
  receiveRoce : c.receiveRoce = []
  dstAddr : c.dstAddr = []
  createRocePacket : c.createRocePacket = []
  fillInQpnAndPsn : c.fillInQpnAndPsn = []
  multicastGroup : c.multicastGroup = none

def ctrlMachine : Machine Ctrl CtrlEvent where
  init := Ctrl.Fresh
  next := Ctrl.next

/-! ## The tables of the egress pipe -/

/-- A worker with an entry for a queue pair has one for its addresses. -/
def SendersConsistent (c : Ctrl) : Prop :=
  ∀ e ∈ c.fillInQpnAndPsn, e.workerId ∈ c.createRocePacket.map (·.workerId)

variable {c : Ctrl} {req : SessionRequest}

theorem addMulticastNode_senders (workerId : ℕ) (port : PortId) (c : Ctrl) :
    (addMulticastNode workerId port c).2.createRocePacket = c.createRocePacket ∧
      (addMulticastNode workerId port c).2.fillInQpnAndPsn = c.fillInQpnAndPsn := by
  have hmoved : (removeMoved workerId port c).createRocePacket = c.createRocePacket ∧
      (removeMoved workerId port c).fillInQpnAndPsn = c.fillInQpnAndPsn := by
    unfold removeMoved
    dsimp only
    split <;> exact ⟨rfl, rfl⟩
  unfold addMulticastNode
  dsimp only
  split
  · exact hmoved
  · split <;> exact hmoved

theorem rdmaReceiverAdd_senders (req : SessionRequest) (c : Ctrl) :
    (rdmaReceiverAdd req c).2.createRocePacket = c.createRocePacket ∧
      (rdmaReceiverAdd req c).2.fillInQpnAndPsn = c.fillInQpnAndPsn := by
  unfold rdmaReceiverAdd
  split <;> exact ⟨rfl, rfl⟩

theorem udpReceiverAdd_senders (req : SessionRequest) (c : Ctrl) :
    (udpReceiverAdd req c).2.createRocePacket = c.createRocePacket ∧
      (udpReceiverAdd req c).2.fillInQpnAndPsn = c.fillInQpnAndPsn := by
  unfold udpReceiverAdd
  split <;> exact ⟨rfl, rfl⟩

theorem SendersConsistent.congr {c' : Ctrl} (h : SendersConsistent c)
    (heq : c'.createRocePacket = c.createRocePacket ∧ c'.fillInQpnAndPsn = c.fillInQpnAndPsn) :
    SendersConsistent c' := by
  unfold SendersConsistent
  rw [heq.1, heq.2]
  exact h

/-- The entries of a worker's queue pairs come after that of its addresses. -/
theorem SendersConsistent.rdmaSenderAdd (h : SendersConsistent c) (req : SessionRequest) :
    SendersConsistent (Controller.rdmaSenderAdd req c).2 := by
  unfold Controller.rdmaSenderAdd
  dsimp only
  generalize hadd : entryAdd (·.workerId) c.createRocePacket _ = r
  have hold : ∀ e ∈ c.fillInQpnAndPsn, e.workerId ∈ r.2.map (·.workerId) := by
    intro e he
    obtain ⟨e', he', hid⟩ := List.mem_map.mp (h e he)
    rw [← hadd]
    exact List.mem_map.mpr ⟨e', entryAdd_prefix.subset he', hid⟩
  by_cases hok : r.1 = true
  · have hnew : req.rank ∈ r.2.map (·.workerId) := by
      rw [← hadd] at hok ⊢
      obtain ⟨new, hnew, heq, -⟩ := entryAdd_true hok
      obtain rfl : new = [⟨req.rank, BitVec.ofNat 48 req.mac, req.ipv4, req.rkey⟩] := by
        simpa [eq_comm] using hnew
      rw [heq]
      simp
    rw [hok, if_neg (by decide)]
    split
    · exact hold
    · intro e he
      rcases mem_entryAdd he with he | he
      · exact hold e he
      · obtain ⟨i, hi, hentry⟩ := List.mem_mapIdx.mp he
        rw [(fillInEntry_eq_some hentry).2.1]
        exact hnew
  · rw [Bool.not_eq_true] at hok
    rw [hok, if_pos (by decide)]
    exact hold

theorem SendersConsistent.request (h : SendersConsistent c) (protocol : Protocol) (req : SessionRequest) :
    SendersConsistent (protocol.request req c).2 := by
  cases protocol with
  | udp =>
    have hclear : SendersConsistent (if req.rank = 0 then clearUdpWorkers c else c) := by
      split <;> exact h
    exact addWorker_keeps req hclear (hclear.congr (udpReceiverAdd_senders req _))
      (fun c hc => hc.congr ⟨rfl, rfl⟩) fun c port hc => hc.congr (addMulticastNode_senders _ port c)
  | rdma =>
    have hclear : SendersConsistent (if req.rank = 0 then clearRdmaWorkers c else c) := by
      split
      · intro e he
        cases he
      · exact h
    refine addWorker_keeps _ hclear (hclear.congr (rdmaReceiverAdd_senders _ _)) (fun c hc => ?_)
      fun c port hc => hc.congr (addMulticastNode_senders _ port c)
    rw [ignoreResult_snd]
    exact hc.rdmaSenderAdd _

theorem sendersConsistent_of_reachable (h : ctrlMachine.Reachable c) : SendersConsistent c := by
  refine Machine.Reachable.invariant (fun c hc => ?_) (fun c e c' hI hn => ?_) h
  · intro e he
    rw [hc.fillInQpnAndPsn] at he
    cases he
  · cases e with
    | request protocol req =>
      cases hn
      exact hI.request protocol req
    | resetWorkers =>
      cases hn
      intro e he
      cases he
    | setSwitchMacAndIp => cases hn; exact hI
    | setMacAddresses => cases hn; exact hI

/-- What the sender has installed once it succeeded. -/
theorem rdmaSenderAdd_success (h : (rdmaSenderAdd req c).1 = .success) :
    let packetsPerMessage := req.messageSize / packetBytes req.packetSize
    packetsPerMessage.isPowerOfTwo ∧ req.rank ∉ c.createRocePacket.map (·.workerId) ∧
      ∃ new, (req.qpns.zip req.psns).mapIdx (fillInEntry req.rank packetsPerMessage) = new.map some ∧
        (rdmaSenderAdd req c).2 = { c with
          createRocePacket := c.createRocePacket ++ [⟨req.rank, BitVec.ofNat 48 req.mac, req.ipv4, req.rkey⟩]
          fillInQpnAndPsn := c.fillInQpnAndPsn ++ new } := by
  unfold rdmaSenderAdd at h ⊢
  dsimp only at h ⊢
  have hcreate : req.rank ∉ c.createRocePacket.map (·.workerId) := by
    intro hm
    simp [entryAdd, hm] at h
  have hadded : entryAdd (·.workerId) c.createRocePacket
      [some (⟨req.rank, BitVec.ofNat 48 req.mac, req.ipv4, req.rkey⟩ : CreateRocePacketEntry)] =
        (true, c.createRocePacket ++ [⟨req.rank, BitVec.ofNat 48 req.mac, req.ipv4, req.rkey⟩]) := by
    simp [entryAdd, hcreate]
  rw [hadded, if_neg (by simp)] at h
  rw [hadded, if_neg (by simp)]
  split at h
  · cases h
  · rename_i hpow
    rw [not_or, not_not] at hpow
    have hfill : (entryAdd (fun e => (e.workerId, e.poolIndex)) c.fillInQpnAndPsn ((req.qpns.zip req.psns).mapIdx
        (fillInEntry req.rank (req.messageSize / packetBytes req.packetSize)))).1 = true := by
      by_contra hne
      rw [if_neg hne] at h
      cases h
    obtain ⟨new, hnew, heq, -⟩ := entryAdd_true hfill
    refine ⟨Nat.ne_zero_and_sub_one_eq_zero_iff_isPowerOfTwo.mp ⟨hpow.2, hpow.1⟩, hcreate, new, hnew, ?_⟩
    rw [heq, if_neg (by rw [not_or, not_not]; exact hpow)]

/-! ## A session -/

theorem addWorker_senders {receiver sender : SessionRequest → Ctrl → Reply × Ctrl}
    (h : (addWorker receiver sender req c).1 = .success) :
    (sender req (receiver req c).2).1 = .success ∧
      (addWorker receiver sender req c).2.createRocePacket =
        (sender req (receiver req c).2).2.createRocePacket ∧
      (addWorker receiver sender req c).2.fillInQpnAndPsn = (sender req (receiver req c).2).2.fillInQpnAndPsn := by
  obtain ⟨-, -, port, -, -, hsend, -, heq⟩ := addWorker_steps h
  rw [heq]
  exact ⟨hsend, addMulticastNode_senders req.rank port (sender req (receiver req c).2).2⟩

theorem ignoreResult_success {r : Reply × Ctrl} : (ignoreResult r).1 = .success ↔ r.1 ≠ .exception := by
  unfold ignoreResult
  cases hr : r.1 <;> simp [hr]

/-- The request as the controller goes on with it, and the state it starts from. -/
def sizedRequest (c : Ctrl) (req : SessionRequest) : SessionRequest :=
  { req with packetSize := usedPacketSize c.foldedPipe req.packetSize }

def sessionStart (c : Ctrl) (req : SessionRequest) : Ctrl := if req.rank = 0 then clearRdmaWorkers c else c

/-- The packets of a message by the sizes in the request. -/
def packetsPerMessage (c : Ctrl) (req : SessionRequest) : ℕ :=
  req.messageSize / packetBytes (usedPacketSize c.foldedPipe req.packetSize)

theorem rdmaSession_eq (c : Ctrl) (req : SessionRequest) :
    rdmaSession req c = addRdmaWorker (sizedRequest c req) (sessionStart c req) := rfl

theorem SendersConsistent.sessionStart (h : SendersConsistent c) (req : SessionRequest) :
    SendersConsistent (sessionStart c req) := by
  unfold Controller.sessionStart
  split
  · intro e he
    cases he
  · exact h

/-- Where the sender accepts the number of packets and the session is set up, all
that the worker has in the tables of the egress pipe is what its request has added. -/
theorem rdmaSession_entries (hc : SendersConsistent c) (h : (rdmaSession req c).1 = .success)
    (hpow : (packetsPerMessage c req).isPowerOfTwo) :
    ∃ old new, (req.qpns.zip req.psns).mapIdx (fillInEntry req.rank (packetsPerMessage c req)) = new.map some ∧
      (rdmaSession req c).2.fillInQpnAndPsn = old ++ new ∧ ∀ e ∈ old, e.workerId ≠ req.rank := by
  rw [rdmaSession_eq] at h ⊢
  obtain ⟨hsend, -, hfill⟩ := addWorker_senders h
  obtain ⟨hcreate', hfill'⟩ := rdmaReceiverAdd_senders (sizedRequest c req) (sessionStart c req)
  have hc0 := (hc.sessionStart req).congr ⟨hcreate', hfill'⟩
  generalize (rdmaReceiverAdd (sizedRequest c req) (sessionStart c req)).2 = c1 at hsend hfill hc0
  have hok : (rdmaSenderAdd (sizedRequest c req) c1).1 = .success := by
    rw [ignoreResult_success] at hsend
    unfold rdmaSenderAdd at hsend ⊢
    obtain ⟨hne, hand⟩ := Nat.ne_zero_and_sub_one_eq_zero_iff_isPowerOfTwo.mpr hpow
    have hpow' : ¬(packetsPerMessage c req &&& (packetsPerMessage c req - 1) ≠ 0 ∨ packetsPerMessage c req = 0) := by
      rw [not_or, not_not]
      exact ⟨hand, hne⟩
    dsimp only at hsend ⊢
    split at hsend
    · exact absurd rfl hsend
    · rename_i hadded
      rw [if_neg hadded]
      split at hsend
      · rename_i hbad
        exact absurd hbad hpow'
      · rename_i hgood
        rw [if_neg hgood]
        split at hsend
        · rename_i hall
          rw [if_pos hall]
        · exact absurd rfl hsend
  obtain ⟨-, hrank, new, hnew, heq⟩ := rdmaSenderAdd_success hok
  refine ⟨c1.fillInQpnAndPsn, new, hnew, ?_, fun e he hid => hrank ?_⟩
  · refine hfill.trans ?_
    rw [ignoreResult_snd, heq]
  · have hm := hc0 e he
    rw [hid] at hm
    exact hm

end SwitchML.Controller
