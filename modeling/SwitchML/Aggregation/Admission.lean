/-
Sessions as the controller admits them: the requests of all workers were
accepted, the entries they installed tell the first pass whose a packet is, and
from there the packets are those of `Session`.

The controller checks neither that the pipe is folded where a client sends 1024
byte packets nor that `next_step` lists the worker, so it admits sessions that
complete no slot.
-/
import SwitchML.Aggregation.Lossless
import SwitchML.Controller.Sessions

namespace SwitchML.Aggregation

open P4 Tna Controller

/-! ## What clients send -/

/-- `Config::Validate` for both backends: 256 or 64 elements in a packet. -/
structure PacketNumel where
  val : ℕ
  valid : val = 256 ∨ val = 64

/-- The size `DpdkBackend` and `BuildPacket` put in the request and the packets. -/
def PacketNumel.pktLenEnum (numel : PacketNumel) : PacketSize :=
  if numel.val < 64 then .MTU_128 else if numel.val < 128 then .MTU_256 else if numel.val < 256 then .MTU_512
  else .MTU_1024

/-- The MTU of an `RdmaConnection`. -/
def PacketNumel.mtu (numel : PacketNumel) : PacketSize := if numel.val = 256 then .MTU_1024 else .MTU_256

def PacketNumel.size (numel : PacketNumel) : Protocol → PacketSize
  | .udp => numel.pktLenEnum
  | .rdma => numel.mtu

theorem PacketNumel.size_cases (numel : PacketNumel) (protocol : Protocol) :
    numel.size protocol = .MTU_256 ∨ numel.size protocol = .MTU_1024 := by
  obtain ⟨val, rfl | rfl⟩ := numel <;> cases protocol <;> decide

/-- The headers of a SwitchML packet over UDP, beside the addresses. -/
structure UdpFields where
  srcPort : BitVec 16
  jobNumber : BitVec 8
  tsi : BitVec 32
  poolIndex : BitVec 16
  e0 : Exponent
  e1 : Exponent

/-- The headers of a packet of a message over RDMA, beside the addresses. -/
structure RdmaFields where
  op : IbOpcode × RoceAction
  op_mem : op ∈ roceActions
  queuePair : ℕ
  queuePair_lt : queuePair < 2 ^ 16
  srcPort : BitVec 16
  psn : BitVec 24
  reth : IbRethH
  immediate : BitVec 32

/-- The opcodes of a packet that starts a message carry the address. -/
def hasReth : RoceAction → Bool
  | .onlyPacket | .onlyPacketWithImmediate | .firstPacket => true
  | _ => false

def hasImmediate : RoceAction → Bool
  | .onlyPacketWithImmediate | .lastPacketWithImmediate => true
  | _ => false

/-! ## Admitted sessions -/

/-- The workers of one session, all admitted. Rank 0 asks first, the clients
see to that: it clears what sessions before have left. -/
structure Admission (n : ℕ) where
  protocol : Protocol
  before : Ctrl
  after : Ctrl
  switchMac : BitVec 48
  switchIp : BitVec 32
  switch : before.switchMacAndIp = some (switchMac, switchIp)
  request : Fin n → SessionRequest
  rank_injective : ∀ v w, (request v).rank = (request w).rank → v = w
  rank_zero : ∀ w, (request w).rank = 0 ↔ w.val = 0
  numWorkers : ∀ w, (request w).numWorkers = n
  numel : PacketNumel
  packetSize : ∀ w, (request w).packetSize = numel.size protocol
  admitted : grantAll protocol before (List.ofFn request) = some after

namespace Admission

variable {n : ℕ} (A : Admission n)

/-- The size the workers' packets have. -/
def clientSize : PacketSize := A.numel.size A.protocol

/-- The size the receivers note for a worker's packet. -/
def switchSize : PacketSize :=
  match A.protocol with
  | .udp => A.clientSize
  | .rdma => usedPacketSize A.before.foldedPipe A.clientSize

/-- The headers of worker `w`'s packets over UDP. -/
def udpHdr (w : Fin n) (x : UdpFields) : Hdr where
  ethernet := some ⟨A.switchMac, BitVec.ofNat 48 (A.request w).mac⟩
  ipv4 := some ⟨(A.request w).ipv4, A.switchIp⟩
  udp := some ⟨x.srcPort, 48864⟩
  switchml := some ⟨A.clientSize, x.jobNumber, x.tsi, x.poolIndex⟩
  exponents := some ⟨x.e0, x.e1⟩

/-- And over RDMA, to one of the queue pairs the response named. -/
def rdmaHdr (w : Fin n) (x : RdmaFields) : Hdr where
  ethernet := some ⟨A.switchMac, BitVec.ofNat 48 (A.request w).mac⟩
  ipv4 := some ⟨(A.request w).ipv4, A.switchIp⟩
  udp := some ⟨x.srcPort, 4791⟩
  ibBth := some ⟨x.op.1, 0xffff, switchQpn (A.request w).rank x.queuePair, x.psn⟩
  ibReth := if hasReth x.op.2 then some x.reth else none
  ibImmediate := if hasImmediate x.op.2 then some ⟨x.immediate⟩ else none

/-- The headers worker `w` may send. -/
inductive Header (w : Fin n) : Hdr → Prop
  | udp (hp : A.protocol = .udp) (x : UdpFields) : Header w (A.udpHdr w x)
  | rdma (hp : A.protocol = .rdma) (x : RdmaFields) : Header w (A.rdmaHdr w x)

/-- The tables of the session's pipes. -/
def tables (arpIcmp : List ArpIcmpEntry) (forward : ForwardTable) : Tables where
  receiveUdp := A.after.receiveUdp
  receiveRoce := A.after.receiveRoce
  nextStep := addDefaultEntries A.before.foldedPipe
  arpIcmp := arpIcmp
  forward := forward

theorem accepted_and_entries (w : Fin n) :
    Accepted A.before.toReceivers (A.request w) ∧
      (A.protocol = .udp →
        A.after.receiveUdp = (List.ofFn A.request).map (udpEntry A.switchMac A.switchIp) ∧ A.after.KeysDistinct) ∧
      (A.protocol = .rdma →
        A.after.receiveRoce = (List.ofFn A.request).flatMap (roceEntries A.before.foldedPipe A.switchIp)) := by
  cases n with
  | zero => exact w.elim0
  | succ n =>
    have hadm := A.admitted
    rw [List.ofFn_succ] at hadm ⊢
    have hrest : ∀ req ∈ List.ofFn fun i => A.request i.succ, req.rank ≠ 0 := by
      intro req hreq h0
      obtain ⟨i, rfl⟩ := List.mem_ofFn.mp hreq
      exact absurd ((A.rank_zero i.succ).mp h0) (Nat.succ_ne_zero _)
    obtain ⟨hacc, hudp, hrdma⟩ := grantAll_session A.switch ((A.rank_zero 0).mpr rfl) hrest hadm
    refine ⟨hacc _ ?_, hudp, hrdma⟩
    rw [← List.ofFn_succ]
    exact List.mem_ofFn.mpr ⟨w, rfl⟩

theorem rank_lt (w : Fin n) : (A.request w).rank < 32 := (A.accepted_and_entries w).1.rank

/-! ## The first pass -/

/-- A worker's packet as it leaves the parser. -/
def parsed (portMetadata : PortMetadata) (port : PortId) (hdr : Hdr) (d0 d1 : DataH) (rest : List DataH) : Ig :=
  { Ig.ofWire portMetadata port ⟨{ (default : SwitchmlMd) with packetType := .CONSUME0 }, 0, rest⟩ with
    hdr := { hdr with d0 := some d0, d1 := some d1 } }

variable {A} {w : Fin n} {pm : PortMetadata} {port : PortId} {hdr : Hdr} {d0 d1 : DataH} {rest : List DataH}

/-- The table finds the sender's entry. -/
theorem find?_receiveUdp (hp : A.protocol = .udp) (parserErr : BitVec 16) (x : UdpFields) :
    A.after.receiveUdp.find? (·.hits parserErr (parsed pm port (A.udpHdr w x) d0 d1 rest)) =
      some (udpEntry A.switchMac A.switchIp (A.request w)) := by
  obtain ⟨hentries, hdistinct⟩ := (A.accepted_and_entries w).2.1 hp
  have hmem : udpEntry A.switchMac A.switchIp (A.request w) ∈ A.after.receiveUdp := by
    rw [hentries]
    exact List.mem_map_of_mem (List.mem_ofFn.mpr ⟨w, rfl⟩)
  have hport : (Tern.mk 0xbee0#16 0xfff0#16).hits 48864#16 = true := by decide
  refine find?_unique hmem ?_ fun e he hhit => ?_
  · simp [UdpEntry.hits, udpEntry, parsed, udpHdr, hport]
  · obtain ⟨req, hreq, rfl⟩ := List.mem_map.mp (hentries ▸ he)
    simp only [UdpEntry.hits, udpEntry, parsed, udpHdr, Option.getD_some, Bool.and_eq_true, Tern.hits_exactly,
      decide_eq_true_eq] at hhit
    obtain ⟨⟨⟨⟨⟨⟨-, hmac⟩, -⟩, hip⟩, -⟩, -⟩, -⟩ := hhit
    refine List.inj_on_of_nodup_map hdistinct he hmem ?_
    simp only [udpKey, udpEntry, ← hmac, ← hip]

theorem find?_receiveRoce (hp : A.protocol = .rdma) (x : RdmaFields) :
    A.after.receiveRoce.find? (·.hits (parsed pm port (A.rdmaHdr w x) d0 d1 rest)) =
      some (roceEntry A.switchIp { A.request w with packetSize := A.switchSize } x.op) := by
  have hentries := (A.accepted_and_entries w).2.2 hp
  have hsize : A.switchSize = usedPacketSize A.before.foldedPipe (A.request w).packetSize := by
    unfold switchSize clientSize
    rw [A.packetSize, hp]
  have hmem : roceEntry A.switchIp { A.request w with packetSize := A.switchSize } x.op ∈ A.after.receiveRoce := by
    rw [hentries, List.mem_flatMap]
    refine ⟨A.request w, List.mem_ofFn.mpr ⟨w, rfl⟩, ?_⟩
    rw [hsize]
    exact List.mem_map_of_mem x.op_mem
  refine find?_unique hmem ?_ fun e he hhit => ?_
  · have hqp := (switchQpn_hits (A.rank_lt w) (A.rank_lt w) x.queuePair_lt).mpr rfl
    simp [RoceEntry.hits, roceEntry, parsed, rdmaHdr, hqp]
  · rw [hentries] at he
    obtain ⟨req, hreq, he⟩ := List.mem_flatMap.mp he
    obtain ⟨v, rfl⟩ := List.mem_ofFn.mp hreq
    obtain ⟨op, hop, rfl⟩ := List.mem_map.mp he
    simp only [RoceEntry.hits, roceEntry, parsed, rdmaHdr, Option.getD_some, Bool.and_eq_true,
      decide_eq_true_eq] at hhit
    obtain ⟨⟨-, hopcode⟩, hqp⟩ := hhit
    have hv : v = w := A.rank_injective v w
      ((switchQpn_hits (A.rank_lt w) (A.rank_lt v) x.queuePair_lt).mp hqp)
    have hopeq : ∀ op ∈ roceActions, ∀ op' ∈ roceActions, op'.1 = op.1 → op = op' := by decide
    rw [hv, hopeq op hop x.op x.op_mem (of_decide_eq_true hopcode), hsize]

/-- The metadata of worker `w`'s packet after the receivers. -/
structure ReceivedMd (A : Admission n) (w : Fin n) (md : SwitchmlMd) : Prop where
  packetSize : md.packetSize = A.switchSize
  workerId : md.workerId = BitVec.ofNat 16 (A.request w).rank
  numWorkers : md.numWorkers = BitVec.ofNat 8 n
  packetType : md.packetType = .CONSUME0

/-- The receivers leave the metadata, the worker's bitmap and the values. -/
def afterReceiver (A : Admission n) (w : Fin n) (pm : PortMetadata) (port : PortId) (d0 d1 : DataH) (rest : List DataH)
    (md : SwitchmlMd) (rdmaAddr : BitVec 64) (dropCtl : Bool) : Ig :=
  { Ig.ofWire pm port ⟨md, rdmaAddr, rest⟩ with
    hdr := { d0 := some d0, d1 := some d1 }
    workerBitmap := (1 : WorkerBitmap) <<< (A.request w).rank
    dropCtl := dropCtl }

theorem exec_roce (w : Fin n) (x : RdmaFields) (data : Register 14 ReceiverData) :
    ∃ md addr dropCtl, ReceivedMd A w md ∧
      (RDMAReceiver.exec x.op.2 (roceEntry A.switchIp { A.request w with packetSize := A.switchSize } x.op) data
        (parsed pm port (A.rdmaHdr w x) d0 d1 rest)).2 = afterReceiver A w pm port d0 d1 rest md addr dropCtl := by
  have hn : BitVec.ofNat 8 (A.request w).numWorkers = BitVec.ofNat 8 n := by rw [A.numWorkers]
  unfold rdmaHdr
  cases hop : x.op.2 <;> exact ⟨_, _, _, ⟨rfl, rfl, hn, rfl⟩, rfl⟩

theorem apply_receiver (h : A.Header w hdr) (pm : PortMetadata) (port : PortId) (d0 d1 : DataH) (rest : List DataH)
    (inp : Ingress.Inputs) (data : Register 14 ReceiverData) :
    ∃ md addr dropCtl, ReceivedMd A w md ∧
      (if (parsed pm port hdr d0 d1 rest).hdr.ibBth.isSome then
        RDMAReceiver.apply A.after.receiveRoce data (parsed pm port hdr d0 d1 rest)
      else (data, UDPReceiver.apply A.after.receiveUdp inp.parserErr (parsed pm port hdr d0 d1 rest))).2 =
        afterReceiver A w pm port d0 d1 rest md addr dropCtl := by
  cases h with
  | udp hp x =>
    have hn : BitVec.ofNat 8 (A.request w).numWorkers = BitVec.ofNat 8 n := by rw [A.numWorkers]
    have hsize : A.clientSize = A.switchSize := by
      unfold switchSize
      rw [hp]
    rw [if_neg (by exact Bool.false_ne_true)]
    unfold UDPReceiver.apply lookup
    rw [find?_receiveUdp hp]
    exact ⟨_, _, _, ⟨hsize, rfl, hn, rfl⟩, rfl⟩
  | rdma hp x =>
    rw [if_pos (by rfl)]
    unfold RDMAReceiver.apply
    rw [find?_receiveRoce hp]
    exact exec_roce w x data

/-- The inputs of the first pass, once the drop simulators have drawn. -/
def drawn (inp : Ingress.Inputs) (pm : PortMetadata) (u0 u1 : DataH) : PassInputs :=
  let eg := egressDropSim inp.egressRng (ingressDropSim inp.ingressRng pm)
  ⟨eg.1, eg.2, u0, u1⟩

/-- What the first pass knows of the packet when the drop test is made. -/
theorem receive_eq (h : A.Header w hdr) (arpIcmp : List ArpIcmpEntry) (forward : ForwardTable) (inp : Ingress.Inputs)
    (data : Register 14 ReceiverData) (u0 u1 : DataH) :
    ∃ md addr dropCtl, ReceivedMd A w md ∧ md.ingressPort = port ∧
      md.simulateEgressDrop = (drawn inp pm u0 u1).simulateEgressDrop ∧
      (Ingress.receive (A.tables arpIcmp forward) inp data (parsed pm port hdr d0 d1 rest)).2 =
        afterReceiver A w (drawn inp pm u0 u1).portMetadata port d0 d1 rest md addr dropCtl := by
  obtain ⟨md, addr, dropCtl, hmd, heq⟩ := apply_receiver h pm port d0 d1 rest inp data
  unfold Ingress.receive
  rw [if_pos (by rfl)]
  simp only [tables]
  rw [heq]
  exact ⟨{ md with
    simulateEgressDrop := (drawn inp pm u0 u1).simulateEgressDrop
    ingressPort := port }, addr, dropCtl, ⟨hmd.packetSize, hmd.workerId, hmd.numWorkers, hmd.packetType⟩, rfl, rfl, rfl⟩

/-- Over UDP a packet names its pool index itself, and none is out of order. -/
theorem receive_udp (hp : A.protocol = .udp) (x : UdpFields) (arpIcmp : List ArpIcmpEntry) (forward : ForwardTable)
    (inp : Ingress.Inputs) (data : Register 14 ReceiverData) :
    (Ingress.receive (A.tables arpIcmp forward) inp data (parsed pm port (A.udpHdr w x) d0 d1 rest)).2.md.poolIndex =
        UDPReceiver.poolIndexOf x.poolIndex ∧
      (Ingress.receive (A.tables arpIcmp forward) inp data (parsed pm port (A.udpHdr w x) d0 d1 rest)).2.dropCtl =
        false := by
  unfold Ingress.receive
  rw [if_pos (by rfl), if_neg (by exact Bool.false_ne_true)]
  simp only [tables, UDPReceiver.apply, lookup]
  rw [find?_receiveUdp hp]
  exact ⟨rfl, rfl⟩

end Admission

/-! ## The packets for one slot -/

/-- What the workers of a session send, phase after phase, and what the first
passes find. -/
structure Arrivals {n : ℕ} (A : Admission n) where
  /-- All front panel ports that are not recirculated are in pipe 0. -/
  port : Fin n → PortId
  pipeOf_port : ∀ w, pipeOf (port w) = 0
  hdr : Fin n → ℕ → Hdr
  header : ∀ w k, A.Header w (hdr w k)
  contribution : Fin n → ℕ → ℕ → DataH
  portMetadata : Fin n → ℕ → PortMetadata
  inputs : Fin n → ℕ → Ingress.Inputs
  receiverData : Fin n → ℕ → Register 14 ReceiverData
  arpIcmp : List ArpIcmpEntry
  forward : ForwardTable

namespace Arrivals

variable {n : ℕ} {A : Admission n}

/-- The slices after the first two, in a packet of the client's size. -/
def rest (T : Arrivals A) (w : Fin n) (k : ℕ) : List DataH :=
  ((List.range (packetBytes A.clientSize / 128)).map (T.contribution w k)).drop 2

/-- Worker `w`'s packet of phase `k` when the receivers and the drop simulators are done with it. -/
def received (T : Arrivals A) (w : Fin n) (k : ℕ) : Ig :=
  (Ingress.receive (A.tables T.arpIcmp T.forward) (T.inputs w k) (T.receiverData w k)
    (Admission.parsed (T.portMetadata w k) (T.port w) (T.hdr w k) (T.contribution w k 0) (T.contribution w k 1)
      (T.rest w k))).2

end Arrivals

/-- Packets that are all for one slot, on alternating sets, and arrive in sequence. -/
structure Traffic {n : ℕ} (A : Admission n) extends Arrivals A where
  slot : BitVec 14
  firstSet : Bool
  poolIndex : ∀ w k, (toArrivals.received w k).md.poolIndex = indexOf slot (xor firstSet (k % 2 == 1))
  inSequence : ∀ w k, (toArrivals.received w k).dropCtl = false

namespace Traffic

variable {n : ℕ} {A : Admission n} (T : Traffic A)

/-- The session of an admitted group of workers. -/
def session : Session n where
  id w := ⟨(A.request w).rank, A.rank_lt w⟩
  id_injective v w h := A.rank_injective v w (Fin.mk.inj h)
  packetSize := A.switchSize
  foldedPipe := A.before.foldedPipe
  slot := T.slot
  firstSet := T.firstSet
  port := T.port
  pipeOf_port := T.pipeOf_port
  receivedMd w k := (T.received w k).md
  rdmaAddr w k := (T.received w k).rdmaAddr
  contribution := T.contribution
  arpIcmp := T.arpIcmp
  forward := T.forward

theorem received_eq (w : Fin n) (k : ℕ) (u0 u1 : DataH) :
    T.received w k =
      Admission.afterReceiver A w (Admission.drawn (T.inputs w k) (T.portMetadata w k) u0 u1).portMetadata (T.port w)
        (T.contribution w k 0) (T.contribution w k 1) (T.rest w k) (T.session.packetMd w k) (T.session.rdmaAddr w k)
        false ∧
    (T.session.packetMd w k).simulateEgressDrop =
      (Admission.drawn (T.inputs w k) (T.portMetadata w k) u0 u1).simulateEgressDrop ∧
    (T.received w k).md.packetSize = A.switchSize := by
  obtain ⟨md, addr, dropCtl, hmd, hport, hegress, heq⟩ :=
    Admission.receive_eq (T.header w k) T.arpIcmp T.forward (T.inputs w k) (T.receiverData w k) u0 u1
  have hreceived : T.received w k = _ := heq
  have hrecmd : (T.received w k).md = md := congrArg Ig.md hreceived
  have haddr : (T.received w k).rdmaAddr = addr := congrArg Ig.rdmaAddr hreceived
  have hdrop : dropCtl = false := (congrArg Ig.dropCtl hreceived).symm.trans (T.inSequence w k)
  have hpool : md.poolIndex = T.session.poolIndex k := (congrArg SwitchmlMd.poolIndex hrecmd).symm.trans (T.poolIndex w k)
  have hpacket : T.session.packetMd w k = md := by
    show { (T.received w k).md with
      packetSize := A.switchSize
      workerId := BitVec.ofNat 16 (A.request w).rank
      packetType := .CONSUME0
      poolIndex := T.session.poolIndex k
      numWorkers := BitVec.ofNat 8 n
      ingressPort := T.port w } = md
    rw [hrecmd, ← hmd.packetSize, ← hmd.workerId, ← hmd.packetType, ← hpool, ← hmd.numWorkers, ← hport]
  refine ⟨?_, ?_, ?_⟩
  · rw [hpacket, hreceived, hdrop]
    exact congrArg (Admission.afterReceiver A w _ _ _ _ _ md · false) haddr.symm
  · rw [hpacket, hegress]
  · rw [hrecmd, hmd.packetSize]

/-- Where the sizes agree, the first pass of the session starts with what the receivers make of the packet. -/
theorem enter_launch (hsize : A.switchSize = A.clientSize) (w : Fin n) (k copy : ℕ) (u0 u1 : DataH) :
    T.session.enter w (Admission.drawn (T.inputs w k) (T.portMetadata w k) u0 u1) (T.session.launch w k copy) =
      some (T.received w k) := by
  obtain ⟨hreceived, hegress, -⟩ := T.received_eq w k u0 u1
  have hslices : 2 * T.session.pipes = packetBytes A.clientSize / 128 := by
    unfold Session.pipes
    rw [show T.session.packetSize = A.clientSize from hsize]
    unfold Admission.clientSize
    rcases A.numel.size_cases A.protocol with h256 | h1024
    · rw [h256]
      rfl
    · rw [h1024]
      rfl
  rw [T.session.enter_launch, hreceived]
  unfold Session.launched Admission.afterReceiver Arrivals.rest
  rw [hslices, ← hegress]
  rfl

/-- The controller admits a session exactly as it completes a slot if 1024 byte
packets find the pipe folded and their worker listed: `next_step` has entries
for 16 workers, and without a folded pipe for none, where the request of an RDMA
session is lowered to 256 bytes and the client not told. -/
theorem admitted_completes_iff (T : Traffic A) :
    ((∀ w k, (T.received w k).md.packetSize = A.clientSize) ∧ T.session.Completes) ↔
      0 < n ∧ (A.clientSize = .MTU_256 ∨
        A.clientSize = .MTU_1024 ∧ A.before.foldedPipe = true ∧ ∀ w, (A.request w).rank < 16) := by
  have hsizes : ∀ w k, (T.received w k).md.packetSize = A.switchSize :=
    fun w k => (T.received_eq w k (fun _ => 0) fun _ => 0).2.2
  have hsupported : ∀ w, Supported T.session.packetSize T.session.foldedPipe (T.session.id w) ↔
      (A.switchSize = .MTU_256 ∨ A.switchSize = .MTU_1024 ∧ A.before.foldedPipe = true ∧ (A.request w).rank < 16) :=
    fun _ => Iff.rfl
  rw [Session.completes_iff]
  simp only [hsupported]
  constructor
  · rintro ⟨hsize, hpos, hsup⟩
    have heq : A.switchSize = A.clientSize := (hsizes ⟨0, hpos⟩ 0).symm.trans (hsize ⟨0, hpos⟩ 0)
    rw [heq] at hsup
    refine ⟨hpos, ?_⟩
    rcases hsup ⟨0, hpos⟩ with h256 | ⟨h1024, hfold, -⟩
    · exact Or.inl h256
    · refine Or.inr ⟨h1024, hfold, fun w => ?_⟩
      rcases hsup w with h256 | ⟨-, -, h16⟩
      · rw [h1024] at h256
        cases h256
      · exact h16
  · rintro ⟨hpos, hcond⟩
    have heq : A.switchSize = A.clientSize := by
      unfold Admission.switchSize
      split
      · rfl
      · unfold usedPacketSize
        rw [if_neg]
        rintro ⟨hfold, h1024⟩
        rcases hcond with h256 | ⟨-, hfold', -⟩
        · rw [h1024] at h256
          cases h256
        · rw [hfold] at hfold'
          cases hfold'
    rw [heq]
    refine ⟨fun w k => (hsizes w k).trans heq, hpos, fun w => ?_⟩
    exact hcond.imp id fun h => ⟨h.1, h.2.1, h.2.2 w⟩

end Traffic

/-! ## Seventeen workers -/

/-- Worker `w` of seventeen, with 1024 byte packets over UDP. -/
def crowdRequest (w : Fin 17) : SessionRequest where
  rank := w
  numWorkers := 17
  mac := w + 1
  ipv4 := 0x0a000001 + BitVec.ofNat 32 w
  packetSize := .MTU_1024
  rkey := 0
  messageSize := 1024
  qpns := []
  psns := []

/-- A controller with the folded pipe enabled that knows their ports. -/
def crowdCtrl : Ctrl where
  foldedPipe := true
  switchMacAndIp := some (0x001122334455, 0x0a0000fe)
  macAddresses := (List.range 17).map fun i => (BitVec.ofNat 48 (i + 1), BitVec.ofNat 9 i)
  receiveUdp := []
  receiveRoce := []
  dstAddr := []
  createRocePacket := []
  fillInQpnAndPsn := []
  multicastGroup := none
  multicastNodes := []
  regs _ := Regs.zero

theorem crowd_granted : (grantAll .udp crowdCtrl (List.ofFn crowdRequest)).isSome = true := by decide +kernel

def crowd : Admission 17 where
  protocol := .udp
  before := crowdCtrl
  after := (grantAll .udp crowdCtrl (List.ofFn crowdRequest)).get crowd_granted
  switchMac := 0x001122334455
  switchIp := 0x0a0000fe
  switch := rfl
  request := crowdRequest
  rank_injective _ _ h := Fin.ext h
  rank_zero _ := Iff.rfl
  numWorkers _ := rfl
  numel := ⟨256, Or.inl rfl⟩
  packetSize _ := rfl
  admitted := (Option.some_get _).symm

/-- All of them send for slot 0, first on set 0. -/
def crowdFields (k : ℕ) : UdpFields where
  srcPort := 48864
  jobNumber := 0
  tsi := 0
  poolIndex := if k % 2 == 1 then 0x8000 else 0
  e0 := 0
  e1 := 0

def crowdArrivals : Arrivals crowd where
  port w := BitVec.ofNat 9 w
  pipeOf_port := by decide
  hdr w k := crowd.udpHdr w (crowdFields k)
  header w k := .udp rfl (crowdFields k)
  contribution _ _ _ _ := 1
  portMetadata _ _ := ⟨0, 0⟩
  inputs _ _ := ⟨0, 0, 0⟩
  receiverData _ _ := fun _ => ⟨0, 0⟩
  arpIcmp := []
  forward := ⟨[], none⟩

def crowdTraffic : Traffic crowd where
  toArrivals := crowdArrivals
  slot := 0
  firstSet := false
  poolIndex w k := by
    refine (Admission.receive_udp rfl (crowdFields k) [] _ _ _).1.trans ?_
    unfold crowdFields
    cases k % 2 == 1 <;> rfl
  inSequence w k := (Admission.receive_udp rfl (crowdFields k) [] _ _ _).2

/-- Rank 16 was admitted, and its packet is dropped in pipe 0. -/
theorem crowd_not_completes :
    ¬ ((∀ w k, (crowdTraffic.received w k).md.packetSize = crowd.clientSize) ∧ crowdTraffic.session.Completes) := by
  rintro ⟨-, hc⟩
  refine crowdTraffic.session.not_completes (w := 16) (fun hs => ?_) hc
  rcases hs with h | ⟨-, -, h⟩
  · cases h
  · exact absurd h (by decide)

end SwitchML.Aggregation
