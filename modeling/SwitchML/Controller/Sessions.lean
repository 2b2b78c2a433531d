/-
`switchml.py` and `grpc_server.py`: a worker asks for a session, and the
controller installs its entries in the receivers and the senders and its node in
the session's multicast group. Only one session is supported, so its ID is not
looked at: it is session 0.
-/
import SwitchML.P4.RDMAReceiver

namespace SwitchML.Controller

open P4 Tna

/-- `RdmaSessionRequest`. A `UdpSessionRequest` has the fields up to the packet
size, which `UdpSession` does not read. -/
structure SessionRequest where
  rank : ℕ
  numWorkers : ℕ
  mac : ℕ
  ipv4 : BitVec 32
  packetSize : PacketSize
  rkey : BitVec 32
  messageSize : ℕ
  qpns : List (BitVec 24)
  psns : List (BitVec 32)

/-! ## The state of the controller -/

/-- An entry of the UDP sender's `dst_addr`. -/
structure DstAddrEntry where
  workerId : ℕ
  ethDstAddr : BitVec 48
  ipDstAddr : BitVec 32

/-- An entry of the RDMA sender's `create_roce_packet`. -/
structure CreateRocePacketEntry where
  workerId : ℕ
  destMac : BitVec 48
  destIp : BitVec 32
  rkey : BitVec 32

/-- An entry of the RDMA sender's `fill_in_qpn_and_psn`. -/
structure FillInQpnAndPsnEntry where
  workerId : ℕ
  poolIndex : Tern 15
  qpn : BitVec 24
  psn : BitVec 32

/-- What the first pass of a worker's packet goes by. -/
structure Receivers where
  foldedPipe : Bool
  switchMacAndIp : Option (BitVec 48 × BitVec 32)
  /-- the forwarder's `mac_addresses` -/
  macAddresses : List (BitVec 48 × PortId)
  receiveUdp : List UdpEntry
  receiveRoce : List RoceEntry

structure Ctrl extends Receivers where
  dstAddr : List DstAddrEntry
  createRocePacket : List CreateRocePacketEntry
  fillInQpnAndPsn : List FillInQpnAndPsnEntry
  /-- `multicast_groups[0]`: the port of each node, if there is such a group -/
  multicastGroup : Option (List (ℕ × PortId))
  /-- the IDs of all nodes the replication engine holds -/
  multicastNodes : List ℕ
  regs : Fin 4 → Regs

/-- How a method returns: with success, with an error message, or not at all
because the driver raised an exception. -/
inductive Reply
  | success
  | failure (errorMsg : String)
  | exception
  deriving DecidableEq

/-- Go on if the method before was successful. -/
def andThen (r : Reply × Ctrl) (k : Ctrl → Reply × Ctrl) : Reply × Ctrl :=
  match r.1 with
  | .success => k r.2
  | _ => r

theorem andThen_success {r : Reply × Ctrl} {k : Ctrl → Reply × Ctrl} :
    (andThen r k).1 = .success ↔ r.1 = .success ∧ (k r.2).1 = .success := by
  unfold andThen
  cases hr : r.1 with
  | success => simp
  | failure msg => simp [hr]
  | exception => simp [hr]

theorem andThen_snd {r : Reply × Ctrl} {k : Ctrl → Reply × Ctrl} (h : r.1 = .success) :
    (andThen r k).2 = (k r.2).2 := by
  unfold andThen
  rw [h]

/-- Where the result of a method is not looked at, only an exception gets through. -/
def ignoreResult (r : Reply × Ctrl) : Reply × Ctrl :=
  match r.1 with
  | .exception => r
  | _ => (.success, r.2)

/-! ## Receivers -/

/-- The match key of an entry of `receive_udp`. -/
structure UdpKey where
  ingressPort : Tern 9
  ethSrcAddr : Tern 48
  ethDstAddr : Tern 48
  ipv4SrcAddr : Tern 32
  ipv4DstAddr : Tern 32
  udpDstPort : Tern 16
  parserErr : Tern 16
  deriving DecidableEq

def udpKey (e : UdpEntry) : UdpKey :=
  ⟨e.ingressPort, e.ethSrcAddr, e.ethDstAddr, e.ipv4SrcAddr, e.ipv4DstAddr, e.udpDstPort, e.parserErr⟩

/-- The match key of an entry of `receive_roce`. -/
structure RoceKey where
  ipv4SrcAddr : BitVec 32
  ipv4DstAddr : BitVec 32
  partitionKey : BitVec 16
  opcode : IbOpcode
  dstQp : Tern 24
  deriving DecidableEq

def roceKey (e : RoceEntry) : RoceKey := ⟨e.ipv4SrcAddr, e.ipv4DstAddr, e.partitionKey, e.opcode, e.dstQp⟩

/-- Session 0, so multicast group 0. -/
def sessionMgid : BitVec 16 := 0

/-- The action data of both receivers. -/
def workerArgs (workerType : WorkerType) (req : SessionRequest) : WorkerArgs where
  mgid := sessionMgid
  workerType := workerType
  workerId := BitVec.ofNat 16 req.rank
  numWorkers := BitVec.ofNat 8 req.numWorkers
  workerBitmap := (1 : WorkerBitmap) <<< req.rank

/-- Don't match on ingress port; match on Ethernet addresses, IPs and port. -/
def udpEntry (switchMac : BitVec 48) (switchIp : BitVec 32) (req : SessionRequest) : UdpEntry where
  ingressPort := .any
  ethSrcAddr := .exactly (BitVec.ofNat 48 req.mac)
  ethDstAddr := .exactly switchMac
  ipv4SrcAddr := .exactly req.ipv4
  ipv4DstAddr := .exactly switchIp
  udpDstPort := ⟨0xbee0, 0xfff0⟩
  parserErr := .any
  action := .setBitmap (workerArgs .SWITCHML_UDP req)

/-- Switch virtual queue pairs: the worker ID in the bits below the most significant one. -/
def qpnTopBits (rank : ℕ) : BitVec 24 := 0x800000 ||| (BitVec.ofNat 24 (rank % 256) <<< 16)

/-- The QPNs of the response: the bits of the entries, and the index of the queue
pair below. -/
def switchQpn (rank index : ℕ) : BitVec 24 := 0x800000 ||| (BitVec.ofNat 24 rank <<< 16) ||| BitVec.ofNat 24 index

/-- The opcodes with an entry for each worker, and their actions. -/
def roceActions : List (IbOpcode × RoceAction) :=
  [ (.UC_RDMA_WRITE_ONLY, .onlyPacket),
    (.UC_RDMA_WRITE_ONLY_IMMEDIATE, .onlyPacketWithImmediate),
    (.UC_RDMA_WRITE_FIRST, .firstPacket),
    (.UC_RDMA_WRITE_MIDDLE, .middlePacket),
    (.UC_RDMA_WRITE_LAST, .lastPacket),
    (.UC_RDMA_WRITE_LAST_IMMEDIATE, .lastPacketWithImmediate) ]

def roceEntry (switchIp : BitVec 32) (req : SessionRequest) (a : IbOpcode × RoceAction) : RoceEntry where
  ipv4SrcAddr := req.ipv4
  ipv4DstAddr := switchIp
  partitionKey := 0xffff
  opcode := a.1
  dstQp := ⟨qpnTopBits req.rank, 0xff0000⟩
  action := a.2
  args := workerArgs .ROCEv2 req
  packetSize := req.packetSize

/-- `UDPReceiver.add_udp_worker`, which is always given both addresses. -/
def udpReceiverAdd (req : SessionRequest) (c : Ctrl) : Reply × Ctrl :=
  match c.switchMacAndIp with
  | none => (.failure "No switch address", c)
  | some (mac, ip) =>
    let r := entryAdd udpKey c.receiveUdp [some (udpEntry mac ip req)]
    (if r.1 then .success else .exception, { c with receiveUdp := r.2 })

/-- `RDMAReceiver.add_rdma_worker` -/
def rdmaReceiverAdd (req : SessionRequest) (c : Ctrl) : Reply × Ctrl :=
  match c.switchMacAndIp with
  | none => (.failure "No switch address", c)
  | some (_, ip) =>
    let r := entryAdd roceKey c.receiveRoce (roceActions.map fun a => some (roceEntry ip req a))
    (if r.1 then .success else .exception, { c with receiveRoce := r.2 })

/-! ## Senders -/

/-- `UDPSender.add_udp_worker` -/
def udpSenderAdd (req : SessionRequest) (c : Ctrl) : Reply × Ctrl :=
  let r := entryAdd (·.workerId) c.dstAddr [some ⟨req.rank, BitVec.ofNat 48 req.mac, req.ipv4⟩]
  (if r.1 then .success else .exception, { c with dstAddr := r.2 })

def packetBytes : PacketSize → ℕ
  | .MTU_128 => 128
  | .MTU_256 => 256
  | .MTU_512 => 512
  | .MTU_1024 => 1024

/-- The entry of the `index`-th queue pair. Each QPN handles both sets of a slot
in the pool, packets of one message use consecutive indices. An index that
needs more than 15 bits fits no entry. -/
def fillInEntry (rank packetsPerMessage index : ℕ) (qp : BitVec 24 × BitVec 32) : Option FillInQpnAndPsnEntry :=
  let shiftedIndex := index * packetsPerMessage * 2
  if shiftedIndex < 2 ^ 15 then
    some ⟨rank,
      ⟨BitVec.ofNat 15 shiftedIndex, 0x7ffe &&& ~~~(BitVec.ofNat 15 ((packetsPerMessage - 1) <<< 1))⟩, qp.1, qp.2⟩
  else none

/-- `RDMASender.add_rdma_worker` -/
def rdmaSenderAdd (req : SessionRequest) (c : Ctrl) : Reply × Ctrl :=
  let r := entryAdd (·.workerId) c.createRocePacket [some ⟨req.rank, BitVec.ofNat 48 req.mac, req.ipv4, req.rkey⟩]
  let c := { c with createRocePacket := r.2 }
  if !r.1 then (.exception, c)
  else
    let packetsPerMessage := req.messageSize / packetBytes req.packetSize
    if packetsPerMessage &&& (packetsPerMessage - 1) ≠ 0 ∨ packetsPerMessage = 0 then
      (.failure ("Number of packets per message (" ++ toString packetsPerMessage ++ ") is not a power of 2"), c)
    else
      let r := entryAdd (fun e => (e.workerId, e.poolIndex)) c.fillInQpnAndPsn
        ((req.qpns.zip req.psns).mapIdx (fillInEntry req.rank packetsPerMessage))
      (if r.1 then .success else .exception, { c with fillInQpnAndPsn := r.2 })

/-! ## The multicast group -/

/-- Existing node with different port, remove it. -/
def removeMoved (workerId : ℕ) (devPort : PortId) (c : Ctrl) : Ctrl :=
  let group := c.multicastGroup.getD []
  if group.any fun e => decide (e.1 = workerId) && decide (e.2 ≠ devPort) then
    { c with
      multicastGroup := some (group.filter (·.1 ≠ workerId))
      multicastNodes := c.multicastNodes.filter (· ≠ workerId) }
  else { c with multicastGroup := some group }

/-- Add the multicast group and the node if not present. -/
def addMulticastNode (workerId : ℕ) (devPort : PortId) (c : Ctrl) : Reply × Ctrl :=
  let c := removeMoved workerId devPort c
  let group := c.multicastGroup.getD []
  if workerId ∈ group.map (·.1) then (.success, c)
  else if workerId ∈ c.multicastNodes then
    (.failure ("Multicast node " ++ toString workerId ++ " already present"), c)
  else
    (.success, { c with
      multicastGroup := some (group ++ [(workerId, devPort)])
      multicastNodes := c.multicastNodes ++ [workerId] })

/-- `clear_multicast_group(0)` -/
def clearMulticastGroup (c : Ctrl) : Ctrl :=
  let group := c.multicastGroup.getD []
  { c with multicastGroup := none, multicastNodes := c.multicastNodes.filter (· ∉ group.map (·.1)) }

/-! ## Requests -/

/-- `get_dev_port` of the forwarder. -/
def Receivers.getDevPort (r : Receivers) (mac : ℕ) : Option PortId :=
  (r.macAddresses.find? fun e => decide (e.1.toNat = mac)).map (·.2)

/-- The common part of `add_rdma_worker` and `add_udp_worker`. -/
def addWorker (receiver sender : SessionRequest → Ctrl → Reply × Ctrl) (req : SessionRequest) (c : Ctrl) : Reply × Ctrl :=
  if 32 ≤ req.rank then
    (.failure ("Worker ID " ++ toString req.rank ++ " too large; only 32 workers supported"), c)
  else if 32 < req.numWorkers then
    (.failure ("Worker count " ++ toString req.numWorkers ++ " too large; only 32 workers supported"), c)
  else
    match c.toReceivers.getDevPort req.mac with
    | none => (.failure "MAC address not found", c)
    | some devPort =>
      andThen (andThen (receiver req c) (sender req)) (addMulticastNode req.rank devPort)

/-- The sender's error message is not looked at. -/
def addRdmaWorker : SessionRequest → Ctrl → Reply × Ctrl :=
  addWorker rdmaReceiverAdd fun req c => ignoreResult (rdmaSenderAdd req c)

def addUdpWorker : SessionRequest → Ctrl → Reply × Ctrl := addWorker udpReceiverAdd udpSenderAdd

def clearRdmaWorkers (c : Ctrl) : Ctrl :=
  clearMulticastGroup
    { c with receiveRoce := [], createRocePacket := [], fillInQpnAndPsn := [], regs := fun _ => Regs.zero }

def clearUdpWorkers (c : Ctrl) : Ctrl :=
  clearMulticastGroup { c with receiveUdp := [], dstAddr := [], regs := fun _ => Regs.zero }

/-- Processing 1024B per packet requires a folded pipeline; otherwise 256B are
used. The response does not say so. -/
def usedPacketSize (foldedPipe : Bool) (packetSize : PacketSize) : PacketSize :=
  if foldedPipe = false ∧ packetSize = .MTU_1024 then .MTU_256 else packetSize

/-- `RdmaSession`. The first worker clears out old workers' state. -/
def rdmaSession (req : SessionRequest) (c : Ctrl) : Reply × Ctrl :=
  let req := { req with packetSize := usedPacketSize c.foldedPipe req.packetSize }
  addRdmaWorker req (if req.rank = 0 then clearRdmaWorkers c else c)

/-- `UdpSession` -/
def udpSession (req : SessionRequest) (c : Ctrl) : Reply × Ctrl :=
  addUdpWorker req (if req.rank = 0 then clearUdpWorkers c else c)

/-! ## What an accepted request did -/

variable {c : Ctrl} {req : SessionRequest}

theorem removeMoved_receivers (workerId : ℕ) (devPort : PortId) (c : Ctrl) :
    (removeMoved workerId devPort c).toReceivers = c.toReceivers := by
  unfold removeMoved
  simp only
  split <;> rfl

theorem addMulticastNode_receivers (workerId : ℕ) (devPort : PortId) (c : Ctrl) :
    (addMulticastNode workerId devPort c).2.toReceivers = c.toReceivers := by
  rw [← removeMoved_receivers workerId devPort c]
  unfold addMulticastNode
  simp only
  split
  · rfl
  · split <;> rfl

theorem ignoreResult_snd (r : Reply × Ctrl) : (ignoreResult r).2 = r.2 := by
  unfold ignoreResult
  split <;> rfl

theorem rdmaSenderAdd_receivers (req : SessionRequest) (c : Ctrl) :
    (rdmaSenderAdd req c).2.toReceivers = c.toReceivers := by
  unfold rdmaSenderAdd
  simp only
  split
  · rfl
  · split <;> rfl

/-- The steps of a request, of which some may not be reached. -/
theorem addWorker_keeps {receiver sender : SessionRequest → Ctrl → Reply × Ctrl} {P : Ctrl → Prop}
    (req : SessionRequest) {c : Ctrl} (h : P c) (hreceiver : P (receiver req c).2)
    (hsender : ∀ c, P c → P (sender req c).2) (hnode : ∀ c port, P c → P (addMulticastNode req.rank port c).2) :
    P (addWorker receiver sender req c).2 := by
  have handThen (r : Reply × Ctrl) (k : Ctrl → Reply × Ctrl) (hr : P r.2) (hk : ∀ c, P c → P (k c).2) :
      P (andThen r k).2 := by
    unfold andThen
    split
    · exact hk _ hr
    · exact hr
  unfold addWorker
  split
  · exact h
  · split
    · exact h
    · split
      · exact h
      · exact handThen _ _ (handThen _ _ hreceiver hsender) fun c => hnode c _

/-- What all parts of an accepted request have done. -/
theorem addWorker_steps {receiver sender : SessionRequest → Ctrl → Reply × Ctrl}
    (h : (addWorker receiver sender req c).1 = .success) :
    req.rank < 32 ∧ req.numWorkers ≤ 32 ∧ ∃ port, c.toReceivers.getDevPort req.mac = some port ∧ (receiver req c).1 = .success ∧
      (sender req (receiver req c).2).1 = .success ∧
      (addMulticastNode req.rank port (sender req (receiver req c).2).2).1 = .success ∧
      (addWorker receiver sender req c).2 =
        (addMulticastNode req.rank port (sender req (receiver req c).2).2).2 := by
  unfold addWorker at h ⊢
  split at h
  · cases h
  · split at h
    · cases h
    · cases hport : c.toReceivers.getDevPort req.mac with
      | none =>
        rw [hport] at h
        cases h
      | some port =>
        rename_i hrank hnum
        rw [hport] at h
        simp only [andThen_success] at h
        obtain ⟨⟨hreceiver, hsender⟩, hnode⟩ := h
        rw [andThen_snd hreceiver] at hnode
        refine ⟨by omega, by omega, port, rfl, hreceiver, hsender, hnode, ?_⟩
        rw [if_neg hrank, if_neg hnum]
        dsimp only
        rw [andThen_snd (andThen_success.mpr ⟨hreceiver, hsender⟩), andThen_snd hreceiver]

/-- What both kinds of requests go through to be accepted; only the receiver's
part changes the receivers. -/
theorem addWorker_success {receiver sender : SessionRequest → Ctrl → Reply × Ctrl}
    (hsender : ∀ c, (sender req c).2.toReceivers = c.toReceivers)
    (h : (addWorker receiver sender req c).1 = .success) :
    req.rank < 32 ∧ req.numWorkers ≤ 32 ∧ (∃ port, c.toReceivers.getDevPort req.mac = some port) ∧
      (receiver req c).1 = .success ∧
      (addWorker receiver sender req c).2.toReceivers = (receiver req c).2.toReceivers := by
  obtain ⟨hrank, hnum, port, hport, hrecv, -, -, heq⟩ := addWorker_steps h
  exact ⟨hrank, hnum, ⟨port, hport⟩, hrecv, by rw [heq, addMulticastNode_receivers, hsender]⟩

/-- What every accepted request has passed. -/
structure Accepted (r : Receivers) (req : SessionRequest) : Prop where
  rank : req.rank < 32
  numWorkers : req.numWorkers ≤ 32
  port : ∃ port, r.getDevPort req.mac = some port

inductive Protocol
  | udp
  | rdma
  deriving DecidableEq

def Protocol.request : Protocol → SessionRequest → Ctrl → Reply × Ctrl
  | .udp => udpSession
  | .rdma => rdmaSession

namespace Receivers

/-- The receivers once old workers' state is cleared out. -/
def clear : Protocol → Receivers → Receivers
  | .udp, r => { r with receiveUdp := [] }
  | .rdma, r => { r with receiveRoce := [] }

/-- The receivers with one worker more. -/
def install (mac : BitVec 48) (ip : BitVec 32) (req : SessionRequest) : Protocol → Receivers → Receivers
  | .udp, r => { r with receiveUdp := r.receiveUdp ++ [udpEntry mac ip req] }
  | .rdma, r =>
    { r with receiveRoce := r.receiveRoce ++
        roceActions.map (roceEntry ip { req with packetSize := usedPacketSize r.foldedPipe req.packetSize }) }

/-- What an accepted request does to the receivers. -/
def serve (protocol : Protocol) (mac : BitVec 48) (ip : BitVec 32) (r : Receivers) (req : SessionRequest) : Receivers :=
  (if req.rank = 0 then r.clear protocol else r).install mac ip req protocol

/-- No two entries for the same worker addresses. -/
def KeysDistinct (r : Receivers) : Prop := (r.receiveUdp.map udpKey).Nodup

theorem KeysDistinct.clear {r : Receivers} (h : r.KeysDistinct) (protocol : Protocol) :
    (r.clear protocol).KeysDistinct := by
  cases protocol with
  | udp => exact List.nodup_nil
  | rdma => exact h

end Receivers

theorem udpReceiverAdd_success (h : (udpReceiverAdd req c).1 = .success) :
    ∃ mac ip, c.switchMacAndIp = some (mac, ip) ∧
      (udpReceiverAdd req c).2 = { c with receiveUdp := c.receiveUdp ++ [udpEntry mac ip req] } ∧
      (c.KeysDistinct → (c.toReceivers.install mac ip req .udp).KeysDistinct) := by
  unfold udpReceiverAdd at h ⊢
  cases hsw : c.switchMacAndIp with
  | none =>
    rw [hsw] at h
    cases h
  | some sw =>
    obtain ⟨mac, ip⟩ := sw
    simp only [hsw] at h ⊢
    have hadd : (entryAdd udpKey c.receiveUdp [some (udpEntry mac ip req)]).1 = true := by
      by_contra hne
      rw [if_neg hne] at h
      cases h
    obtain ⟨new, hnew, hadded, hnodup⟩ := entryAdd_true hadd
    obtain rfl : new = [udpEntry mac ip req] := by
      simpa [eq_comm] using hnew
    exact ⟨mac, ip, rfl, by rw [hadded], hnodup⟩

theorem addUdpWorker_success (h : (addUdpWorker req c).1 = .success) :
    Accepted c.toReceivers req ∧ ∃ mac ip, c.switchMacAndIp = some (mac, ip) ∧
      (addUdpWorker req c).2.toReceivers = c.toReceivers.install mac ip req .udp ∧
      (c.KeysDistinct → (c.toReceivers.install mac ip req .udp).KeysDistinct) := by
  obtain ⟨hrank, hnum, hport, hrecv, heq⟩ := addWorker_success (fun _ => rfl) h
  obtain ⟨mac, ip, hsw, hadded, hnodup⟩ := udpReceiverAdd_success hrecv
  refine ⟨⟨hrank, hnum, hport⟩, mac, ip, hsw, ?_, hnodup⟩
  unfold addUdpWorker
  rw [heq, hadded]
  rfl

theorem rdmaReceiverAdd_success (h : (rdmaReceiverAdd req c).1 = .success) :
    ∃ mac ip, c.switchMacAndIp = some (mac, ip) ∧
      (rdmaReceiverAdd req c).2 = { c with receiveRoce := c.receiveRoce ++ roceActions.map (roceEntry ip req) } := by
  unfold rdmaReceiverAdd at h ⊢
  cases hsw : c.switchMacAndIp with
  | none =>
    rw [hsw] at h
    cases h
  | some sw =>
    obtain ⟨mac, ip⟩ := sw
    simp only [hsw] at h ⊢
    have hadd : (entryAdd roceKey c.receiveRoce (roceActions.map fun a => some (roceEntry ip req a))).1 = true := by
      by_contra hne
      rw [if_neg hne] at h
      cases h
    obtain ⟨new, hnew, hadded, -⟩ := entryAdd_true hadd
    obtain rfl : roceActions.map (roceEntry ip req) = new := by
      refine List.map_injective_iff.mpr (fun _ _ => Option.some.inj) ?_
      rw [← hnew, List.map_map]
      rfl
    exact ⟨mac, ip, rfl, by rw [hadded]⟩

theorem addRdmaWorker_success (h : (addRdmaWorker req c).1 = .success) :
    Accepted c.toReceivers req ∧ ∃ mac ip, c.switchMacAndIp = some (mac, ip) ∧
      (addRdmaWorker req c).2.toReceivers =
        { c.toReceivers with receiveRoce := c.receiveRoce ++ roceActions.map (roceEntry ip req) } := by
  have hsender : ∀ c, (ignoreResult (rdmaSenderAdd req c)).2.toReceivers = c.toReceivers := by
    intro c
    rw [ignoreResult_snd, rdmaSenderAdd_receivers]
  obtain ⟨hrank, hnum, hport, hrecv, heq⟩ := addWorker_success hsender h
  obtain ⟨mac, ip, hsw, hadded⟩ := rdmaReceiverAdd_success hrecv
  refine ⟨⟨hrank, hnum, hport⟩, mac, ip, hsw, ?_⟩
  unfold addRdmaWorker
  rw [heq, hadded]

/-- An accepted request passed the checks, and installed what `serve` says. -/
theorem request_success {protocol : Protocol} (h : (protocol.request req c).1 = .success) :
    Accepted c.toReceivers req ∧ ∃ mac ip, c.switchMacAndIp = some (mac, ip) ∧
      (protocol.request req c).2.toReceivers = c.toReceivers.serve protocol mac ip req ∧
      ((if req.rank = 0 then c.toReceivers.clear protocol else c.toReceivers).KeysDistinct →
        (c.toReceivers.serve protocol mac ip req).KeysDistinct) := by
  cases protocol with
  | udp =>
    have hclear : (if req.rank = 0 then clearUdpWorkers c else c).toReceivers =
        if req.rank = 0 then c.toReceivers.clear .udp else c.toReceivers := by
      split <;> rfl
    obtain ⟨hacc, mac, ip, hsw, heq, hkeys⟩ := addUdpWorker_success h
    rw [hclear] at hacc heq hkeys
    have hsw' : c.switchMacAndIp = some (mac, ip) := by
      rw [← hsw]
      split <;> rfl
    refine ⟨⟨hacc.rank, hacc.numWorkers, ?_⟩, mac, ip, hsw', heq, hkeys⟩
    obtain ⟨port, hport⟩ := hacc.port
    refine ⟨port, ?_⟩
    rw [← hport]
    split <;> rfl
  | rdma =>
    have hclear : (if req.rank = 0 then clearRdmaWorkers c else c).toReceivers =
        if req.rank = 0 then c.toReceivers.clear .rdma else c.toReceivers := by
      split <;> rfl
    obtain ⟨hacc, mac, ip, hsw, heq⟩ := addRdmaWorker_success h
    rw [hclear] at hacc
    have hsw' : c.switchMacAndIp = some (mac, ip) := by
      rw [← hsw]
      split <;> rfl
    have hserve : (Protocol.rdma.request req c).2.toReceivers = c.toReceivers.serve .rdma mac ip req := by
      refine Eq.trans heq ?_
      unfold Receivers.serve
      split <;> rfl
    refine ⟨⟨hacc.rank, hacc.numWorkers, ?_⟩, mac, ip, hsw', hserve, id⟩
    obtain ⟨port, hport⟩ := hacc.port
    refine ⟨port, ?_⟩
    rw [← hport]
    split <;> rfl

/-! ## Sessions -/

/-- The state after a request, if it is accepted. -/
def grant (protocol : Protocol) (c : Ctrl) (req : SessionRequest) : Option Ctrl :=
  match (protocol.request req c).1 with
  | .success => some (protocol.request req c).2
  | _ => none

/-- The state after several requests that are all accepted. -/
def grantAll (protocol : Protocol) : Ctrl → List SessionRequest → Option Ctrl
  | c, [] => some c
  | c, req :: reqs => (grant protocol c req).bind (grantAll protocol · reqs)

theorem grant_eq_some {protocol : Protocol} {c' : Ctrl} :
    grant protocol c req = some c' ↔ (protocol.request req c).1 = .success ∧ (protocol.request req c).2 = c' := by
  unfold grant
  cases (protocol.request req c).1 <;> simp

theorem serve_frame (protocol : Protocol) (mac : BitVec 48) (ip : BitVec 32) (r : Receivers) (req : SessionRequest) :
    (r.serve protocol mac ip req).foldedPipe = r.foldedPipe ∧
      (r.serve protocol mac ip req).switchMacAndIp = r.switchMacAndIp ∧
      (r.serve protocol mac ip req).macAddresses = r.macAddresses := by
  unfold Receivers.serve
  cases protocol <;> split <;> exact ⟨rfl, rfl, rfl⟩

theorem grantAll_receivers {protocol : Protocol} {mac : BitVec 48} {ip : BitVec 32} {reqs : List SessionRequest} :
    ∀ {c c' : Ctrl}, c.switchMacAndIp = some (mac, ip) → grantAll protocol c reqs = some c' →
      (∀ req ∈ reqs, Accepted c.toReceivers req) ∧
        c'.toReceivers = reqs.foldl (Receivers.serve protocol mac ip) c.toReceivers ∧
        (c.KeysDistinct → c'.KeysDistinct) := by
  induction reqs with
  | nil =>
    intro c c' _ h
    cases h
    exact ⟨fun _ hr => absurd hr List.not_mem_nil, rfl, id⟩
  | cons req reqs ih =>
    intro c c' hsw h
    obtain ⟨c1, hgrant, hrest⟩ := Option.bind_eq_some_iff.mp h
    obtain ⟨hok, rfl⟩ := grant_eq_some.mp hgrant
    obtain ⟨hacc, mac', ip', hsw', heq, hkeys⟩ := request_success hok
    rw [hsw, Option.some.injEq, Prod.mk.injEq] at hsw'
    obtain ⟨rfl, rfl⟩ := hsw'
    obtain ⟨-, hswitch, hmacs⟩ := serve_frame protocol mac ip c.toReceivers req
    obtain ⟨haccs, heqs, hdistinct⟩ := ih (by rw [heq, hswitch]; exact hsw) hrest
    refine ⟨fun r hr => ?_, ?_, fun hold => hdistinct ?_⟩
    · rcases List.mem_cons.mp hr with rfl | hr
      · exact hacc
      · have hr := haccs r hr
        refine ⟨hr.rank, hr.numWorkers, ?_⟩
        have hport := hr.port
        unfold Receivers.getDevPort at hport ⊢
        rwa [heq, hmacs] at hport
    · rw [heqs, heq]
      rfl
    · have hdist := hkeys (by
        split
        · exact hold.clear protocol
        · exact hold)
      rw [← heq] at hdist
      exact hdist

/-- Requests of the workers after the first one only add entries. -/
theorem foldl_serve_udp {mac : BitVec 48} {ip : BitVec 32} {reqs : List SessionRequest}
    (hrank : ∀ req ∈ reqs, req.rank ≠ 0) (r : Receivers) :
    reqs.foldl (Receivers.serve .udp mac ip) r =
      { r with receiveUdp := r.receiveUdp ++ reqs.map (udpEntry mac ip) } := by
  induction reqs generalizing r with
  | nil => simp
  | cons req reqs ih =>
    rw [List.foldl_cons, ih fun q hq => hrank q (List.mem_cons_of_mem _ hq)]
    unfold Receivers.serve
    rw [if_neg (hrank req List.mem_cons_self)]
    simp [Receivers.install]

/-- The entries of one RDMA worker. -/
def roceEntries (foldedPipe : Bool) (ip : BitVec 32) (req : SessionRequest) : List RoceEntry :=
  roceActions.map (roceEntry ip { req with packetSize := usedPacketSize foldedPipe req.packetSize })

theorem foldl_serve_rdma {mac : BitVec 48} {ip : BitVec 32} {reqs : List SessionRequest}
    (hrank : ∀ req ∈ reqs, req.rank ≠ 0) (r : Receivers) :
    reqs.foldl (Receivers.serve .rdma mac ip) r =
      { r with receiveRoce := r.receiveRoce ++ reqs.flatMap (roceEntries r.foldedPipe ip) } := by
  induction reqs generalizing r with
  | nil => simp
  | cons req reqs ih =>
    rw [List.foldl_cons, ih fun q hq => hrank q (List.mem_cons_of_mem _ hq)]
    unfold Receivers.serve
    rw [if_neg (hrank req List.mem_cons_self)]
    simp [Receivers.install, roceEntries]

/-- The receivers that serve the workers of a session, of which rank 0 asked
first: there is an entry for each, and none of sessions before. -/
theorem grantAll_session {protocol : Protocol} {mac : BitVec 48} {ip : BitVec 32} {first : SessionRequest}
    {rest : List SessionRequest} {c' : Ctrl} (hsw : c.switchMacAndIp = some (mac, ip)) (hfirst : first.rank = 0)
    (hrest : ∀ req ∈ rest, req.rank ≠ 0) (h : grantAll protocol c (first :: rest) = some c') :
    (∀ req ∈ first :: rest, Accepted c.toReceivers req) ∧
      (protocol = .udp → c'.receiveUdp = (first :: rest).map (udpEntry mac ip) ∧ c'.KeysDistinct) ∧
      (protocol = .rdma → c'.receiveRoce = (first :: rest).flatMap (roceEntries c.foldedPipe ip)) := by
  obtain ⟨hacc, heq, -⟩ := grantAll_receivers hsw h
  have hserve : c'.toReceivers = rest.foldl (Receivers.serve protocol mac ip)
      ((c.toReceivers.clear protocol).install mac ip first protocol) := by
    rw [heq, List.foldl_cons]
    unfold Receivers.serve
    rw [if_pos hfirst]
  refine ⟨hacc, ?_, ?_⟩
  · rintro rfl
    refine ⟨?_, ?_⟩
    · show c'.toReceivers.receiveUdp = _
      rw [hserve, foldl_serve_udp hrest]
      rfl
    · -- the first request starts from an empty table
      obtain ⟨c1, hgrant, htail⟩ := Option.bind_eq_some_iff.mp h
      obtain ⟨hok, rfl⟩ := grant_eq_some.mp hgrant
      obtain ⟨-, mac', ip', hsw', heq1, hkeys⟩ := request_success hok
      rw [if_pos hfirst] at hkeys
      have hdist := hkeys List.nodup_nil
      rw [← heq1] at hdist
      have hsw1 : (Protocol.udp.request first c).2.switchMacAndIp = some (mac', ip') := by
        rw [heq1, (serve_frame .udp mac' ip' c.toReceivers first).2.1, hsw']
      exact (grantAll_receivers hsw1 htail).2.2 hdist
  · rintro rfl
    show c'.toReceivers.receiveRoce = _
    rw [hserve, foldl_serve_rdma hrest]
    rfl

/-! ## Matching -/

theorem switchQpn_hits {rank rank' index : ℕ} (hr : rank < 32) (hr' : rank' < 32) (hi : index < 2 ^ 16) :
    (Tern.mk (qpnTopBits rank') 0xff0000#24).hits (switchQpn rank index) = true ↔ rank' = rank := by
  have hlow : BitVec.ofNat 24 index &&& 0xff0000#24 = 0#24 := by
    apply BitVec.eq_of_getLsbD_eq
    intro i hi24
    rw [BitVec.getLsbD_and, BitVec.getLsbD_ofNat, BitVec.getLsbD_zero]
    by_cases hlt : i < 16
    · have hmask : ∀ i < 16, (0xff0000#24).getLsbD i = false := by decide
      rw [hmask i hlt, Bool.and_false]
    · have hpow : index < 2 ^ i := lt_of_lt_of_le hi (Nat.pow_le_pow_right (by decide) (by omega))
      rw [Nat.testBit_lt_two_pow hpow, Bool.and_false, Bool.false_and]
  have htop : ∀ r r' : Fin 32, (0x800000#24 ||| (BitVec.ofNat 24 r <<< 16)) &&& 0xff0000#24 =
      qpnTopBits r' &&& 0xff0000#24 ↔ r' = r := by decide +kernel
  have hsplit : switchQpn rank index &&& 0xff0000#24 =
      (0x800000#24 ||| (BitVec.ofNat 24 rank <<< 16)) &&& 0xff0000#24 := by
    unfold switchQpn
    rw [BitVec.and_or_distrib_right]
    exact (congrArg _ hlow).trans BitVec.or_zero
  have hiff := htop ⟨rank, hr⟩ ⟨rank', hr'⟩
  rw [← hsplit, Fin.mk.injEq] at hiff
  exact beq_iff_eq.trans hiff

end SwitchML.Controller
