/-
What the RDMA receiver makes of a queue pair's packets when the network loses
them, repeats them or brings them in another order.

The slot of a packet is taken from a register that the first packet of a message
sets and that each packet accepted after it advances. So a packet in the middle
of a message gets its slot if what the register holds is in step with the stream:
it is told apart by a sequence number, and every packet of the stream has its
own. A register that is in step stays so, and one that has seen a first packet
is. What it holds before that is another matter: nothing sets it up.
-/
import SwitchML.Controller.Sessions
import SwitchML.P4.Parsers

namespace SwitchML.Controller

open P4 Tna

/-! ## Streams -/

/-- A message: the address of its first packet has the `rkey`. -/
structure RoceMessage where
  rKey : BitVec 32
  length : ℕ
  deriving DecidableEq

/-- A packet of a stream, with its place in its message and in the stream. -/
structure StreamPacket where
  message : RoceMessage
  offset : ℕ
  no : ℕ
  deriving DecidableEq

/-- The packets of messages sent one after the other, numbered from `k`. -/
def packetsFrom : ℕ → List RoceMessage → List StreamPacket
  | _, [] => []
  | k, m :: ms => (List.range m.length).map (fun i => ⟨m, i, k + i⟩) ++ packetsFrom (k + m.length) ms

/-- What a queue pair sends. A sequence number identifies a packet, and the slots
of a message fit a pool index. -/
structure RoceStream where
  psn : BitVec 24
  messages : List RoceMessage
  numPackets_lt : (packetsFrom 0 messages).length < 2 ^ 24
  rKey_lt : ∀ m ∈ messages, m.rKey.toNat + 2 * (m.length - 1) < 2 ^ 15

/-- Whether a packet with this opcode has an address. -/
def startsMessage : IbOpcode → Bool
  | .UC_RDMA_WRITE_FIRST | .UC_RDMA_WRITE_ONLY | .UC_RDMA_WRITE_ONLY_IMMEDIATE => true
  | _ => false

/-- The opcodes a packet is sent with. -/
def StreamPacket.opcodes (p : StreamPacket) : List IbOpcode :=
  if p.message.length = 1 then [.UC_RDMA_WRITE_ONLY, .UC_RDMA_WRITE_ONLY_IMMEDIATE]
  else if p.offset = 0 then [.UC_RDMA_WRITE_FIRST]
  else if p.offset + 1 = p.message.length then [.UC_RDMA_WRITE_LAST, .UC_RDMA_WRITE_LAST_IMMEDIATE]
  else [.UC_RDMA_WRITE_MIDDLE]

def RoceStream.packets (S : RoceStream) : List StreamPacket := packetsFrom 0 S.messages

def RoceStream.psnOf (S : RoceStream) (p : StreamPacket) : BitVec 24 := S.psn + BitVec.ofNat 24 p.no

variable {S : RoceStream} {p q : StreamPacket} {ms : List RoceMessage} {k : ℕ}

theorem packetsFrom_offset (h : p ∈ packetsFrom k ms) :
    p.message ∈ ms ∧ p.offset < p.message.length ∧ k + p.offset ≤ p.no ∧
      p.no < k + (packetsFrom k ms).length := by
  induction ms generalizing k with
  | nil => cases h
  | cons m ms ih =>
    rw [packetsFrom, List.length_append, List.length_map, List.length_range]
    rcases List.mem_append.mp h with hm | hm
    · obtain ⟨i, hi, rfl⟩ := List.mem_map.mp hm
      have hlt := List.mem_range.mp hi
      exact ⟨List.mem_cons_self, hlt, le_rfl, by show k + i < _; omega⟩
    · obtain ⟨hmem, hoff, hle, hlt⟩ := ih hm
      exact ⟨List.mem_cons_of_mem _ hmem, hoff, by omega, by omega⟩

/-- What follows a packet is the next one of its message, or the first one of another. -/
theorem packetsFrom_next (hp : p ∈ packetsFrom k ms) (hq : q ∈ packetsFrom k ms) (hno : q.no = p.no + 1)
    (hoff : q.offset ≠ 0) : q.message = p.message ∧ q.offset = p.offset + 1 := by
  induction ms generalizing k with
  | nil => cases hp
  | cons m ms ih =>
    rcases List.mem_append.mp hp with hpm | hpm <;> rcases List.mem_append.mp hq with hqm | hqm
    · obtain ⟨i, hi, rfl⟩ := List.mem_map.mp hpm
      obtain ⟨j, hj, rfl⟩ := List.mem_map.mp hqm
      have hij : k + j = k + i + 1 := hno
      exact ⟨rfl, by show j = i + 1; omega⟩
    · obtain ⟨i, hi, rfl⟩ := List.mem_map.mp hpm
      have hi := List.mem_range.mp hi
      have hle := (packetsFrom_offset hqm).2.2.1
      have hno : q.no = k + i + 1 := hno
      omega
    · obtain ⟨j, hj, rfl⟩ := List.mem_map.mp hqm
      have hj := List.mem_range.mp hj
      have hle := (packetsFrom_offset hpm).2.2.1
      have hno : k + j = p.no + 1 := hno
      omega
    · exact ih hpm hqm

/-- The sequence number after that of a packet is that of the packet after it. -/
theorem RoceStream.next (hp : p ∈ S.packets) (hq : q ∈ S.packets) (hpsn : S.psnOf q = S.psnOf p + 1)
    (hoff : q.offset ≠ 0) : q.message = p.message ∧ q.offset = p.offset + 1 := by
  refine packetsFrom_next hp hq ?_ hoff
  have hplt := (packetsFrom_offset hp).2.2.2
  have hqlt := (packetsFrom_offset hq).2.2.2
  have hnum := S.numPackets_lt
  have hnat := congrArg BitVec.toNat hpsn
  have hstart := S.psn.isLt
  have hone : (1 : BitVec 24).toNat = 1 := rfl
  simp only [psnOf, BitVec.toNat_add, BitVec.toNat_ofNat, hone] at hnat
  have hno : q.no % 2 ^ 24 = q.no := Nat.mod_eq_of_lt (by omega)
  have hno' : p.no % 2 ^ 24 = p.no := Nat.mod_eq_of_lt (by omega)
  rw [hno, hno'] at hnat
  omega

/-- The pool index of a packet: that of its message, advanced by 2 for each packet. -/
def StreamPacket.poolIndex (p : StreamPacket) : PoolIndex := BitVec.ofNat 15 (p.message.rKey.toNat + 2 * p.offset)

theorem RoceStream.poolIndex_toNat (hp : p ∈ S.packets) :
    p.poolIndex.toNat = p.message.rKey.toNat + 2 * p.offset := by
  obtain ⟨hm, hoff, -, -⟩ := packetsFrom_offset hp
  have hlt := S.rKey_lt _ hm
  rw [StreamPacket.poolIndex, BitVec.toNat_ofNat, Nat.mod_eq_of_lt]
  omega

theorem StreamPacket.starts_iff {op : IbOpcode} (hop : op ∈ p.opcodes) (hlt : p.offset < p.message.length) :
    startsMessage op = true ↔ p.offset = 0 := by
  unfold opcodes at hop
  split at hop
  · have hoff : p.offset = 0 := by omega
    simp only [List.mem_cons, List.not_mem_nil, or_false] at hop
    rcases hop with rfl | rfl <;> simp [startsMessage, hoff]
  · split at hop
    · rename_i hoff
      simp only [List.mem_cons, List.not_mem_nil, or_false] at hop
      simp [hop, startsMessage, hoff]
    · rename_i hoff
      split at hop <;> simp only [List.mem_cons, List.not_mem_nil, or_false] at hop
      · rcases hop with rfl | rfl <;> simp [startsMessage, hoff]
      · simp [hop, startsMessage, hoff]

/-! ## The register -/

variable {psn : BitVec 24} {v : ReceiverData}

/-- PSNs are 24 bits and wrap around. -/
theorem nextSequenceNumber_eq (psn : BitVec 24) :
    (if psn.setWidth 32 = 0x00ffffff#32 then 0#32 else psn.setWidth 32 + 1) = (psn + 1).setWidth 32 := by
  have hlt := psn.isLt
  have hone : (1 : BitVec 24).toNat = 1 := rfl
  have hone' : (1 : BitVec 32).toNat = 1 := rfl
  apply BitVec.eq_of_toNat_eq
  by_cases h : psn.setWidth 32 = 0x00ffffff#32
  · have hnat := congrArg BitVec.toNat h
    simp only [BitVec.toNat_setWidth, BitVec.toNat_ofNat] at hnat
    rw [if_pos h]
    simp only [BitVec.toNat_setWidth, BitVec.toNat_add, BitVec.toNat_ofNat, hone]
    omega
  · have hnat : psn.toNat ≠ 0xffffff := fun he => h (BitVec.eq_of_toNat_eq (by
      simp only [BitVec.toNat_setWidth, BitVec.toNat_ofNat]
      omega))
    rw [if_neg h]
    simp only [BitVec.toNat_setWidth, BitVec.toNat_add, hone, hone']
    omega

theorem resetAction_eq (psn : BitVec 24) (rKey : BitVec 32) (v : ReceiverData) :
    receiverResetAction psn rKey v = (⟨(psn + 1).setWidth 32, rKey⟩, rKey) := by
  rw [← nextSequenceNumber_eq]
  rfl

theorem incrementAction_next (h : psn.setWidth 32 = v.nextSequenceNumber) :
    receiverIncrementAction psn v =
      (⟨(psn + 1).setWidth 32, satAdd v.poolIndex 2⟩, satAdd v.poolIndex 2) := by
  rw [receiverIncrementAction, if_pos h, ← nextSequenceNumber_eq, h]
  rfl

theorem incrementAction_other (h : psn.setWidth 32 ≠ v.nextSequenceNumber) :
    receiverIncrementAction psn v = (⟨v.nextSequenceNumber, 0x80000000⟩, 0x80000000) := by
  rw [receiverIncrementAction, if_neg h]

/-- The error bit is set as soon as the index has no room below it. -/
theorem satAdd_msb (x : BitVec 32) : (satAdd x 2).msb = true ↔ 2 ^ 31 ≤ x.toNat + 2 := by
  have hlt := x.isLt
  have htwo : (2 : BitVec 32).toNat = 2 := rfl
  rw [BitVec.msb_eq_decide, decide_eq_true_eq]
  unfold satAdd
  split
  · rename_i h
    simp only [BitVec.toNat_add, htwo] at h ⊢
    omega
  · rename_i h
    simp only [BitVec.toNat_allOnes, htwo] at h ⊢
    omega

theorem satAdd_poolIndex {x : BitVec 32} (h : ¬2 ^ 31 ≤ x.toNat + 2) :
    (satAdd x 2).extractLsb' 0 15 = BitVec.ofNat 15 (x.toNat + 2) := by
  have htwo : (2 : BitVec 32).toNat = 2 := rfl
  apply BitVec.eq_of_toNat_eq
  rw [satAdd, if_pos (by omega), BitVec.extractLsb'_toNat, BitVec.toNat_add, BitVec.toNat_ofNat, htwo,
    Nat.shiftRight_zero]
  omega

/-! ## In step -/

/-- What is read from the register tells a packet to be dropped, or its pool index. -/
def ReadsRight (x : BitVec 32) (p : StreamPacket) : Prop := x.msb = true ∨ x.extractLsb' 0 15 = p.poolIndex

/-- If the register takes a packet for the next one, it is right about it. -/
def Expects (S : RoceStream) (v : ReceiverData) (p : StreamPacket) : Prop :=
  p.offset ≠ 0 → (S.psnOf p).setWidth 32 = v.nextSequenceNumber → ReadsRight (satAdd v.poolIndex 2) p

def InStep (S : RoceStream) (v : ReceiverData) : Prop := ∀ p ∈ S.packets, Expects S v p

theorem inStep_of_msb (h : v.poolIndex.msb = true) : InStep S v := by
  intro p _ _ _
  rw [BitVec.msb_eq_decide, decide_eq_true_eq] at h
  exact .inl ((satAdd_msb _).mpr (by omega))

/-- Once it has read a packet right, the register is in step. -/
theorem inStep_next {x : BitVec 32} (hp : p ∈ S.packets) (hx : ReadsRight x p) :
    InStep S ⟨(S.psnOf p + 1).setWidth 32, x⟩ := by
  rcases hx with hmsb | hx
  · exact inStep_of_msb hmsb
  intro q hq hoff hpsn
  have hpsn : S.psnOf q = S.psnOf p + 1 := by
    have hnat := congrArg BitVec.toNat hpsn
    have hlt := (S.psnOf q).isLt
    have hlt' := (S.psnOf p + 1).isLt
    simp only [BitVec.toNat_setWidth] at hnat
    exact BitVec.eq_of_toNat_eq (by omega)
  obtain ⟨hmsg, hnext⟩ := S.next hp hq hpsn hoff
  by_cases hroom : 2 ^ 31 ≤ x.toNat + 2
  · exact .inl ((satAdd_msb x).mpr hroom)
  · refine .inr ?_
    have hnat := congrArg BitVec.toNat hx
    rw [StreamPacket.poolIndex, BitVec.extractLsb'_toNat, BitVec.toNat_ofNat, Nat.shiftRight_zero] at hnat
    apply BitVec.eq_of_toNat_eq
    rw [satAdd_poolIndex hroom, StreamPacket.poolIndex, hmsg, hnext, BitVec.toNat_ofNat, BitVec.toNat_ofNat]
    omega

/-- A first packet brings its index with it. -/
theorem readsRight_first (hp : p.offset = 0) : ReadsRight p.message.rKey p := by
  refine .inr (BitVec.eq_of_toNat_eq ?_)
  rw [StreamPacket.poolIndex, BitVec.extractLsb'_toNat, BitVec.toNat_ofNat, Nat.shiftRight_zero, hp]
  omega

/-! ## One packet -/

/-- The cell of a packet's queue pair. -/
def queuePair (ig : Ig) : BitVec 14 := qpIndex (ig.hdr.ibBth.getD default).dstQp

/-- Whether a packet is a `_FIRST` or `_ONLY` one. -/
def starts (ig : Ig) : Bool := startsMessage (ig.hdr.ibBth.getD default).opcode

/-- The headers are those of a packet of the stream. -/
structure Carries (S : RoceStream) (p : StreamPacket) (ig : Ig) : Prop where
  psn : (ig.hdr.ibBth.getD default).psn = S.psnOf p
  opcode : (ig.hdr.ibBth.getD default).opcode ∈ p.opcodes
  rKey : p.offset = 0 → (ig.hdr.ibReth.getD default).rKey = p.message.rKey

/-- The entries the controller installs have the action of their opcode. -/
def ProperEntry (e : RoceEntry) : Prop := (e.opcode, e.action) ∈ roceActions

theorem properEntry_roceEntry (ip : BitVec 32) (req : SessionRequest) {a : IbOpcode × RoceAction}
    (ha : a ∈ roceActions) : ProperEntry (roceEntry ip req a) := ha

/-- Whatever becomes of a request, the entries of the table stay proper. -/
theorem proper_request (protocol : Protocol) (req : SessionRequest) {c : Ctrl}
    (hc : ∀ e ∈ c.receiveRoce, ProperEntry e) :
    ∀ e ∈ (protocol.request req c).2.receiveRoce, ProperEntry e := by
  have hnode (workerId : ℕ) (c : Ctrl) (port : PortId) (h : ∀ e ∈ c.receiveRoce, ProperEntry e) :
      ∀ e ∈ (addMulticastNode workerId port c).2.receiveRoce, ProperEntry e := by
    rw [congrArg Receivers.receiveRoce (addMulticastNode_receivers workerId port c)]
    exact h
  cases protocol with
  | udp =>
    have hclear : ∀ e ∈ (if req.rank = 0 then clearUdpWorkers c else c).receiveRoce, ProperEntry e := by
      split <;> exact hc
    refine addWorker_keeps (P := fun c => ∀ e ∈ c.receiveRoce, ProperEntry e) req hclear ?_ (fun _ h => h)
      fun c port h => hnode _ c port h
    unfold udpReceiverAdd
    split <;> exact hclear
  | rdma =>
    have hclear : ∀ e ∈ (if req.rank = 0 then clearRdmaWorkers c else c).receiveRoce, ProperEntry e := by
      split
      · intro e he
        cases he
      · exact hc
    refine addWorker_keeps (P := fun c => ∀ e ∈ c.receiveRoce, ProperEntry e) _ hclear ?_ (fun c h => ?_)
      fun c port h => hnode _ c port h
    · unfold rdmaReceiverAdd
      split
      · exact hclear
      · intro e he
        rcases mem_entryAdd he with he | he
        · exact hclear e he
        · obtain ⟨a, ha, heq⟩ := List.mem_map.mp he
          rw [← Option.some.inj heq]
          exact properEntry_roceEntry _ _ ha
    · rw [ignoreResult_snd, congrArg Receivers.receiveRoce (rdmaSenderAdd_receivers _ c)]
      exact h

variable {entries : List RoceEntry} {data : Register 14 ReceiverData} {ig : Ig} {qp : BitVec 14}

theorem exec_starts {a : RoceAction} (ha : a = .onlyPacket ∨ a = .onlyPacketWithImmediate ∨ a = .firstPacket)
    (e : RoceEntry) :
    (RDMAReceiver.exec a e data ig).1 = (data.execute (queuePair ig)
      (receiverResetAction (ig.hdr.ibBth.getD default).psn (ig.hdr.ibReth.getD default).rKey)).1 := by
  rcases ha with rfl | rfl | rfl <;> rfl

theorem exec_continues {a : RoceAction} (ha : a = .middlePacket ∨ a = .lastPacket ∨ a = .lastPacketWithImmediate)
    (e : RoceEntry) (data : Register 14 ReceiverData) (ig : Ig) :
    (RDMAReceiver.exec a e data ig).1 =
        (data.execute (queuePair ig) (receiverIncrementAction (ig.hdr.ibBth.getD default).psn)).1 ∧
      (RDMAReceiver.exec a e data ig).2.dropCtl =
        (receiverIncrementAction (ig.hdr.ibBth.getD default).psn (data (queuePair ig))).2.msb ∧
      (RDMAReceiver.exec a e data ig).2.md.poolIndex =
        (receiverIncrementAction (ig.hdr.ibBth.getD default).psn (data (queuePair ig))).2.extractLsb' 0 15 := by
  rcases ha with rfl | rfl | rfl <;> exact ⟨rfl, rfl, rfl⟩

/-- The entry that a packet hits. -/
theorem apply_eq (data : Register 14 ReceiverData) (hproper : ∀ e ∈ entries, ProperEntry e)
    (hhit : ∃ e ∈ entries, e.hits ig = true) :
    ∃ e : RoceEntry, ((ig.hdr.ibBth.getD default).opcode, e.action) ∈ roceActions ∧
      RDMAReceiver.apply entries data ig = RDMAReceiver.exec e.action e data ig := by
  obtain ⟨e, he⟩ := Option.isSome_iff_exists.mp (List.find?_isSome.mpr hhit)
  have hp := hproper e (List.mem_of_find?_eq_some he)
  have hop := List.find?_some he
  simp only [RoceEntry.hits, Bool.and_eq_true, decide_eq_true_eq] at hop
  refine ⟨e, ?_, ?_⟩
  · rw [hop.1.2]
    exact hp
  · rw [RDMAReceiver.apply, he]

theorem apply_starts (hproper : ∀ e ∈ entries, ProperEntry e) (hhit : ∃ e ∈ entries, e.hits ig = true)
    (hstarts : starts ig = true) :
    (RDMAReceiver.apply entries data ig).1 (queuePair ig) =
      ⟨((ig.hdr.ibBth.getD default).psn + 1).setWidth 32, (ig.hdr.ibReth.getD default).rKey⟩ := by
  obtain ⟨e, hop, heq⟩ := apply_eq data hproper hhit
  have hact : ∀ x ∈ roceActions, startsMessage x.1 = true →
      x.2 = .onlyPacket ∨ x.2 = .onlyPacketWithImmediate ∨ x.2 = .firstPacket := by decide
  rw [heq, exec_starts (hact _ hop hstarts), Register.execute_self, resetAction_eq]

theorem apply_continues (data : Register 14 ReceiverData) (hproper : ∀ e ∈ entries, ProperEntry e)
    (hhit : ∃ e ∈ entries, e.hits ig = true) (hstarts : starts ig = false) :
    let read := receiverIncrementAction (ig.hdr.ibBth.getD default).psn (data (queuePair ig))
    (RDMAReceiver.apply entries data ig).1 (queuePair ig) = read.1 ∧
      (RDMAReceiver.apply entries data ig).2.dropCtl = read.2.msb ∧
      (RDMAReceiver.apply entries data ig).2.md.poolIndex = read.2.extractLsb' 0 15 := by
  obtain ⟨e, hop, heq⟩ := apply_eq data hproper hhit
  have hact : ∀ x ∈ roceActions, startsMessage x.1 = false →
      x.2 = .middlePacket ∨ x.2 = .lastPacket ∨ x.2 = .lastPacketWithImmediate := by decide
  obtain ⟨h1, h2, h3⟩ := exec_continues (hact _ hop hstarts) e data ig
  rw [heq]
  exact ⟨by rw [h1, Register.execute_self], h2, h3⟩

/-- The other cells stay as they are, also when no entry is hit. -/
theorem apply_other (entries : List RoceEntry) (data : Register 14 ReceiverData) (hqp : queuePair ig ≠ qp) :
    (RDMAReceiver.apply entries data ig).1 qp = data qp := by
  unfold RDMAReceiver.apply
  split
  · rename_i e _
    cases e.action <;> exact Register.execute_other _ _ (Ne.symm hqp)
  · rfl

/-- One packet of the stream leaves the register in step, if it was right about that packet. -/
theorem apply_inStep (hproper : ∀ e ∈ entries, ProperEntry e) (hhit : ∃ e ∈ entries, e.hits ig = true)
    (hp : p ∈ S.packets) (hc : Carries S p ig) (hexp : Expects S (data (queuePair ig)) p) :
    InStep S ((RDMAReceiver.apply entries data ig).1 (queuePair ig)) ∧
      (p.offset ≠ 0 → (RDMAReceiver.apply entries data ig).2.dropCtl = false →
        (RDMAReceiver.apply entries data ig).2.md.poolIndex = p.poolIndex) := by
  have hstarts := p.starts_iff hc.opcode (packetsFrom_offset hp).2.1
  by_cases hoff : p.offset = 0
  · rw [apply_starts hproper hhit (hstarts.mpr hoff), hc.psn, hc.rKey hoff]
    exact ⟨inStep_next hp (readsRight_first hoff), fun h => absurd hoff h⟩
  · have hcont : starts ig = false := Bool.eq_false_iff.mpr fun h => hoff (hstarts.mp h)
    obtain ⟨hcell, hdrop, hidx⟩ := apply_continues data hproper hhit hcont
    rw [hcell, hdrop, hidx, hc.psn]
    by_cases hnext : (S.psnOf p).setWidth 32 = (data (queuePair ig)).nextSequenceNumber
    · rw [incrementAction_next hnext]
      have hright := hexp hoff hnext
      refine ⟨inStep_next hp hright, fun _ hmsb => hright.resolve_left fun h => ?_⟩
      rw [h] at hmsb
      cases hmsb
    · rw [incrementAction_other hnext]
      have herror : (0x80000000 : BitVec 32).msb = true := by decide
      refine ⟨inStep_of_msb herror, fun _ hmsb => ?_⟩
      rw [herror] at hmsb
      cases hmsb

/-! ## A sequence of packets -/

/-- The packets that come to the receiver, and what it makes of them. -/
def receiveAll (entries : List RoceEntry) : Register 14 ReceiverData → List Ig → List (Ig × Ig)
  | _, [] => []
  | data, ig :: igs =>
    let r := RDMAReceiver.apply entries data ig
    (ig, r.2) :: receiveAll entries r.1 igs

/-- What comes on a queue pair, among other packets, is from a stream: any packets
of it, any number of times and in any order. -/
structure Delivers (S : RoceStream) (qp : BitVec 14) (entries : List RoceEntry) (igs : List Ig) : Prop where
  proper : ∀ e ∈ entries, ProperEntry e
  hit : ∀ ig ∈ igs, queuePair ig = qp → ∃ e ∈ entries, e.hits ig = true
  carries : ∀ ig ∈ igs, queuePair ig = qp → ∃ p ∈ S.packets, Carries S p ig

/-- A packet after the first one of its message is dropped, or it gets its pool index. -/
def SlotsRight (S : RoceStream) (qp : BitVec 14) (l : List (Ig × Ig)) : Prop :=
  ∀ x ∈ l, queuePair x.1 = qp → ∀ p ∈ S.packets, Carries S p x.1 → p.offset ≠ 0 → x.2.dropCtl = false →
    x.2.md.poolIndex.toNat = p.message.rKey.toNat + 2 * p.offset

/-- A packet that neither starts a message nor is accepted. -/
def Rejected (qp : BitVec 14) (x : Ig × Ig) : Prop :=
  queuePair x.1 = qp ∧ starts x.1 = false ∧ x.2.dropCtl = true

/-- After a packet is rejected, so are all others until a message starts. -/
def RejectsOn (qp : BitVec 14) (l : List (Ig × Ig)) : Prop :=
  ∀ l₁ x l₂ y l₃, l = l₁ ++ x :: (l₂ ++ y :: l₃) → Rejected qp x →
    (∀ z ∈ l₂, queuePair z.1 = qp → starts z.1 = false) → queuePair y.1 = qp → starts y.1 = false → Rejected qp y

variable {igs : List Ig}

theorem Delivers.tail (h : Delivers S qp entries (ig :: igs)) : Delivers S qp entries igs where
  proper := h.proper
  hit ig hig := h.hit ig (List.mem_cons_of_mem _ hig)
  carries ig hig := h.carries ig (List.mem_cons_of_mem _ hig)

theorem slotsRight_of_inStep (h : Delivers S qp entries igs) (hstep : InStep S (data qp)) :
    SlotsRight S qp (receiveAll entries data igs) := by
  induction igs generalizing data with
  | nil =>
    intro x hx
    cases hx
  | cons ig igs ih =>
    intro x hx hqp p hp hc hoff hdrop
    rcases List.mem_cons.mp hx with rfl | hx
    · have hhit := h.hit ig List.mem_cons_self hqp
      have hexp := hstep p hp
      rw [← show queuePair ig = qp from hqp] at hexp
      have hright := (apply_inStep h.proper hhit hp hc hexp).2 hoff hdrop
      rw [← S.poolIndex_toNat hp, ← hright]
    · refine ih h.tail ?_ x hx hqp p hp hc hoff hdrop
      by_cases hig : queuePair ig = qp
      · obtain ⟨p', hp', hc'⟩ := h.carries ig List.mem_cons_self hig
        subst hig
        exact (apply_inStep h.proper (h.hit ig List.mem_cons_self rfl) hp' hc' (hstep p' hp')).1
      · rw [apply_other entries data hig]
        exact hstep

theorem incrementAction_msb (hmsb : v.poolIndex.msb = true) :
    (receiverIncrementAction psn v).1.poolIndex.msb = true ∧ (receiverIncrementAction psn v).2.msb = true := by
  have herror : (0x80000000 : BitVec 32).msb = true := by decide
  by_cases hnext : psn.setWidth 32 = v.nextSequenceNumber
  · rw [incrementAction_next hnext]
    rw [BitVec.msb_eq_decide, decide_eq_true_eq] at hmsb
    have hadd := (satAdd_msb v.poolIndex).mpr (by omega)
    exact ⟨hadd, hadd⟩
  · rw [incrementAction_other hnext]
    exact ⟨herror, herror⟩

theorem incrementAction_read (psn : BitVec 24) (v : ReceiverData) :
    (receiverIncrementAction psn v).1.poolIndex = (receiverIncrementAction psn v).2 := by
  unfold receiverIncrementAction
  split <;> rfl

/-- The error bit stays set until a message starts. -/
theorem rejected_of_msb (h : Delivers S qp entries igs) (hmsb : (data qp).poolIndex.msb = true)
    {l₂ l₃ : List (Ig × Ig)} {y : Ig × Ig} (hl : receiveAll entries data igs = l₂ ++ y :: l₃)
    (hcont : ∀ z ∈ l₂, queuePair z.1 = qp → starts z.1 = false) (hy : queuePair y.1 = qp)
    (hys : starts y.1 = false) : Rejected qp y := by
  induction igs generalizing data l₂ with
  | nil => exact absurd hl (by simp [receiveAll])
  | cons ig igs ih =>
    have hcell (hig : queuePair ig = qp) (hs : starts ig = false) :
        ((RDMAReceiver.apply entries data ig).1 qp).poolIndex.msb = true ∧
          (RDMAReceiver.apply entries data ig).2.dropCtl = true := by
      subst hig
      obtain ⟨h1, h2, -⟩ := apply_continues data h.proper (h.hit ig List.mem_cons_self rfl) hs
      rw [h1, h2]
      exact incrementAction_msb hmsb
    cases l₂ with
    | nil =>
      rw [receiveAll, List.nil_append, List.cons.injEq] at hl
      obtain ⟨rfl, -⟩ := hl
      exact ⟨hy, hys, (hcell hy hys).2⟩
    | cons z l₂ =>
      rw [receiveAll, List.cons_append, List.cons.injEq] at hl
      obtain ⟨rfl, hl⟩ := hl
      refine ih h.tail ?_ hl fun z hz => hcont z (List.mem_cons_of_mem _ hz)
      by_cases hig : queuePair ig = qp
      · exact (hcell hig (hcont _ List.mem_cons_self hig)).1
      · rw [apply_other entries data hig]
        exact hmsb

theorem rejectsOn (h : Delivers S qp entries igs) : RejectsOn qp (receiveAll entries data igs) := by
  intro l₁ x l₂ y l₃ hl hx hcont hy hys
  induction igs generalizing data l₁ with
  | nil => exact absurd hl (by simp [receiveAll])
  | cons ig igs ih =>
    cases l₁ with
    | nil =>
      rw [receiveAll, List.nil_append, List.cons.injEq] at hl
      obtain ⟨rfl, hl⟩ := hl
      refine rejected_of_msb h.tail ?_ hl hcont hy hys
      obtain ⟨hqp, hs, hdrop⟩ := hx
      dsimp only at hqp hs hdrop
      subst hqp
      obtain ⟨h1, h2, -⟩ := apply_continues data h.proper (h.hit ig List.mem_cons_self rfl) hs
      rw [h1, incrementAction_read, ← h2, hdrop]
    | cons z l₁ =>
      rw [receiveAll, List.cons_append, List.cons.injEq] at hl
      exact ih h.tail l₁ hl.2

/-- What the register holds at first is not taken for the state of the stream: the
first packet of the queue pair starts a message, or is not the one the register
waits for, or there is the error bit, or just the right index. -/
def StartsInStep (S : RoceStream) (qp : BitVec 14) (v : ReceiverData) (igs : List Ig) : Prop :=
  ∀ ig, igs.find? (queuePair · = qp) = some ig → ∀ p ∈ S.packets, Carries S p ig → p.offset ≠ 0 →
    (S.psnOf p).setWidth 32 = v.nextSequenceNumber →
    2 ^ 31 ≤ v.poolIndex.toNat + 2 ∨ (v.poolIndex.toNat + 2) % 2 ^ 15 = p.message.rKey.toNat + 2 * p.offset

theorem readsRight_iff (hp : p ∈ S.packets) {x : BitVec 32} :
    ReadsRight (satAdd x 2) p ↔
      2 ^ 31 ≤ x.toNat + 2 ∨ (x.toNat + 2) % 2 ^ 15 = p.message.rKey.toNat + 2 * p.offset := by
  rw [ReadsRight, satAdd_msb]
  by_cases hroom : 2 ^ 31 ≤ x.toNat + 2
  · exact iff_of_true (.inl hroom) (.inl hroom)
  · rw [or_iff_right hroom, or_iff_right hroom, satAdd_poolIndex hroom, ← S.poolIndex_toNat hp, ← BitVec.toNat_inj,
      BitVec.toNat_ofNat]

theorem slotsRight_of_startsInStep (h : Delivers S qp entries igs) (hstart : StartsInStep S qp (data qp) igs) :
    SlotsRight S qp (receiveAll entries data igs) := by
  induction igs generalizing data with
  | nil =>
    intro x hx
    cases hx
  | cons ig igs ih =>
    by_cases hig : queuePair ig = qp
    · have hfind : (ig :: igs).find? (queuePair · = qp) = some ig := by simp [hig]
      have hhit := h.hit ig List.mem_cons_self hig
      have hexp : ∀ p ∈ S.packets, Carries S p ig → Expects S (data qp) p := fun p hp hc hoff hnext =>
        (readsRight_iff hp).mpr (hstart ig hfind p hp hc hoff hnext)
      subst hig
      obtain ⟨p', hp', hc'⟩ := h.carries ig List.mem_cons_self rfl
      have hrest := slotsRight_of_inStep h.tail (apply_inStep h.proper hhit hp' hc' (hexp p' hp' hc')).1
      intro x hx hqp p hp hc hoff hdrop
      rcases List.mem_cons.mp hx with rfl | hx
      · rw [← S.poolIndex_toNat hp, ← (apply_inStep h.proper hhit hp hc (hexp p hp hc)).2 hoff hdrop]
      · exact hrest x hx hqp p hp hc hoff hdrop
    · have hcell := apply_other entries data hig
      have hrest : SlotsRight S qp (receiveAll entries (RDMAReceiver.apply entries data ig).1 igs) := by
        refine ih h.tail ?_
        rw [hcell]
        intro ig' hfind
        exact hstart ig' (by simp [hig, hfind])
      intro x hx hqp
      rcases List.mem_cons.mp hx with rfl | hx
      · exact absurd hqp hig
      · exact hrest x hx hqp

theorem startsInStep_of_slotsRight (h : Delivers S qp entries igs)
    (hright : SlotsRight S qp (receiveAll entries data igs)) : StartsInStep S qp (data qp) igs := by
  induction igs generalizing data with
  | nil =>
    intro ig hfind
    cases hfind
  | cons ig igs ih =>
    by_cases hig : queuePair ig = qp
    · subst hig
      intro ig' hfind p hp hc hoff hnext
      obtain rfl : ig = ig' := by simpa using hfind
      have hhit := h.hit ig List.mem_cons_self rfl
      have hcont : starts ig = false :=
        Bool.eq_false_iff.mpr fun hs => hoff ((p.starts_iff hc.opcode (packetsFrom_offset hp).2.1).mp hs)
      obtain ⟨-, hdrop, hidx⟩ := apply_continues data h.proper hhit hcont
      have hx := hright _ List.mem_cons_self rfl p hp hc hoff
      rw [hdrop, hidx, hc.psn, incrementAction_next hnext] at hx
      refine (readsRight_iff hp).mp ?_
      by_cases hmsb : (satAdd (data (queuePair ig)).poolIndex 2).msb = true
      · exact .inl hmsb
      · refine .inr (BitVec.eq_of_toNat_eq ?_)
        rw [S.poolIndex_toNat hp]
        exact hx (Bool.eq_false_iff.mpr hmsb)
    · have hrest := ih h.tail fun x hx => hright x (List.mem_cons_of_mem _ hx)
      rw [apply_other entries data hig] at hrest
      intro ig' hfind
      exact hrest ig' (by simpa [hig] using hfind)

/-- Every packet after the first one of its message gets its slot or is dropped,
and a rejection lasts until a message starts, if and only if what the register
holds at first is not taken for the state of the stream. -/
theorem slots_right_iff (h : Delivers S qp entries igs) (data : Register 14 ReceiverData) :
    SlotsRight S qp (receiveAll entries data igs) ∧ RejectsOn qp (receiveAll entries data igs) ↔
      StartsInStep S qp (data qp) igs := by
  constructor
  · intro ⟨hright, _⟩
    exact startsInStep_of_slotsRight h hright
  · intro hstart
    exact ⟨slotsRight_of_startsInStep h hstart, rejectsOn h⟩

/-! ## A stream that wraps around -/

/-- One message of three packets; the second one has sequence number 0. -/
def exampleStream : RoceStream where
  psn := 0xffffff
  messages := [⟨4, 3⟩]
  numPackets_lt := by decide
  rKey_lt := by decide

def exampleRequest : SessionRequest where
  rank := 0
  numWorkers := 1
  mac := 0
  ipv4 := 1
  packetSize := .MTU_256
  rkey := 0
  messageSize := 768
  qpns := [7]
  psns := [0]

def exampleEntries : List RoceEntry := roceActions.map (roceEntry 2 exampleRequest)

def examplePort : PortMetadata := ⟨0, 0⟩

/-- The packet of the stream at an offset, on queue pair 0. -/
def examplePacket (x : ℕ × IbOpcode) : Ig :=
  { Ig.ofWire examplePort 0 ⟨default, 0, []⟩ with
    hdr := {
      ipv4 := some ⟨1, 2⟩
      ibBth := some ⟨x.2, 0xffff, switchQpn 0 0, 0xffffff + BitVec.ofNat 24 x.1⟩
      ibReth := some ⟨0, 4, 0⟩ } }

theorem exampleDelivers (l : List (ℕ × IbOpcode))
    (h : ∀ x ∈ l, x ∈ [(0, .UC_RDMA_WRITE_FIRST), (1, .UC_RDMA_WRITE_MIDDLE), (2, IbOpcode.UC_RDMA_WRITE_LAST)]) :
    Delivers exampleStream 0 exampleEntries (l.map examplePacket) where
  proper := by
    intro e he
    obtain ⟨a, ha, rfl⟩ := List.mem_map.mp he
    exact ha
  hit := by
    intro ig hig _
    obtain ⟨x, hx, rfl⟩ := List.mem_map.mp hig
    have hx := h x hx
    simp only [List.mem_cons, List.not_mem_nil, or_false] at hx
    rcases hx with rfl | rfl | rfl
    · exact ⟨roceEntry 2 exampleRequest (.UC_RDMA_WRITE_FIRST, .firstPacket), by simp [exampleEntries, roceActions],
        by decide⟩
    · exact ⟨roceEntry 2 exampleRequest (.UC_RDMA_WRITE_MIDDLE, .middlePacket), by simp [exampleEntries, roceActions],
        by decide⟩
    · exact ⟨roceEntry 2 exampleRequest (.UC_RDMA_WRITE_LAST, .lastPacket), by simp [exampleEntries, roceActions],
        by decide⟩
  carries := by
    intro ig hig _
    obtain ⟨x, hx, rfl⟩ := List.mem_map.mp hig
    have hx := h x hx
    simp only [List.mem_cons, List.not_mem_nil, or_false] at hx
    rcases hx with rfl | rfl | rfl
    · exact ⟨⟨⟨4, 3⟩, 0, 0⟩, by decide, rfl, by decide, fun _ => rfl⟩
    · exact ⟨⟨⟨4, 3⟩, 1, 1⟩, by decide, rfl, by decide, fun _ => rfl⟩
    · exact ⟨⟨⟨4, 3⟩, 2, 2⟩, by decide, rfl, by decide, fun _ => rfl⟩

/-- The register is all zero, the first packet is lost, and the next one is taken
for what the register waits for. -/
theorem slots_wrong : ∃ igs, Delivers exampleStream 0 exampleEntries igs ∧
    ¬SlotsRight exampleStream 0 (receiveAll exampleEntries (fun _ => ⟨0, 0⟩) igs) := by
  refine ⟨[(1, .UC_RDMA_WRITE_MIDDLE)].map examplePacket, exampleDelivers _ (by decide), fun hright => ?_⟩
  have hwrong := hright _ List.mem_cons_self (by decide) ⟨⟨4, 3⟩, 1, 1⟩ (by decide) ⟨rfl, by decide, fun _ => rfl⟩
    (by decide) (by decide)
  exact absurd hwrong (by decide)

/-- A packet is lost, then the message comes a second time. -/
theorem slots_right_again :
    let packets := [(0, .UC_RDMA_WRITE_FIRST), (2, .UC_RDMA_WRITE_LAST), (1, .UC_RDMA_WRITE_MIDDLE),
      (0, .UC_RDMA_WRITE_FIRST), (1, .UC_RDMA_WRITE_MIDDLE), (2, IbOpcode.UC_RDMA_WRITE_LAST)].map examplePacket
    SlotsRight exampleStream 0 (receiveAll exampleEntries (fun _ => ⟨0, 0⟩) packets) ∧
      RejectsOn 0 (receiveAll exampleEntries (fun _ => ⟨0, 0⟩) packets) := by
  refine (slots_right_iff (exampleDelivers _ (by decide)) _).mpr fun ig hfind p hp hc hoff _ => absurd ?_ hoff
  rw [List.map_cons, List.find?_cons_of_pos (by decide), Option.some.injEq] at hfind
  subst hfind
  exact (p.starts_iff hc.opcode (packetsFrom_offset hp).2.1).mp rfl

end SwitchML.Controller
