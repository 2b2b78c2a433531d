/-
The headers of `headers.p4` with all their fields, and how they are laid out in
a packet. The controls work on a part of the fields only, that of `Headers`;
`HeaderT.view` shows this part of a header stack.

Fields of an enumeration keep their bits. A value that has no name in it is
shown as `other`, or as the first size.
-/
import SwitchML.P4.Headers
import SwitchML.Lib.Formats
import SwitchML.Lib.Views

namespace SwitchML.P4

open Formats Formats.Format Views

/-! ## Enumerations -/

/-- The code of an operation; `other` has that of no UC RDMA WRITE. -/
def IbOpcode.toBits : IbOpcode → BitVec 8
  | .UC_RDMA_WRITE_FIRST => 0b00100110
  | .UC_RDMA_WRITE_MIDDLE => 0b00100111
  | .UC_RDMA_WRITE_LAST => 0b00101000
  | .UC_RDMA_WRITE_LAST_IMMEDIATE => 0b00101001
  | .UC_RDMA_WRITE_ONLY => 0b00101010
  | .UC_RDMA_WRITE_ONLY_IMMEDIATE => 0b00101011
  | .other => 0

def IbOpcode.ofBits (bits : BitVec 8) : IbOpcode :=
  if bits = 0b00100110 then .UC_RDMA_WRITE_FIRST
  else if bits = 0b00100111 then .UC_RDMA_WRITE_MIDDLE
  else if bits = 0b00101000 then .UC_RDMA_WRITE_LAST
  else if bits = 0b00101001 then .UC_RDMA_WRITE_LAST_IMMEDIATE
  else if bits = 0b00101010 then .UC_RDMA_WRITE_ONLY
  else if bits = 0b00101011 then .UC_RDMA_WRITE_ONLY_IMMEDIATE
  else .other

@[simp] theorem IbOpcode.ofBits_toBits (opcode : IbOpcode) : ofBits opcode.toBits = opcode := by
  cases opcode <;> rfl

def PacketSize.toBits : PacketSize → BitVec 3
  | .MTU_128 => 0
  | .MTU_256 => 1
  | .MTU_512 => 2
  | .MTU_1024 => 3

def PacketSize.ofBits (bits : BitVec 3) : PacketSize :=
  if bits = 1 then .MTU_256 else if bits = 2 then .MTU_512 else if bits = 3 then .MTU_1024 else .MTU_128

@[simp] theorem PacketSize.ofBits_toBits (size : PacketSize) : ofBits size.toBits = size := by
  cases size <;> rfl

/-- In the order of the constructors. -/
def PacketType.all : List PacketType :=
  [.MIRROR, .BROADCAST, .RETRANSMIT, .IGNORE, .CONSUME0, .CONSUME1, .CONSUME2, .CONSUME3, .HARVEST0, .HARVEST1, .HARVEST2,
    .HARVEST3, .HARVEST4, .HARVEST5, .HARVEST6, .HARVEST7]

def PacketType.toBits (t : PacketType) : BitVec 4 := BitVec.ofNat 4 (PacketType.all.idxOf t)

def PacketType.ofBits (bits : BitVec 4) : PacketType := PacketType.all.getD bits.toNat .MIRROR

@[simp] theorem PacketType.ofBits_toBits (t : PacketType) : ofBits t.toBits = t := by
  cases t <;> decide

def WorkerType.toBits : WorkerType → BitVec 2
  | .FORWARD_ONLY => 0
  | .SWITCHML_UDP => 1
  | .ROCEv2 => 2

def WorkerType.ofBits (bits : BitVec 2) : WorkerType :=
  if bits = 1 then .SWITCHML_UDP else if bits = 2 then .ROCEv2 else .FORWARD_ONLY

@[simp] theorem WorkerType.ofBits_toBits (t : WorkerType) : ofBits t.toBits = t := by
  cases t <;> rfl

namespace Full

/-! ## Headers -/

structure EthernetH where
  dstAddr : BitVec 48
  srcAddr : BitVec 48
  etherType : BitVec 16
  deriving DecidableEq, Inhabited

structure ArpH where
  hwType : BitVec 16
  protoType : BitVec 16
  hwAddrLen : BitVec 8
  protoAddrLen : BitVec 8
  opcode : BitVec 16
  deriving DecidableEq, Inhabited

structure Ipv4H where
  version : BitVec 4
  ihl : BitVec 4
  diffserv : BitVec 8
  totalLen : BitVec 16
  identification : BitVec 16
  flags : BitVec 3
  fragOffset : BitVec 13
  ttl : BitVec 8
  protocol : BitVec 8
  hdrChecksum : BitVec 16
  srcAddr : BitVec 32
  dstAddr : BitVec 32
  deriving DecidableEq, Inhabited

structure IcmpH where
  msgType : BitVec 8
  msgCode : BitVec 8
  checksum : BitVec 16
  deriving DecidableEq, Inhabited

structure UdpH where
  srcPort : BitVec 16
  dstPort : BitVec 16
  length : BitVec 16
  checksum : BitVec 16
  deriving DecidableEq, Inhabited

structure SwitchmlH where
  msgType : BitVec 4
  unused : BitVec 1
  size : BitVec 3
  jobNumber : BitVec 8
  tsi : BitVec 32
  poolIndex : BitVec 16
  deriving DecidableEq, Inhabited

structure IbBthH where
  opcode : BitVec 8
  se : BitVec 1
  migrationReq : BitVec 1
  padCount : BitVec 2
  transportVersion : BitVec 4
  partitionKey : BitVec 16
  fRes1 : BitVec 1
  bRes1 : BitVec 1
  reserved : BitVec 6
  dstQp : BitVec 24
  ackReq : BitVec 1
  reserved2 : BitVec 7
  psn : BitVec 24
  deriving DecidableEq, Inhabited

/-- `header_t`. The program never makes the ICRC valid. The headers all of whose
fields the controls use are those of `Headers`. -/
structure HeaderT where
  ethernet : Option EthernetH := none
  arp : Option ArpH := none
  arpIpv4 : Option ArpIpv4H := none
  ipv4 : Option Ipv4H := none
  icmp : Option IcmpH := none
  udp : Option UdpH := none
  switchml : Option SwitchmlH := none
  exponents : Option ExponentsH := none
  ibBth : Option IbBthH := none
  ibReth : Option IbRethH := none
  ibImmediate : Option IbImmediateH := none
  d0 : Option DataH := none
  d1 : Option DataH := none

/-! ## Formats -/

def ethernet : Format EthernetH :=
  ((bit 48).pair ((bit 48).pair (bit 16))).equiv
    { toFun := fun x => ⟨x.1, x.2.1, x.2.2⟩
      invFun := fun h => (h.dstAddr, h.srcAddr, h.etherType)
      left_inv := fun _ => rfl
      right_inv := fun _ => rfl }

def arp : Format ArpH :=
  ((bit 16).pair ((bit 16).pair ((bit 8).pair ((bit 8).pair (bit 16))))).equiv
    { toFun := fun x => ⟨x.1, x.2.1, x.2.2.1, x.2.2.2.1, x.2.2.2.2⟩
      invFun := fun h => (h.hwType, h.protoType, h.hwAddrLen, h.protoAddrLen, h.opcode)
      left_inv := fun _ => rfl
      right_inv := fun _ => rfl }

def arpIpv4 : Format ArpIpv4H :=
  ((bit 48).pair ((bit 32).pair ((bit 48).pair (bit 32)))).equiv
    { toFun := fun x => ⟨x.1, x.2.1, x.2.2.1, x.2.2.2⟩
      invFun := fun h => (h.srcHwAddr, h.srcProtoAddr, h.dstHwAddr, h.dstProtoAddr)
      left_inv := fun _ => rfl
      right_inv := fun _ => rfl }

def ipv4 : Format Ipv4H :=
  ((bit 4).pair ((bit 4).pair ((bit 8).pair ((bit 16).pair ((bit 16).pair ((bit 3).pair ((bit 13).pair
    ((bit 8).pair ((bit 8).pair ((bit 16).pair ((bit 32).pair (bit 32)))))))))))).equiv
    { toFun := fun ⟨version, ihl, diffserv, totalLen, identification, flags, fragOffset, ttl, protocol, hdrChecksum,
        srcAddr, dstAddr⟩ =>
        { version, ihl, diffserv, totalLen, identification, flags, fragOffset, ttl, protocol, hdrChecksum, srcAddr,
          dstAddr }
      invFun := fun h => (h.version, h.ihl, h.diffserv, h.totalLen, h.identification, h.flags, h.fragOffset, h.ttl,
        h.protocol, h.hdrChecksum, h.srcAddr, h.dstAddr)
      left_inv := fun _ => rfl
      right_inv := fun _ => rfl }

def icmp : Format IcmpH :=
  ((bit 8).pair ((bit 8).pair (bit 16))).equiv
    { toFun := fun x => ⟨x.1, x.2.1, x.2.2⟩
      invFun := fun h => (h.msgType, h.msgCode, h.checksum)
      left_inv := fun _ => rfl
      right_inv := fun _ => rfl }

def udp : Format UdpH :=
  ((bit 16).pair ((bit 16).pair ((bit 16).pair (bit 16)))).equiv
    { toFun := fun x => ⟨x.1, x.2.1, x.2.2.1, x.2.2.2⟩
      invFun := fun h => (h.srcPort, h.dstPort, h.length, h.checksum)
      left_inv := fun _ => rfl
      right_inv := fun _ => rfl }

def switchml : Format SwitchmlH :=
  ((bit 4).pair ((bit 1).pair ((bit 3).pair ((bit 8).pair ((bit 32).pair (bit 16)))))).equiv
    { toFun := fun x => ⟨x.1, x.2.1, x.2.2.1, x.2.2.2.1, x.2.2.2.2.1, x.2.2.2.2.2⟩
      invFun := fun h => (h.msgType, h.unused, h.size, h.jobNumber, h.tsi, h.poolIndex)
      left_inv := fun _ => rfl
      right_inv := fun _ => rfl }

/-- An `int<8>`. -/
def exponent : Format Exponent :=
  (bit 8).equiv { toFun := .ofBitVec, invFun := Int8.toBitVec, left_inv := fun _ => rfl, right_inv := fun _ => rfl }

def exponents : Format ExponentsH :=
  (exponent.pair exponent).equiv
    { toFun := fun x => ⟨x.1, x.2⟩, invFun := fun h => (h.e0, h.e1)
      left_inv := fun _ => rfl, right_inv := fun _ => rfl }

def ibBth : Format IbBthH :=
  ((bit 8).pair ((bit 1).pair ((bit 1).pair ((bit 2).pair ((bit 4).pair ((bit 16).pair ((bit 1).pair ((bit 1).pair
    ((bit 6).pair ((bit 24).pair ((bit 1).pair ((bit 7).pair (bit 24))))))))))))).equiv
    { toFun := fun ⟨opcode, se, migrationReq, padCount, transportVersion, partitionKey, fRes1, bRes1, reserved, dstQp,
        ackReq, reserved2, psn⟩ =>
        { opcode, se, migrationReq, padCount, transportVersion, partitionKey, fRes1, bRes1, reserved, dstQp, ackReq,
          reserved2, psn }
      invFun := fun h => (h.opcode, h.se, h.migrationReq, h.padCount, h.transportVersion, h.partitionKey, h.fRes1,
        h.bRes1, h.reserved, h.dstQp, h.ackReq, h.reserved2, h.psn)
      left_inv := fun _ => rfl
      right_inv := fun _ => rfl }

def ibReth : Format IbRethH :=
  ((bit 64).pair ((bit 32).pair (bit 32))).equiv
    { toFun := fun x => ⟨x.1, x.2.1, x.2.2⟩
      invFun := fun h => (h.addr, h.rKey, h.len)
      left_inv := fun _ => rfl
      right_inv := fun _ => rfl }

def ibImmediate : Format IbImmediateH :=
  (bit 32).equiv
    { toFun := fun x => ⟨x⟩, invFun := fun h => h.immediate, left_inv := fun _ => rfl, right_inv := fun _ => rfl }

def data : Format DataH := (bit 32).tuple 32

theorem ethernet_full : ethernet.Full := ((bit_full _).pair ((bit_full _).pair (bit_full _))).equiv _

theorem arp_full : arp.Full :=
  ((bit_full _).pair ((bit_full _).pair ((bit_full _).pair ((bit_full _).pair (bit_full _))))).equiv _

theorem arpIpv4_full : arpIpv4.Full :=
  ((bit_full _).pair ((bit_full _).pair ((bit_full _).pair (bit_full _)))).equiv _

theorem ipv4_full : ipv4.Full :=
  ((bit_full _).pair ((bit_full _).pair ((bit_full _).pair ((bit_full _).pair ((bit_full _).pair ((bit_full _).pair
    ((bit_full _).pair ((bit_full _).pair ((bit_full _).pair ((bit_full _).pair ((bit_full _).pair
      (bit_full _)))))))))))).equiv _

theorem icmp_full : icmp.Full := ((bit_full _).pair ((bit_full _).pair (bit_full _))).equiv _

theorem udp_full : udp.Full := ((bit_full _).pair ((bit_full _).pair ((bit_full _).pair (bit_full _)))).equiv _

theorem switchml_full : switchml.Full :=
  ((bit_full _).pair ((bit_full _).pair ((bit_full _).pair ((bit_full _).pair ((bit_full _).pair
    (bit_full _)))))).equiv _

theorem exponent_full : exponent.Full := (bit_full _).equiv _

theorem exponents_full : exponents.Full := (exponent_full.pair exponent_full).equiv _

theorem ibBth_full : ibBth.Full :=
  ((bit_full _).pair ((bit_full _).pair ((bit_full _).pair ((bit_full _).pair ((bit_full _).pair ((bit_full _).pair
    ((bit_full _).pair ((bit_full _).pair ((bit_full _).pair ((bit_full _).pair ((bit_full _).pair ((bit_full _).pair
      (bit_full _))))))))))))).equiv _

theorem ibReth_full : ibReth.Full := ((bit_full _).pair ((bit_full _).pair (bit_full _))).equiv _

theorem ibImmediate_full : ibImmediate.Full := (bit_full _).equiv _

theorem data_full : data.Full := (bit_full _).tuple _

@[simp] theorem width_data : data.width = 1024 := by
  rw [data, width_tuple]
  rfl

/-! ## Views -/

def EthernetH.view : View EthernetH P4.EthernetH where
  get h := ⟨h.dstAddr, h.srcAddr⟩
  put p h := { h with dstAddr := p.dstAddr, srcAddr := p.srcAddr }
  put_get _ := rfl
  get_put _ _ := rfl

def ArpH.view : View ArpH P4.ArpH where
  get h := ⟨h.opcode⟩
  put p h := { h with opcode := p.opcode }
  put_get _ := rfl
  get_put _ _ := rfl

def Ipv4H.view : View Ipv4H P4.Ipv4H where
  get h := ⟨h.srcAddr, h.dstAddr⟩
  put p h := { h with srcAddr := p.srcAddr, dstAddr := p.dstAddr }
  put_get _ := rfl
  get_put _ _ := rfl

def IcmpH.view : View IcmpH P4.IcmpH where
  get h := ⟨h.msgType, h.checksum⟩
  put p h := { h with msgType := p.msgType, checksum := p.checksum }
  put_get _ := rfl
  get_put _ _ := rfl

def UdpH.view : View UdpH P4.UdpH where
  get h := ⟨h.srcPort, h.dstPort⟩
  put p h := { h with srcPort := p.srcPort, dstPort := p.dstPort }
  put_get _ := rfl
  get_put _ _ := rfl

def SwitchmlH.view : View SwitchmlH P4.SwitchmlH where
  get h := ⟨.ofBits h.size, h.jobNumber, h.tsi, h.poolIndex⟩
  put p h :=
    { h with
      size := if PacketSize.ofBits h.size = p.size then h.size else p.size.toBits
      jobNumber := p.jobNumber
      tsi := p.tsi
      poolIndex := p.poolIndex }
  put_get h := by simp only [if_true]
  get_put p h := by
    cases p
    simp only [P4.SwitchmlH.mk.injEq, and_true]
    split
    · assumption
    · exact PacketSize.ofBits_toBits _

def IbBthH.view : View IbBthH P4.IbBthH where
  get h := ⟨.ofBits h.opcode, h.partitionKey, h.dstQp, h.psn⟩
  put p h :=
    { h with
      opcode := if IbOpcode.ofBits h.opcode = p.opcode then h.opcode else p.opcode.toBits
      partitionKey := p.partitionKey
      dstQp := p.dstQp
      psn := p.psn }
  put_get h := by simp only [if_true]
  get_put p h := by
    cases p
    simp only [P4.IbBthH.mk.injEq, and_true]
    split
    · assumption
    · exact IbOpcode.ofBits_toBits _

/-- The part of the headers that the controls work on. -/
def HeaderT.view : View HeaderT Hdr where
  get h :=
    { ethernet := EthernetH.view.option.get h.ethernet
      arp := ArpH.view.option.get h.arp
      arpIpv4 := h.arpIpv4
      ipv4 := Ipv4H.view.option.get h.ipv4
      icmp := IcmpH.view.option.get h.icmp
      udp := UdpH.view.option.get h.udp
      switchml := SwitchmlH.view.option.get h.switchml
      exponents := h.exponents
      ibBth := IbBthH.view.option.get h.ibBth
      ibReth := h.ibReth
      ibImmediate := h.ibImmediate
      d0 := h.d0
      d1 := h.d1 }
  put p h :=
    { ethernet := EthernetH.view.option.put p.ethernet h.ethernet
      arp := ArpH.view.option.put p.arp h.arp
      arpIpv4 := p.arpIpv4
      ipv4 := Ipv4H.view.option.put p.ipv4 h.ipv4
      icmp := IcmpH.view.option.put p.icmp h.icmp
      udp := UdpH.view.option.put p.udp h.udp
      switchml := SwitchmlH.view.option.put p.switchml h.switchml
      exponents := p.exponents
      ibBth := IbBthH.view.option.put p.ibBth h.ibBth
      ibReth := p.ibReth
      ibImmediate := p.ibImmediate
      d0 := p.d0
      d1 := p.d1 }
  put_get h := by simp only [View.put_get]
  get_put p h := by simp only [View.get_put]

end Full

end SwitchML.P4
