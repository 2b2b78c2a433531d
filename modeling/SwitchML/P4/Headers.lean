/-
The header stack of `headers.p4` and the state one ingress pass works on.

A header that is not valid is `none`. A field of an invalid header has no
defined value; the reads the program makes of one give the type's default.
-/
import SwitchML.P4.Types

namespace SwitchML.P4

/-- The UC RDMA WRITE operations of `ib_opcode_t`, and any other opcode. -/
inductive IbOpcode
  | UC_RDMA_WRITE_FIRST | UC_RDMA_WRITE_MIDDLE | UC_RDMA_WRITE_LAST | UC_RDMA_WRITE_LAST_IMMEDIATE
  | UC_RDMA_WRITE_ONLY | UC_RDMA_WRITE_ONLY_IMMEDIATE | other
  deriving DecidableEq, Repr, Inhabited

structure EthernetH where
  dstAddr : BitVec 48
  srcAddr : BitVec 48
  deriving DecidableEq, Inhabited

structure ArpH where
  opcode : BitVec 16
  deriving DecidableEq, Inhabited

structure ArpIpv4H where
  srcHwAddr : BitVec 48
  srcProtoAddr : BitVec 32
  dstHwAddr : BitVec 48
  dstProtoAddr : BitVec 32
  deriving DecidableEq, Inhabited

structure Ipv4H where
  srcAddr : BitVec 32
  dstAddr : BitVec 32
  deriving DecidableEq, Inhabited

structure IcmpH where
  msgType : BitVec 8
  checksum : BitVec 16
  deriving DecidableEq, Inhabited

structure UdpH where
  srcPort : BitVec 16
  dstPort : BitVec 16
  deriving DecidableEq, Inhabited

structure SwitchmlH where
  size : PacketSize
  jobNumber : BitVec 8
  tsi : BitVec 32
  poolIndex : BitVec 16
  deriving DecidableEq, Inhabited

structure ExponentsH where
  e0 : Exponent
  e1 : Exponent
  deriving DecidableEq, Inhabited

structure IbBthH where
  opcode : IbOpcode
  partitionKey : BitVec 16
  dstQp : BitVec 24
  psn : BitVec 24
  deriving DecidableEq, Inhabited

structure IbRethH where
  addr : BitVec 64
  rKey : BitVec 32
  len : BitVec 32
  deriving DecidableEq, Inhabited

structure IbImmediateH where
  immediate : BitVec 32
  deriving DecidableEq, Inhabited

/-- `header_t` -/
structure Hdr where
  ethernet : Option EthernetH := none
  arp : Option ArpH := none
  arpIpv4 : Option ArpIpv4H := none
  ipv4 : Option Ipv4H := none
  icmp : Option IcmpH := none
  udp : Option UdpH := none
  switchml : Option SwitchmlH := none
  exponents : Option ExponentsH := none
  ibBth : Option IbBthH := none
  ibReth : Option IbRethH := none
  ibImmediate : Option IbImmediateH := none
  d0 : Option DataH := none
  d1 : Option DataH := none

/-- What the controls of one ingress pass read and write: the headers, the
metadata and the intrinsic metadata for deparser and traffic manager. `rest` is
the payload the parser left in the packet. -/
structure Ig where
  hdr : Hdr
  md : SwitchmlMd
  /-- Whether `switchml_md` and `switchml_rdma_md` are emitted. -/
  mdValid : Bool
  rdmaAddr : BitVec 64
  /-- One bit set for the current packet's worker; not bridged. -/
  workerBitmap : WorkerBitmap
  portMetadata : PortMetadata
  /-- `ig_intr_md.ingress_port`, the port of this pass. -/
  ingressPort : PortId
  /-- `drop_ctl[0:0]` -/
  dropCtl : Bool
  ucastEgressPort : Option PortId
  mcastGrpA : Option (BitVec 16)
  level1ExclusionId : BitVec 16
  bypassEgress : Bool
  rest : List DataH

/-- Change the metadata. -/
def Ig.withMd (ig : Ig) (f : SwitchmlMd → SwitchmlMd) : Ig := { ig with md := f ig.md }

/-- Change the headers. -/
def Ig.withHdr (ig : Ig) (f : Hdr → Hdr) : Ig := { ig with hdr := f ig.hdr }

end SwitchML.P4
