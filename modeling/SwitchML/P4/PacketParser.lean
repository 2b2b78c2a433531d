/-
`parsers.p4` on the bits of a packet: all states of the ingress parser and the
ingress deparser. `Parsers` has the part of them that the recirculated passes
use, on headers.

The metadata that the switch puts in front of a packet of its own is laid out by
the compiler; it is a parameter, and only has to be read back as it was written.
-/
import SwitchML.P4.HeaderFormats
import SwitchML.P4.Parsers

namespace SwitchML.P4

open Formats Formats.Format Tna

/-- `switchml_md_h` and `switchml_rdma_md_h`, with the fields of the first one
that only counters and ports to a CPU read. -/
structure Bridged where
  md : SwitchmlMd
  rdmaAddr : BitVec 64
  recircPortSelector : BitVec 14
  etherTypeMsb : BitVec 16
  deriving Inhabited

namespace Bridged

def flag : Format Bool := (bit 1).retract BitVec.ofBool (·.getLsbD 0) (by decide)

/-- The fields one after the other, as one of the layouts there are. -/
def packed : Format Bridged :=
  ((bit 16).pair ((bit 14).pair (((bit 3).retract _ _ PacketSize.ofBits_toBits).pair
    (((bit 2).retract _ _ WorkerType.ofBits_toBits).pair ((bit 16).pair ((bit 16).pair ((bit 16).pair
    (((bit 4).retract _ _ PacketType.ofBits_toBits).pair ((bit 16).pair ((bit 15).pair ((bit 8).pair ((bit 32).pair
    ((bit 32).pair ((bit 32).pair ((bit 8).pair ((bit 9).pair (flag.pair ((bit 8).pair (Full.exponent.pair
    (Full.exponent.pair ((bit 16).pair (flag.pair (flag.pair (bit 64)))))))))))))))))))))))).retract
    (fun b => (b.md.mgid, b.recircPortSelector, b.md.packetSize, b.md.workerType, b.md.workerId, b.md.srcPort,
      b.md.dstPort, b.md.packetType, b.etherTypeMsb, b.md.poolIndex, b.md.firstLastFlag, b.md.mapResult,
      b.md.workerBitmapBefore, b.md.tsi, b.md.jobNumber, b.md.ingressPort, b.md.simulateEgressDrop, b.md.numWorkers,
      b.md.e0, b.md.e1, b.md.msgId, b.md.firstPacket, b.md.lastPacket, b.rdmaAddr))
    (fun ⟨mgid, recircPortSelector, packetSize, workerType, workerId, srcPort, dstPort, packetType, etherTypeMsb,
        poolIndex, firstLastFlag, mapResult, workerBitmapBefore, tsi, jobNumber, ingressPort, simulateEgressDrop,
        numWorkers, e0, e1, msgId, firstPacket, lastPacket, rdmaAddr⟩ =>
      ⟨⟨mgid, packetSize, workerType, workerId, srcPort, dstPort, packetType, poolIndex, firstLastFlag, mapResult,
        workerBitmapBefore, tsi, jobNumber, ingressPort, simulateEgressDrop, numWorkers, e0, e1, msgId, firstPacket,
        lastPacket⟩, rdmaAddr, recircPortSelector, etherTypeMsb⟩)
    (fun _ => rfl)

end Bridged

/-- What the ingress parser leaves: headers and metadata, which are always valid,
and the bits that it has not extracted. -/
structure Parsed where
  hdr : Full.HeaderT
  bridged : Bridged
  rest : Bits

/-! ## Ingress parser -/

namespace IngressParser

open Full

def ETHERTYPE_IPV4 : BitVec 16 := 0x0800
def ETHERTYPE_ARP : BitVec 16 := 0x0806
def ICMP : BitVec 8 := 1
def UDP : BitVec 8 := 17
def UDP_PORT_ROCEV2 : BitVec 16 := 4791
def UDP_PORT_SWITCHML_BASE : BitVec 16 := 0xbee0
def UDP_PORT_SWITCHML_MASK : BitVec 16 := 0xfff0

/-- Metadata of a packet that was not recirculated. -/
def freshMd (packetType : PacketType) : SwitchmlMd := { (default : SwitchmlMd) with packetType := packetType }

def acceptRegular (hdr : HeaderT) (pkt : Bits) : Option Parsed :=
  some { hdr := hdr, bridged := { (default : Bridged) with md := freshMd .IGNORE }, rest := pkt }

/-- The end of `parse_values` and `parse_ib_payload`. -/
def parseData (etherTypeMsb : BitVec 16) (hdr : HeaderT) (pkt : Bits) : Option Parsed := do
  let (d0, pkt) ← data.extract pkt
  let (d1, pkt) ← data.extract pkt
  some
    { hdr := { hdr with d0 := some d0, d1 := some d1 }
      bridged := { (default : Bridged) with md := freshMd .CONSUME0, etherTypeMsb := etherTypeMsb }
      rest := pkt }

/-- At this point we know this is a SwitchML packet that wasn't recirculated, so mark it for consumption. -/
def parseValues : HeaderT → Bits → Option Parsed := parseData 0

def parseSwitchml (hdr : HeaderT) (pkt : Bits) : Option Parsed := do
  let (switchml, pkt) ← switchml.extract pkt
  let (exponents, pkt) ← exponents.extract pkt
  parseValues { hdr with switchml := some switchml, exponents := some exponents } pkt

/-- Do not extract the ICRC, since this might be in the middle of a >256B packet. -/
def parseIbPayload : HeaderT → Bits → Option Parsed := parseData 0xffff

def parseIbImmediate (hdr : HeaderT) (pkt : Bits) : Option Parsed := do
  let (ibImmediate, pkt) ← ibImmediate.extract pkt
  parseIbPayload { hdr with ibImmediate := some ibImmediate } pkt

def parseIbReth (hdr : HeaderT) (pkt : Bits) : Option Parsed := do
  let (ibReth, pkt) ← ibReth.extract pkt
  parseIbPayload { hdr with ibReth := some ibReth } pkt

def parseIbRethImmediate (hdr : HeaderT) (pkt : Bits) : Option Parsed := do
  let (ibReth, pkt) ← ibReth.extract pkt
  let (ibImmediate, pkt) ← ibImmediate.extract pkt
  parseIbPayload { hdr with ibReth := some ibReth, ibImmediate := some ibImmediate } pkt

/-- The states that follow `parse_ib_bth`. -/
inductive IbState
  | payload | immediate | reth | rethImmediate | regular
  deriving DecidableEq

/-- Include only UC operations here. -/
def selectOpcode (opcode : BitVec 8) : IbState :=
  if opcode = 0b00100000 then .payload -- UC_SEND_FIRST
  else if opcode = 0b00100001 then .payload -- UC_SEND_MIDDLE
  else if opcode = 0b00100010 then .payload -- UC_SEND_LAST
  else if opcode = 0b00100011 then .immediate -- UC_SEND_LAST_IMMEDIATE
  else if opcode = 0b00100100 then .payload -- UC_SEND_ONLY
  else if opcode = 0b00100101 then .immediate -- UC_SEND_ONLY_IMMEDIATE
  else if opcode = 0b00100110 then .reth -- UC_RDMA_WRITE_FIRST
  else if opcode = 0b00100111 then .payload -- UC_RDMA_WRITE_MIDDLE
  else if opcode = 0b00101000 then .payload -- UC_RDMA_WRITE_LAST
  else if opcode = 0b00101001 then .immediate -- UC_RDMA_WRITE_LAST_IMMEDIATE
  else if opcode = 0b00101010 then .reth -- UC_RDMA_WRITE_ONLY
  else if opcode = 0b00101011 then .rethImmediate -- UC_RDMA_WRITE_ONLY_IMMEDIATE
  else .regular

def parseIbBth (hdr : HeaderT) (pkt : Bits) : Option Parsed := do
  let (ibBth, pkt) ← ibBth.extract pkt
  let hdr := { hdr with ibBth := some ibBth }
  match selectOpcode ibBth.opcode with
  | .payload => parseIbPayload hdr pkt
  | .immediate => parseIbImmediate hdr pkt
  | .reth => parseIbReth hdr pkt
  | .rethImmediate => parseIbRethImmediate hdr pkt
  | .regular => acceptRegular hdr pkt

def parseUdp (hdr : HeaderT) (pkt : Bits) : Option Parsed := do
  let (udp, pkt) ← udp.extract pkt
  let hdr := { hdr with udp := some udp }
  if udp.dstPort = UDP_PORT_ROCEV2 then parseIbBth hdr pkt
  else if udp.dstPort &&& UDP_PORT_SWITCHML_MASK = UDP_PORT_SWITCHML_BASE &&& UDP_PORT_SWITCHML_MASK then
    parseSwitchml hdr pkt
  else acceptRegular hdr pkt

def parseIcmp (hdr : HeaderT) (pkt : Bits) : Option Parsed := do
  let (icmp, pkt) ← icmp.extract pkt
  acceptRegular { hdr with icmp := some icmp } pkt

/-- Parse only non-fragmented IP packets with no options. The checksum is verified, but nothing depends on it. -/
def parseIpv4 (hdr : HeaderT) (pkt : Bits) : Option Parsed := do
  let (ipv4, pkt) ← ipv4.extract pkt
  let hdr := { hdr with ipv4 := some ipv4 }
  if ipv4.ihl = 5 ∧ ipv4.fragOffset = 0 ∧ ipv4.protocol = ICMP then parseIcmp hdr pkt
  else if ipv4.ihl = 5 ∧ ipv4.fragOffset = 0 ∧ ipv4.protocol = UDP then parseUdp hdr pkt
  else acceptRegular hdr pkt

def parseArpIpv4 (hdr : HeaderT) (pkt : Bits) : Option Parsed := do
  let (arpIpv4, pkt) ← arpIpv4.extract pkt
  acceptRegular { hdr with arpIpv4 := some arpIpv4 } pkt

def parseArp (hdr : HeaderT) (pkt : Bits) : Option Parsed := do
  let (arp, pkt) ← arp.extract pkt
  let hdr := { hdr with arp := some arp }
  if arp.hwType = 0x0001 ∧ arp.protoType = ETHERTYPE_IPV4 then parseArpIpv4 hdr pkt else acceptRegular hdr pkt

def parseEthernet (pkt : Bits) : Option Parsed := do
  let (ethernet, pkt) ← ethernet.extract pkt
  let hdr := { ethernet := some ethernet }
  if ethernet.etherType = ETHERTYPE_ARP then parseArp hdr pkt
  else if ethernet.etherType = ETHERTYPE_IPV4 then parseIpv4 hdr pkt
  else acceptRegular hdr pkt

/-- Extract the next 256B values. -/
def parseConsume (bridged : Bridged) (pkt : Bits) : Option Parsed := do
  let (d0, pkt) ← data.extract pkt
  let (d1, pkt) ← data.extract pkt
  some { hdr := { d0 := some d0, d1 := some d1 }, bridged := bridged, rest := pkt }

/-- One of these will be filled in by the pipeline, and the other set invalid. -/
def parseHarvest (u0 u1 : DataH) (bridged : Bridged) (pkt : Bits) : Option Parsed :=
  some { hdr := { d0 := some u0, d1 := some u1 }, bridged := bridged, rest := pkt }

def parseRecirculate (layout : Format Bridged) (u0 u1 : DataH) (pkt : Bits) : Option Parsed := do
  let (bridged, pkt) ← layout.extract pkt
  if bridged.md.packetType.isConsume then parseConsume bridged pkt else parseHarvest u0 u1 bridged pkt

def parsePortMetadata (layout : Format Bridged) (ingressPort : PortId) (u0 u1 : DataH) (pkt : Bits) : Option Parsed :=
  if parsesRecirculate ingressPort then parseRecirculate layout u0 u1 pkt else parseEthernet pkt

/-- Resubmission is not currently used; just skip the header. -/
def parseResubmit (pkt : Bits) : Option Parsed := if 64 ≤ pkt.length then parseEthernet (pkt.drop 64) else none

/-- The packet, behind the intrinsic metadata. A packet that is too short is a parser error. -/
def start (layout : Format Bridged) (resubmitFlag : Bool) (ingressPort : PortId) (u0 u1 : DataH) (pkt : Bits) :
    Option Parsed :=
  if resubmitFlag then parseResubmit pkt else parsePortMetadata layout ingressPort u0 u1 pkt

end IngressParser

/-! ## Ingress deparser -/

/-- `pkt.emit(hdr)`: the valid headers, in the order of `header_t`. -/
@[simp] def emitHeaders (hdr : Full.HeaderT) : Bits :=
  Full.ethernet.emitOption hdr.ethernet ++ Full.arp.emitOption hdr.arp ++ Full.arpIpv4.emitOption hdr.arpIpv4 ++
    Full.ipv4.emitOption hdr.ipv4 ++ Full.icmp.emitOption hdr.icmp ++ Full.udp.emitOption hdr.udp ++
    Full.switchml.emitOption hdr.switchml ++ Full.exponents.emitOption hdr.exponents ++
    Full.ibBth.emitOption hdr.ibBth ++ Full.ibReth.emitOption hdr.ibReth ++
    Full.ibImmediate.emitOption hdr.ibImmediate ++ Full.data.emitOption hdr.d0 ++ Full.data.emitOption hdr.d1

/-- The state of the controls for a packet that was parsed. -/
def Parsed.ig (portMetadata : PortMetadata) (ingressPort : PortId) (p : Parsed) : Ig :=
  { Ig.ofWire portMetadata ingressPort ⟨p.bridged.md, p.bridged.rdmaAddr, Full.data.blocks p.rest⟩ with
    hdr := Full.HeaderT.view.get p.hdr }

/-- `IngressDeparser`, from the state after the controls and what they do not
work on. No control of the ingress asks for a new checksum. -/
def ingressDeparse (layout : Format Bridged) (p : Parsed) (ig : Ig) : Bits :=
  (if ig.mdValid then layout.emit { p.bridged with md := ig.md, rdmaAddr := ig.rdmaAddr } else []) ++
    emitHeaders (Full.HeaderT.view.put ig.hdr p.hdr) ++ ig.rest.flatMap Full.data.emit ++ Full.data.remainder p.rest

/-! ## What the parser extracts is what the deparser emits -/

namespace IngressParser

open Full

variable {hdr : HeaderT} {pkt : Bits} {p : Parsed}

/-- `p` is what there is behind the headers of `hdr`. -/
structure Covers (hdr : HeaderT) (pkt : Bits) (p : Parsed) : Prop where
  emit : emitHeaders p.hdr ++ p.rest = emitHeaders hdr ++ pkt
  packetType : p.bridged.md.packetType = .CONSUME0 ∨ p.bridged.md.packetType = .IGNORE

theorem Covers.of_emit {hdr' : HeaderT} {pkt' : Bits} (h : Covers hdr' pkt' p)
    (heq : emitHeaders hdr' ++ pkt' = emitHeaders hdr ++ pkt) : Covers hdr pkt p := ⟨h.emit.trans heq, h.packetType⟩

theorem acceptRegular_covers (h : acceptRegular hdr pkt = some p) : Covers hdr pkt p := by
  cases h
  exact ⟨rfl, .inr rfl⟩

theorem emitHeaders_data (d0 d1 : DataH) (h0 : hdr.d0 = none) (h1 : hdr.d1 = none) :
    emitHeaders { hdr with d0 := some d0, d1 := some d1 } = emitHeaders hdr ++ data.emit d0 ++ data.emit d1 := by
  simp only [emitHeaders, h0, h1, emitOption_none, emitOption_some, List.append_nil]

theorem parseData_covers {etherTypeMsb : BitVec 16} (h : parseData etherTypeMsb hdr pkt = some p) (h0 : hdr.d0 = none)
    (h1 : hdr.d1 = none) : Covers hdr pkt p := by
  obtain ⟨d0, pkt1, rfl, hk⟩ := data_full.bind_extract h
  obtain ⟨d1, pkt2, rfl, hk'⟩ := data_full.bind_extract hk
  cases hk'
  refine ⟨?_, .inl rfl⟩
  rw [emitHeaders_data d0 d1 h0 h1, List.append_assoc, List.append_assoc]

theorem parseSwitchml_covers (h : parseSwitchml hdr pkt = some p) (hs : hdr.switchml = none) (he : hdr.exponents = none)
    (hb : hdr.ibBth = none) (hr : hdr.ibReth = none) (hi : hdr.ibImmediate = none) (h0 : hdr.d0 = none)
    (h1 : hdr.d1 = none) : Covers hdr pkt p := by
  obtain ⟨s, pkt1, rfl, hk⟩ := switchml_full.bind_extract h
  obtain ⟨e, pkt2, rfl, hk'⟩ := exponents_full.bind_extract hk
  refine (parseData_covers hk' h0 h1).of_emit ?_
  simp [hs, he, hb, hr, hi, h0, h1]

theorem parseIbImmediate_covers (h : parseIbImmediate hdr pkt = some p) (hi : hdr.ibImmediate = none)
    (h0 : hdr.d0 = none) (h1 : hdr.d1 = none) : Covers hdr pkt p := by
  obtain ⟨i, pkt1, rfl, hk⟩ := ibImmediate_full.bind_extract h
  refine (parseData_covers hk h0 h1).of_emit ?_
  simp [hi, h0, h1]

theorem parseIbReth_covers (h : parseIbReth hdr pkt = some p) (hr : hdr.ibReth = none) (hi : hdr.ibImmediate = none)
    (h0 : hdr.d0 = none) (h1 : hdr.d1 = none) : Covers hdr pkt p := by
  obtain ⟨r, pkt1, rfl, hk⟩ := ibReth_full.bind_extract h
  refine (parseData_covers hk h0 h1).of_emit ?_
  simp [hr, hi, h0, h1]

theorem parseIbRethImmediate_covers (h : parseIbRethImmediate hdr pkt = some p) (hr : hdr.ibReth = none)
    (hi : hdr.ibImmediate = none) (h0 : hdr.d0 = none) (h1 : hdr.d1 = none) : Covers hdr pkt p := by
  obtain ⟨r, pkt1, rfl, hk⟩ := ibReth_full.bind_extract h
  obtain ⟨i, pkt2, rfl, hk'⟩ := ibImmediate_full.bind_extract hk
  refine (parseData_covers hk' h0 h1).of_emit ?_
  simp [hr, hi, h0, h1]

theorem parseIbBth_covers (h : parseIbBth hdr pkt = some p) (hb : hdr.ibBth = none) (hr : hdr.ibReth = none)
    (hi : hdr.ibImmediate = none) (h0 : hdr.d0 = none) (h1 : hdr.d1 = none) : Covers hdr pkt p := by
  obtain ⟨b, pkt1, rfl, hk⟩ := ibBth_full.bind_extract h
  have hcov : Covers { hdr with ibBth := some b } pkt1 p := by
    dsimp only at hk
    split at hk
    · exact parseData_covers hk h0 h1
    · exact parseIbImmediate_covers hk hi h0 h1
    · exact parseIbReth_covers hk hr hi h0 h1
    · exact parseIbRethImmediate_covers hk hr hi h0 h1
    · exact acceptRegular_covers hk
  refine hcov.of_emit ?_
  simp [hb, hr, hi, h0, h1]

theorem parseUdp_covers {e : Option Full.EthernetH} {i : Option Full.Ipv4H}
    (h : parseUdp { ethernet := e, ipv4 := i } pkt = some p) : Covers { ethernet := e, ipv4 := i } pkt p := by
  obtain ⟨u, pkt1, rfl, hk⟩ := udp_full.bind_extract h
  have hcov : Covers { ethernet := e, ipv4 := i, udp := some u } pkt1 p := by
    dsimp only at hk
    split at hk
    · exact parseIbBth_covers hk rfl rfl rfl rfl rfl
    · split at hk
      · exact parseSwitchml_covers hk rfl rfl rfl rfl rfl rfl rfl
      · exact acceptRegular_covers hk
  refine hcov.of_emit ?_
  simp

theorem parseIcmp_covers {e : Option Full.EthernetH} {i : Option Full.Ipv4H}
    (h : parseIcmp { ethernet := e, ipv4 := i } pkt = some p) : Covers { ethernet := e, ipv4 := i } pkt p := by
  obtain ⟨c, pkt1, rfl, hk⟩ := icmp_full.bind_extract h
  refine (acceptRegular_covers hk).of_emit ?_
  simp

theorem parseIpv4_covers {e : Option Full.EthernetH} (h : parseIpv4 { ethernet := e } pkt = some p) :
    Covers { ethernet := e } pkt p := by
  obtain ⟨i, pkt1, rfl, hk⟩ := ipv4_full.bind_extract h
  have hcov : Covers { ethernet := e, ipv4 := some i } pkt1 p := by
    dsimp only at hk
    split at hk
    · exact parseIcmp_covers hk
    · split at hk
      · exact parseUdp_covers hk
      · exact acceptRegular_covers hk
  refine hcov.of_emit ?_
  simp

theorem parseArp_covers {e : Option Full.EthernetH} (h : parseArp { ethernet := e } pkt = some p) :
    Covers { ethernet := e } pkt p := by
  obtain ⟨a, pkt1, rfl, hk⟩ := arp_full.bind_extract h
  dsimp only at hk
  split at hk
  · obtain ⟨a', pkt2, rfl, hk'⟩ := arpIpv4_full.bind_extract hk
    refine (acceptRegular_covers hk').of_emit ?_
    simp
  · refine (acceptRegular_covers hk).of_emit ?_
    simp

/-- The headers that are extracted from a packet, written in the order in which
the deparser emits them, and the rest are the packet. -/
theorem parseEthernet_covers (h : parseEthernet pkt = some p) : Covers {} pkt p := by
  obtain ⟨e, pkt1, rfl, hk⟩ := ethernet_full.bind_extract h
  have hcov : Covers { ethernet := some e } pkt1 p := by
    dsimp only at hk
    split at hk
    · exact parseArp_covers hk
    · split at hk
      · exact parseIpv4_covers hk
      · exact acceptRegular_covers hk
  refine hcov.of_emit ?_
  simp

end IngressParser

end SwitchML.P4
