/-
`parsers.p4`, the part the recirculated passes use: which ports carry
recirculated packets, what the parser extracts of one, and what the deparser
emits. A packet on the wire is the bridged metadata and the payload, in
128-byte slices.
-/
import SwitchML.P4.Headers

namespace SwitchML.P4

/-- A packet between two passes. -/
structure Wire where
  md : SwitchmlMd
  rdmaAddr : BitVec 64
  payload : List DataH

/-- The transition of `parse_port_metadata`: the ports on which the bridged
metadata is parsed. -/
def parsesRecirculate (ingressPort : PortId) : Bool :=
  if ingressPort = 64 then true        -- pipe 0 CPU Eth port
  else if ingressPort = 68 then true   -- pipe 0 recirc port
  else if ingressPort = 320 then false -- pipe 2 CPU PCIe port
  else if ingressPort &&& 0x180 = 0x080 then true -- all pipe 1 ports
  else if ingressPort &&& 0x180 = 0x100 then true -- all pipe 2 ports
  else if ingressPort &&& 0x180 = 0x180 then true -- all pipe 3 ports
  else false

/-- Metadata and intrinsic metadata at the start of a recirculated pass. -/
def Ig.ofWire (portMetadata : PortMetadata) (ingressPort : PortId) (wire : Wire) : Ig where
  hdr := {}
  md := wire.md
  mdValid := true
  rdmaAddr := wire.rdmaAddr
  workerBitmap := 0
  portMetadata := portMetadata
  ingressPort := ingressPort
  dropCtl := false
  ucastEgressPort := none
  mcastGrpA := none
  level1ExclusionId := 0
  bypassEgress := false
  rest := wire.payload

/-- Extract the next 256B of values; a packet that is too short is a parser error. -/
def parseConsume (ig : Ig) : Option Ig :=
  match ig.rest with
  | d0 :: d1 :: rest => some { ig with hdr := { ig.hdr with d0 := some d0, d1 := some d1 }, rest := rest }
  | _ => none

/-- One of these will be filled in by the pipeline, and the other set invalid.
`setValid` extracts nothing: `u0` and `u1` are whatever the fields hold. -/
def parseHarvest (u0 u1 : DataH) (ig : Ig) : Ig :=
  ig.withHdr fun hdr => { hdr with d0 := some u0, d1 := some u1 }

/-- `parse_recirculate`. -/
def parseRecirculate (u0 u1 : DataH) (ig : Ig) : Option Ig :=
  if ig.md.packetType.isConsume then parseConsume ig else some (parseHarvest u0 u1 ig)

/-- `parse_values` and `parse_ib_payload`, which end the parsing of a packet that
was not recirculated: the headers in front of the values are `hdr`. -/
def parseFirst (portMetadata : PortMetadata) (ingressPort : PortId) (hdr : Hdr) (payload : List DataH) : Option Ig :=
  parseConsume { Ig.ofWire portMetadata ingressPort
    ⟨{ (default : SwitchmlMd) with packetType := .CONSUME0 }, 0, payload⟩ with hdr := hdr }

/-- `IngressDeparser` on a packet whose other headers are gone: the metadata,
the data headers that are valid, then the rest of the payload. -/
def deparse (ig : Ig) : Wire where
  md := ig.md
  rdmaAddr := ig.rdmaAddr
  payload := ig.hdr.d0.toList ++ ig.hdr.d1.toList ++ ig.rest

end SwitchML.P4
