/-
`Ingress` of `switchml.p4`: the controls in the order they are applied.

`Ingress.receive` is the part before the drop test (the receivers and the drop
simulators of a first pass, or the rebuilt worker bitmap of a later one);
`Ingress.process` is the rest.
-/
import SwitchML.P4.BitmapChecker
import SwitchML.P4.WorkersCounter
import SwitchML.P4.Exponents
import SwitchML.P4.Processor
import SwitchML.P4.NextStepSelector
import SwitchML.P4.RDMAReceiver
import SwitchML.P4.Forwarder
import SwitchML.P4.Parsers

namespace SwitchML.P4

open Tna

/-- The tables of one pipe that are filled at run time. -/
structure Tables where
  receiveUdp : List UdpEntry
  receiveRoce : List RoceEntry
  nextStep : List NextStepEntry
  arpIcmp : List ArpIcmpEntry
  forward : ForwardTable

/-! ## Drop simulators -/

/-- `IngressDropSimulator`: a result of 0xffff means to drop the packet. -/
def ingressDropSim (rng : DropProbability) (pm : PortMetadata) : PortMetadata :=
  if pm.ingressDropProbability ≠ 0 then
    { pm with ingressDropProbability := satAdd rng pm.ingressDropProbability }
  else pm

/-- `EgressDropSimulator`: the new port metadata and `simulate_egress_drop`. -/
def egressDropSim (rng : DropProbability) (pm : PortMetadata) : PortMetadata × Bool :=
  let pm :=
    if pm.egressDropProbability ≠ 0 then
      { pm with egressDropProbability := satAdd rng pm.egressDropProbability }
    else pm
  (pm, decide (pm.egressDropProbability = 0xffff))

namespace Ingress

/-- The random numbers the two drop simulators draw, and the parser's error code. -/
structure Inputs where
  ingressRng : DropProbability
  egressRng : DropProbability
  parserErr : BitVec 16

/-- A recirculated pass: a CONSUME packet needs its worker's bitmap again. -/
def rebuild (ig : Ig) : Ig := if ig.md.packetType.isConsume then reconstructWorkerBitmap ig else ig

/-- The first `if` of `apply`. -/
def receive (tables : Tables) (inp : Inputs) (data : Register 14 ReceiverData) (ig : Ig) :
    Register 14 ReceiverData × Ig :=
  if ig.md.packetType = .CONSUME0 then
    let r :=
      if ig.hdr.ibBth.isSome then RDMAReceiver.apply tables.receiveRoce data ig
      else (data, UDPReceiver.apply tables.receiveUdp inp.parserErr ig)
    let ig := r.2
    let pm := ingressDropSim inp.ingressRng ig.portMetadata
    let eg := egressDropSim inp.egressRng pm
    (r.1, { ig with
      portMetadata := eg.1
      -- Store original ingress port to be used in retransmissions
      md := { ig.md with simulateEgressDrop := eg.2, ingressPort := ig.ingressPort } })
  else (data, rebuild ig)

/-- For CONSUME packets, record packet reception, check if this packet is a
retransmission and detect when all the packets for a slot were received. -/
def count (regs : Regs) (ig : Ig) : Regs × Ig :=
  if ig.md.packetType.isConsume then
    let r := UpdateAndCheckWorkerBitmap.apply regs ig
    WorkersCounter.apply r.1 r.2
  else (regs, ig)

/-- Update or read the exponents if this is a packet with exponents. -/
def applyExponents (regs : Regs) (ig : Ig) : Regs × Ig :=
  if ig.md.lastPacket then
    let r := Exponents.apply regs.exponents ig.md.e0 ig.md.e1 ig.md
    ({ regs with exponents := r.1 }, ig.withMd fun md => { md with e0 := r.2.1, e1 := r.2.2 })
  else (regs, ig)

/-- If it's a SwitchML packet, process it; else answer ARP and ICMP and forward. -/
def aggregate (tables : Tables) (regs : Regs) (ig : Ig) : Regs × Ig :=
  if ig.md.packetType.isSwitchML then
    let r := applyExponents regs ig
    let r := Processor.applyAll r.1 r.2
    (r.1, NextStepSelector.apply tables.nextStep r.2)
  else
    (regs, Forwarder.apply tables.forward (ARPandICMPResponder.apply tables.arpIcmp ig))

/-- If the packet is valid, it should be either forwarded or processed. -/
def process (tables : Tables) (regs : Regs) (ig : Ig) : Regs × Ig :=
  if ig.dropCtl then (regs, ig)
  else
    let r := count regs ig
    aggregate tables r.1 r.2

/-- `apply` -/
def apply (tables : Tables) (inp : Inputs) (data : Register 14 ReceiverData) (regs : Regs) (ig : Ig) :
    Register 14 ReceiverData × Regs × Ig :=
  let r := receive tables inp data ig
  (r.1, process tables regs r.2)

end Ingress

/-! ## After ingress -/

/-- What becomes of a packet after an ingress pass. -/
inductive Outcome
  | gone
  | response (broadcast : Bool) (wire : Wire)
  | recirculate (port : PortId) (wire : Wire)

/-- Packets that bypass egress come back where their port loops back; the ones
that reach egress as BROADCAST or RETRANSMIT are the responses. A packet that is
dropped, or forwarded without its metadata, is not seen again. -/
def outcome (ig : Ig) : Outcome :=
  if ig.dropCtl || !ig.mdValid then .gone
  else if ig.bypassEgress then
    match ig.ucastEgressPort with
    | some port => if parsesRecirculate port then .recirculate port (deparse ig) else .gone
    | none => .gone
  else
    match ig.md.packetType with
    | .BROADCAST => .response true (deparse ig)
    | .RETRANSMIT => .response false (deparse ig)
    | _ => .gone

namespace NextStepSelector

variable {ig : Ig}

theorem outcome_recirculate {t : PacketType} {port : PortId} (hv : ig.mdValid = true)
    (hp : parsesRecirculate port = true) :
    outcome (recirculate t port ig) =
      .recirculate port { deparse ig with md := { ig.md with packetType := t } } := by
  simp only [outcome, recirculate, hv, hp, Bool.not_true, Bool.or_self, Bool.false_eq_true, if_false, if_true]
  rfl

theorem outcome_finishConsume : outcome (finishConsume ig) = .gone := by
  simp [outcome, finishConsume]

theorem outcome_drop : outcome (drop ig) = .gone := by
  simp [outcome, drop]

theorem outcome_broadcast (hv : ig.mdValid = true) :
    outcome (broadcast ig) =
      .response true { deparse (dropD1 ig) with md := { ig.md with packetType := .BROADCAST } } := by
  simp only [outcome, broadcast, dropD1, Ig.withHdr, hv, Bool.not_true, Bool.or_self, Bool.false_eq_true, if_false]
  rfl

theorem outcome_retransmit (hv : ig.mdValid = true) :
    outcome (retransmit ig) =
      .response false { deparse (dropD1 ig) with md := { ig.md with packetType := .RETRANSMIT } } := by
  simp only [outcome, retransmit, dropD1, Ig.withHdr, hv, Bool.not_true, Bool.or_self, Bool.false_eq_true, if_false]
  rfl

end NextStepSelector

end SwitchML.P4
