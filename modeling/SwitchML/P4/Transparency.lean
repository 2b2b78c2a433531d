/-
What the switch does with other traffic. A packet that no table takes for one of
a worker's and that is no request to the switch leaves as it came, bit for bit,
by the port or to the group of its destination address, and touches no register
of the aggregation.
-/
import SwitchML.P4.Ingress
import SwitchML.P4.PacketParser

namespace SwitchML.P4

open Formats Tna

variable {tables : Tables} {inp : Ingress.Inputs} {ig : Ig} {layout : Format Bridged} {p : Parsed} {pkt : Bits}
  {u0 u1 : DataH} {portMetadata : PortMetadata} {ingressPort : PortId}

/-- What the table says of a destination address. -/
def ForwardTable.find (table : ForwardTable) (dstAddr : BitVec 48) : Option ForwardAction :=
  (lookup table.entries (fun e => decide (dstAddr = e.1)) (·.2)).or table.default

/-- The packet goes where the action says: to one port, or to the ports of a group but
for the one it came in at. -/
def ForwardAction.Sends (ingressPort : PortId) (ig : Ig) : ForwardAction → Prop
  | .setEgressPort port => ig.ucastEgressPort = some port ∧ ig.mcastGrpA = none
  | .flood mgid =>
    ig.ucastEgressPort = none ∧ ig.mcastGrpA = some mgid ∧
      ig.level1ExclusionId = (0b1000000 : BitVec 7) ++ ingressPort

/-- Other traffic, with an entry that says where it goes. -/
structure Regular (tables : Tables) (inp : Ingress.Inputs) (ig : Ig) : Prop where
  roce : ig.md.packetType = .CONSUME0 → ig.hdr.ibBth.isSome = true → ∀ e ∈ tables.receiveRoce, e.hits ig = false
  udp : ig.md.packetType = .CONSUME0 → ig.hdr.ibBth.isSome = false →
    ∀ e ∈ tables.receiveUdp, e.hits inp.parserErr ig = false
  responder : ∀ e ∈ tables.arpIcmp, e.hits ig.hdr = false
  forward : ∃ act, tables.forward.find (ig.hdr.ethernet.getD default).dstAddr = some act

/-- The receivers let it pass. -/
theorem Regular.receive (h : Regular tables inp ig)
    (htype : ig.md.packetType = .CONSUME0 ∨ ig.md.packetType = .IGNORE) (data : Register 14 ReceiverData) :
    ∃ pm md, Ingress.receive tables inp data ig = (data, { ig with portMetadata := pm, md := md }) ∧
      md.packetType = .IGNORE := by
  unfold Ingress.receive
  by_cases hc : ig.md.packetType = .CONSUME0
  · rw [if_pos hc]
    cases hb : ig.hdr.ibBth.isSome with
    | true =>
      have hfind : tables.receiveRoce.find? (·.hits ig) = none := by
        simpa [List.find?_eq_none] using h.roce hc hb
      simp only [if_true, RDMAReceiver.apply, hfind]
      exact ⟨_, _, rfl, rfl⟩
    | false =>
      have hfind : tables.receiveUdp.find? (·.hits inp.parserErr ig) = none := by
        simpa [List.find?_eq_none] using h.udp hc hb
      simp only [Bool.false_eq_true, if_false, UDPReceiver.apply, lookup, hfind, Option.map_none]
      exact ⟨_, _, rfl, rfl⟩
  · have hignore := htype.resolve_left hc
    have hnot : ig.md.packetType.isConsume = false := by rw [hignore]; rfl
    refine ⟨ig.portMetadata, ig.md, ?_, hignore⟩
    rw [if_neg hc, Ingress.rebuild, if_neg (by rw [hnot]; exact Bool.false_ne_true)]

/-- The forwarder changes what becomes of the packet, but not the packet. -/
theorem exec_forward (act : ForwardAction) (ig : Ig) :
    (Forwarder.exec act ig).hdr = ig.hdr ∧ (Forwarder.exec act ig).rest = ig.rest ∧
      (Forwarder.exec act ig).mdValid = false ∧ (Forwarder.exec act ig).dropCtl = false ∧
      (Forwarder.exec act ig).bypassEgress = true := by
  cases act <;> exact ⟨rfl, rfl, rfl, rfl, rfl⟩

theorem exec_sends (act : ForwardAction) {ig : Ig} (hport : ig.ucastEgressPort = none) (hgroup : ig.mcastGrpA = none) :
    act.Sends ig.ingressPort (Forwarder.exec act ig) := by
  cases act with
  | setEgressPort port => exact ⟨rfl, hgroup⟩
  | flood mgid => exact ⟨hport, rfl, rfl⟩

/-- All controls of the ingress on other traffic. -/
theorem Regular.apply (h : Regular tables inp ig)
    (htype : ig.md.packetType = .CONSUME0 ∨ ig.md.packetType = .IGNORE) (hdrop : ig.dropCtl = false)
    (data : Register 14 ReceiverData) (regs : Regs) :
    ∃ act pm md, tables.forward.find (ig.hdr.ethernet.getD default).dstAddr = some act ∧
      Ingress.apply tables inp data regs ig =
        (data, regs, Forwarder.exec act { ig with portMetadata := pm, md := md }) := by
  obtain ⟨pm, md, hrec, hignore⟩ := h.receive htype data
  obtain ⟨act, hact⟩ := h.forward
  have hfind : tables.arpIcmp.find? (·.hits ig.hdr) = none := by
    simpa [List.find?_eq_none] using h.responder
  refine ⟨act, pm, md, hact, ?_⟩
  have hconsume : md.packetType.isConsume = false := by rw [hignore]; rfl
  have hswitch : md.packetType.isSwitchML = false := by rw [hignore]; rfl
  rw [Ingress.apply, hrec]
  simp only [Ingress.process, hdrop, Bool.false_eq_true, if_false, Ingress.count, hconsume, Ingress.aggregate, hswitch,
    ARPandICMPResponder.apply, lookup, hfind, Option.map_none, Forwarder.apply]
  rw [ForwardTable.find, lookup] at hact
  rw [hact]

/-- Other traffic that comes in at a front panel port is sent on as it is, to where the
table says. -/
theorem forwards_unchanged (hport : parsesRecirculate ingressPort = false)
    (hp : IngressParser.start layout false ingressPort u0 u1 pkt = some p)
    (h : Regular tables inp (p.ig portMetadata ingressPort)) (data : Register 14 ReceiverData) (regs : Regs) :
    ∃ act ig', Ingress.apply tables inp data regs (p.ig portMetadata ingressPort) = (data, regs, ig') ∧
      tables.forward.find ((p.ig portMetadata ingressPort).hdr.ethernet.getD default).dstAddr = some act ∧
      act.Sends ingressPort ig' ∧ ig'.dropCtl = false ∧ ig'.bypassEgress = true ∧ ingressDeparse layout p ig' = pkt := by
  have hparse : IngressParser.parseEthernet pkt = some p := by
    simpa [IngressParser.start, IngressParser.parsePortMetadata, hport] using hp
  have hcov := IngressParser.parseEthernet_covers hparse
  obtain ⟨act, pm, md, hact, happ⟩ := h.apply hcov.packetType rfl data regs
  obtain ⟨hhdr, hrest, hmd, hdrop, hbypass⟩ :=
    exec_forward act { p.ig portMetadata ingressPort with portMetadata := pm, md }
  refine ⟨act, _, happ, hact, exec_sends act rfl rfl, hdrop, hbypass, ?_⟩
  rw [ingressDeparse, hmd, hhdr, hrest]
  show [] ++ emitHeaders (Full.HeaderT.view.put (Full.HeaderT.view.get p.hdr) p.hdr) ++
    (Full.data.blocks p.rest).flatMap Full.data.emit ++ Full.data.remainder p.rest = pkt
  rw [Full.HeaderT.view.put_get, List.nil_append, List.append_assoc, Full.data_full.blocks_remainder]
  exact hcov.emit

/-- A discovery frame of a neighbour, with padding. -/
def exampleFrame : Bits := Full.ethernet.emit ⟨0x0180c200000e, 0x0002c9000001, 0x88cc⟩ ++ List.replicate 368 false

def exampleOther : Parsed :=
  { hdr := { ethernet := some ⟨0x0180c200000e, 0x0002c9000001, 0x88cc⟩ }
    bridged := { (default : Bridged) with md := IngressParser.freshMd .IGNORE }
    rest := List.replicate 368 false }

theorem start_exampleFrame :
    IngressParser.start Bridged.packed false 3 (fun _ => 0) (fun _ => 0) exampleFrame = some exampleOther := by
  rw [exampleFrame, IngressParser.start, IngressParser.parsePortMetadata, if_neg (by decide), if_neg (by decide),
    IngressParser.parseEthernet, Format.extract_emit]
  rfl

theorem forwards_unchanged_flood :
    let tables : Tables := ⟨[], [], [], [], ⟨[(0x0002c9000001, .setEgressPort 7)], some (.flood 0x8000)⟩⟩
    let regs := Regs.zero
    let data : Register 14 ReceiverData := fun _ => ⟨0, 0⟩
    ∃ ig', Ingress.apply tables ⟨0, 0, 0⟩ data regs (exampleOther.ig ⟨0, 0⟩ 3) = (data, regs, ig') ∧
      ig'.ucastEgressPort = none ∧ ig'.mcastGrpA = some 0x8000 ∧ ig'.level1ExclusionId = 0x8003 ∧
      ig'.dropCtl = false ∧ ig'.bypassEgress = true ∧ ingressDeparse Bridged.packed exampleOther ig' = exampleFrame := by
  intro tables regs data
  have hregular : Regular tables ⟨0, 0, 0⟩ (exampleOther.ig ⟨0, 0⟩ 3) :=
    { roce := by simp [tables]
      udp := by simp [tables]
      responder := by simp [tables]
      forward := ⟨.flood 0x8000, rfl⟩ }
  obtain ⟨act, ig', happ, hact, hsends, hrest⟩ :=
    forwards_unchanged (by decide) start_exampleFrame hregular data regs
  obtain rfl : .flood 0x8000 = act := Option.some.inj hact
  exact ⟨ig', happ, hsends.1, hsends.2.1, hsends.2.2, hrest⟩

end SwitchML.P4
