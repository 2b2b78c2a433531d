/-
What becomes of a packet that the bitmap stage decides to drop. It is marked for
drop and as a packet to ignore, which keeps the aggregation off it; but packets
to ignore are the ones the forwarder handles, and its actions take the drop mark
away.
-/
import SwitchML.P4.Ingress

namespace SwitchML.P4

open Tna

/-! ## Up to the bitmap stage -/

variable {tables : Tables} {inp : Ingress.Inputs} {data : Register 14 ReceiverData} {regs : Regs} {ig : Ig}

theorem RDMAReceiver.apply_destination (entries : List RoceEntry) (data : Register 14 ReceiverData) (ig : Ig) :
    (RDMAReceiver.apply entries data ig).2.ucastEgressPort = ig.ucastEgressPort ∧
      (RDMAReceiver.apply entries data ig).2.mcastGrpA = ig.mcastGrpA := by
  unfold RDMAReceiver.apply
  split
  · rename_i e _
    cases e.action <;> exact ⟨rfl, rfl⟩
  · exact ⟨rfl, rfl⟩

theorem UDPReceiver.apply_destination (entries : List UdpEntry) (parserErr : BitVec 16) (ig : Ig) :
    (UDPReceiver.apply entries parserErr ig).ucastEgressPort = ig.ucastEgressPort ∧
      (UDPReceiver.apply entries parserErr ig).mcastGrpA = ig.mcastGrpA := by
  unfold UDPReceiver.apply
  split <;> exact ⟨rfl, rfl⟩

/-- The receivers choose no destination. -/
theorem receive_destination (tables : Tables) (inp : Ingress.Inputs) (data : Register 14 ReceiverData) (ig : Ig)
    (h : ig.md.packetType = .CONSUME0) :
    (Ingress.receive tables inp data ig).2.ucastEgressPort = ig.ucastEgressPort ∧
      (Ingress.receive tables inp data ig).2.mcastGrpA = ig.mcastGrpA := by
  unfold Ingress.receive
  rw [if_pos h]
  dsimp only
  split
  · exact RDMAReceiver.apply_destination _ _ _
  · exact UDPReceiver.apply_destination _ _ _

/-! ## After it -/

/-- The packet reaches the bitmap stage, and the action selected there is a drop. -/
structure DecidesDrop (ig : Ig) : Prop where
  valid : ig.dropCtl = false
  consume : ig.md.packetType.isConsume = true
  action : updateAndCheckAction ig = .drop ∨ updateAndCheckAction ig = .simulateDrop

/-- No table after the bitmap stage has anything for a packet with these headers. -/
def Tables.PassOver (tables : Tables) (hdr : Hdr) : Prop :=
  lookup tables.arpIcmp (·.hits hdr) (·.action) = none ∧
    (lookup tables.forward.entries (fun e => decide ((hdr.ethernet.getD default).dstAddr = e.1)) (·.2)).or
      tables.forward.default = none

/-- A packet to ignore is not counted. -/
theorem WorkersCounter.apply_ignore (h : ig.md.packetType = .IGNORE) : WorkersCounter.apply regs ig = (regs, ig) := by
  have hact : countAction ig.md = .noAction := by
    simp [countAction, lookup, countWorkersEntries, h]
  rw [WorkersCounter.apply, hact]

/-- The headers the forwarder goes by are not there any more. -/
theorem receive_ethernet (h : ig.md.packetType = .CONSUME0)
    (hdrop : DecidesDrop (Ingress.receive tables inp data ig).2) :
    (Ingress.receive tables inp data ig).2.hdr.ethernet = none := by
  have hvalid := hdrop.valid
  have hconsume := hdrop.consume
  unfold Ingress.receive at hvalid hconsume ⊢
  rw [if_pos h] at hvalid hconsume ⊢
  dsimp only at hvalid hconsume ⊢
  split at hvalid
  · rename_i hbth
    rw [if_pos hbth] at hconsume ⊢
    unfold RDMAReceiver.apply at hconsume ⊢
    split at hconsume
    · rename_i e he
      cases e.action <;> rfl
    · cases hconsume
  · rename_i hbth
    rw [if_neg hbth] at hconsume ⊢
    unfold UDPReceiver.apply at hconsume ⊢
    split at hconsume
    · cases hconsume
    · rfl
    · cases hconsume

/-- The controller sets a default action of the forwarder, so it has one for every packet. -/
theorem not_passOver {act : ForwardAction} (h : tables.forward.default = some act) (hdr : Hdr) :
    ¬tables.PassOver hdr := by
  intro hpass
  have hnone := hpass.2
  rw [h, Option.or_some] at hnone
  cases hnone

/-- From the decision on, the packet is only looked at by the responder and the forwarder. -/
theorem process_decidesDrop (h : DecidesDrop ig) :
    Ingress.process tables regs ig = (regs, Forwarder.apply tables.forward
      (ARPandICMPResponder.apply tables.arpIcmp (UpdateAndCheckWorkerBitmap.drop ig))) := by
  have hcheck : UpdateAndCheckWorkerBitmap.apply regs ig = (regs, UpdateAndCheckWorkerBitmap.drop ig) := by
    unfold UpdateAndCheckWorkerBitmap.apply
    rcases h.action with hact | hact
    · rw [hact]
    · rw [hact]
      rfl
  have hcount : Ingress.count regs ig = (regs, UpdateAndCheckWorkerBitmap.drop ig) := by
    unfold Ingress.count
    rw [if_pos h.consume, hcheck]
    exact WorkersCounter.apply_ignore rfl
  unfold Ingress.process
  rw [h.valid, if_neg (by decide), hcount]
  rfl

/-- The forwarder's actions give the packet a destination and unmark it. -/
theorem forwarder_exec (act : ForwardAction) (ig : Ig) : (Forwarder.exec act ig).dropCtl = false := by
  cases act <;> rfl

/-- The forwarder leaves the mark only on a packet it has no action for. -/
theorem forwarder_marked {table : ForwardTable} (hd : (Forwarder.apply table ig).dropCtl = true) :
    (lookup table.entries (fun e => decide ((ig.hdr.ethernet.getD default).dstAddr = e.1)) (·.2)).or table.default = none ∧
      Forwarder.apply table ig = ig := by
  unfold Forwarder.apply at hd ⊢
  dsimp only at hd ⊢
  split at hd
  · rename_i act _
    rw [forwarder_exec] at hd
    cases hd
  · rename_i hnone
    rw [hnone]
    exact ⟨rfl, rfl⟩

/-- The responder sends a packet it has an action for back. -/
theorem respond_some {entries : List ArpIcmpEntry} {act : ArpIcmpAction}
    (h : lookup entries (·.hits ig.hdr) (·.action) = some act) :
    ∃ port, (ARPandICMPResponder.apply entries ig).ucastEgressPort = some port := by
  unfold ARPandICMPResponder.apply
  rw [h]
  cases act <;> exact ⟨_, rfl⟩

/-- A drop decision stands, with no destination, if and only if neither the
responder nor the forwarder has anything for the packet. No register changes. -/
theorem drop_final_iff {pm : PortMetadata} {port : PortId} {hdr : Hdr} {payload : List DataH}
    (hparse : parseFirst pm port hdr payload = some ig) (hdrop : DecidesDrop (Ingress.receive tables inp data ig).2) :
    let r := Ingress.apply tables inp data regs ig
    (r.2.2.dropCtl = true ∧ r.2.2.ucastEgressPort = none ∧ r.2.2.mcastGrpA = none ∧ r.2.1 = regs) ↔
      tables.PassOver (Ingress.receive tables inp data ig).2.hdr := by
  have hstart : ig.md.packetType = .CONSUME0 ∧ ig.ucastEgressPort = none ∧ ig.mcastGrpA = none := by
    unfold parseFirst parseConsume at hparse
    split at hparse
    · rw [← Option.some.inj hparse]
      exact ⟨rfl, rfl, rfl⟩
    · cases hparse
  obtain ⟨hucast, hmcast⟩ := receive_destination tables inp data ig hstart.1
  rw [hstart.2.1] at hucast
  rw [hstart.2.2] at hmcast
  unfold Ingress.apply
  dsimp only
  generalize (Ingress.receive tables inp data ig).2 = ig' at hdrop hucast hmcast ⊢
  rw [process_decidesDrop hdrop]
  dsimp only
  constructor
  · intro h
    obtain ⟨hd, hu, -, -⟩ := h
    obtain ⟨hnone, hsame⟩ := forwarder_marked hd
    rw [hsame] at hu
    cases harp : lookup tables.arpIcmp (·.hits (UpdateAndCheckWorkerBitmap.drop ig').hdr) (·.action) with
    | none =>
      refine ⟨harp, ?_⟩
      unfold ARPandICMPResponder.apply at hnone
      rw [harp] at hnone
      exact hnone
    | some act =>
      obtain ⟨p, hp⟩ := respond_some harp
      rw [hp] at hu
      cases hu
  · intro ⟨harp, hnone⟩
    have hrespond : ARPandICMPResponder.apply tables.arpIcmp (UpdateAndCheckWorkerBitmap.drop ig') =
        UpdateAndCheckWorkerBitmap.drop ig' := by
      unfold ARPandICMPResponder.apply
      rw [show lookup tables.arpIcmp (·.hits (UpdateAndCheckWorkerBitmap.drop ig').hdr) (·.action) = none from harp]
    rw [hrespond]
    unfold Forwarder.apply
    dsimp only
    rw [show (lookup tables.forward.entries (fun e => decide
      (((UpdateAndCheckWorkerBitmap.drop ig').hdr.ethernet.getD default).dstAddr = e.1)) (·.2)).or
        tables.forward.default = none from hnone]
    exact ⟨rfl, hucast, hmcast, rfl⟩

/-- One worker, and a forwarding table. -/
def exampleTables (forward : ForwardTable) : Tables where
  receiveUdp := [⟨.any, .any, .any, .any, .any, .any, .any, .setBitmap ⟨0, .SWITCHML_UDP, 0, 2, 1⟩⟩]
  receiveRoce := []
  nextStep := []
  arpIcmp := []
  forward := forward

/-- A packet of the worker. -/
def exampleHdr : Hdr where
  ethernet := some ⟨0xa, 0xb⟩
  ipv4 := some ⟨1, 2⟩
  udp := some ⟨4000, 48864⟩
  switchml := some ⟨.MTU_256, 0, 0, 0⟩
  exponents := some ⟨0, 0⟩

/-- The parsed packet, on a port where every packet is to be dropped. -/
def exampleParsed : Ig :=
  { Ig.ofWire ⟨0xffff, 0⟩ 3 ⟨{ (default : SwitchmlMd) with packetType := .CONSUME0 }, 0, []⟩ with
    hdr := { exampleHdr with d0 := some fun _ => 0, d1 := some fun _ => 0 } }

def exampleInputs : Ingress.Inputs := ⟨0, 0, 0⟩

theorem exampleParsed_eq : parseFirst ⟨0xffff, 0⟩ 3 exampleHdr [fun _ => 0, fun _ => 0] = some exampleParsed := rfl

theorem exampleParsed_decidesDrop (forward : ForwardTable) :
    DecidesDrop (Ingress.receive (exampleTables forward) exampleInputs (fun _ => ⟨0, 0⟩) exampleParsed).2 where
  valid := rfl
  consume := rfl
  action := by
    have hdrawn : (egressDropSim 0 (ingressDropSim 0 ⟨0xffff, 0⟩)).1.ingressDropProbability = 0xffff := by decide
    exact .inr (updateAndCheckAction_simulateDrop rfl hdrawn)

/-- With the entries every forwarding table has, the packet is flooded. -/
theorem drop_flooded :
    let tables := exampleTables ⟨[(0xffffffffffff, .flood 0x8000)], some (.flood 0x8000)⟩
    DecidesDrop (Ingress.receive tables exampleInputs (fun _ => ⟨0, 0⟩) exampleParsed).2 ∧
      (Ingress.apply tables exampleInputs (fun _ => ⟨0, 0⟩) Regs.zero exampleParsed).2.2.dropCtl = false ∧
      (Ingress.apply tables exampleInputs (fun _ => ⟨0, 0⟩) Regs.zero exampleParsed).2.2.mcastGrpA = some 0x8000 :=
  ⟨exampleParsed_decidesDrop _, rfl, rfl⟩

/-- With an empty forwarding table, the packet is dropped. -/
theorem drop_final_empty :
    (Ingress.apply (exampleTables ⟨[], none⟩) exampleInputs (fun _ => ⟨0, 0⟩) Regs.zero exampleParsed).2.2.dropCtl =
      true :=
  ((drop_final_iff exampleParsed_eq (exampleParsed_decidesDrop _)).mpr ⟨rfl, rfl⟩).1

end SwitchML.P4
