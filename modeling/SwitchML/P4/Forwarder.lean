/-
`arp_icmp_responder.p4` and `forwarder.p4`: what ingress does with a packet it
does not aggregate.
-/
import SwitchML.P4.Headers

namespace SwitchML.P4

open Tna

/-! ## ARPandICMPResponder -/

inductive ArpIcmpAction
  | sendArpReply (switchMac : BitVec 48) (switchIp : BitVec 32)
  | sendIcmpEchoReply (switchMac : BitVec 48) (switchIp : BitVec 32)
  deriving DecidableEq

/-- An entry of `arp_icmp`. -/
structure ArpIcmpEntry where
  arpIpv4Valid : Bool
  icmpValid : Bool
  arpOpcode : Tern 16
  arpDstProtoAddr : Tern 32
  icmpMsgType : Tern 8
  ipv4DstAddr : Tern 32
  action : ArpIcmpAction

def ArpIcmpEntry.hits (e : ArpIcmpEntry) (hdr : Hdr) : Bool :=
  decide (hdr.arpIpv4.isSome = e.arpIpv4Valid) && decide (hdr.icmp.isSome = e.icmpValid) &&
    e.arpOpcode.hits (hdr.arp.getD default).opcode &&
    e.arpDstProtoAddr.hits (hdr.arpIpv4.getD default).dstProtoAddr &&
    e.icmpMsgType.hits (hdr.icmp.getD default).msgType && e.ipv4DstAddr.hits (hdr.ipv4.getD default).dstAddr

namespace ARPandICMPResponder

/-- Send packet back immediately. -/
def sendBack (ig : Ig) : Ig := { ig with ucastEgressPort := some ig.ingressPort }

def sendArpReply (switchMac : BitVec 48) (switchIp : BitVec 32) (ig : Ig) : Ig :=
  let arpIpv4 := ig.hdr.arpIpv4.getD default
  sendBack (ig.withHdr fun hdr =>
    { hdr with
      ethernet := hdr.ethernet.map fun _ => ⟨arpIpv4.srcHwAddr, switchMac⟩
      arp := hdr.arp.map fun _ => ⟨2⟩
      arpIpv4 := hdr.arpIpv4.map fun a => ⟨switchMac, switchIp, a.srcHwAddr, a.srcProtoAddr⟩ })

def sendIcmpEchoReply (switchMac : BitVec 48) (switchIp : BitVec 32) (ig : Ig) : Ig :=
  sendBack (ig.withHdr fun hdr =>
    { hdr with
      ethernet := hdr.ethernet.map fun e => ⟨e.srcAddr, switchMac⟩
      ipv4 := hdr.ipv4.map fun a => ⟨switchIp, a.srcAddr⟩
      icmp := hdr.icmp.map fun _ => ⟨0, 0⟩ })

def apply (entries : List ArpIcmpEntry) (ig : Ig) : Ig :=
  match lookup entries (·.hits ig.hdr) (·.action) with
  | some (.sendArpReply mac ip) => sendArpReply mac ip ig
  | some (.sendIcmpEchoReply mac ip) => sendIcmpEchoReply mac ip ig
  | none => ig

end ARPandICMPResponder

/-! ## Forwarder -/

inductive ForwardAction
  | setEgressPort (egressPort : PortId)
  | flood (floodMgid : BitVec 16)
  deriving DecidableEq

/-- The table `forward`: entries by destination address, and the default
action, if one is set. -/
structure ForwardTable where
  entries : List (BitVec 48 × ForwardAction)
  default : Option ForwardAction

namespace Forwarder

def setEgressPort (egressPort : PortId) (ig : Ig) : Ig :=
  { ig with ucastEgressPort := some egressPort, bypassEgress := true, dropCtl := false, mdValid := false }

/-- We use 0x8000 + dev_port as the RID and XID for the flood group. -/
def flood (floodMgid : BitVec 16) (ig : Ig) : Ig :=
  { ig with
    mcastGrpA := some floodMgid
    level1ExclusionId := (0b1000000 : BitVec 7) ++ ig.ingressPort
    bypassEgress := true
    dropCtl := false
    mdValid := false }

def exec : ForwardAction → Ig → Ig
  | .setEgressPort port => setEgressPort port
  | .flood mgid => flood mgid

def apply (table : ForwardTable) (ig : Ig) : Ig :=
  let dstAddr := (ig.hdr.ethernet.getD default).dstAddr
  match (lookup table.entries (fun e => decide (dstAddr = e.1)) (·.2)).or table.default with
  | some act => exec act ig
  | none => ig

end Forwarder

end SwitchML.P4
