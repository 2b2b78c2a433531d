/-
`rdma_receiver.p4`: the first pass of a RoCEv2 packet. The slot of a packet is
known only from the first packet of its message; a register keeps it, with the
next sequence number, for the packets that follow. The fields of the headers an
action invalidates are read as they were before it. The packet counters are
left out.
-/
import SwitchML.P4.UDPReceiver

namespace SwitchML.P4

open Tna

/-- `receiver_data_t` -/
structure ReceiverData where
  nextSequenceNumber : BitVec 32
  poolIndex : BitVec 32
  deriving DecidableEq

/-- `QP_INDEX`: the worker's five bits, then the queue pair's nine. -/
def qpIndex (dstQp : BitVec 24) : BitVec 14 := dstQp.extractLsb' 16 5 ++ dstQp.extractLsb' 0 9

/-- Saturating addition, `|+|`. -/
def satAdd {w : Nat} (a b : BitVec w) : BitVec w :=
  if a.toNat + b.toNat < 2 ^ w then a + b else BitVec.allOnes w

/-- Use with _FIRST and _ONLY packets. -/
def receiverResetAction (psn : BitVec 24) (rKey : BitVec 32) : RegisterAction ReceiverData (BitVec 32) :=
  fun _ =>
    let next := if psn.setWidth 32 = 0x00ffffff then 0 else psn.setWidth 32 + 1
    (⟨next, rKey⟩, rKey)

/-- Use with _MIDDLE and _LAST packets. The MSB of the pool index is the error bit. -/
def receiverIncrementAction (psn : BitVec 24) : RegisterAction ReceiverData (BitVec 32) :=
  fun value =>
    if psn.setWidth 32 = value.nextSequenceNumber then
      let poolIndex := satAdd value.poolIndex 2
      let next := if value.nextSequenceNumber = 0x00ffffff then 0 else value.nextSequenceNumber + 1
      (⟨next, poolIndex⟩, poolIndex)
    else (⟨value.nextSequenceNumber, 0x80000000⟩, 0x80000000)

inductive RoceAction
  | onlyPacket | onlyPacketWithImmediate | firstPacket | middlePacket | lastPacket | lastPacketWithImmediate
  deriving DecidableEq

/-- An entry of `receive_roce`; all its actions take the same arguments. -/
structure RoceEntry where
  ipv4SrcAddr : BitVec 32
  ipv4DstAddr : BitVec 32
  partitionKey : BitVec 16
  opcode : IbOpcode
  dstQp : Tern 24
  action : RoceAction
  args : WorkerArgs
  packetSize : PacketSize

def RoceEntry.hits (e : RoceEntry) (ig : Ig) : Bool :=
  let ipv4 := ig.hdr.ipv4.getD default
  let ibBth := ig.hdr.ibBth.getD default
  decide (ipv4.srcAddr = e.ipv4SrcAddr) && decide (ipv4.dstAddr = e.ipv4DstAddr) &&
    decide (ibBth.partitionKey = e.partitionKey) && decide (ibBth.opcode = e.opcode) &&
    e.dstQp.hits ibBth.dstQp

namespace RDMAReceiver

/-- This is a regular packet; just forward. -/
def forward (ig : Ig) : Ig := ig.withMd fun md => { md with packetType := .IGNORE }

def setBitmap (args : WorkerArgs) (packetSize : PacketSize) (ig : Ig) : Ig :=
  let ibReth := ig.hdr.ibReth.getD default
  { ig with
    workerBitmap := args.workerBitmap
    rdmaAddr := ibReth.addr
    md := { ig.md with
      numWorkers := args.numWorkers
      mgid := args.mgid
      workerType := args.workerType
      workerId := args.workerId
      dstPort := (ig.hdr.udp.getD default).srcPort
      tsi := ibReth.len
      -- Record packet size for use in recirculation
      packetSize := packetSize }
    -- Get rid of headers we don't want to recirculate
    hdr := { ig.hdr with
      ethernet := none, ipv4 := none, udp := none, ibBth := none, ibReth := none } }

def assignPoolIndex (result : BitVec 32) (ig : Ig) : Ig :=
  ig.withMd fun md => { md with poolIndex := result.extractLsb' 0 15 }

def processImmediate (ig : Ig) : Ig :=
  let immediate := (ig.hdr.ibImmediate.getD default).immediate
  { ig with
    md := { ig.md with
      msgId := immediate.extractLsb' 16 16
      e0 := .ofBitVec (immediate.extractLsb' 8 8)
      e1 := .ofBitVec (immediate.extractLsb' 0 8) }
    hdr := { ig.hdr with ibImmediate := none } }

/-- The common part of `only_packet` and `first_packet`: the message starts
here, so the register is reset and there can be no sequence violation. -/
def resetPacket (lastPacket : Bool) (e : RoceEntry) (data : Register 14 ReceiverData) (ig : Ig) :
    Register 14 ReceiverData × Ig :=
  let ibBth := ig.hdr.ibBth.getD default
  let r := data.execute (qpIndex ibBth.dstQp)
    (receiverResetAction ibBth.psn (ig.hdr.ibReth.getD default).rKey)
  let ig := (setBitmap e.args e.packetSize ig).withMd fun md =>
    { md with firstPacket := true, lastPacket := lastPacket }
  (r.1, assignPoolIndex r.2 ig)

/-- The common part of `middle_packet` and `last_packet`: if the sign bit of the
result is set there was a sequence violation, so ignore this packet. -/
def incrementPacket (lastPacket : Bool) (e : RoceEntry) (data : Register 14 ReceiverData) (ig : Ig) :
    Register 14 ReceiverData × Ig :=
  let ibBth := ig.hdr.ibBth.getD default
  let r := data.execute (qpIndex ibBth.dstQp) (receiverIncrementAction ibBth.psn)
  let ig := (setBitmap e.args e.packetSize ig).withMd fun md =>
    { md with firstPacket := false, lastPacket := lastPacket }
  (r.1, assignPoolIndex r.2 { ig with dropCtl := r.2.msb })

def onlyPacket : RoceEntry → Register 14 ReceiverData → Ig → Register 14 ReceiverData × Ig := resetPacket true

def onlyPacketWithImmediate (e : RoceEntry) (data : Register 14 ReceiverData) (ig : Ig) :
    Register 14 ReceiverData × Ig :=
  onlyPacket e data (processImmediate ig)

def firstPacket : RoceEntry → Register 14 ReceiverData → Ig → Register 14 ReceiverData × Ig := resetPacket false

def middlePacket : RoceEntry → Register 14 ReceiverData → Ig → Register 14 ReceiverData × Ig :=
  incrementPacket false

def lastPacket : RoceEntry → Register 14 ReceiverData → Ig → Register 14 ReceiverData × Ig :=
  incrementPacket true

def lastPacketWithImmediate (e : RoceEntry) (data : Register 14 ReceiverData) (ig : Ig) :
    Register 14 ReceiverData × Ig :=
  lastPacket e data (processImmediate ig)

def exec : RoceAction → RoceEntry → Register 14 ReceiverData → Ig → Register 14 ReceiverData × Ig
  | .onlyPacket => onlyPacket
  | .onlyPacketWithImmediate => onlyPacketWithImmediate
  | .firstPacket => firstPacket
  | .middlePacket => middlePacket
  | .lastPacket => lastPacket
  | .lastPacketWithImmediate => lastPacketWithImmediate

def apply (entries : List RoceEntry) (data : Register 14 ReceiverData) (ig : Ig) :
    Register 14 ReceiverData × Ig :=
  match entries.find? (·.hits ig) with
  | some e => exec e.action e data ig
  | none => (data, forward ig)

end RDMAReceiver

end SwitchML.P4
