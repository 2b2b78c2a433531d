/-
`udp_receiver.p4`: the first pass of a SwitchML UDP packet. The table is filled
by the controller, one entry for each worker.
-/
import SwitchML.P4.Headers

namespace SwitchML.P4

open Tna

/-- `register_size` of `configuration.p4`: a cell for each set of each slot. -/
def registerSize : ℕ := 16384

/-- The arguments `set_bitmap` takes from the table. -/
structure WorkerArgs where
  mgid : BitVec 16
  workerType : WorkerType
  workerId : WorkerId
  numWorkers : NumWorkers
  workerBitmap : WorkerBitmap
  deriving DecidableEq

inductive UdpAction
  | drop
  | setBitmap (args : WorkerArgs)
  deriving DecidableEq

/-- An entry of `receive_udp`. -/
structure UdpEntry where
  ingressPort : Tern 9
  ethSrcAddr : Tern 48
  ethDstAddr : Tern 48
  ipv4SrcAddr : Tern 32
  ipv4DstAddr : Tern 32
  udpDstPort : Tern 16
  parserErr : Tern 16
  action : UdpAction

def UdpEntry.hits (e : UdpEntry) (parserErr : BitVec 16) (ig : Ig) : Bool :=
  let ethernet := ig.hdr.ethernet.getD default
  let ipv4 := ig.hdr.ipv4.getD default
  e.ingressPort.hits ig.ingressPort && e.ethSrcAddr.hits ethernet.srcAddr &&
    e.ethDstAddr.hits ethernet.dstAddr && e.ipv4SrcAddr.hits ipv4.srcAddr &&
    e.ipv4DstAddr.hits ipv4.dstAddr && e.udpDstPort.hits (ig.hdr.udp.getD default).dstPort &&
    e.parserErr.hits parserErr

namespace UDPReceiver

/-- Ignore this packet and drop it when it leaves the pipeline. -/
def drop (ig : Ig) : Ig :=
  { ig with dropCtl := true, md := { ig.md with packetType := .IGNORE } }

/-- This is a regular packet; just forward. -/
def forward (ig : Ig) : Ig := ig.withMd fun md => { md with packetType := .IGNORE }

/-- Move the SwitchML set bit in the MSB to the LSB. -/
def poolIndexOf (poolIndex : BitVec 16) : PoolIndex :=
  poolIndex.extractLsb' 0 14 ++ poolIndex.extractLsb' 15 1

def setBitmap (args : WorkerArgs) (ig : Ig) : Ig :=
  let udp := ig.hdr.udp.getD default
  let switchml := ig.hdr.switchml.getD default
  let exponents := ig.hdr.exponents.getD default
  { ig with
    workerBitmap := args.workerBitmap
    md := { ig.md with
      numWorkers := args.numWorkers
      mgid := args.mgid
      -- Record packet size for use in recirculation
      packetSize := switchml.size
      workerType := args.workerType
      workerId := args.workerId
      dstPort := udp.srcPort
      srcPort := udp.dstPort
      tsi := switchml.tsi
      jobNumber := switchml.jobNumber
      poolIndex := poolIndexOf switchml.poolIndex
      -- Mark packet as single-packet message since it's the UDP protocol
      firstPacket := true
      lastPacket := true
      e0 := exponents.e0
      e1 := exponents.e1 }
    -- Get rid of headers we don't want to recirculate
    hdr := { ig.hdr with
      ethernet := none, ipv4 := none, udp := none, switchml := none, exponents := none } }

def apply (entries : List UdpEntry) (parserErr : BitVec 16) (ig : Ig) : Ig :=
  match lookup entries (·.hits parserErr ig) (·.action) with
  | some .drop => drop ig
  | some (.setBitmap args) => setBitmap args ig
  | none => forward ig

end UDPReceiver

end SwitchML.P4
