/-
`next_step_selector.p4`: what happens to the packet after this pass. The table
is filled by the controller; the actions are here. The packet counters are left
out.
-/
import SwitchML.P4.Headers

namespace SwitchML.P4

open Tna

/-- The actions of `next_step`, with their argument. -/
inductive NextStep
  | recirculateForCONSUME1 (recircPort : PortId)
  | recirculateForCONSUME2SamePortNextPipe
  | recirculateForCONSUME3SamePortNextPipe
  | recirculateForHARVEST1 (recircPort : PortId)
  | recirculateForHARVEST2 (recircPort : PortId)
  | recirculateForHARVEST3 (recircPort : PortId)
  | recirculateForHARVEST4 (recircPort : PortId)
  | recirculateForHARVEST5 (recircPort : PortId)
  | recirculateForHARVEST6 (recircPort : PortId)
  | recirculateForHARVEST7 (recircPort : PortId)
  | finishConsume
  | broadcast
  | retransmit
  | drop
  deriving DecidableEq, Repr

/-- An entry of `next_step`; `none` is a zero mask. -/
structure NextStepEntry where
  packetSize : Option PacketSize
  workerId : Option WorkerId
  packetType : Option PacketType
  firstLastFlag : Option NumWorkers
  mapResult : Option WorkerBitmap
  priority : Nat
  action : NextStep
  deriving DecidableEq

def NextStepEntry.hits (e : NextStepEntry) (md : SwitchmlMd) : Bool :=
  Tna.hits e.packetSize md.packetSize && Tna.hits e.workerId md.workerId &&
    Tna.hits e.packetType md.packetType && Tna.hits e.firstLastFlag md.firstLastFlag &&
    Tna.hits e.mapResult md.mapResult

/-- The action `next_step` selects from entries listed by priority; the default is to drop. -/
def nextStep (entries : List NextStepEntry) (md : SwitchmlMd) : NextStep :=
  (lookup entries (·.hits md) (·.action)).getD .drop

/-- `null_level1_exclusion_id`: don't exclude any nodes. -/
def nullLevel1ExclusionId : BitVec 16 := 0xffff

namespace NextStepSelector

/-- `hdr.d0.setInvalid()` -/
def dropD0 (ig : Ig) : Ig := ig.withHdr fun hdr => { hdr with d0 := none }

/-- `hdr.d1.setInvalid()` -/
def dropD1 (ig : Ig) : Ig := ig.withHdr fun hdr => { hdr with d1 := none }

/-- Send to a recirculation port, past egress, as `packetType`. -/
def recirculate (packetType : PacketType) (recircPort : PortId) (ig : Ig) : Ig :=
  { ig with
    ucastEgressPort := some recircPort
    bypassEgress := true
    dropCtl := false
    md := { ig.md with packetType := packetType } }

/-- Drop both data headers now that they've been consumed. -/
def recirculateForConsume (packetType : PacketType) (recircPort : PortId) (ig : Ig) : Ig :=
  recirculate packetType recircPort (dropD1 (dropD0 ig))

def recirculateForHarvest (packetType : PacketType) (recircPort : PortId) (ig : Ig) : Ig :=
  recirculate packetType recircPort ig

/-- `pipe ++ ig_intr_md.ingress_port[6:0]`: the same port in another pipe. -/
def samePort (pipe : BitVec 2) (port : PortId) : PortId := pipe ++ port.extractLsb' 0 7

def recirculateForCONSUME1 (recircPort : PortId) (ig : Ig) : Ig :=
  recirculateForConsume .CONSUME1 recircPort ig

def recirculateForCONSUME2SamePortNextPipe (ig : Ig) : Ig :=
  recirculateForConsume .CONSUME2 (samePort 2 ig.ingressPort) ig

def recirculateForCONSUME3SamePortNextPipe (ig : Ig) : Ig :=
  recirculateForConsume .CONSUME3 (samePort 3 ig.ingressPort) ig

def recirculateForHARVEST1 (recircPort : PortId) (ig : Ig) : Ig :=
  recirculateForHarvest .HARVEST1 recircPort (dropD0 ig)

def recirculateForHARVEST2 (recircPort : PortId) (ig : Ig) : Ig :=
  recirculateForHarvest .HARVEST2 recircPort (dropD1 ig)

def recirculateForHARVEST3 (recircPort : PortId) (ig : Ig) : Ig :=
  recirculateForHarvest .HARVEST3 recircPort (dropD0 ig)

def recirculateForHARVEST4 (recircPort : PortId) (ig : Ig) : Ig :=
  recirculateForHarvest .HARVEST4 recircPort (dropD1 ig)

def recirculateForHARVEST5 (recircPort : PortId) (ig : Ig) : Ig :=
  recirculateForHarvest .HARVEST5 recircPort (dropD0 ig)

def recirculateForHARVEST6 (recircPort : PortId) (ig : Ig) : Ig :=
  recirculateForHarvest .HARVEST6 recircPort (dropD1 ig)

def recirculateForHARVEST7 (recircPort : PortId) (ig : Ig) : Ig :=
  recirculateForHarvest .HARVEST7 recircPort (dropD0 ig)

def finishConsume (ig : Ig) : Ig := { ig with dropCtl := true }

/-- Send to the multicast group; egress will fill in the destination. -/
def broadcast (ig : Ig) : Ig :=
  let ig := dropD1 ig
  { ig with
    mcastGrpA := some ig.md.mgid
    level1ExclusionId := nullLevel1ExclusionId
    bypassEgress := false
    dropCtl := false
    md := { ig.md with packetType := .BROADCAST } }

/-- Send back out of the ingress port of the first pass. -/
def retransmit (ig : Ig) : Ig :=
  let ig := dropD1 ig
  { ig with
    ucastEgressPort := some ig.md.ingressPort
    bypassEgress := false
    dropCtl := false
    md := { ig.md with packetType := .RETRANSMIT } }

def drop (ig : Ig) : Ig :=
  { ig with dropCtl := true, md := { ig.md with packetType := .IGNORE } }

/-- Run the selected action. -/
def exec : NextStep → Ig → Ig
  | .recirculateForCONSUME1 port => recirculateForCONSUME1 port
  | .recirculateForCONSUME2SamePortNextPipe => recirculateForCONSUME2SamePortNextPipe
  | .recirculateForCONSUME3SamePortNextPipe => recirculateForCONSUME3SamePortNextPipe
  | .recirculateForHARVEST1 port => recirculateForHARVEST1 port
  | .recirculateForHARVEST2 port => recirculateForHARVEST2 port
  | .recirculateForHARVEST3 port => recirculateForHARVEST3 port
  | .recirculateForHARVEST4 port => recirculateForHARVEST4 port
  | .recirculateForHARVEST5 port => recirculateForHARVEST5 port
  | .recirculateForHARVEST6 port => recirculateForHARVEST6 port
  | .recirculateForHARVEST7 port => recirculateForHARVEST7 port
  | .finishConsume => finishConsume
  | .broadcast => broadcast
  | .retransmit => retransmit
  | .drop => drop

def apply (entries : List NextStepEntry) (ig : Ig) : Ig := exec (nextStep entries ig.md) ig

end NextStepSelector

end SwitchML.P4
