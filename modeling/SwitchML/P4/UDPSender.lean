/-
`udp_sender.p4`: the response to a worker of the UDP protocol. Two tables hold
the addresses of the switch and of the workers. The pool index goes back into the
form in which the worker sent it, with the set bit on top.
-/
import SwitchML.P4.UDPReceiver

namespace SwitchML.P4

open Tna

/-- What the controls of the egress pipeline read and write. -/
structure Eg where
  hdr : Hdr
  md : SwitchmlMd
  rdmaAddr : BitVec 64
  /-- `egress_rid`: the replication id of a multicast copy. -/
  egressRid : WorkerId
  /-- `drop_ctl[0:0]` -/
  dropCtl : Bool

/-- The MAC and IP address of the switch or of a worker. -/
structure Address where
  mac : BitVec 48
  ip : BitVec 32
  deriving DecidableEq, Inhabited

namespace UDPSender

/-- The tables of the control; the first one has a default action only. -/
structure Tables where
  switchMacAndIp : Option Address
  dstAddr : List (WorkerId × Address)

/-- Assign the slot's bits, `pool_index[13:0]`. -/
def assignSlot (poolIndex : BitVec 16) (slot : BitVec 14) : BitVec 16 := poolIndex.extractLsb' 14 2 ++ slot

/-- Assign the set's bit, `pool_index[15:15]`. -/
def assignSet (poolIndex : BitVec 16) (set : BitVec 1) : BitVec 16 := set ++ poolIndex.extractLsb' 0 15

def setSwitchMacAndIp (switch : Address) (eg : Eg) : Eg :=
  let ethernet := eg.hdr.ethernet.getD default
  let ipv4 := eg.hdr.ipv4.getD default
  let udp := eg.hdr.udp.getD default
  let switchml := eg.hdr.switchml.getD default
  { eg with
    hdr := { eg.hdr with
      ethernet := some { ethernet with srcAddr := switch.mac }
      ipv4 := some { ipv4 with srcAddr := switch.ip }
      udp := some { udp with srcPort := eg.md.srcPort }
      switchml := some
        { size := eg.md.packetSize
          jobNumber := eg.md.jobNumber
          tsi := eg.md.tsi
          -- Rearrange pool index
          poolIndex := assignSlot switchml.poolIndex (eg.md.poolIndex.extractLsb' 1 14) } } }

def setDstAddr (dst : Address) (eg : Eg) : Eg :=
  let ethernet := eg.hdr.ethernet.getD default
  let ipv4 := eg.hdr.ipv4.getD default
  let udp := eg.hdr.udp.getD default
  let switchml := eg.hdr.switchml.getD default
  { eg with
    hdr := { eg.hdr with
      ethernet := some { ethernet with dstAddr := dst.mac }
      ipv4 := some { ipv4 with dstAddr := dst.ip }
      udp := some { udp with dstPort := eg.md.dstPort }
      -- Pool set bit
      switchml := some { switchml with poolIndex := assignSet switchml.poolIndex (eg.md.poolIndex.extractLsb' 0 1) }
      exponents := some { e0 := eg.md.e0, e1 := eg.md.e1 } } }

/-- The headers are made valid, and the pool index starts as zero. -/
def setValid (eg : Eg) : Eg :=
  { eg with
    hdr := { eg.hdr with
      ethernet := some (eg.hdr.ethernet.getD default)
      ipv4 := some (eg.hdr.ipv4.getD default)
      udp := some (eg.hdr.udp.getD default)
      switchml := some { eg.hdr.switchml.getD default with poolIndex := 0 } } }

def applySwitchMacAndIp (tables : Tables) (eg : Eg) : Eg :=
  match tables.switchMacAndIp with
  | some switch => setSwitchMacAndIp switch eg
  | none => eg

def applyDstAddr (tables : Tables) (eg : Eg) : Eg :=
  match lookup tables.dstAddr (fun e => decide (e.1 = eg.md.workerId)) Prod.snd with
  | some dst => setDstAddr dst eg
  | none => eg

def apply (tables : Tables) (eg : Eg) : Eg := applyDstAddr tables (applySwitchMacAndIp tables (setValid eg))

/-- The pool index in the header of a response. -/
def wirePoolIndex (poolIndex : PoolIndex) : BitVec 16 :=
  assignSet (assignSlot 0 (poolIndex.extractLsb' 1 14)) (poolIndex.extractLsb' 0 1)

variable {tables : Tables} {eg : Eg}

/-- The response to a worker that both tables know. -/
theorem apply_poolIndex {switch dst : Address} (hswitch : tables.switchMacAndIp = some switch)
    (hdst : lookup tables.dstAddr (fun e => decide (e.1 = eg.md.workerId)) Prod.snd = some dst) :
    (apply tables eg).hdr.switchml.map SwitchmlH.poolIndex = some (wirePoolIndex eg.md.poolIndex) := by
  have hmd : (applySwitchMacAndIp tables (setValid eg)).md = eg.md := by
    rw [applySwitchMacAndIp, hswitch]
    rfl
  rw [apply, applyDstAddr, hmd, hdst, applySwitchMacAndIp, hswitch]
  rfl

theorem assignSlot_zero_getLsbD (slot : BitVec 14) (k : ℕ) : (assignSlot 0 slot).getLsbD k = slot.getLsbD k := by
  have htop : (0 : BitVec 16).extractLsb' 14 2 = 0 := rfl
  rw [assignSlot, htop, BitVec.getLsbD_append]
  split
  · rfl
  · rename_i hge
    rw [BitVec.getLsbD_of_ge slot k (by omega)]
    exact BitVec.getLsbD_zero

theorem wirePoolIndex_getLsbD (poolIndex : PoolIndex) {k : ℕ} (hk : k < 16) :
    (wirePoolIndex poolIndex).getLsbD k =
      if k < 14 then poolIndex.getLsbD (k + 1) else decide (k = 15) && setBit poolIndex := by
  rw [wirePoolIndex, assignSet, BitVec.getLsbD_append]
  split
  · rename_i hlow
    rw [BitVec.getLsbD_extractLsb', Nat.zero_add, assignSlot_zero_getLsbD, BitVec.getLsbD_extractLsb',
      Nat.add_comm 1 k]
    by_cases hslot : k < 14
    · rw [if_pos hslot, decide_eq_true hlow, decide_eq_true hslot, Bool.true_and, Bool.true_and]
    · obtain rfl : k = 14 := by omega
      rw [if_neg hslot, decide_eq_false hslot, Bool.false_and, Bool.and_false]
      rfl
  · obtain rfl : k = 15 := by omega
    simp [setBit]

/-- What the receiver makes of a worker's index is sent back as it came, unless
it uses the bit between the slot and the set. -/
theorem wirePoolIndex_poolIndexOf (i : BitVec 16) :
    wirePoolIndex (UDPReceiver.poolIndexOf i) = i ↔ i.getLsbD 14 = false := by
  have hslot (k : ℕ) (hk : k < 14) : (UDPReceiver.poolIndexOf i).getLsbD (k + 1) = i.getLsbD k := by
    rw [UDPReceiver.poolIndexOf, BitVec.getLsbD_append, if_neg (by omega)]
    simp [hk]
  have hset : setBit (UDPReceiver.poolIndexOf i) = i.getLsbD 15 := by
    rw [setBit, UDPReceiver.poolIndexOf, BitVec.getLsbD_append]
    simp
  constructor
  · intro h
    have hbit := wirePoolIndex_getLsbD (UDPReceiver.poolIndexOf i) (k := 14) (by omega)
    rw [h] at hbit
    simpa using hbit
  · intro h14
    apply BitVec.eq_of_getLsbD_eq
    intro k hk
    rw [wirePoolIndex_getLsbD _ hk, hset]
    split
    · rename_i hlow
      exact hslot k hlow
    · rcases (by omega : k = 14 ∨ k = 15) with rfl | rfl
      · rw [h14]
        rfl
      · simp

end UDPSender

end SwitchML.P4
