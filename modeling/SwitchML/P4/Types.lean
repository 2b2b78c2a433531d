/-
The types of `types.p4` and `headers.p4` the pipelines below use. Bit-strings
keep their widths; the enumerations are inductive types. Header and metadata
fields that only counters or checksums read are left out.
-/
import SwitchML.Lib.Tna
import Mathlib.Algebra.Group.Nat.Defs
import Mathlib.Order.Lattice

namespace SwitchML.P4

open Tna

/-! ## Enumerations -/

/-- `worker_type_t` -/
inductive WorkerType
  | FORWARD_ONLY | SWITCHML_UDP | ROCEv2
  deriving DecidableEq, Repr, Inhabited

/-- `packet_size_t`, the `PacketSize` of the controller. -/
inductive PacketSize
  | MTU_128 | MTU_256 | MTU_512 | MTU_1024
  deriving DecidableEq, Repr, Inhabited

/-- `packet_type_t`, in the order of its encoding 0x0 to 0xf. -/
inductive PacketType
  | MIRROR | BROADCAST | RETRANSMIT | IGNORE
  | CONSUME0 | CONSUME1 | CONSUME2 | CONSUME3
  | HARVEST0 | HARVEST1 | HARVEST2 | HARVEST3 | HARVEST4 | HARVEST5 | HARVEST6 | HARVEST7
  deriving DecidableEq, Repr, Inhabited

/-- The four consume types. -/
def PacketType.isConsume : PacketType → Bool
  | .CONSUME0 | .CONSUME1 | .CONSUME2 | .CONSUME3 => true
  | _ => false

/-- `packet_type >= CONSUME0` on the underlying encoding: all consume or harvest types. -/
def PacketType.isSwitchML : PacketType → Bool
  | .MIRROR | .BROADCAST | .RETRANSMIT | .IGNORE => false
  | _ => true

/-! ## Scalar types -/

abbrev PortId := BitVec 9
abbrev WorkerId := BitVec 16
abbrev WorkerBitmap := BitVec 32
abbrev NumWorkers := BitVec 8
abbrev PoolIndex := BitVec 15
abbrev DropProbability := BitVec 16
abbrev MsgId := BitVec 16

/-- `value_t` -/
abbrev Value := BitVec 32

/-- `exponent_t`, an `int<8>`. -/
abbrev Exponent := Int8

/-- Exponents are compared as signed numbers. -/
instance instLinearOrderExponent : LinearOrder Int8 where
  le_refl := Int8.le_refl
  le_trans _ _ _ := Int8.le_trans
  le_antisymm _ _ := Int8.le_antisymm
  le_total := Int8.le_total
  lt_iff_le_not_ge a b := by
    rw [Int8.not_le]
    exact ⟨fun h => ⟨Int8.le_of_lt h, h⟩, fun h => h.2⟩
  toDecidableLE := inferInstance
  min_def _ _ := rfl
  max_def _ _ := rfl

/-- A pair of register cells (`worker_bitmap_pair_t`, `value_pair_t`, ...). -/
structure Pair (α : Type) where
  first : α
  second : α
  deriving DecidableEq, Repr

/-- The half of a pair that belongs to a set. -/
def Pair.ofSet {α : Type} (p : Pair α) (set : Bool) : α := if set then p.second else p.first

/-- The two cells of a pair combine side by side. -/
def Pair.map₂ {α : Type} (op : α → α → α) (p q : Pair α) : Pair α := ⟨op p.first q.first, op p.second q.second⟩

/-- `data_h`: 128 bytes, the words d00 to d31. -/
abbrev DataH := Fin 32 → Value

/-! ## Metadata -/

/-- `switchml_md_h`, bridged from pass to pass. -/
structure SwitchmlMd where
  mgid : BitVec 16
  packetSize : PacketSize
  workerType : WorkerType
  workerId : WorkerId
  srcPort : BitVec 16
  dstPort : BitVec 16
  packetType : PacketType
  /-- Index of pool elements, including both sets: the set is the lowest bit. -/
  poolIndex : PoolIndex
  /-- 0 if first packet, 1 if last packet -/
  firstLastFlag : NumWorkers
  /-- 0 if the packet is new; non-zero if a retransmission -/
  mapResult : WorkerBitmap
  /-- Bitmap value before the current worker is ORed in -/
  workerBitmapBefore : WorkerBitmap
  tsi : BitVec 32
  jobNumber : BitVec 8
  ingressPort : PortId
  simulateEgressDrop : Bool
  numWorkers : NumWorkers
  e0 : Exponent
  e1 : Exponent
  msgId : MsgId
  firstPacket : Bool
  lastPacket : Bool
  deriving DecidableEq, Inhabited

/-- What the first packet of a slot, a new one and a repeated one do to a cell:
write, combine, keep. -/
def SwitchmlMd.absorb {α : Type} (md : SwitchmlMd) (op : α → α → α) (cell x : α) : α :=
  if md.workerBitmapBefore = 0 then x else if md.mapResult = 0 then op cell x else cell

/-! ## Pool indices -/

/-- `pool_index[14:1]`, which indexes the worker bitmaps. -/
def slotOf (poolIndex : PoolIndex) : BitVec 14 := poolIndex.extractLsb' 1 14

/-- The set of a pool index is its lowest bit. -/
def setBit (poolIndex : PoolIndex) : Bool := poolIndex.getLsbD 0

/-- The pool index of a slot's set. -/
def indexOf (slot : BitVec 14) (set : Bool) : PoolIndex := slot ++ BitVec.ofBool set

@[simp] theorem slotOf_indexOf (slot : BitVec 14) (set : Bool) : slotOf (indexOf slot set) = slot := by
  apply BitVec.eq_of_getLsbD_eq
  intro i hi
  unfold slotOf indexOf
  rw [BitVec.getLsbD_extractLsb', BitVec.getLsbD_append, if_neg (by omega)]
  simp only [hi, decide_true, Bool.true_and, Nat.add_sub_cancel_left]

@[simp] theorem setBit_indexOf (slot : BitVec 14) (set : Bool) : setBit (indexOf slot set) = set := by
  unfold setBit indexOf
  rw [BitVec.getLsbD_append]
  cases set <;> rfl

@[simp] theorem indexOf_slotOf (idx : PoolIndex) : indexOf (slotOf idx) (setBit idx) = idx := by
  apply BitVec.eq_of_getLsbD_eq
  intro i hi
  unfold slotOf indexOf setBit
  rw [BitVec.getLsbD_append]
  by_cases h : i = 0
  · subst h; simp
  · rw [if_neg (by omega), BitVec.getLsbD_extractLsb']
    have hlt : i - 1 < 14 := by omega
    have hi1 : 1 + (i - 1) = i := by omega
    simp only [hlt, decide_true, Bool.true_and, hi1]

theorem poolIndex_ext_iff {idx idx' : PoolIndex} :
    idx = idx' ↔ slotOf idx = slotOf idx' ∧ setBit idx = setBit idx' := by
  refine ⟨fun h => h ▸ ⟨rfl, rfl⟩, fun ⟨hs, hb⟩ => ?_⟩
  rw [← indexOf_slotOf idx, ← indexOf_slotOf idx', hs, hb]

/-! ## Registers -/

/-- `port_metadata_t` -/
structure PortMetadata where
  ingressDropProbability : DropProbability
  egressDropProbability : DropProbability

/-- The stateful registers of one pipe that aggregation uses, all instances of
them: 32 `Processor` instances each hold a register of value pairs. -/
structure Regs where
  workerBitmap : Register 14 (Pair WorkerBitmap)
  workersCount : Register 15 (Pair NumWorkers)
  exponents : Register 15 (Pair Exponent)
  values : Fin 32 → Register 15 (Pair Value)

/-- All registers zero, as after `_clear`. -/
def Regs.zero : Regs where
  workerBitmap := fun _ => ⟨0, 0⟩
  workersCount := fun _ => ⟨0, 0⟩
  exponents := fun _ => ⟨0, 0⟩
  values := fun _ _ => ⟨0, 0⟩

end SwitchML.P4
