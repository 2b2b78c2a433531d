/-
`processor.p4`: one register of value pairs; each pass writes, sums or reads
one pair. Ingress applies 32 instances, one for each word of the data headers.
-/
import SwitchML.P4.Headers

namespace SwitchML.P4

open Tna

/-- Write both values and read the second one. -/
def valuesWriteRead1 (value0 value1 : Value) : RegisterAction (Pair Value) Value :=
  fun _ => (⟨value0, value1⟩, value1)

/-- Compute the sum of both values and read the second one. -/
def valuesSumRead1 (value0 value1 : Value) : RegisterAction (Pair Value) Value :=
  fun value => (⟨value.first + value0, value.second + value1⟩, value.second + value1)

/-- Read the first sum register. -/
def valuesRead0 : RegisterAction (Pair Value) Value := fun value => (value, value.first)

/-- Read the second sum register. -/
def valuesRead1 : RegisterAction (Pair Value) Value := fun value => (value, value.second)

inductive SumAction
  | writeRead1 | sumRead1 | read0 | read1 | noAction
  deriving DecidableEq

/-- The entries of `sum`: worker bitmap before, map result, packet type. -/
def sumEntries : List (Option WorkerBitmap × Option WorkerBitmap × PacketType × SumAction) :=
  [ -- first packet for slot: just write values and read second value
    (some 0, none, .CONSUME0, .writeRead1),
    (some 0, none, .CONSUME1, .writeRead1),
    (some 0, none, .CONSUME2, .writeRead1),
    (some 0, none, .CONSUME3, .writeRead1),
    -- bitmap_before nonzero, map_result all 0's: compute sum of values and read second value
    (none, some 0, .CONSUME0, .sumRead1),
    (none, some 0, .CONSUME1, .sumRead1),
    (none, some 0, .CONSUME2, .sumRead1),
    (none, some 0, .CONSUME3, .sumRead1),
    -- a retransmission, so just read second value
    (none, none, .CONSUME0, .read1),
    (none, none, .CONSUME1, .read1),
    (none, none, .CONSUME2, .read1),
    (none, none, .CONSUME3, .read1),
    -- If type is HARVEST, read one set of values based on sequence
    (none, none, .HARVEST0, .read1), -- extract data1 slice in pipe 3
    (none, none, .HARVEST1, .read0), -- extract data0 slice in pipe 3
    (none, none, .HARVEST2, .read1), -- extract data1 slice in pipe 2
    (none, none, .HARVEST3, .read0), -- extract data0 slice in pipe 2
    (none, none, .HARVEST4, .read1), -- extract data1 slice in pipe 1
    (none, none, .HARVEST5, .read0), -- extract data0 slice in pipe 1
    (none, none, .HARVEST6, .read1), -- extract data1 slice in pipe 0
    (none, none, .HARVEST7, .read0) ] -- last pass; extract data0 slice in pipe 0

/-- The harvest types that read the first half of the pair. -/
def PacketType.readsFirst : PacketType → Bool
  | .HARVEST1 | .HARVEST3 | .HARVEST5 | .HARVEST7 => true
  | _ => false

/-- The action `sum` selects. -/
def sumAction (md : SwitchmlMd) : SumAction :=
  (lookup sumEntries
    (fun e => hits e.1 md.workerBitmapBefore && hits e.2.1 md.mapResult && decide (md.packetType = e.2.2.1))
    (·.2.2.2)).getD .noAction

theorem sumAction_consume {md : SwitchmlMd} (h : md.packetType.isConsume = true) :
    sumAction md =
      if md.workerBitmapBefore = 0 then .writeRead1 else if md.mapResult = 0 then .sumRead1 else .read1 := by
  unfold sumAction lookup sumEntries
  simp only [BitVec.ofNat_eq_ofNat]
  cases ht : md.packetType <;> simp only [ht, PacketType.isConsume, Bool.false_eq_true] at h <;>
    by_cases hb : md.workerBitmapBefore = 0#32 <;> by_cases hm : md.mapResult = 0#32 <;> simp [hb, hm]

/-- Harvest passes alternate between the halves of a pair. -/
theorem sumAction_harvest {md : SwitchmlMd} (h : md.packetType.isSwitchML = true)
    (hc : md.packetType.isConsume = false) :
    sumAction md = if md.packetType.readsFirst then .read0 else .read1 := by
  unfold sumAction lookup sumEntries
  cases ht : md.packetType <;>
    simp only [ht, PacketType.isConsume, PacketType.isSwitchML, Bool.false_eq_true, Bool.true_eq_false] at h hc <;>
    simp [PacketType.readsFirst]

namespace Processor

/-- One instance: the new register array and the outputs `value0_out`,
`value1_out`, which keep the inputs where the action assigns nothing. -/
def apply (values : Register 15 (Pair Value)) (value0 value1 : Value) (md : SwitchmlMd) :
    Register 15 (Pair Value) × Value × Value :=
  match sumAction md with
  | .writeRead1 =>
    let r := values.execute md.poolIndex (valuesWriteRead1 value0 value1)
    (r.1, value0, r.2)
  | .sumRead1 =>
    let r := values.execute md.poolIndex (valuesSumRead1 value0 value1)
    (r.1, value0, r.2)
  | .read0 =>
    let r := values.execute md.poolIndex valuesRead0
    (r.1, r.2, value1)
  | .read1 =>
    let r := values.execute md.poolIndex valuesRead1
    (r.1, value0, r.2)
  | .noAction => (values, value0, value1)

variable {values : Register 15 (Pair Value)} {v0 v1 : Value} {md : SwitchmlMd}

/-- Only the packet's own cell is touched. -/
theorem apply_frame {idx : PoolIndex} (hi : idx ≠ md.poolIndex) : (apply values v0 v1 md).1 idx = values idx := by
  unfold apply
  cases sumAction md <;> simp only [Register.execute_other _ _ hi]

theorem apply_consume (h : md.packetType.isConsume = true) :
    apply values v0 v1 md =
      let cell := md.absorb (Pair.map₂ (· + ·)) (values md.poolIndex) ⟨v0, v1⟩
      (Function.update values md.poolIndex cell, v0, cell.second) := by
  unfold apply SwitchmlMd.absorb
  rw [sumAction_consume h]
  by_cases hb : md.workerBitmapBefore = 0
  · simp only [if_pos hb]; rfl
  · by_cases hm : md.mapResult = 0
    · simp only [if_neg hb, if_pos hm]; rfl
    · simp only [if_neg hb, if_neg hm]; rfl

theorem apply_harvest (h : md.packetType.isSwitchML = true) (hc : md.packetType.isConsume = false) :
    apply values v0 v1 md =
      if md.packetType.readsFirst then (values, (values md.poolIndex).first, v1)
      else (values, v0, (values md.poolIndex).second) := by
  unfold apply
  rw [sumAction_harvest h hc]
  cases md.packetType.readsFirst with
  | true =>
    show ((values.execute md.poolIndex valuesRead0).1, _, _) = _
    rw [Register.execute_readonly _ _ _ rfl]
    rfl
  | false =>
    show ((values.execute md.poolIndex valuesRead1).1, _, _) = _
    rw [Register.execute_readonly _ _ _ rfl]
    rfl

/-- The 32 instances: `valueNN` works on word NN of both data headers. -/
def applyAll (regs : Regs) (ig : Ig) : Regs × Ig :=
  let d0 := ig.hdr.d0.getD fun _ => 0
  let d1 := ig.hdr.d1.getD fun _ => 0
  ({ regs with values := fun i => (apply (regs.values i) (d0 i) (d1 i) ig.md).1 },
    ig.withHdr fun hdr =>
      { hdr with
        d0 := hdr.d0.map fun _ i => (apply (regs.values i) (d0 i) (d1 i) ig.md).2.1
        d1 := hdr.d1.map fun _ i => (apply (regs.values i) (d0 i) (d1 i) ig.md).2.2 })

end Processor

end SwitchML.P4
