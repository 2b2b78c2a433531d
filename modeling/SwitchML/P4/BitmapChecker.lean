/-
`bitmap_checker.p4`: which worker the packet is from, and whether the slot has
seen it. Each slot has two bitmaps, one for each set; recording a worker in one
set removes it from the other.
-/
import SwitchML.P4.Headers

namespace SwitchML.P4

open Tna

/-! ## ReconstructWorkerBitmap -/

/-- The entries of `reconstruct_worker_bitmap`: `i &&& 0x1f : 1 << i` for i from 0 to 31. -/
def reconstructWorkerBitmapEntries : List (Tern 16 × WorkerBitmap) :=
  (List.range 32).map fun i => (⟨BitVec.ofNat 16 i, 0x1f⟩, (1 : WorkerBitmap) <<< i)

/-- Passes after the first rebuild the bitmap from the bridged worker id. -/
def reconstructWorkerBitmap (ig : Ig) : Ig :=
  match lookup reconstructWorkerBitmapEntries (fun e => e.1.hits ig.md.workerId) (·.2) with
  | some bitmap => { ig with workerBitmap := bitmap }
  | none => ig

/-- The table has the bitmap of every worker id below 32. -/
theorem reconstructWorkerBitmap_of {ig : Ig} {i : ℕ} (hi : i < 32) (hw : ig.md.workerId = BitVec.ofNat 16 i) :
    reconstructWorkerBitmap ig = { ig with workerBitmap := (1 : WorkerBitmap) <<< i } := by
  have hfind : lookup reconstructWorkerBitmapEntries (fun e => e.1.hits ig.md.workerId) (·.2) =
      some ((1 : WorkerBitmap) <<< i) := by
    unfold lookup reconstructWorkerBitmapEntries
    rw [find?_map_range (c := True) hi, if_pos trivial, Option.map_some]
    intro j hj
    rw [hw, Tern.hits, beq_iff_eq, ← BitVec.toNat_inj, BitVec.toNat_and, BitVec.toNat_and]
    simp only [BitVec.ofNat_eq_ofNat, BitVec.toNat_ofNat]
    have hmask : 31 % 2 ^ 16 = 2 ^ 5 - 1 := rfl
    rw [hmask, Nat.and_two_pow_sub_one_eq_mod, Nat.and_two_pow_sub_one_eq_mod, and_true]
    omega
  unfold reconstructWorkerBitmap
  rw [hfind]

/-! ## UpdateAndCheckWorkerBitmap -/

/-- Add the bit to the first set, remove it from the second, read the first. -/
def workerBitmapUpdateSet0 (bit : WorkerBitmap) : RegisterAction (Pair WorkerBitmap) WorkerBitmap :=
  fun value => (⟨value.first ||| bit, value.second &&& ~~~bit⟩, value.first)

/-- Add the bit to the second set, remove it from the first, read the second. -/
def workerBitmapUpdateSet1 (bit : WorkerBitmap) : RegisterAction (Pair WorkerBitmap) WorkerBitmap :=
  fun value => (⟨value.first &&& ~~~bit, value.second ||| bit⟩, value.second)

inductive BitmapAction
  | updateWorkerBitmapSet0 | updateWorkerBitmapSet1 | drop | simulateDrop | noAction
  deriving DecidableEq

/-- The entries of `update_and_check_worker_bitmap`: pool index, packet type,
ingress drop probability. -/
def updateAndCheckEntries : List (Tern 15 × PacketType × Tern 16 × BitmapAction) :=
  [ -- Drop packets indicated by the drop simulator
    (.any, .CONSUME0, .exactly 0xffff, .simulateDrop),
    -- Direct updates to the correct set
    (⟨0, 1⟩, .CONSUME0, .any, .updateWorkerBitmapSet0),
    (⟨1, 1⟩, .CONSUME0, .any, .updateWorkerBitmapSet1),
    (⟨0, 1⟩, .CONSUME1, .any, .updateWorkerBitmapSet0),
    (⟨1, 1⟩, .CONSUME1, .any, .updateWorkerBitmapSet1),
    (⟨0, 1⟩, .CONSUME2, .any, .updateWorkerBitmapSet0),
    (⟨1, 1⟩, .CONSUME2, .any, .updateWorkerBitmapSet1),
    (⟨0, 1⟩, .CONSUME3, .any, .updateWorkerBitmapSet0),
    (⟨1, 1⟩, .CONSUME3, .any, .updateWorkerBitmapSet1) ]

/-- The action `update_and_check_worker_bitmap` selects. -/
def updateAndCheckAction (ig : Ig) : BitmapAction :=
  (lookup updateAndCheckEntries
    (fun e => e.1.hits ig.md.poolIndex && decide (ig.md.packetType = e.2.1) &&
      e.2.2.1.hits ig.portMetadata.ingressDropProbability)
    (·.2.2.2)).getD .noAction

@[simp] theorem hits_set0 (idx : PoolIndex) : (⟨0#15, 1#15⟩ : Tern 15).hits idx = !setBit idx := by
  unfold Tern.hits setBit
  rw [BitVec.and_one_eq_setWidth_ofBool_getLsbD]
  cases idx.getLsbD 0 <;> decide

@[simp] theorem hits_set1 (idx : PoolIndex) : (⟨1#15, 1#15⟩ : Tern 15).hits idx = setBit idx := by
  unfold Tern.hits setBit
  rw [BitVec.and_one_eq_setWidth_ofBool_getLsbD]
  cases idx.getLsbD 0 <;> decide

/-- A consume packet the drop simulator lets pass updates the bitmap of its set. -/
theorem updateAndCheckAction_consume {ig : Ig} (h : ig.md.packetType.isConsume = true)
    (hd : ig.md.packetType = .CONSUME0 → ig.portMetadata.ingressDropProbability ≠ 0xffff) :
    updateAndCheckAction ig =
      if setBit ig.md.poolIndex then .updateWorkerBitmapSet1 else .updateWorkerBitmapSet0 := by
  unfold updateAndCheckAction lookup updateAndCheckEntries
  cases ht : ig.md.packetType <;> simp only [ht, PacketType.isConsume, Bool.false_eq_true] at h <;>
    simp only [ht, BitVec.ofNat_eq_ofNat, forall_const] at hd <;>
    cases hb : setBit ig.md.poolIndex <;> simp [hb, hd]

/-- The drop simulator comes first. -/
theorem updateAndCheckAction_simulateDrop {ig : Ig} (h : ig.md.packetType = .CONSUME0)
    (hd : ig.portMetadata.ingressDropProbability = 0xffff) : updateAndCheckAction ig = .simulateDrop := by
  simp [updateAndCheckAction, lookup, updateAndCheckEntries, h, hd]

/-- What a bitmap update leaves in the two sets: the bit enters one and leaves the other. -/
def recordIn (set : Bool) (bit : WorkerBitmap) (p : Pair WorkerBitmap) : Pair WorkerBitmap :=
  if set then ⟨p.first &&& ~~~bit, p.second ||| bit⟩ else ⟨p.first ||| bit, p.second &&& ~~~bit⟩

namespace UpdateAndCheckWorkerBitmap

/-- Mark for drop; mark as IGNORE so we don't further process this packet. -/
def drop (ig : Ig) : Ig :=
  { ig with dropCtl := true, md := { ig.md with packetType := .IGNORE } }

def simulateDrop (ig : Ig) : Ig := drop ig

/-- Set the map result to nonzero if this packet is a retransmission. -/
def checkWorkerBitmap (ig : Ig) : Ig :=
  ig.withMd fun md => { md with mapResult := md.workerBitmapBefore &&& ig.workerBitmap }

def updateWorkerBitmap (act : WorkerBitmap → RegisterAction (Pair WorkerBitmap) WorkerBitmap)
    (regs : Regs) (ig : Ig) : Regs × Ig :=
  let r := regs.workerBitmap.execute (slotOf ig.md.poolIndex) (act ig.workerBitmap)
  ({ regs with workerBitmap := r.1 },
    checkWorkerBitmap (ig.withMd fun md => { md with workerBitmapBefore := r.2 }))

def updateWorkerBitmapSet0 : Regs → Ig → Regs × Ig := updateWorkerBitmap workerBitmapUpdateSet0

def updateWorkerBitmapSet1 : Regs → Ig → Regs × Ig := updateWorkerBitmap workerBitmapUpdateSet1

def apply (regs : Regs) (ig : Ig) : Regs × Ig :=
  match updateAndCheckAction ig with
  | .updateWorkerBitmapSet0 => updateWorkerBitmapSet0 regs ig
  | .updateWorkerBitmapSet1 => updateWorkerBitmapSet1 regs ig
  | .drop => (regs, drop ig)
  | .simulateDrop => (regs, simulateDrop ig)
  | .noAction => (regs, ig)

variable {regs : Regs} {ig : Ig}

/-- A consume packet enters the bitmap of its set and leaves the other one. -/
theorem apply_consume (h : ig.md.packetType.isConsume = true)
    (hd : ig.md.packetType = .CONSUME0 → ig.portMetadata.ingressDropProbability ≠ 0xffff) :
    apply regs ig =
      let slot := slotOf ig.md.poolIndex
      let set := setBit ig.md.poolIndex
      let before := (regs.workerBitmap slot).ofSet set
      ({ regs with workerBitmap :=
          Function.update regs.workerBitmap slot (recordIn set ig.workerBitmap (regs.workerBitmap slot)) },
        ig.withMd fun md =>
          { md with workerBitmapBefore := before, mapResult := before &&& ig.workerBitmap }) := by
  unfold apply
  rw [updateAndCheckAction_consume h hd]
  cases hs : setBit ig.md.poolIndex <;> rfl

/-- A packet the drop simulator marks touches no register. -/
theorem apply_simulateDrop (h : ig.md.packetType = .CONSUME0)
    (hd : ig.portMetadata.ingressDropProbability = 0xffff) :
    apply regs ig = (regs, simulateDrop ig) := by
  unfold apply
  rw [updateAndCheckAction_simulateDrop h hd]

end UpdateAndCheckWorkerBitmap

end SwitchML.P4
