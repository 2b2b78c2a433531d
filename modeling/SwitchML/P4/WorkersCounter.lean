/-
`workers_counter.p4`: counts down the workers a slot still waits for. The
value read before the update is the first/last flag: 1 for the last packet, 0
for the first one (and for a retransmission to a full slot).
-/
import SwitchML.P4.Headers

namespace SwitchML.P4

open Tna

/-- 1 means last packet; 0 means first packet. Only works with jobs of 2 workers or more. -/
def workersCountAction (numWorkers : NumWorkers) : RegisterAction (Pair NumWorkers) NumWorkers :=
  fun value =>
    (if value.first = 0 then { value with first := numWorkers - 1 }
      else { value with first := value.first - 1 }, value.first)

def readWorkersCountAction : RegisterAction (Pair NumWorkers) NumWorkers :=
  fun value => (value, value.first)

inductive CountAction
  | singleWorkerCount | singleWorkerRead | countWorkers | readCountWorkers | noAction
  deriving DecidableEq

/-- The entries of `count_workers`: number of workers, map result, packet type. -/
def countWorkersEntries : List (Option NumWorkers × Option WorkerBitmap × PacketType × CountAction) :=
  [ -- Special case for single-worker jobs
    (some 1, some 0, .CONSUME0, .singleWorkerCount),
    (some 1, some 0, .CONSUME1, .singleWorkerCount),
    (some 1, some 0, .CONSUME2, .singleWorkerCount),
    (some 1, some 0, .CONSUME3, .singleWorkerCount),
    -- if we've seen this packet before, don't count, just read
    (some 1, none, .CONSUME0, .singleWorkerRead),
    (some 1, none, .CONSUME1, .singleWorkerRead),
    (some 1, none, .CONSUME2, .singleWorkerRead),
    (some 1, none, .CONSUME3, .singleWorkerRead),
    -- Multi-worker jobs
    (none, some 0, .CONSUME0, .countWorkers),
    (none, some 0, .CONSUME1, .countWorkers),
    (none, some 0, .CONSUME2, .countWorkers),
    (none, some 0, .CONSUME3, .countWorkers),
    -- if map_result is not all 0's, don't count, just read
    (none, none, .CONSUME0, .readCountWorkers),
    (none, none, .CONSUME1, .readCountWorkers),
    (none, none, .CONSUME2, .readCountWorkers),
    (none, none, .CONSUME3, .readCountWorkers) ]

/-- The action `count_workers` selects. -/
def countAction (md : SwitchmlMd) : CountAction :=
  (lookup countWorkersEntries
    (fun e => hits e.1 md.numWorkers && hits e.2.1 md.mapResult && decide (md.packetType = e.2.2.1))
    (·.2.2.2)).getD .noAction

theorem countAction_consume {md : SwitchmlMd} (h : md.packetType.isConsume = true) :
    countAction md =
      if md.numWorkers = 1 then (if md.mapResult = 0 then .singleWorkerCount else .singleWorkerRead)
      else if md.mapResult = 0 then .countWorkers else .readCountWorkers := by
  unfold countAction lookup countWorkersEntries
  simp only [BitVec.ofNat_eq_ofNat]
  cases ht : md.packetType <;> simp only [ht, PacketType.isConsume, Bool.false_eq_true] at h <;>
    by_cases hn : md.numWorkers = 1#8 <;> by_cases hm : md.mapResult = 0#32 <;> simp [hn, hm]

namespace WorkersCounter

def countWorkers (regs : Regs) (ig : Ig) : Regs × Ig :=
  let r := regs.workersCount.execute ig.md.poolIndex (workersCountAction ig.md.numWorkers)
  ({ regs with workersCount := r.1 }, ig.withMd fun md => { md with firstLastFlag := r.2 })

/-- Execute the register action even though it is irrelevant with a single
worker; the packet is new in a single-worker job, so mark it as last packet. -/
def singleWorkerCount (regs : Regs) (ig : Ig) : Regs × Ig :=
  let r := regs.workersCount.execute ig.md.poolIndex (workersCountAction ig.md.numWorkers)
  ({ regs with workersCount := r.1 }, ig.withMd fun md => { md with firstLastFlag := 1 })

/-- A retransmitted packet in a single-worker job. -/
def singleWorkerRead (regs : Regs) (ig : Ig) : Regs × Ig :=
  (regs, ig.withMd fun md => { md with firstLastFlag := 0 })

def readCountWorkers (regs : Regs) (ig : Ig) : Regs × Ig :=
  let r := regs.workersCount.execute ig.md.poolIndex readWorkersCountAction
  ({ regs with workersCount := r.1 }, ig.withMd fun md => { md with firstLastFlag := r.2 })

def apply (regs : Regs) (ig : Ig) : Regs × Ig :=
  match countAction ig.md with
  | .singleWorkerCount => singleWorkerCount regs ig
  | .singleWorkerRead => singleWorkerRead regs ig
  | .countWorkers => countWorkers regs ig
  | .readCountWorkers => readCountWorkers regs ig
  | .noAction => (regs, ig)

variable {regs : Regs} {ig : Ig}

/-- The counter after a new packet: it starts over from zero. -/
def countdown (numWorkers count : NumWorkers) : NumWorkers := if count = 0 then numWorkers - 1 else count - 1

theorem apply_consume (h : ig.md.packetType.isConsume = true) :
    apply regs ig =
      let idx := ig.md.poolIndex
      let cell := regs.workersCount idx
      ({ regs with workersCount :=
          if ig.md.mapResult = 0 then
            Function.update regs.workersCount idx { cell with first := countdown ig.md.numWorkers cell.first }
          else regs.workersCount },
        ig.withMd fun md =>
          { md with firstLastFlag :=
            if md.numWorkers = 1 then (if md.mapResult = 0 then 1 else 0) else cell.first }) := by
  have hact : workersCountAction ig.md.numWorkers (regs.workersCount ig.md.poolIndex) =
      ({ regs.workersCount ig.md.poolIndex with
        first := countdown ig.md.numWorkers (regs.workersCount ig.md.poolIndex).first },
        (regs.workersCount ig.md.poolIndex).first) := by
    unfold workersCountAction countdown
    split <;> rfl
  unfold apply
  rw [countAction_consume h]
  by_cases hn : ig.md.numWorkers = 1 <;> by_cases hm : ig.md.mapResult = 0
  · simp only [if_pos hn, if_pos hm, singleWorkerCount, Register.execute, hact]
    simp only [Ig.withMd, if_pos hn, if_pos hm]
  · simp only [if_pos hn, if_neg hm, singleWorkerRead]
    simp only [Ig.withMd, if_pos hn, if_neg hm]
  · simp only [if_neg hn, if_pos hm, countWorkers, Register.execute, hact]
    simp only [Ig.withMd, if_neg hn]
  · simp only [if_neg hn, if_neg hm, readCountWorkers]
    rw [Register.execute_readonly _ _ _ rfl]
    simp only [Ig.withMd, if_neg hn]
    rfl

end WorkersCounter

end SwitchML.P4
