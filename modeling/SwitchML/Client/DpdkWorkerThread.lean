/-
`dpdk_worker_thread.cc` and `dpdk_worker_thread_utils.inc`: the worker thread of
the DPDK backend, from one job slice to the next.

A step is the setup of a slice up to its first batch, one received packet, one
timer that expires, or the end of the receive loop. Where a packet is built
over an old one, the buffer's content is part of the event.
-/
import SwitchML.Client.QuantizerFrame
import SwitchML.Lib.Machine
import SwitchML.Lib.Window

namespace SwitchML.Client

/-- What a worker thread is configured with; `Config::Validate` makes sure that
it has at least one packet outstanding. -/
structure DpdkConfig where
  tid : ℕ
  /-- `max_outstanding_packets / num_worker_threads` -/
  maxOutstandingPkts : ℕ
  packetNumel : ℕ
  numWorkers : ℕ
  /-- Whether it was compiled with `TIMEOUTS`. -/
  timeouts : Bool
  maxOutstandingPkts_pos : 0 < maxOutstandingPkts
  packetNumel_pos : 0 < packetNumel

namespace DpdkConfig

def switchPoolIndexStart (c : DpdkConfig) : ℕ := 2 * c.maxOutstandingPkts * c.tid

end DpdkConfig

/-- The set bit and the slot of a packet. -/
def pktId2PoolIndex (pktId switchPoolIndexStart switchPoolIndexShift maxOutstandingPkts : ℕ) : BitVec 16 :=
  let i := (pktId + switchPoolIndexShift) % (2 * maxOutstandingPkts % 2 ^ 32)
  if i < maxOutstandingPkts then BitVec.ofNat 16 (switchPoolIndexStart + i)
  else BitVec.ofNat 16 (switchPoolIndexStart + (i - maxOutstandingPkts)) ||| 0x8000#16

/-- `(uint8_t) job_id` -/
def shortJobId (jobId : ℕ) : ℕ := jobId % 2 ^ 8

structure ResendPacketCallbackArgs where
  jobId : ℕ
  pktId : ℕ
  switchPoolIndex : BitVec 16
  deriving DecidableEq

/-- The SwitchML header of a packet that is received. -/
structure DpdkPacketHdr where
  pktId : ℕ
  shortJobId : ℕ
  deriving DecidableEq

/-- A packet the thread has sent. -/
structure DpdkPacket where
  /-- The number of the slice the thread worked on. -/
  slice : ℕ
  /-- It is a new packet, not one that a timer has sent. -/
  fresh : Bool
  jobId : ℕ
  pktId : ℕ
  switchPoolIndex : BitVec 16
  content : Packet

/-- The header a response to it has. -/
def DpdkPacket.hdr (m : DpdkPacket) : DpdkPacketHdr := { pktId := m.pktId, shortJobId := shortJobId m.jobId }

/-- What the thread has done. -/
inductive DpdkAction
  | sent (m : DpdkPacket)
  /-- A packet with this id was accepted in the slice of this number. -/
  | accepted (slice pktId : ℕ)

/-- The variables of the receive loop. -/
structure DpdkSlice where
  jobId : ℕ
  totalNumPkts : ℕ
  batchNumPkts : ℕ
  bitmap : ℕ → Bool
  numReceivedPkts : ℕ
  /-- The ids of the new packets, in the order they were sent. -/
  sent : List ℕ
  /-- The packets given to `PostprocessSingle`. -/
  posts : List DpdkPacketHdr
  /-- The ids given to `rte_bitmap_get` and `rte_bitmap_set`. -/
  indexed : List ℕ

structure DpdkWorkerThread (K : Type) where
  ppp : Ppp K
  memory : Memory
  switchPoolIndexShift : ℕ
  /-- The timers that are armed, with their arguments. -/
  timers : ℕ → Option ResendPacketCallbackArgs
  /-- The context is running. -/
  running : Bool
  current : Option DpdkSlice
  /-- How many slices were begun. -/
  slices : ℕ
  log : List DpdkAction

namespace DpdkWorkerThread

variable {K : Type}

def new (c : DpdkConfig) (memory : Memory) : DpdkWorkerThread K where
  ppp := {
    ltuSize := c.packetNumel * 4
    batchMaxNumLtus := c.maxOutstandingPkts
    numWorkers := c.numWorkers
    slice := { inPtr := 0, outPtr := 0, numel := 0, dataType := .int32 }
    totalMainNumLtus := 0
    batchNumLtus := 0
    scalingFactors := fun _ => none }
  memory := memory
  switchPoolIndexShift := 0
  timers _ := none
  running := true
  current := none
  slices := 0
  log := []

variable (c : DpdkConfig) (ops : FloatOps K)

def poolIndex (s : DpdkWorkerThread K) (pktId : ℕ) : BitVec 16 :=
  pktId2PoolIndex pktId c.switchPoolIndexStart s.switchPoolIndexShift c.maxOutstandingPkts

/-- `BuildPacket` and `ReusePacket`, which get the id as a `uint32_t`. -/
def buildPacket (s : DpdkWorkerThread K) (fresh : Bool) (jobId pktId : ℕ) (switchPoolIndex : BitVec 16) (buf : Packet) :
    DpdkPacket where
  slice := s.slices
  fresh := fresh
  jobId := jobId
  pktId := pktId % 2 ^ 32
  switchPoolIndex := switchPoolIndex
  content := (s.ppp.preprocessSingle ops s.memory (pktId % 2 ^ 32) buf).1

/-! ## The first batch -/

/-- What the first batch does with the timers, each time after `pkt_id++`. -/
def armBatch (s : DpdkWorkerThread K) (jobId batchNumPkts : ℕ) : ℕ → Option ResendPacketCallbackArgs :=
  (List.range batchNumPkts).foldl (fun timers j =>
    let switchPoolIndex := s.poolIndex c j
    let pktId := j + 1
    let outstandingPktIndex := pktId % c.maxOutstandingPkts
    Function.update timers outstandingPktIndex (some { jobId, pktId := pktId % 2 ^ 32, switchPoolIndex })) s.timers

/-- The number of packets in a batch and in all for the slice that is set up. -/
def batchNumPkts (s : DpdkWorkerThread K) : ℕ := min c.maxOutstandingPkts s.ppp.totalMainNumLtus

def totalNumPkts (s : DpdkWorkerThread K) : ℕ :=
  if s.ppp.needsExtraBatch then s.ppp.totalMainNumLtus + s.batchNumPkts c else s.ppp.totalMainNumLtus

/-- The prepostprocessor is set up for a slice. -/
def prepare (s : DpdkWorkerThread K) (job : JobSlice) : DpdkWorkerThread K :=
  { s with ppp := s.ppp.setupJobSlice job.slice, slices := s.slices + 1 }

/-- From the slice to the receive loop. The loop that sends the first batch
counts in a `uint16_t`, so it ends only for a batch of less than `2^16`, and
the bitmap is created with a `uint32_t`, which must not be 0. -/
def begin (s : DpdkWorkerThread K) (job : JobSlice) (bufs : ℕ → Packet) : Option (DpdkWorkerThread K) :=
  let s := s.prepare job
  if s.batchNumPkts c < 2 ^ 16 ∧ s.totalNumPkts c % 2 ^ 32 ≠ 0 then
    some { s with
      timers := if c.timeouts then s.armBatch c job.job.id (s.batchNumPkts c) else s.timers
      current := some {
        jobId := job.job.id
        totalNumPkts := s.totalNumPkts c
        batchNumPkts := s.batchNumPkts c
        bitmap := fun _ => false
        numReceivedPkts := 0
        sent := List.range (s.batchNumPkts c)
        posts := []
        indexed := [] }
      log := s.log ++ (List.range (s.batchNumPkts c)).map fun j =>
        .sent (s.buildPacket ops true job.job.id j (s.poolIndex c j) (bufs j)) }
  else none

/-! ## The receive loop -/

/-- An accepted packet is postprocessed, and its successor is sent. -/
def accept (s : DpdkWorkerThread K) (sl : DpdkSlice) (hdr : DpdkPacketHdr) (pkt : Packet) : DpdkWorkerThread K :=
  let r := s.ppp.postprocessSingle ops s.memory hdr.pktId pkt
  let pktId := (hdr.pktId + sl.batchNumPkts) % 2 ^ 32
  let outstandingPktIndex := pktId % c.maxOutstandingPkts
  let sl := { sl with
    bitmap := Function.update sl.bitmap hdr.pktId true
    numReceivedPkts := (sl.numReceivedPkts + 1) % 2 ^ 32
    posts := sl.posts ++ [hdr]
    indexed := sl.indexed ++ [hdr.pktId, hdr.pktId] }
  let s := { s with
    ppp := r.1
    memory := r.2.1
    timers := if c.timeouts then Function.update s.timers outstandingPktIndex none else s.timers
    current := some sl
    log := s.log ++ [.accepted s.slices hdr.pktId] }
  if sl.totalNumPkts ≤ pktId then s
  else
    let switchPoolIndex := s.poolIndex c pktId
    { s with
      timers :=
        if c.timeouts then
          Function.update s.timers outstandingPktIndex (some { jobId := sl.jobId, pktId, switchPoolIndex })
        else s.timers
      current := some { sl with sent := sl.sent ++ [pktId] }
      log := s.log ++ [.sent (s.buildPacket ops true sl.jobId pktId switchPoolIndex pkt)] }

/-- A received packet. A bit outside the bitmap may be anything, here `bit`. -/
def receive (s : DpdkWorkerThread K) (sl : DpdkSlice) (hdr : DpdkPacketHdr) (pkt : Packet) (bit : Bool) :
    DpdkWorkerThread K :=
  let duplicate := if hdr.pktId < sl.totalNumPkts % 2 ^ 32 then sl.bitmap hdr.pktId else bit
  if duplicate ∨ hdr.shortJobId ≠ shortJobId sl.jobId then
    { s with current := some { sl with indexed := sl.indexed ++ [hdr.pktId] } }
  else s.accept c ops sl hdr pkt

/-- `ResendPacketCallback`, which leaves the timer armed. -/
def resend (s : DpdkWorkerThread K) (args : ResendPacketCallbackArgs) (buf : Packet) : DpdkWorkerThread K :=
  { s with log := s.log ++ [.sent (s.buildPacket ops false args.jobId args.pktId args.switchPoolIndex buf)] }

/-- After the receive loop. -/
def finish (s : DpdkWorkerThread K) (sl : DpdkSlice) : DpdkWorkerThread K :=
  { s with
    switchPoolIndexShift := (s.switchPoolIndexShift + sl.totalNumPkts) % (2 * c.maxOutstandingPkts)
    current := none }

/-- The address is in the input of the slice the thread works on. -/
def reads (s : DpdkWorkerThread K) (addr : ℕ) : Prop :=
  s.current.isSome ∧ s.ppp.slice.inPtr ≤ addr ∧ addr < s.ppp.slice.inPtr + 4 * s.ppp.slice.numel

instance (s : DpdkWorkerThread K) (addr : ℕ) : Decidable (s.reads addr) := inferInstanceAs (Decidable (_ ∧ _))

inductive Event
  | begin (job : JobSlice) (bufs : ℕ → Packet)
  | receive (hdr : DpdkPacketHdr) (pkt : Packet) (bit : Bool)
  | expire (outstandingPktIndex : ℕ) (buf : Packet)
  | finish
  /-- The context is stopped. -/
  | stop
  /-- Another thread writes to memory that this one does not read. -/
  | write (addr : ℕ) (w : Word)

def next (s : DpdkWorkerThread K) : Event → Option (DpdkWorkerThread K)
  | .begin job bufs => if s.current = none ∧ s.running ∧ 0 < job.slice.numel then s.begin c ops job bufs else none
  | .receive hdr pkt bit => s.current.map fun sl => s.receive c ops sl hdr pkt bit
  | .expire outstandingPktIndex buf =>
    match s.current, s.timers outstandingPktIndex with
    | some sl, some args => if sl.numReceivedPkts < sl.totalNumPkts then some (s.resend ops args buf) else none
    | _, _ => none
  | .finish =>
    match s.current with
    | some sl => if sl.numReceivedPkts < sl.totalNumPkts ∧ s.running then none else some (s.finish c sl)
    | none => none
  | .stop => some { s with running := false }
  | .write addr w => if s.reads addr then none else some { s with memory := Function.update s.memory addr w }

/-- The thread, from where it enters its main loop. -/
def machine : Machine (DpdkWorkerThread K) Event where
  init s := ∃ memory, s = new c memory
  next := next c ops

/-! ## What the steps do -/

variable {c : DpdkConfig} {ops : FloatOps K} {s s' : DpdkWorkerThread K}

theorem begin_eq_some {job : JobSlice} {bufs : ℕ → Packet} (h : s.begin c ops job bufs = some s') :
    (s.prepare job).batchNumPkts c < 2 ^ 16 ∧ (s.prepare job).totalNumPkts c % 2 ^ 32 ≠ 0 ∧ s' = { s.prepare job with
      timers :=
        if c.timeouts then (s.prepare job).armBatch c job.job.id ((s.prepare job).batchNumPkts c) else s.timers
      current := some {
        jobId := job.job.id
        totalNumPkts := (s.prepare job).totalNumPkts c
        batchNumPkts := (s.prepare job).batchNumPkts c
        bitmap := fun _ => false
        numReceivedPkts := 0
        sent := List.range ((s.prepare job).batchNumPkts c)
        posts := []
        indexed := [] }
      log := s.log ++ (List.range ((s.prepare job).batchNumPkts c)).map fun j =>
        .sent ((s.prepare job).buildPacket ops true job.job.id j ((s.prepare job).poolIndex c j) (bufs j)) } := by
  simp only [begin, Option.ite_none_right_eq_some, Option.some.injEq] at h
  exact ⟨h.1.1, h.1.2, h.2.symm⟩

/-- The steps of the thread, with the state each leads to. -/
inductive Step (c : DpdkConfig) (ops : FloatOps K) (s : DpdkWorkerThread K) : Event → DpdkWorkerThread K → Prop
  | began (job : JobSlice) (bufs : ℕ → Packet) (s' : DpdkWorkerThread K) : s.current = none → 0 < job.slice.numel →
      s.begin c ops job bufs = some s' → Step c ops s (.begin job bufs) s'
  | received (sl : DpdkSlice) (hdr : DpdkPacketHdr) (pkt : Packet) (bit : Bool) : s.current = some sl →
      Step c ops s (.receive hdr pkt bit) (s.receive c ops sl hdr pkt bit)
  | expired (sl : DpdkSlice) (args : ResendPacketCallbackArgs) (i : ℕ) (buf : Packet) : s.current = some sl →
      s.timers i = some args → sl.numReceivedPkts < sl.totalNumPkts → Step c ops s (.expire i buf) (s.resend ops args buf)
  | finished (sl : DpdkSlice) : s.current = some sl → ¬(sl.numReceivedPkts < sl.totalNumPkts ∧ s.running) →
      Step c ops s .finish (s.finish c sl)
  | stopped : Step c ops s .stop { s with running := false }
  | wrote (addr : ℕ) (w : Word) : ¬s.reads addr →
      Step c ops s (.write addr w) { s with memory := Function.update s.memory addr w }

theorem step {e : Event} (hn : s.next c ops e = some s') : Step c ops s e s' := by
  cases e with
  | begin job bufs =>
    simp only [next, Option.ite_none_right_eq_some] at hn
    exact .began job bufs s' hn.1.1 hn.1.2.2 hn.2
  | receive hdr pkt bit =>
    simp only [next, Option.map_eq_some_iff] at hn
    obtain ⟨sl, hsl, rfl⟩ := hn
    exact .received sl hdr pkt bit hsl
  | expire i buf =>
    simp only [next] at hn
    split at hn
    · rename_i sl args hsl ht
      simp only [Option.ite_none_right_eq_some, Option.some.injEq] at hn
      obtain ⟨hlt, rfl⟩ := hn
      exact .expired sl args i buf hsl ht hlt
    · cases hn
  | finish =>
    simp only [next] at hn
    split at hn
    · rename_i sl hsl
      simp only [Option.ite_none_left_eq_some, Option.some.injEq] at hn
      obtain ⟨hlt, rfl⟩ := hn
      exact .finished sl hsl hlt
    · cases hn
  | stop =>
    cases hn
    exact .stopped
  | write addr w =>
    simp only [next, Option.ite_none_left_eq_some, Option.some.injEq] at hn
    obtain ⟨hr, rfl⟩ := hn
    exact .wrote addr w hr

/-- A received packet is discarded or accepted. -/
theorem receive_or (c : DpdkConfig) (ops : FloatOps K) (s : DpdkWorkerThread K) (sl : DpdkSlice) (hdr : DpdkPacketHdr)
    (pkt : Packet) (bit : Bool) :
    s.receive c ops sl hdr pkt bit = { s with current := some { sl with indexed := sl.indexed ++ [hdr.pktId] } } ∨
      s.receive c ops sl hdr pkt bit = s.accept c ops sl hdr pkt :=
  ite_eq_or_eq _ _ _

/-- What the prepostprocessor was created with. -/
structure Static (c : DpdkConfig) (s : DpdkWorkerThread K) : Prop where
  ltuSize : s.ppp.ltuSize = c.packetNumel * 4
  batchMaxNumLtus : s.ppp.batchMaxNumLtus = c.maxOutstandingPkts

theorem Static.accept (h : Static c s) (ops : FloatOps K) (sl : DpdkSlice) (hdr : DpdkPacketHdr) (pkt : Packet) :
    Static c (s.accept c ops sl hdr pkt) := by
  have hppp : (s.accept c ops sl hdr pkt).ppp = (s.ppp.postprocessSingle ops s.memory hdr.pktId pkt).1 := by
    unfold DpdkWorkerThread.accept
    dsimp only
    split <;> rfl
  constructor
  · rw [hppp, Ppp.postprocessSingle_eq]
    exact h.ltuSize
  · rw [hppp, Ppp.postprocessSingle_eq]
    exact h.batchMaxNumLtus

theorem Static.step (h : Static c s) {e : Event} (hn : s.next c ops e = some s') : Static c s' := by
  cases DpdkWorkerThread.step hn with
  | began job bufs _ _ _ hb =>
    obtain ⟨-, -, rfl⟩ := begin_eq_some hb
    exact ⟨h.ltuSize, h.batchMaxNumLtus⟩
  | received sl hdr pkt bit hs =>
    rcases receive_or c ops s sl hdr pkt bit with heq | heq
    · rw [heq]
      exact ⟨h.ltuSize, h.batchMaxNumLtus⟩
    · rw [heq]
      exact h.accept ops sl hdr pkt
  | expired => exact ⟨h.ltuSize, h.batchMaxNumLtus⟩
  | finished => exact ⟨h.ltuSize, h.batchMaxNumLtus⟩
  | stopped => exact ⟨h.ltuSize, h.batchMaxNumLtus⟩
  | wrote => exact ⟨h.ltuSize, h.batchMaxNumLtus⟩

theorem Static.of_reachable (h : (machine c ops).Reachable s) : Static c s := by
  refine Machine.Reachable.invariant (fun s hs => ?_) (fun s e s' hI hn => hI.step hn) h
  obtain ⟨memory, rfl⟩ := hs
  exact ⟨rfl, rfl⟩

/-- A slice is set up with at least one packet. -/
theorem Static.setUp (h : Static c s) {job : JobSlice} (hnumel : 0 < job.slice.numel) :
    (s.ppp.setupJobSlice job.slice).SetUp := by
  have h1 := c.packetNumel_pos
  refine Ppp.setUp ?_ ?_ ?_ hnumel
  · rw [h.ltuSize]
    exact ⟨c.packetNumel, Nat.mul_comm _ _⟩
  · rw [h.ltuSize]
    omega
  · rw [h.batchMaxNumLtus]
    exact c.maxOutstandingPkts_pos

theorem Static.batch_pos (h : Static c s) {job : JobSlice} (hnumel : 0 < job.slice.numel) :
    0 < (s.prepare job).batchNumPkts c := by
  have h1 := h.setUp hnumel
  have h2 := h1.batch_pos
  have h3 := h1.batch_le
  have h4 := c.maxOutstandingPkts_pos
  show 0 < min c.maxOutstandingPkts (s.ppp.setupJobSlice job.slice).totalMainNumLtus
  omega

theorem batchNumPkts_le : s.batchNumPkts c ≤ s.totalNumPkts c := by
  simp only [totalNumPkts, batchNumPkts]
  split <;> omega

/-- The packets that were sent while the thread worked on the current slice. -/
def SentNow (s : DpdkWorkerThread K) (m : DpdkPacket) : Prop := .sent m ∈ s.log ∧ m.slice = s.slices

end DpdkWorkerThread

end SwitchML.Client
