/-
`rdma_worker_thread.cc`: the worker thread of the RDMA backend, from one job
slice to the next.

A message goes out and its result comes back over the same queue pair and
through the same part of the registered buffer. Here the thread is seen from
its side of the verbs: it posts requests and gets completions of receive
requests, at most as many as it has posted, with any immediate. The completions
of send requests change nothing and are left out. The clock stands still during
a step.
-/
import SwitchML.Client.QuantizerFrame
import SwitchML.Client.TimeoutQueue
import SwitchML.Lib.Machine

namespace SwitchML.Client

open P4 (Exponent)

/-- What a worker thread is configured with. -/
structure RdmaConfig where
  tid : ℕ
  /-- `max_outstanding_packets / num_pkts_per_msg / num_worker_threads`, which is
  the number of queue pairs as well -/
  maxOutstandingMsgs : ℕ
  /-- `msg_numel / packet_numel` -/
  numPktsPerMsg : ℕ
  packetNumel : ℕ
  numWorkers : ℕ
  /-- In milliseconds. -/
  timeout : ℕ
  timeoutThreshold : ℕ
  timeoutThresholdIncrement : ℕ
  maxOutstandingMsgs_pos : 0 < maxOutstandingMsgs
  numPktsPerMsg_pos : 0 < numPktsPerMsg
  packetNumel_pos : 0 < packetNumel

namespace RdmaConfig

variable (c : RdmaConfig)

abbrev Qpn := Fin c.maxOutstandingMsgs

instance : NeZero c.maxOutstandingMsgs := ⟨Nat.ne_of_gt c.maxOutstandingMsgs_pos⟩

/-- `msg_size`, where `RDMA_SWITCH_ELEMENT_SIZE` is 4. In the code it is a `uint32_t`,
and a natural number is the same for every message the switch has slots for: these
are at most `2 ^ 14` packets of 256 elements, which is `2 ^ 24` bytes. -/
def msgSize : ℕ := c.numPktsPerMsg * c.packetNumel * 4

/-- The slot of a queue pair's first packet. -/
def baseSlot (qpn : ℕ) : ℕ := (c.maxOutstandingMsgs * c.tid + qpn) * c.numPktsPerMsg

/-- The pool index the send work request of a queue pair is set up with: with the
pool bit, and as a `uint16_t`. -/
def initialRkey (qpn : ℕ) : BitVec 32 := (BitVec.ofNat 16 (c.baseSlot qpn * 2 ||| 1)).setWidth 32

end RdmaConfig

/-- The immediate: the first 16 bits of the message id, then the extra info. -/
def immData (msgId : ℕ) (extraInfo : Exponent) : BitVec 32 := 0#8 ++ extraInfo.toBitVec ++ BitVec.ofNat 16 msgId

/-- `imm_data & 0xFFFF` -/
def shortMsgId (immData : BitVec 32) : BitVec 16 := immData.extractLsb' 0 16

/-- The third byte of the immediate. -/
def extraInfo (immData : BitVec 32) : Exponent := .ofBitVec (immData.extractLsb' 16 8)

@[simp] theorem shortMsgId_immData (msgId : ℕ) (extraInfo : Exponent) :
    shortMsgId (immData msgId extraInfo) = BitVec.ofNat 16 msgId := by
  apply BitVec.eq_of_getLsbD_eq
  intro i hi
  rw [shortMsgId, immData, BitVec.getLsbD_extractLsb', BitVec.getLsbD_append, Nat.zero_add, if_pos hi]
  simp [hi]

/-- A send work request, with the message it is for. -/
structure SendWr where
  rkey : BitVec 32
  immData : BitVec 32
  slice : ℕ
  msgId : ℕ
  /-- How many messages were sent on the queue pair, with this one. -/
  no : ℕ
  /-- The words `PreprocessSingle` stored. -/
  original : ℕ → Word

/-- A send work request that was posted. -/
structure Post where
  wr : SendWr
  isRetransmission : Bool

/-- The completion of a receive work request. -/
structure Completion (c : RdmaConfig) where
  qpn : c.Qpn
  immData : BitVec 32

/-- The variables of the receive loop. -/
structure RdmaSlice (c : RdmaConfig) where
  totalNumMsgs : ℕ
  batchNumMsgs : ℕ
  numReceivedMsgs : ℕ
  /-- The ids given to `PostprocessSingle`, with their queue pairs. -/
  postprocessed : List (c.Qpn × ℕ)

structure RdmaWorkerThread (c : RdmaConfig) (K : Type) where
  ppp : Ppp K
  memory : Memory
  msgIds : c.Qpn → ℕ
  sendWrs : c.Qpn → SendWr
  /-- The registered buffer, message by message. -/
  buffers : c.Qpn → ℕ → Word
  timeoutsQueue : TimeoutQueue c.maxOutstandingMsgs
  now : ℕ
  /-- The context is running. -/
  running : Bool
  current : Option (RdmaSlice c)
  /-- How many slices were begun. -/
  slices : ℕ
  /-- The receive work requests that are posted. -/
  recvWrs : c.Qpn → ℕ
  /-- The send work requests that were posted. -/
  posts : c.Qpn → List Post

namespace RdmaWorkerThread

variable {c : RdmaConfig} {K : Type}

def new (c : RdmaConfig) (memory : Memory) (buffers : c.Qpn → ℕ → Word) : RdmaWorkerThread c K where
  ppp := {
    ltuSize := c.msgSize
    batchMaxNumLtus := c.maxOutstandingMsgs
    numWorkers := c.numWorkers
    slice := { inPtr := 0, outPtr := 0, numel := 0, dataType := .int32 }
    totalMainNumLtus := 0
    batchNumLtus := 0
    scalingFactors := fun _ => none }
  memory := memory
  msgIds _ := 0
  sendWrs qpn := { rkey := c.initialRkey qpn, immData := 0, slice := 0, msgId := 0, no := 0, original := fun _ => 0 }
  buffers := buffers
  timeoutsQueue := .new _ c.timeout c.timeoutThreshold c.timeoutThresholdIncrement
  now := 0
  running := true
  current := none
  slices := 0
  recvWrs _ := 0
  posts _ := []

variable (ops : FloatOps K) (s : RdmaWorkerThread c K) (qpn : c.Qpn)

def postRecvWr : RdmaWorkerThread c K :=
  { s with recvWrs := Function.update s.recvWrs qpn (s.recvWrs qpn + 1) }

/-- `PostSendWr`: a retransmission posts the request and the buffer as they are. -/
def postSendWr (isRetransmission : Bool) : RdmaWorkerThread c K :=
  let s :=
    if isRetransmission then s
    else
      let pkt := (s.ppp.preprocessSingle ops s.memory (s.msgIds qpn) { entries := s.buffers qpn, exponent := 0 }).1
      { s with
        sendWrs := Function.update s.sendWrs qpn {
          -- Flip the pool flag
          rkey := (s.sendWrs qpn).rkey ^^^ 1#32
          immData := immData (s.msgIds qpn) pkt.exponent
          slice := s.slices
          msgId := s.msgIds qpn
          no := (s.sendWrs qpn).no + 1
          original := pkt.entries }
        buffers := Function.update s.buffers qpn pkt.entries }
  { s with
    posts := Function.update s.posts qpn (s.posts qpn ++ [{ wr := s.sendWrs qpn, isRetransmission }])
    timeoutsQueue := s.timeoutsQueue.push qpn s.now }

/-- Post recv work request, then the send work request. -/
def postMessage : RdmaWorkerThread c K := (s.postRecvWr qpn).postSendWr ops qpn false

/-! ## The first batch -/

def batchNumMsgs : ℕ := min c.maxOutstandingMsgs s.ppp.totalMainNumLtus

def totalNumMsgs : ℕ :=
  if s.ppp.needsExtraBatch then s.ppp.totalMainNumLtus + s.batchNumMsgs else s.ppp.totalMainNumLtus

/-- The prepostprocessor and the message ids are set up for a slice. -/
def prepare (job : JobSlice) : RdmaWorkerThread c K :=
  let s := { s with ppp := s.ppp.setupJobSlice job.slice, slices := s.slices + 1 }
  { s with
    msgIds := fun qpn => if qpn.val < s.batchNumMsgs then qpn.val else s.msgIds qpn
    current := some {
      totalNumMsgs := s.totalNumMsgs
      batchNumMsgs := s.batchNumMsgs
      numReceivedMsgs := 0
      postprocessed := [] } }

/-- The queue pairs of the first batch. -/
def batch (c : RdmaConfig) (batchNumMsgs : ℕ) : List c.Qpn :=
  (List.finRange c.maxOutstandingMsgs).filter (·.val < batchNumMsgs)

/-- From the slice to the receive loop. The loop that sends the first batch
counts in a `uint16_t`, so it ends only for a batch of less than `2^16`. -/
def begin (job : JobSlice) : Option (RdmaWorkerThread c K) :=
  let s := s.prepare job
  if s.batchNumMsgs < 2 ^ 16 then some ((batch c s.batchNumMsgs).foldl (postMessage ops) s) else none

/-! ## The receive loop -/

/-- Is this the message that we are expecting from this qpn? -/
def isExpected (completion : Completion c) : Bool :=
  shortMsgId completion.immData = BitVec.ofNat 16 (s.msgIds completion.qpn)

/-- The variables after a message of a queue pair was received correctly. -/
def received (sl : RdmaSlice c) : RdmaSlice c :=
  { sl with
    numReceivedMsgs := sl.numReceivedMsgs + 1
    postprocessed := sl.postprocessed ++ [(qpn, s.msgIds qpn)] }

/-- This is a correct message, postprocess it. -/
def postprocess (sl : RdmaSlice c) (completion : Completion c) : RdmaWorkerThread c K :=
  let qpn := completion.qpn
  let r := s.ppp.postprocessSingle ops s.memory (s.msgIds qpn)
    { entries := s.buffers qpn, exponent := extraInfo completion.immData }
  { s with
    ppp := r.1
    memory := r.2.1
    -- Increment message id
    msgIds := Function.update s.msgIds qpn (s.msgIds qpn + sl.batchNumMsgs)
    timeoutsQueue := s.timeoutsQueue.remove qpn
    current := some (s.received qpn sl) }

def accept (sl : RdmaSlice c) (completion : Completion c) : RdmaWorkerThread c K :=
  let s := s.postprocess ops sl completion
  -- Post next send for this slot if needed
  if s.msgIds completion.qpn < sl.totalNumMsgs then s.postMessage ops completion.qpn else s

/-- A receive work request is completed. -/
def completeRecvWr : RdmaWorkerThread c K :=
  { s with recvWrs := Function.update s.recvWrs qpn (s.recvWrs qpn - 1) }

def receive (sl : RdmaSlice c) (completion : Completion c) : RdmaWorkerThread c K :=
  let s := s.completeRecvWr completion.qpn
  if s.isExpected completion then s.accept ops sl completion else s.postRecvWr completion.qpn

/-- Check for timeouts. -/
def checkTimeouts : RdmaWorkerThread c K :=
  let r := s.timeoutsQueue.check s.now
  let s := { s with timeoutsQueue := r.1 }
  match r.2 with
  | some qpn => s.postSendWr ops qpn true
  | none => s

/-- The address is in the input of the slice the thread works on. -/
def reads (addr : ℕ) : Prop :=
  s.current.isSome ∧ s.ppp.slice.inPtr ≤ addr ∧ addr < s.ppp.slice.inPtr + 4 * s.ppp.slice.numel

instance (addr : ℕ) : Decidable (s.reads addr) := inferInstanceAs (Decidable (_ ∧ _))

inductive Event (c : RdmaConfig)
  | begin (job : JobSlice)
  | complete (completion : Completion c)
  | checkTimeouts
  | finish
  /-- The context is stopped. -/
  | stop
  | tick (nanoseconds : ℕ)
  /-- The network card writes to a message's buffer. -/
  | write (qpn : c.Qpn) (words : ℕ → Word)
  /-- Another thread writes to memory that this one does not read. -/
  | store (addr : ℕ) (w : Word)

def next (s : RdmaWorkerThread c K) : Event c → Option (RdmaWorkerThread c K)
  | .begin job => if s.current.isNone ∧ s.running ∧ 0 < job.slice.numel then s.begin ops job else none
  | .complete completion =>
    match s.current with
    | some sl => if 0 < s.recvWrs completion.qpn then some (s.receive ops sl completion) else none
    | none => none
  | .checkTimeouts => if s.current.isSome then some (s.checkTimeouts ops) else none
  | .finish =>
    match s.current with
    | some sl => if sl.numReceivedMsgs < sl.totalNumMsgs ∧ s.running then none else some { s with current := none }
    | none => none
  | .stop => some { s with running := false }
  | .tick nanoseconds => some { s with now := s.now + nanoseconds }
  | .write qpn words => some { s with buffers := Function.update s.buffers qpn words }
  | .store addr w => if s.reads addr then none else some { s with memory := Function.update s.memory addr w }

/-- The thread, from where it enters its main loop. -/
def machine : Machine (RdmaWorkerThread c K) (Event c) where
  init s := ∃ memory buffers, s = new c memory buffers
  next := next ops

/-! ## What the steps do -/

variable {ops : FloatOps K} {s s' : RdmaWorkerThread c K} {qpn : c.Qpn}

/-- The steps of the thread, with the state each leads to. -/
inductive Step (ops : FloatOps K) (s : RdmaWorkerThread c K) : Event c → RdmaWorkerThread c K → Prop
  | began (job : JobSlice) : s.current = none → s.running = true → 0 < job.slice.numel →
      (s.prepare job).batchNumMsgs < 2 ^ 16 →
      Step ops s (.begin job) ((batch c (s.prepare job).batchNumMsgs).foldl (postMessage ops) (s.prepare job))
  | completed (sl : RdmaSlice c) (completion : Completion c) : s.current = some sl → 0 < s.recvWrs completion.qpn →
      Step ops s (.complete completion) (s.receive ops sl completion)
  | checked (sl : RdmaSlice c) : s.current = some sl → Step ops s .checkTimeouts (s.checkTimeouts ops)
  | finished (sl : RdmaSlice c) : s.current = some sl →
      ¬(sl.numReceivedMsgs < sl.totalNumMsgs ∧ s.running = true) → Step ops s .finish { s with current := none }
  | stopped : Step ops s .stop { s with running := false }
  | ticked (nanoseconds : ℕ) : Step ops s (.tick nanoseconds) { s with now := s.now + nanoseconds }
  | wrote (qpn : c.Qpn) (words : ℕ → Word) :
      Step ops s (.write qpn words) { s with buffers := Function.update s.buffers qpn words }
  | stored (addr : ℕ) (w : Word) : ¬s.reads addr →
      Step ops s (.store addr w) { s with memory := Function.update s.memory addr w }

theorem step {e : Event c} (hn : s.next ops e = some s') : Step ops s e s' := by
  cases e with
  | begin job =>
    simp only [next, begin, Option.ite_none_right_eq_some, Option.isNone_iff_eq_none, Option.some.injEq] at hn
    obtain ⟨⟨h1, h2, h3⟩, h4, rfl⟩ := hn
    exact .began job h1 h2 h3 h4
  | complete completion =>
    simp only [next] at hn
    split at hn
    · rename_i sl hs
      simp only [Option.ite_none_right_eq_some, Option.some.injEq] at hn
      obtain ⟨hpos, rfl⟩ := hn
      exact .completed sl completion hs hpos
    · cases hn
  | checkTimeouts =>
    simp only [next, Option.ite_none_right_eq_some, Option.some.injEq] at hn
    obtain ⟨hsome, rfl⟩ := hn
    obtain ⟨sl, hs⟩ := Option.isSome_iff_exists.mp hsome
    exact .checked sl hs
  | finish =>
    simp only [next] at hn
    split at hn
    · rename_i sl hs
      simp only [Option.ite_none_left_eq_some, Option.some.injEq] at hn
      obtain ⟨hend, rfl⟩ := hn
      exact .finished sl hs hend
    · cases hn
  | stop =>
    cases hn
    exact .stopped
  | tick nanoseconds =>
    cases hn
    exact .ticked nanoseconds
  | write qpn words =>
    cases hn
    exact .wrote qpn words
  | store addr w =>
    simp only [next, Option.ite_none_left_eq_some, Option.some.injEq] at hn
    obtain ⟨hr, rfl⟩ := hn
    exact .stored addr w hr

end RdmaWorkerThread

end SwitchML.Client
