/-
`dummy_worker_thread.cc` and `dummy_backend.cc`: the worker threads of a context
whose packets come back from the client itself, in any order and in bursts of
any size, with every element multiplied by the number of workers.

A worker's step between two of the context's is the setup of its slice up to the
first batch, one call of `ReceiveBurst` with the choices made in it, or one
received packet with the packet that reuses it. The client may write to memory
between any two steps.
-/
import SwitchML.Client.QuantizerFrame
import SwitchML.Client.Config
import SwitchML.Client.Context

namespace SwitchML.Client

open Rounding

/-! ## The configuration -/

/-- A configuration with `T` worker threads that `Config::Validate` accepts. -/
structure DummyConfig (T : ℕ) where
  build : Build
  general : Config
  numWorkers : ℕ
  instantJobCompletion : Bool
  processPackets : Bool
  /-- What `Config::Validate` leaves. -/
  validated : Config
  backend : general.backend = .dummy
  threads : general.numWorkerThreads.toNat = T
  accepted : general.validate build = .ok validated
  packetNumel_pos : 0 < general.packetNumel.toNat
  /-- The size of the buffers a thread allocates for its packets. -/
  buffers : validated.maxOutstandingPkts * general.packetNumel.toNat * 4 < 2 ^ 64

namespace DummyConfig

variable {T : ℕ} (c : DummyConfig T)

def packetNumel : ℕ := c.general.packetNumel.toNat

/-- `max_outstanding_packets / num_worker_threads` -/
def maxOutstandingPkts : ℕ := c.validated.maxOutstandingPkts

/-- The rounded `max_outstanding_packets` is a `uint32_t` too. -/
def Rounds : Prop := nearestMultiple T c.general.maxOutstandingPackets.toNat < 2 ^ 32

instance : Decidable c.Rounds := inferInstanceAs (Decidable (_ < _))

theorem threads_pos (c : DummyConfig T) : 0 < T := by
  rw [← c.threads]
  exact (Config.validate_numWorkerThreads c.accepted).2

/-- Each thread may have a packet outstanding, if the rounding does not wrap
around. -/
theorem maxOutstandingPkts_pos (h : c.Rounds) : 0 < c.maxOutstandingPkts := by
  obtain ⟨hpos, hle, hvalidated⟩ := Config.validate_dummy c.backend c.accepted
  have hfits : nearestMultiple c.general.numWorkerThreads.toNat c.general.maxOutstandingPackets.toNat < 2 ^ 32 := by
    rw [c.threads]
    exact h
  have hmop : c.validated.maxOutstandingPackets.toNat =
      nearestMultiple c.general.numWorkerThreads.toNat c.general.maxOutstandingPackets.toNat := by
    rw [hvalidated, Config.roundPackets_toNat hpos (lt_of_lt_of_le hpos hle), Nat.mod_eq_of_lt hfits]
  have hthreads : c.validated.numWorkerThreads = c.general.numWorkerThreads := by
    rw [hvalidated, Config.roundPackets_numWorkerThreads]
  rw [maxOutstandingPkts, Config.maxOutstandingPkts, hmop, hthreads]
  exact Nat.div_pos (Nat.le_of_dvd (nearestMultiple_pos hpos _) (dvd_nearestMultiple _ _)) hpos

end DummyConfig

/-! ## Packets -/

structure DummyPacket where
  pktId : ℕ
  jobId : ℕ
  numel : ℕ
  dataType : DataType
  /-- The one of the outstanding buffers that `entries_ptr` and `extra_info_ptr`
  point to. -/
  buffer : ℕ
  deriving DecidableEq

/-- `SWAP_INT32` -/
def swapInt32 (a : Word) : Word :=
  (a.sshiftRight 24 &&& 0xff#32) ||| (a <<< 8 &&& 0xff0000#32) ||| (a.sshiftRight 8 &&& 0xff00#32) |||
    (a <<< 24 &&& 0xff000000#32)

/-- `ProcessPacket` on one element. -/
def processEntry (numWorkers : ℕ) (entry : Word) : Word :=
  swapInt32 (swapInt32 entry * BitVec.ofNat 32 numWorkers)

/-- The variables of the receive loop. -/
structure DummyLoop where
  totalNumPkts : ℕ
  batchNumPkts : ℕ
  numPacketsReceived : ℕ
  /-- What is left of the last burst. -/
  receivedPackets : List DummyPacket
  packetsToSend : List DummyPacket
  /-- The ids given to `PostprocessSingle`. -/
  posts : List ℕ

/-- What the worker leaves its receive loop with: whether all packets were
received. In the middle of a burst it does not leave. -/
def DummyLoop.left (lp : DummyLoop) : Option Bool :=
  if lp.receivedPackets = [] then some (lp.numPacketsReceived = lp.totalNumPkts) else none

structure DummyWorkerThread (K : Type) where
  ppp : Ppp K
  /-- `outstanding_entries` and `outstanding_extra_info`, by buffer. -/
  outstanding : ℕ → Packet
  /-- The backend's `pending_packets_` of this thread. -/
  pendingPackets : List DummyPacket
  current : Option DummyLoop

namespace DummyWorkerThread

variable {T : ℕ} {K : Type} (c : DummyConfig T) (ops : FloatOps K)

def new (outstanding : ℕ → Packet) : DummyWorkerThread K where
  ppp := {
    ltuSize := c.packetNumel * 4
    batchMaxNumLtus := c.maxOutstandingPkts
    numWorkers := c.numWorkers
    slice := { inPtr := 0, outPtr := 0, numel := 0, dataType := .int32 }
    totalMainNumLtus := 0
    batchNumLtus := 0
    scalingFactors := fun _ => none }
  outstanding := outstanding
  pendingPackets := []
  current := none

/-- `PreprocessSingle` into the packet's buffer. -/
def preprocess (ppp : Ppp K) (memory : Memory) (outstanding : ℕ → Packet) (pkt : DummyPacket) : ℕ → Packet :=
  Function.update outstanding pkt.buffer (ppp.preprocessSingle ops memory pkt.pktId (outstanding pkt.buffer)).1

/-! ## The first batch -/

def firstBatchPkts (job : JobSlice) (batchNumPkts : ℕ) : List DummyPacket :=
  (List.range batchNumPkts).map fun i => {
    pktId := i
    jobId := job.job.id
    numel := c.packetNumel
    dataType := job.slice.dataType
    buffer := i % batchNumPkts }

def batchNumPkts (ppp : Ppp K) : ℕ := min c.maxOutstandingPkts ppp.totalMainNumLtus

def totalNumPkts (ppp : Ppp K) : ℕ :=
  if ppp.needsExtraBatch then ppp.totalMainNumLtus + batchNumPkts c ppp else ppp.totalMainNumLtus

/-- From the slice to the receive loop, but for the check of `SendBurst` that
there is a packet. -/
def begin (w : DummyWorkerThread K) (memory : Memory) (job : JobSlice) : DummyWorkerThread K :=
  let ppp := w.ppp.setupJobSlice job.slice
  let first := firstBatchPkts c job (batchNumPkts c ppp)
  { ppp
    outstanding := first.foldl (preprocess ops ppp memory) w.outstanding
    pendingPackets := w.pendingPackets ++ first
    current := some {
      totalNumPkts := totalNumPkts c ppp
      batchNumPkts := batchNumPkts c ppp
      numPacketsReceived := 0
      receivedPackets := []
      packetsToSend := []
      posts := [] } }

/-! ## The receive loop -/

/-- `ProcessPacket` -/
def processPacket (outstanding : ℕ → Packet) (pkt : DummyPacket) : ℕ → Packet :=
  Function.update outstanding pkt.buffer { outstanding pkt.buffer with
    entries := Ppp.fill pkt.numel (fun j => processEntry c.numWorkers ((outstanding pkt.buffer).entries j))
      (outstanding pkt.buffer).entries }

/-- The loop of `ReceiveBurst`, with the index that is chosen in each turn. -/
def receiveBurst (w : DummyWorkerThread K) (received : List DummyPacket) :
    List ℕ → Option (DummyWorkerThread K × List DummyPacket)
  | [] => some (w, received)
  | i :: choices =>
    match w.pendingPackets[i]? with
    | some pkt =>
      receiveBurst { w with
        outstanding := if c.processPackets then processPacket c w.outstanding pkt else w.outstanding
        pendingPackets := w.pendingPackets.eraseIdx i } (received ++ [pkt]) choices
    | none => none

/-- The packet that reuses a received one. -/
def reuse (lp : DummyLoop) (pkt : DummyPacket) : DummyPacket :=
  { pkt with
    pktId := pkt.pktId + lp.batchNumPkts
    buffer := (pkt.pktId + lp.batchNumPkts) % lp.batchNumPkts }

/-- A received packet is postprocessed, and its successor is created. After the
last one of a burst the new packets are sent. -/
def process (w : DummyWorkerThread K) (memory : Memory) (lp : DummyLoop) (pkt : DummyPacket) (rest : List DummyPacket) :
    DummyWorkerThread K × Memory :=
  let r := w.ppp.postprocessSingle ops memory pkt.pktId (w.outstanding pkt.buffer)
  let next := reuse lp pkt
  let reused := next.pktId < lp.totalNumPkts
  let packetsToSend := if reused then lp.packetsToSend ++ [next] else lp.packetsToSend
  ({ ppp := r.1
     outstanding := if reused then preprocess ops r.1 r.2.1 w.outstanding next else w.outstanding
     pendingPackets := if rest = [] then w.pendingPackets ++ packetsToSend else w.pendingPackets
     current := some { lp with
       receivedPackets := rest
       packetsToSend := if rest = [] then [] else packetsToSend
       posts := lp.posts ++ [pkt.pktId] } },
    r.2.1)

end DummyWorkerThread

/-! ## The client with its threads -/

/-- A check of the backend that stops the process. -/
inductive DummyCheck
  /-- `SendBurst` is called with a packet. -/
  | sendBurst
  /-- `ReceiveBurst` is called while a packet is pending. -/
  | receiveBurst
  deriving DecidableEq

structure DummyBackend (T : ℕ) (K : Type) where
  ctx : Ctx T
  memory : Memory
  thread : Fin T → DummyWorkerThread K
  fault : Option DummyCheck
  /-- What was in memory when a job was enqueued. -/
  submitted : ℕ → Memory

namespace DummyBackend

variable {T : ℕ} {K : Type} (c : DummyConfig T) (ops : FloatOps K)

def setThread (s : DummyBackend T K) (t : Fin T) (w : DummyWorkerThread K) : DummyBackend T K :=
  { s with thread := Function.update s.thread t w }

/-- The context has made a step. -/
def withCtx (s : DummyBackend T K) (ctx : Ctx T) : DummyBackend T K :=
  { s with
    ctx
    submitted := fun id => if id ∈ s.ctx.run.jobs.map Job.id then s.submitted id else s.memory }

/-- A step of the context. -/
def ctxNext (s : DummyBackend T K) (e : Ctx.Event T) : Option (DummyBackend T K) :=
  (s.ctx.next c.instantJobCompletion e).map s.withCtx

inductive Event (T : ℕ)
  | ctx (e : Ctx.Event T)
  | begin (t : Fin T)
  | receiveBurst (t : Fin T) (choices : List ℕ)
  | process (t : Fin T)
  /-- The client writes to memory. -/
  | write (addr : ℕ) (w : Word)

/-- A step of worker `t` in the context. At its work it has to be done with the
receive loop. -/
def workerNext (s : DummyBackend T K) (t : Fin T) (received : Bool) : Option (DummyBackend T K) :=
  if s.ctx.worker t = .outside .work then
    match (s.thread t).current with
    | some lp =>
      if lp.left = some received then
        (s.ctxNext c (.worker t received)).map fun s' => s'.setThread t { s.thread t with current := none }
      else none
    | none => none
  else s.ctxNext c (.worker t received)

/-- The worker sets up the slice the scheduler gave it. -/
def beginNext (s : DummyBackend T K) (t : Fin T) : Option (DummyBackend T K) :=
  match s.ctx.run.loc t, (s.thread t).current with
  | .holding job, none =>
    if s.ctx.worker t = .outside .work then
      let w := (s.thread t).begin c ops s.memory job
      if DummyWorkerThread.batchNumPkts c w.ppp = 0 then some { s with fault := some .sendBurst }
      else some (s.setThread t w)
    else none
  | _, _ => none

def receiveBurstNext (s : DummyBackend T K) (t : Fin T) (choices : List ℕ) : Option (DummyBackend T K) :=
  match (s.thread t).current with
  | some lp =>
    if lp.receivedPackets = [] ∧ lp.numPacketsReceived ≠ lp.totalNumPkts ∧ s.ctx.state = .running then
      if (s.thread t).pendingPackets = [] then some { s with fault := some .receiveBurst }
      else ((s.thread t).receiveBurst c [] choices).map fun r => s.setThread t { r.1 with
        current := some { lp with
          receivedPackets := r.2, numPacketsReceived := lp.numPacketsReceived + r.2.length } }
    else none
  | none => none

def processNext (s : DummyBackend T K) (t : Fin T) : Option (DummyBackend T K) :=
  match (s.thread t).current with
  | some lp =>
    match lp.receivedPackets with
    | pkt :: rest =>
      let r := (s.thread t).process ops s.memory lp pkt rest
      some { s.setThread t r.1 with memory := r.2 }
    | [] => none
  | none => none

def next (s : DummyBackend T K) (e : Event T) : Option (DummyBackend T K) :=
  if s.fault.isSome then none
  else match e with
    | .ctx (.worker t received) => s.workerNext c t received
    | .ctx (.client call) => s.ctxNext c (.client call)
    | .begin t => s.beginNext c ops t
    | .receiveBurst t choices => s.receiveBurstNext c t choices
    | .process t => s.processNext ops t
    | .write addr w => some { s with memory := Function.update s.memory addr w }

/-- A client of the dummy backend. What is in memory and in the outstanding
buffers at first may be anything. -/
def machine : Machine (DummyBackend T K) (Event T) where
  init s := ∃ (memory : Memory) (outstanding : Fin T → ℕ → Packet), s = {
    ctx := Ctx.new T
    memory
    thread := fun t => DummyWorkerThread.new c (outstanding t)
    fault := none
    submitted := fun _ => memory }
  next := next c ops

/-! ## What the steps do -/

variable {c : DummyConfig T} {ops : FloatOps K} {s s' : DummyBackend T K}

/-- The steps, with the state each leads to. -/
inductive Step (c : DummyConfig T) (ops : FloatOps K) (s : DummyBackend T K) : Event T → DummyBackend T K → Prop
  | moved (e : Ctx.Event T) (ctx : Ctx T) : s.ctx.next c.instantJobCompletion e = some ctx →
      (∀ t received, e = .worker t received → s.ctx.worker t ≠ .outside .work) → Step c ops s (.ctx e) (s.withCtx ctx)
  | left (t : Fin T) (received : Bool) (lp : DummyLoop) (ctx : Ctx T) : s.ctx.worker t = .outside .work →
      (s.thread t).current = some lp → lp.left = some received →
      s.ctx.next c.instantJobCompletion (.worker t received) = some ctx →
      Step c ops s (.ctx (.worker t received)) ((s.withCtx ctx).setThread t { s.thread t with current := none })
  | began (t : Fin T) (job : JobSlice) : s.ctx.worker t = .outside .work → s.ctx.run.loc t = .holding job →
      (s.thread t).current = none →
      DummyWorkerThread.batchNumPkts c ((s.thread t).ppp.setupJobSlice job.slice) ≠ 0 →
      Step c ops s (.begin t) (s.setThread t ((s.thread t).begin c ops s.memory job))
  | sentNone (t : Fin T) (job : JobSlice) : s.ctx.worker t = .outside .work → s.ctx.run.loc t = .holding job →
      (s.thread t).current = none →
      DummyWorkerThread.batchNumPkts c ((s.thread t).ppp.setupJobSlice job.slice) = 0 →
      Step c ops s (.begin t) { s with fault := some .sendBurst }
  | receivedBurst (t : Fin T) (choices : List ℕ) (lp : DummyLoop) (w : DummyWorkerThread K) (received : List DummyPacket) :
      (s.thread t).current = some lp → lp.receivedPackets = [] → lp.numPacketsReceived ≠ lp.totalNumPkts →
      (s.thread t).receiveBurst c [] choices = some (w, received) →
      Step c ops s (.receiveBurst t choices) (s.setThread t { w with
        current := some { lp with
          receivedPackets := received, numPacketsReceived := lp.numPacketsReceived + received.length } })
  | receivedNone (t : Fin T) (choices : List ℕ) (lp : DummyLoop) : (s.thread t).current = some lp →
      lp.receivedPackets = [] → lp.numPacketsReceived ≠ lp.totalNumPkts → (s.thread t).pendingPackets = [] →
      Step c ops s (.receiveBurst t choices) { s with fault := some .receiveBurst }
  | processed (t : Fin T) (lp : DummyLoop) (pkt : DummyPacket) (rest : List DummyPacket) :
      (s.thread t).current = some lp → lp.receivedPackets = pkt :: rest →
      Step c ops s (.process t) { s.setThread t ((s.thread t).process ops s.memory lp pkt rest).1 with
        memory := ((s.thread t).process ops s.memory lp pkt rest).2 }
  | wrote (addr : ℕ) (w : Word) : Step c ops s (.write addr w) { s with memory := Function.update s.memory addr w }

theorem step {e : Event T} (hn : s.next c ops e = some s') : Step c ops s e s' := by
  simp only [next] at hn
  split at hn
  · cases hn
  cases e with
  | ctx e =>
    cases e with
    | worker t received =>
      simp only [workerNext] at hn
      split at hn
      · rename_i hw
        split at hn
        · rename_i lp hlp
          split at hn
          · rename_i hleft
            obtain ⟨s1, hs1, rfl⟩ := Option.map_eq_some_iff.mp hn
            obtain ⟨ctx, hc, rfl⟩ := Option.map_eq_some_iff.mp hs1
            exact .left t received lp ctx hw hlp hleft hc
          · cases hn
        · cases hn
      · rename_i hw
        obtain ⟨ctx, hc, rfl⟩ := Option.map_eq_some_iff.mp hn
        refine .moved _ ctx hc fun v r he => ?_
        cases he
        exact hw
    | client call =>
      obtain ⟨ctx, hc, rfl⟩ := Option.map_eq_some_iff.mp hn
      exact .moved _ ctx hc fun v r he => by cases he
  | begin t =>
    simp only [beginNext] at hn
    split at hn
    · rename_i job hl hcur
      split at hn
      · rename_i hw
        split at hn
        · rename_i hb
          cases hn
          exact .sentNone t job hw hl hcur hb
        · rename_i hb
          cases hn
          exact .began t job hw hl hcur hb
      · cases hn
    · cases hn
  | receiveBurst t choices =>
    simp only [receiveBurstNext] at hn
    split at hn
    · rename_i lp hlp
      split at hn
      · rename_i hc
        obtain ⟨hburst, hnum, -⟩ := hc
        split at hn
        · rename_i hp
          cases hn
          exact .receivedNone t choices lp hlp hburst hnum hp
        · obtain ⟨⟨w, received⟩, hr, rfl⟩ := Option.map_eq_some_iff.mp hn
          exact .receivedBurst t choices lp w received hlp hburst hnum hr
      · cases hn
    · cases hn
  | process t =>
    simp only [processNext] at hn
    split at hn
    · rename_i lp hlp
      split at hn
      · rename_i pkt rest hburst
        cases hn
        exact .processed t lp pkt rest hlp hburst
      · cases hn
    · cases hn
  | write addr w =>
    cases hn
    exact .wrote addr w

@[simp] theorem withCtx_ctx {ctx : Ctx T} : (s.withCtx ctx).ctx = ctx := rfl
@[simp] theorem withCtx_memory {ctx : Ctx T} : (s.withCtx ctx).memory = s.memory := rfl
@[simp] theorem withCtx_thread {ctx : Ctx T} : (s.withCtx ctx).thread = s.thread := rfl
@[simp] theorem setThread_ctx {t : Fin T} {w : DummyWorkerThread K} : (s.setThread t w).ctx = s.ctx := rfl
@[simp] theorem setThread_memory {t : Fin T} {w : DummyWorkerThread K} : (s.setThread t w).memory = s.memory := rfl
@[simp] theorem setThread_submitted {t : Fin T} {w : DummyWorkerThread K} :
    (s.setThread t w).submitted = s.submitted := rfl

theorem setThread_self {t : Fin T} {w : DummyWorkerThread K} : (s.setThread t w).thread t = w :=
  Function.update_self ..

theorem setThread_of_ne {t v : Fin T} {w : DummyWorkerThread K} (h : v ≠ t) : (s.setThread t w).thread v = s.thread v :=
  Function.update_of_ne h ..

/-- The context of a client makes runs of its own. -/
theorem ctx_reach {ok : DummyBackend T K → Event T → Prop} {ok' : Ctx T → Ctx.Event T → Prop}
    (hok : ∀ s e, ok s (.ctx e) → ok' s.ctx e) (h : (machine c ops).Reach ok s) :
    (Ctx.machine T c.instantJobCompletion).Reach ok' s.ctx := by
  refine Machine.Reach.map (fun s hs => ?_) (fun s e s' hk hn => ?_) h
  · obtain ⟨memory, outstanding, rfl⟩ := hs
    rfl
  · cases step hn with
    | moved e ctx hc => exact .inr ⟨e, hok s e hk, hc⟩
    | left t received lp ctx _ _ _ hc => exact .inr ⟨_, hok s _ hk, hc⟩
    | began | sentNone | receivedBurst | receivedNone | processed | wrote => exact .inl rfl

end DummyBackend

end SwitchML.Client
