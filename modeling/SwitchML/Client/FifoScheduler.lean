/-
`fifo_scheduler.cc` with the `Barrier` of `utils.cc`: each function cut into
its critical sections, and the machine of threads that run through them.

`GetJobSlice` has four: the test of `stopped_`, entering the barrier, leaving
it, and from the wait for a job to the return. Between them a thread holds no
lock, so that anything may happen in between. The other functions are one
section each but for `Stop`, which sets `stopped_` in one and does the rest in
another.
-/
import SwitchML.Client.Job
import SwitchML.Lib.Machine
import SwitchML.Lib.Split
import Mathlib.Tactic.SplitIfs

namespace SwitchML.Client

/-! ## The barrier -/

structure Barrier where
  count : ℤ
  flag : Bool

def Barrier.new (numParticipants : ℕ) : Barrier := { count := numParticipants, flag := false }

/-- `Wait` up to where it blocks: the flag copied by a thread that has to wait,
or `none` for the last one. -/
def Barrier.enter (numParticipants : ℕ) (b : Barrier) : Except Fault (Barrier × Option Bool) :=
  if b.count = -1 then .error .barrierDestroyed
  else if 0 < b.count - 1 then .ok ({ b with count := b.count - 1 }, some b.flag)
  else .ok ({ count := numParticipants, flag := !b.flag }, none)

/-- What a thread in `Wait` waits for. -/
def Barrier.released (b : Barrier) (flagCopy : Bool) : Bool := b.count = -1 || flagCopy != b.flag

def Barrier.destroy (b : Barrier) : Barrier := { b with count := -1 }

/-! ## The scheduler -/

structure FifoScheduler where
  stopped : Bool
  queue : List Job
  finishedJobSlices : ℕ → Option ℤ
  undispatchedJobSlices : ℕ → Option ℤ
  barrier : Barrier
  /-- The status of every job object. -/
  status : ℕ → JobStatus

/-- `unordered_map::insert`, which keeps an entry that is there. -/
def mapInsert (m : ℕ → Option ℤ) (k : ℕ) (v : ℤ) : ℕ → Option ℤ :=
  if (m k).isSome then m else Function.update m k (some v)

/-- `unordered_map::at`. -/
def mapAt (m : ℕ → Option ℤ) (k : ℕ) : Except Fault ℤ :=
  match m k with
  | some v => .ok v
  | none => .error (.outOfRange k)

def mapErase (m : ℕ → Option ℤ) (k : ℕ) : ℕ → Option ℤ := Function.update m k none

namespace FifoScheduler

def new (numWorkerThreads : ℕ) : FifoScheduler where
  stopped := false
  queue := []
  finishedJobSlices _ := none
  undispatchedJobSlices _ := none
  barrier := Barrier.new numWorkerThreads
  status _ := .init

def enqueueJob (numWorkerThreads : ℕ) (s : FifoScheduler) (job : Job) : Except Fault FifoScheduler := do
  let status ← setJobStatus s.status job.id .queued
  .ok { s with
    status
    finishedJobSlices := mapInsert s.finishedJobSlices job.id 0
    undispatchedJobSlices := mapInsert s.undispatchedJobSlices job.id numWorkerThreads
    queue := s.queue ++ [job] }

/-- How many elements a thread works on. -/
def sliceNumel (numWorkerThreads numel workerThreadId : ℕ) : ℕ :=
  let remainder := numel % numWorkerThreads
  let getExtraElement := remainder > workerThreadId
  if getExtraElement then numel / numWorkerThreads + 1 else numel / numWorkerThreads

/-- Where they start. -/
def sliceOffset (numWorkerThreads numel workerThreadId : ℕ) : ℕ :=
  let remainder := numel % numWorkerThreads
  let getExtraElement := remainder > workerThreadId
  if getExtraElement then workerThreadId * sliceNumel numWorkerThreads numel workerThreadId
  else workerThreadId * sliceNumel numWorkerThreads numel workerThreadId + remainder

def jobSlice (numWorkerThreads : ℕ) (job : Job) (workerThreadId : ℕ) : JobSlice where
  job := job
  slice := { job.tensor with numel := sliceNumel numWorkerThreads job.tensor.numel workerThreadId }.offsetPtrs
    (sliceOffset numWorkerThreads job.tensor.numel workerThreadId)

/-- What `GetJobSlice` does once it is past the barrier: `none` while it has to
wait for a job, else the slice it returns, if it does. -/
def dispatch (numWorkerThreads : ℕ) (s : FifoScheduler) (workerThreadId : ℕ) :
    Option (Except Fault (FifoScheduler × Option JobSlice)) :=
  if s.stopped then some (.ok (s, none))
  else match s.queue with
    | [] => none
    | job :: rest => some do
      let jobSlicesLeft := (← mapAt s.undispatchedJobSlices job.id) - 1
      let status ← setJobStatus s.status job.id .running
      if jobSlicesLeft = 0 then
        .ok ({ s with
          queue := rest, undispatchedJobSlices := mapErase s.undispatchedJobSlices job.id, status },
          some (jobSlice numWorkerThreads job workerThreadId))
      else
        .ok ({ s with
          undispatchedJobSlices := Function.update s.undispatchedJobSlices job.id (some jobSlicesLeft), status },
          some (jobSlice numWorkerThreads job workerThreadId))

def notifyJobSliceCompletion (numWorkerThreads : ℕ) (s : FifoScheduler) (jobSlice : JobSlice) :
    Except Fault (FifoScheduler × Bool) :=
  if s.stopped then do
    let status ← setJobStatus s.status jobSlice.job.id .failed
    .ok ({ s with status }, false)
  else do
    let finishedJobSlices := (← mapAt s.finishedJobSlices jobSlice.job.id) + 1
    let finishedJob : Bool := finishedJobSlices = numWorkerThreads
    if finishedJob then
      .ok ({ s with finishedJobSlices := mapErase s.finishedJobSlices jobSlice.job.id }, true)
    else
      .ok ({ s with
        finishedJobSlices := Function.update s.finishedJobSlices jobSlice.job.id (some finishedJobSlices) }, false)

/-- `Scheduler::Stop`. -/
def stopFlag (s : FifoScheduler) : FifoScheduler := { s with stopped := true }

/-- The status of the jobs after all those in a queue have been failed. -/
def failAll (status : ℕ → JobStatus) : List Job → Except Fault (ℕ → JobStatus)
  | [] => .ok status
  | job :: rest => do failAll (← setJobStatus status job.id .failed) rest

/-- The rest of `FifoScheduler::Stop`. -/
def stopClear (s : FifoScheduler) : Except Fault FifoScheduler := do
  let status ← failAll s.status s.queue
  .ok { s with
    barrier := s.barrier.destroy
    queue := []
    undispatchedJobSlices := fun _ => none
    finishedJobSlices := fun _ => none
    status }

end FifoScheduler

/-! ## What the sections do when they do not fault -/

namespace FifoScheduler

variable {T : ℕ} {s : FifoScheduler} {job : Job} {n : ℤ}

theorem mapInsert_fresh {m : ℕ → Option ℤ} {k : ℕ} {v : ℤ} (h : m k = none) :
    mapInsert m k v = Function.update m k (some v) := by
  simp [mapInsert, h]

theorem mapAt_some {m : ℕ → Option ℤ} {k : ℕ} {v : ℤ} (h : m k = some v) : mapAt m k = .ok v := by
  simp [mapAt, h]

theorem enqueueJob_ok (h : s.status job.id = .init) :
    s.enqueueJob T job = .ok { s with
      status := Function.update s.status job.id .queued
      finishedJobSlices := mapInsert s.finishedJobSlices job.id 0
      undispatchedJobSlices := mapInsert s.undispatchedJobSlices job.id T
      queue := s.queue ++ [job] } := by
  have h1 : setJobStatus s.status job.id .queued = .ok (Function.update s.status job.id .queued) :=
    setJobStatus_ok (by rw [h]; decide)
  simp [enqueueJob, h1, bind, Except.bind]

theorem dispatch_stopped {t : ℕ} (h : s.stopped = true) : s.dispatch T t = some (.ok (s, none)) := by
  simp [dispatch, h]

theorem dispatch_nil {t : ℕ} (h : s.stopped = false) (hq : s.queue = []) : s.dispatch T t = none := by
  simp [dispatch, h, hq]

theorem dispatch_cons {t : ℕ} {rest : List Job} (h : s.stopped = false) (hq : s.queue = job :: rest)
    (hu : s.undispatchedJobSlices job.id = some n) (hs : (s.status job.id).toNat ≤ JobStatus.running.toNat) :
    s.dispatch T t = some (.ok ({ s with
      queue := if n - 1 = 0 then rest else s.queue
      undispatchedJobSlices := Function.update s.undispatchedJobSlices job.id
        (if n - 1 = 0 then none else some (n - 1))
      status := Function.update s.status job.id .running },
      some (jobSlice T job t))) := by
  have h1 := setJobStatus_ok hs
  have h2 := mapAt_some hu
  unfold dispatch
  rw [hq]
  by_cases hn : n - 1 = 0 <;> simp [h, h1, h2, hn, bind, Except.bind, mapErase]

theorem notify_stopped {sl : JobSlice} (h : s.stopped = true) :
    s.notifyJobSliceCompletion T sl =
      .ok ({ s with status := Function.update s.status sl.job.id .failed }, false) := by
  simp [notifyJobSliceCompletion, h, setJobStatus_failed, bind, Except.bind]

theorem notify_live (sl : JobSlice) (h : s.stopped = false) (hf : s.finishedJobSlices sl.job.id = some n) :
    s.notifyJobSliceCompletion T sl =
      .ok ({ s with
        finishedJobSlices := Function.update s.finishedJobSlices sl.job.id
          (if n + 1 = T then none else some (n + 1)) }, decide (n + 1 = (T : ℤ))) := by
  have h1 := mapAt_some hf
  by_cases hn : n + 1 = (T : ℤ) <;> simp [notifyJobSliceCompletion, h, h1, hn, bind, Except.bind, mapErase]

theorem failAll_ok (status : ℕ → JobStatus) (queue : List Job) :
    failAll status queue = .ok fun id => if id ∈ queue.map Job.id then .failed else status id := by
  induction queue generalizing status with
  | nil => simp [failAll]
  | cons job rest ih =>
    simp only [failAll, setJobStatus_failed, bind, Except.bind, ih, Except.ok.injEq]
    funext id
    by_cases h1 : id = job.id
    · simp [h1]
    · simp [h1]

theorem stopClear_ok :
    s.stopClear = .ok { s with
      barrier := s.barrier.destroy
      queue := []
      undispatchedJobSlices := fun _ => none
      finishedJobSlices := fun _ => none
      status := fun id => if id ∈ s.queue.map Job.id then .failed else s.status id } := by
  simp [stopClear, failAll_ok, bind, Except.bind]

end FifoScheduler

theorem sliceNumel_eq (T numel t : ℕ) : FifoScheduler.sliceNumel T numel t = Split.size numel T t := rfl

theorem sliceOffset_eq (T numel t : ℕ) : FifoScheduler.sliceOffset T numel t = Split.start numel T t := by
  simp only [FifoScheduler.sliceOffset, FifoScheduler.sliceNumel, Split.start, gt_iff_lt]
  split
  · rfl
  · rfl

/-! ## The threads -/

/-- Where a worker thread is. -/
inductive Loc
  /-- It may call `GetJobSlice`. -/
  | idle
  /-- It has found the scheduler not stopped. -/
  | checked
  /-- It is in the barrier, with this copy of the flag. -/
  | waiting (flagCopy : Bool)
  /-- It is past the barrier. -/
  | passed
  /-- It works on a slice. -/
  | holding (jobSlice : JobSlice)
  /-- It has to set the status of the job to finished. -/
  | finishing (job : Job)
  /-- It has left its loop. -/
  | exited
  deriving DecidableEq

/-- The state of the scheduler, its threads and what they have done so far. -/
structure Run (T : ℕ) where
  sched : FifoScheduler
  loc : Fin T → Loc
  /-- `Stop` is between its two sections. -/
  stopping : Bool
  fault : Option Fault
  /-- The jobs enqueued, in order. -/
  jobs : List Job
  /-- The slices a thread was given, in order. -/
  got : Fin T → List JobSlice
  /-- How many of them it has handed back before `Stop`. -/
  completed : Fin T → ℕ
  /-- How many slices of a job were handed back before `Stop`. -/
  notified : ℕ → ℕ
  /-- How often a thread has entered the barrier. -/
  arrived : Fin T → ℕ
  /-- How often `NotifyJobSliceCompletion` returned true for a job. -/
  trues : ℕ → ℕ

namespace Run

variable {T : ℕ}

def new (T : ℕ) : Run T where
  sched := FifoScheduler.new T
  loc _ := .idle
  stopping := false
  fault := none
  jobs := []
  got _ := []
  completed _ := 0
  notified _ := 0
  arrived _ := 0
  trues _ := 0

/-- Thread `t` is now at `l`. -/
def goto (s : Run T) (t : Fin T) (l : Loc) : Run T := { s with loc := Function.update s.loc t l }

/-- A section that faults stops the process. -/
def guard (s : Run T) {α : Type} (r : Except Fault α) (k : α → Run T) : Run T :=
  match r with
  | .ok a => k a
  | .error f => { s with fault := some f }

inductive Event (T : ℕ)
  | enqueue (job : Job)
  | check (t : Fin T)
  | arrive (t : Fin T)
  | leave (t : Fin T)
  | take (t : Fin T)
  | notify (t : Fin T)
  | finish (t : Fin T)
  /-- A thread exits, with the slice it holds if it has one. -/
  | exit (t : Fin T)
  | stopFlag
  | stopClear

def enqueue (s : Run T) (job : Job) : Run T :=
  s.guard (s.sched.enqueueJob T job) fun sched => { s with sched, jobs := s.jobs ++ [job] }

def check (s : Run T) (t : Fin T) : Run T := if s.sched.stopped then s else s.goto t .checked

def arrive (s : Run T) (t : Fin T) : Run T :=
  s.guard (s.sched.barrier.enter T) fun (barrier, flagCopy) =>
    { s with
      sched := { s.sched with barrier }
      arrived := Function.update s.arrived t (s.arrived t + 1)
      loc := Function.update s.loc t (flagCopy.elim .passed .waiting) }

def take (s : Run T) (t : Fin T) : Option (Run T) :=
  (s.sched.dispatch T t).map fun r => s.guard r fun (sched, jobSlice) =>
    match jobSlice with
    | none => { s.goto t .idle with sched }
    | some jobSlice =>
      { s.goto t (.holding jobSlice) with
        sched, got := Function.update s.got t (s.got t ++ [jobSlice]) }

def notify (s : Run T) (t : Fin T) (jobSlice : JobSlice) : Run T :=
  s.guard (s.sched.notifyJobSliceCompletion T jobSlice) fun (sched, finishedJob) =>
    { s.goto t (if finishedJob then .finishing jobSlice.job else .idle) with
      sched
      completed := if s.sched.stopped then s.completed else Function.update s.completed t (s.completed t + 1)
      notified := if s.sched.stopped then s.notified
        else Function.update s.notified jobSlice.job.id (s.notified jobSlice.job.id + 1)
      trues := if finishedJob then Function.update s.trues jobSlice.job.id (s.trues jobSlice.job.id + 1)
        else s.trues }

/-- What `Context::NotifyJobSliceCompletion` does with a job that is complete. -/
def finish (s : Run T) (t : Fin T) (job : Job) : Run T :=
  s.guard (setJobStatus s.sched.status job.id .finished) fun status =>
    { s.goto t .idle with sched := { s.sched with status } }

def clear (s : Run T) : Run T :=
  s.guard s.sched.stopClear fun sched => { s with sched, stopping := false }

/-- One step of one thread, or of a client that enqueues a new job or stops the
scheduler. After a fault there is none. -/
def next (s : Run T) (e : Event T) : Option (Run T) :=
  if s.fault.isSome then none
  else match e with
    | .enqueue job => if job.id ∈ s.jobs.map Job.id then none else some (s.enqueue job)
    | .check t => if s.loc t = .idle then some (s.check t) else none
    | .arrive t => if s.loc t = .checked then some (s.arrive t) else none
    | .leave t =>
      match s.loc t with
      | .waiting flagCopy => if s.sched.barrier.released flagCopy then some (s.goto t .passed) else none
      | _ => none
    | .take t => if s.loc t = .passed then s.take t else none
    | .notify t =>
      match s.loc t with
      | .holding jobSlice => some (s.notify t jobSlice)
      | _ => none
    | .finish t =>
      match s.loc t with
      | .finishing job => some (s.finish t job)
      | _ => none
    | .exit t =>
      match s.loc t with
      | .idle | .holding _ => some (s.goto t .exited)
      | _ => none
    | .stopFlag => if s.stopping then none else some { s with sched := s.sched.stopFlag, stopping := true }
    | .stopClear => if s.stopping then some s.clear else none

/-- The scheduler used by `T` worker threads and any number of clients. -/
def machine (T : ℕ) : Machine (Run T) (Event T) where
  init s := s = new T
  next := next

end Run

namespace Run

variable {T : ℕ} {s : Run T}

@[simp] theorem guard_ok {α : Type} (a : α) (k : α → Run T) : s.guard (.ok a) k = k a := rfl

@[simp] theorem guard_error {α : Type} (f : Fault) (k : α → Run T) :
    s.guard (.error f) k = { s with fault := some f } := rfl

end Run

end SwitchML.Client
