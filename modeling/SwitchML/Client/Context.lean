/-
`context.cc` with the loop of a worker thread (`dummy_worker_thread.cc`): one
client that submits jobs, waits for jobs and then stops the context, and the
worker threads, each a sequence of steps between which the others may run.

To lock a mutex is a step, what is done under it is one, and to unlock it is
one. A `SetJobStatus` inside a section of the scheduler, and `Destroy` inside
`Stop`, lock a second mutex for nothing else; these are part of the section,
which then has to find the second mutex free. What the sections of the
scheduler do is a step of `Run.machine`.
-/
import SwitchML.Client.FifoContract

namespace SwitchML.Client

inductive ContextState
  | running
  | stopping
  | stopped
  deriving DecidableEq

inductive Mutex
  /-- `Context::access_mutex_`. -/
  | context
  /-- `Scheduler::access_mutex_`. -/
  | scheduler
  /-- `Barrier::access_mutex_`. -/
  | barrier
  /-- `Job::access_mutex_`. -/
  | job (id : ℕ)
  deriving DecidableEq

inductive Thread (T : ℕ)
  | client
  | worker (t : Fin T)
  deriving DecidableEq

/-! ## Where the threads are -/

/-- What a worker does under a mutex. -/
inductive Section
  /-- The test of `stopped_` in `GetJobSlice`. -/
  | check
  /-- `Barrier::Wait` up to where it blocks. -/
  | arrive
  /-- The test of `Barrier::Wait` whether to go on blocking. -/
  | leave
  /-- The rest of `GetJobSlice`. -/
  | take
  /-- `FifoScheduler::NotifyJobSliceCompletion`. -/
  | notify
  /-- `SetJobStatus(FINISHED)`. -/
  | finish
  /-- The rest of `Context::NotifyJobSliceCompletion`. -/
  | count
  deriving DecidableEq

inductive Point
  /-- The condition of the worker's main loop. -/
  | loop
  /-- The test of the state in `Context::GetJobSlice`. -/
  | get
  /-- The same test for a slice that needs no work. -/
  | test
  /-- Sending and receiving. -/
  | work
  | enter (c : Section)
  | done
  deriving DecidableEq

inductive WorkerPc
  | outside (p : Point)
  | inside (c : Section)
  /-- It has to unlock the mutex, and goes on at the point. -/
  | leaving (m : Mutex) (p : Point)
  deriving DecidableEq

inductive ClientSection
  /-- `number_of_current_jobs_++` in `AllReduceAsync`. -/
  | count (job : Job) (wait : Bool)
  | enqueue (job : Job) (wait : Bool)
  /-- The test of `WaitToComplete`. -/
  | wait (id : ℕ)
  /-- `Scheduler::Stop`. -/
  | stopFlag
  /-- The rest of `FifoScheduler::Stop`. -/
  | stopClear
  deriving DecidableEq

inductive ClientPoint
  | idle
  | enter (c : ClientSection)
  /-- `Context::Stop` before it locks the context's mutex. -/
  | stop
  | setStopping
  | zero
  /-- `CleanupWorker` joins this thread. -/
  | join (i : ℕ)
  | setStopped
  /-- `Context::Stop` has returned. -/
  | stopped
  deriving DecidableEq

inductive ClientPc
  | outside (p : ClientPoint)
  | inside (c : ClientSection)
  | leaving (m : Mutex) (p : ClientPoint)
  deriving DecidableEq

inductive Call
  /-- `AllReduce`, or `AllReduceAsync` where it does not wait. -/
  | allReduce (job : Job) (wait : Bool)
  | waitToComplete (id : ℕ)
  | stop
  deriving DecidableEq

structure Ctx (T : ℕ) where
  run : Run T
  state : ContextState
  numberOfCurrentJobs : ℤ
  owner : Mutex → Option (Thread T)
  worker : Fin T → WorkerPc
  client : ClientPc
  /-- The slices that were worked off, or needed no work. -/
  processed : ℕ → Fin T → Bool

namespace Ctx

variable {T : ℕ}

/-- The context once `Start` has returned. -/
def new (T : ℕ) : Ctx T where
  run := Run.new T
  state := .running
  numberOfCurrentJobs := 0
  owner _ := none
  worker _ := .outside .loop
  client := .outside .idle
  processed _ _ := false

def goto (s : Ctx T) (t : Fin T) (pc : WorkerPc) : Ctx T := { s with worker := Function.update s.worker t pc }

def lock (s : Ctx T) (th : Thread T) (m : Mutex) : Option (Ctx T) :=
  if s.owner m = none then some { s with owner := Function.update s.owner m (some th) } else none

def unlock (s : Ctx T) (m : Mutex) : Ctx T := { s with owner := Function.update s.owner m none }

/-- A step of the scheduler's machine. -/
def sched (s : Ctx T) (e : Run.Event T) : Option (Ctx T) := (Run.next s.run e).map fun run => { s with run }

/-! ## A worker -/

/-- The mutex a section of a worker is under. -/
def mutex (s : Ctx T) (t : Fin T) : Section → Mutex
  | .check | .take | .notify => .scheduler
  | .arrive | .leave => .barrier
  | .count => .context
  | .finish =>
    match s.run.loc t with
    | .finishing job => .job job.id
    | _ => .context

/-- The job whose status a section of the scheduler sets. -/
def setsStatus (s : Ctx T) (t : Fin T) : Section → List ℕ
  | .take => if s.run.sched.stopped then [] else (s.run.sched.queue.head?.map Job.id).toList
  | .notify =>
    match s.run.loc t with
    | .holding jobSlice => if s.run.sched.stopped then [jobSlice.job.id] else []
    | _ => []
  | _ => []

def jobsFree (s : Ctx T) (ids : List ℕ) : Bool := ids.all fun id => s.owner (.job id) = none

/-- Where the worker goes on after a section, by where the section leaves it. -/
def after (instantJobCompletion : Bool) : Section → Loc → Point
  | .check, .checked => .enter .arrive
  | .check, _ => .loop
  | .arrive, .passed => .enter .take
  | .arrive, _ => .enter .leave
  | .leave, _ => .enter .take
  | .take, .holding jobSlice => if jobSlice.slice.numel = 0 || instantJobCompletion then .test else .work
  | .take, _ => .loop
  | .notify, .finishing _ => .enter .finish
  | .notify, _ => .loop
  | .finish, _ => .enter .count
  | .count, _ => .loop

def schedEvent (t : Fin T) : Section → Option (Run.Event T)
  | .check => some (.check t)
  | .arrive => some (.arrive t)
  | .leave => some (.leave t)
  | .take => some (.take t)
  | .notify => some (.notify t)
  | .finish => some (.finish t)
  | .count => none

/-- What a worker does under a mutex. The two that wait for a condition unlock
the mutex and try again. -/
def body (instantJobCompletion : Bool) (s : Ctx T) (t : Fin T) (c : Section) : Option (Ctx T) :=
  if s.jobsFree (s.setsStatus t c) then
    match schedEvent t c with
    | none => some { s.goto t (.leaving .context .loop) with numberOfCurrentJobs := s.numberOfCurrentJobs - 1 }
    | some e =>
      match s.sched e with
      | some s' => some (s'.goto t (.leaving (s.mutex t c) (after instantJobCompletion c (s'.run.loc t))))
      | none =>
        match c with
        | .leave | .take => some (s.goto t (.leaving (s.mutex t c) (.enter c)))
        | _ => none
  else none

/-- The slice the worker holds is worked off. -/
def process (s : Ctx T) (t : Fin T) : Ctx T :=
  match s.run.loc t with
  | .holding jobSlice =>
    { s with
      processed := Function.update s.processed jobSlice.job.id
        (Function.update (s.processed jobSlice.job.id) t true) }
  | _ => s

/-- One step of a worker. Its receive loop ends once all packets are received,
or without `received` because the context is not running. -/
def workerNext (instantJobCompletion : Bool) (s : Ctx T) (t : Fin T) (received : Bool) : Option (Ctx T) :=
  match s.worker t with
  | .outside .loop =>
    if s.state = .running then some (s.goto t (.outside .get))
    else (s.sched (.exit t)).map fun s' => s'.goto t (.outside .done)
  | .outside .get => some (s.goto t (.outside (if s.state = .running then .enter .check else .loop)))
  | .outside .test =>
    if s.state = .running then some ((s.process t).goto t (.outside (.enter .notify)))
    else some (s.goto t (.outside .loop))
  | .outside .work =>
    if received then some ((s.process t).goto t (.outside (.enter .notify)))
    else if s.state = .running then none
    else some (s.goto t (.outside (.enter .notify)))
  | .outside (.enter c) => (s.lock (.worker t) (s.mutex t c)).map fun s' => s'.goto t (.inside c)
  | .outside .done => none
  | .inside c => s.body instantJobCompletion t c
  | .leaving m p => some ((s.unlock m).goto t (.outside p))

/-! ## The client -/

def clientMutex : ClientSection → Mutex
  | .count _ _ => .context
  | .enqueue _ _ | .stopFlag | .stopClear => .scheduler
  | .wait id => .job id

/-- What the client does under a mutex. -/
def clientBody (s : Ctx T) : ClientSection → Option (Ctx T)
  | .count job wait =>
    some { s with
      numberOfCurrentJobs := s.numberOfCurrentJobs + 1, client := .leaving .context (.enter (.enqueue job wait)) }
  | .enqueue job wait =>
    if s.jobsFree [job.id] then
      (s.sched (.enqueue job)).map fun s' =>
        { s' with client := .leaving .scheduler (if wait then .enter (.wait job.id) else .idle) }
    else none
  | .wait id =>
    some { s with
      client := .leaving (.job id) (if (s.run.sched.status id).decided then .idle else .enter (.wait id)) }
  | .stopFlag =>
    (s.sched .stopFlag).map fun s' => { s' with client := .leaving .scheduler (.enter .stopClear) }
  | .stopClear =>
    if s.jobsFree (s.run.sched.queue.map Job.id) ∧ s.owner .barrier = none then
      (s.sched .stopClear).map fun s' => { s' with client := .leaving .scheduler .zero }
    else none

/-- One step of the client, which calls what it likes where it is idle. -/
def clientNext (s : Ctx T) (call : Call) : Option (Ctx T) :=
  match s.client with
  | .outside .idle =>
    match call with
    | .allReduce job wait =>
      if job.id ∈ s.run.jobs.map Job.id then none
      else some { s with client := .outside (.enter (.count job wait)) }
    | .waitToComplete id => some { s with client := .outside (.enter (.wait id)) }
    | .stop => some { s with client := .outside .stop }
  | .outside (.enter c) => (s.lock .client (clientMutex c)).map fun s' => { s' with client := .inside c }
  | .outside .stop => (s.lock .client .context).map fun s' => { s' with client := .outside .setStopping }
  | .outside .setStopping => some { s with state := .stopping, client := .outside (.enter .stopFlag) }
  | .outside .zero => some { s with numberOfCurrentJobs := 0, client := .outside (.join 0) }
  | .outside (.join i) =>
    if h : i < T then
      if s.worker ⟨i, h⟩ = .outside .done then some { s with client := .outside (.join (i + 1)) } else none
    else some { s with client := .outside .setStopped }
  | .outside .setStopped => some { s with state := .stopped, client := .leaving .context .stopped }
  | .outside .stopped => none
  | .inside c => s.clientBody c
  | .leaving m p => some { s.unlock m with client := .outside p }

inductive Event (T : ℕ)
  | worker (t : Fin T) (received : Bool)
  | client (call : Call)

def next (instantJobCompletion : Bool) (s : Ctx T) (e : Event T) : Option (Ctx T) :=
  if s.run.fault.isSome then none
  else match e with
    | .worker t received => s.workerNext instantJobCompletion t received
    | .client call => s.clientNext call

/-- A context with `T` worker threads and the client that uses it. -/
def machine (T : ℕ) (instantJobCompletion : Bool) : Machine (Ctx T) (Event T) where
  init s := s = new T
  next := next instantJobCompletion

/-! ## What is not changed -/

variable {s s' : Ctx T} {t : Fin T}

@[simp] theorem goto_run {pc : WorkerPc} : (s.goto t pc).run = s.run := rfl
@[simp] theorem goto_state {pc : WorkerPc} : (s.goto t pc).state = s.state := rfl
@[simp] theorem goto_client {pc : WorkerPc} : (s.goto t pc).client = s.client := rfl
@[simp] theorem goto_processed {pc : WorkerPc} : (s.goto t pc).processed = s.processed := rfl
@[simp] theorem unlock_run {m : Mutex} : (s.unlock m).run = s.run := rfl
@[simp] theorem unlock_state {m : Mutex} : (s.unlock m).state = s.state := rfl
@[simp] theorem unlock_client {m : Mutex} : (s.unlock m).client = s.client := rfl
@[simp] theorem unlock_worker {m : Mutex} : (s.unlock m).worker = s.worker := rfl
@[simp] theorem unlock_processed {m : Mutex} : (s.unlock m).processed = s.processed := rfl

theorem worker_goto_self {pc : WorkerPc} : (s.goto t pc).worker t = pc := Function.update_self ..

theorem worker_goto_of_ne {pc : WorkerPc} {v : Fin T} (h : v ≠ t) : (s.goto t pc).worker v = s.worker v :=
  Function.update_of_ne h ..

@[simp] theorem process_run : (s.process t).run = s.run := by unfold process; split <;> rfl
@[simp] theorem process_state : (s.process t).state = s.state := by unfold process; split <;> rfl
@[simp] theorem process_client : (s.process t).client = s.client := by unfold process; split <;> rfl
@[simp] theorem process_worker : (s.process t).worker = s.worker := by unfold process; split <;> rfl

/-! ## What a step does -/

/-- The steps of a worker, with the state each leads to. -/
inductive WorkerStep (instantJobCompletion : Bool) (s : Ctx T) (t : Fin T) : Ctx T → Prop
  | looped : s.worker t = .outside .loop → s.state = .running →
      WorkerStep instantJobCompletion s t (s.goto t (.outside .get))
  | exited (run : Run T) : s.worker t = .outside .loop → s.state ≠ .running → Run.next s.run (.exit t) = some run →
      WorkerStep instantJobCompletion s t ({ s with run }.goto t (.outside .done))
  | got : s.worker t = .outside .get →
      WorkerStep instantJobCompletion s t (s.goto t (.outside (if s.state = .running then .enter .check else .loop)))
  | processed : s.worker t = .outside .test ∨ s.worker t = .outside .work →
      WorkerStep instantJobCompletion s t ((s.process t).goto t (.outside (.enter .notify)))
  | dropped : s.worker t = .outside .test → s.state ≠ .running →
      WorkerStep instantJobCompletion s t (s.goto t (.outside .loop))
  | cut : s.worker t = .outside .work → s.state ≠ .running →
      WorkerStep instantJobCompletion s t (s.goto t (.outside (.enter .notify)))
  | locked (c : Section) : s.worker t = .outside (.enter c) → s.owner (s.mutex t c) = none →
      WorkerStep instantJobCompletion s t
        ({ s with owner := Function.update s.owner (s.mutex t c) (some (.worker t)) }.goto t (.inside c))
  | counted : s.worker t = .inside .count → WorkerStep instantJobCompletion s t
      { s.goto t (.leaving .context .loop) with numberOfCurrentJobs := s.numberOfCurrentJobs - 1 }
  | ran (c : Section) (e : Run.Event T) (run : Run T) : s.worker t = .inside c → schedEvent t c = some e →
      Run.next s.run e = some run → WorkerStep instantJobCompletion s t
        ({ s with run }.goto t (.leaving (s.mutex t c) (after instantJobCompletion c (run.loc t))))
  | retried (c : Section) : s.worker t = .inside c → c = .leave ∨ c = .take →
      WorkerStep instantJobCompletion s t (s.goto t (.leaving (s.mutex t c) (.enter c)))
  | unlocked (m : Mutex) (p : Point) : s.worker t = .leaving m p →
      WorkerStep instantJobCompletion s t ((s.unlock m).goto t (.outside p))

theorem lock_eq_some {th : Thread T} {m : Mutex} (h : s.lock th m = some s') :
    s.owner m = none ∧ s' = { s with owner := Function.update s.owner m (some th) } := by
  simp only [lock, Option.ite_none_right_eq_some, Option.some.injEq] at h
  exact ⟨h.1, h.2.symm⟩

theorem sched_eq_some {e : Run.Event T} (h : s.sched e = some s') :
    ∃ run, Run.next s.run e = some run ∧ s' = { s with run } := by
  simp only [sched, Option.map_eq_some_iff] at h
  obtain ⟨run, hr, rfl⟩ := h
  exact ⟨run, hr, rfl⟩

theorem workerStep {instant received : Bool} (hn : s.workerNext instant t received = some s') :
    WorkerStep instant s t s' := by
  unfold workerNext at hn
  split at hn
  · rename_i hp
    split at hn
    · rename_i hs
      cases hn
      exact .looped hp hs
    · rename_i hs
      obtain ⟨s1, hs1, rfl⟩ := Option.map_eq_some_iff.mp hn
      obtain ⟨run, hr, rfl⟩ := sched_eq_some hs1
      exact .exited run hp hs hr
  · rename_i hp
    cases hn
    exact .got hp
  · rename_i hp
    split at hn <;> cases hn
    · exact .processed (.inl hp)
    · rename_i hs
      exact .dropped hp hs
  · rename_i hp
    split at hn
    · cases hn
      exact .processed (.inr hp)
    · split at hn
      · cases hn
      · rename_i hs
        cases hn
        exact .cut hp hs
  · rename_i c hp
    obtain ⟨s1, hs1, rfl⟩ := Option.map_eq_some_iff.mp hn
    obtain ⟨ho, rfl⟩ := lock_eq_some hs1
    exact .locked c hp ho
  · cases hn
  · rename_i c hp
    unfold body at hn
    split at hn
    · split at hn
      · rename_i he
        cases hn
        have hc : c = .count := by cases c <;> simp [schedEvent] at he ⊢
        exact .counted (hc ▸ hp)
      · rename_i e he
        split at hn
        · rename_i s1 hs1
          cases hn
          obtain ⟨run, hr, rfl⟩ := sched_eq_some hs1
          exact .ran c e run hp he hr
        · split at hn
          · cases hn; exact .retried _ hp (.inl rfl)
          · cases hn; exact .retried _ hp (.inr rfl)
          · cases hn
    · cases hn
  · rename_i m p hp
    cases hn
    exact .unlocked m p hp

/-- The steps of the client, with the state each leads to. -/
inductive ClientStep (s : Ctx T) : Ctx T → Prop
  | submitted (job : Job) (wait : Bool) : s.client = .outside .idle → job.id ∉ s.run.jobs.map Job.id →
      ClientStep s { s with client := .outside (.enter (.count job wait)) }
  | waits (id : ℕ) : s.client = .outside .idle → ClientStep s { s with client := .outside (.enter (.wait id)) }
  | stops : s.client = .outside .idle → ClientStep s { s with client := .outside .stop }
  | locked (c : ClientSection) : s.client = .outside (.enter c) → s.owner (clientMutex c) = none → ClientStep s
      { s with owner := Function.update s.owner (clientMutex c) (some .client), client := .inside c }
  | stopLocked : s.client = .outside .stop → s.owner .context = none → ClientStep s
      { s with owner := Function.update s.owner .context (some .client), client := .outside .setStopping }
  | setStopping : s.client = .outside .setStopping → ClientStep s
      { s with state := .stopping, client := .outside (.enter .stopFlag) }
  | zeroed : s.client = .outside .zero → ClientStep s
      { s with numberOfCurrentJobs := 0, client := .outside (.join 0) }
  | joined (i : Fin T) : s.client = .outside (.join i) → s.worker i = .outside .done → ClientStep s
      { s with client := .outside (.join (i + 1)) }
  | joinedAll (i : ℕ) : s.client = .outside (.join i) → T ≤ i → ClientStep s
      { s with client := .outside .setStopped }
  | setStopped : s.client = .outside .setStopped → ClientStep s
      { s with state := .stopped, client := .leaving .context .stopped }
  | counted (job : Job) (wait : Bool) : s.client = .inside (.count job wait) → ClientStep s
      { s with
        numberOfCurrentJobs := s.numberOfCurrentJobs + 1, client := .leaving .context (.enter (.enqueue job wait)) }
  | waited (id : ℕ) (p : ClientPoint) : s.client = .inside (.wait id) → p = .idle ∨ p = .enter (.wait id) →
      ClientStep s { s with client := .leaving (.job id) p }
  | ran (c : ClientSection) (e : Run.Event T) (run : Run T) (p : ClientPoint) : s.client = .inside c →
      (∃ job wait, c = .enqueue job wait ∧ e = .enqueue job ∧ (p = .idle ∨ p = .enter (.wait job.id))) ∨
        (c = .stopFlag ∧ e = .stopFlag ∧ p = .enter .stopClear) ∨
        (c = .stopClear ∧ e = .stopClear ∧ p = .zero) →
      Run.next s.run e = some run → ClientStep s { s with run, client := .leaving .scheduler p }
  | unlocked (m : Mutex) (p : ClientPoint) : s.client = .leaving m p →
      ClientStep s { s.unlock m with client := .outside p }

theorem clientStep_body {c : ClientSection} (hp : s.client = .inside c) (hn : s.clientBody c = some s') :
    ClientStep s s' := by
  cases c with
  | count job wait =>
    cases hn
    exact .counted job wait hp
  | wait id =>
    cases hn
    refine .waited id _ hp ?_
    split
    · exact .inl rfl
    · exact .inr rfl
  | enqueue job wait =>
    simp only [clientBody, Option.ite_none_right_eq_some, Option.map_eq_some_iff] at hn
    obtain ⟨-, s1, hs1, rfl⟩ := hn
    obtain ⟨run, hr, rfl⟩ := sched_eq_some hs1
    refine .ran _ _ run _ hp (.inl ⟨job, wait, rfl, rfl, ?_⟩) hr
    cases wait
    · exact .inl rfl
    · exact .inr rfl
  | stopFlag =>
    simp only [clientBody, Option.map_eq_some_iff] at hn
    obtain ⟨s1, hs1, rfl⟩ := hn
    obtain ⟨run, hr, rfl⟩ := sched_eq_some hs1
    exact .ran _ _ run _ hp (.inr (.inl ⟨rfl, rfl, rfl⟩)) hr
  | stopClear =>
    simp only [clientBody, Option.ite_none_right_eq_some, Option.map_eq_some_iff] at hn
    obtain ⟨-, s1, hs1, rfl⟩ := hn
    obtain ⟨run, hr, rfl⟩ := sched_eq_some hs1
    exact .ran _ _ run _ hp (.inr (.inr ⟨rfl, rfl, rfl⟩)) hr

theorem clientStep {call : Call} (hn : s.clientNext call = some s') : ClientStep s s' := by
  unfold clientNext at hn
  split at hn
  · rename_i hp
    split at hn
    · split at hn
      · cases hn
      · rename_i hnew
        cases hn
        exact .submitted _ _ hp hnew
    · cases hn; exact .waits _ hp
    · cases hn; exact .stops hp
  · rename_i c hp
    obtain ⟨s1, hs1, rfl⟩ := Option.map_eq_some_iff.mp hn
    obtain ⟨ho, rfl⟩ := lock_eq_some hs1
    exact .locked c hp ho
  · rename_i hp
    obtain ⟨s1, hs1, rfl⟩ := Option.map_eq_some_iff.mp hn
    obtain ⟨ho, rfl⟩ := lock_eq_some hs1
    exact .stopLocked hp ho
  · rename_i hp
    cases hn
    exact .setStopping hp
  · rename_i hp
    cases hn
    exact .zeroed hp
  · rename_i i hp
    split at hn
    · rename_i hi
      split at hn
      · rename_i hd
        cases hn
        exact .joined ⟨i, hi⟩ hp hd
      · cases hn
    · rename_i hi
      cases hn
      exact .joinedAll i hp (by omega)
  · rename_i hp
    cases hn
    exact .setStopped hp
  · cases hn
  · rename_i c hp
    exact clientStep_body hp hn
  · rename_i m p hp
    cases hn
    exact .unlocked m p hp

end Ctx

end SwitchML.Client
