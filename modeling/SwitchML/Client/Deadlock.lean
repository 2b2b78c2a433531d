/-
When `Context::Stop` can get stuck. It keeps the context's mutex while it joins
the workers, and a worker whose slice was the last one of its job locks the
same mutex to count the job as done. The two meet if `Stop` locks the mutex
between the two steps of such a worker, or if a worker hands back a last slice
after that and before the scheduler is stopped.
-/
import SwitchML.Client.Context

namespace SwitchML.Client

/-- `NotifyJobSliceCompletion` returns true for this slice. -/
def Run.lastSlice {T : ℕ} (s : Run T) (jobSlice : JobSlice) : Bool :=
  !s.sched.stopped && s.sched.finishedJobSlices jobSlice.job.id = some ((T : ℤ) - 1)

theorem Run.lastSlice_of_finishing {T : ℕ} {s s' : Run T} {t : Fin T} {job : Job}
    (hn : Run.next s (.notify t) = some s') (hj : s'.loc t = .finishing job) :
    ∃ jobSlice, s.loc t = .holding jobSlice ∧ s.lastSlice jobSlice = true := by
  simp only [Run.next] at hn
  split at hn
  · cases hn
  split at hn
  · rename_i sl hsl
    simp only [Option.some.injEq] at hn
    subst hn
    refine ⟨sl, hsl, ?_⟩
    unfold Run.notify at hj
    cases hs : s.sched.stopped with
    | true =>
      rw [FifoScheduler.notify_stopped hs, Run.guard_ok] at hj
      exact absurd (Run.loc_goto_self.symm.trans hj) (by simp)
    | false =>
      cases hf : s.sched.finishedJobSlices sl.job.id with
      | none =>
        have h1 : s.sched.notifyJobSliceCompletion T sl = .error (.outOfRange sl.job.id) := by
          simp [FifoScheduler.notifyJobSliceCompletion, hs, mapAt, hf, bind, Except.bind]
        rw [h1, Run.guard_error] at hj
        exact absurd (hsl.symm.trans hj) (by simp)
      | some n =>
        rw [FifoScheduler.notify_live sl hs hf, Run.guard_ok] at hj
        have h1 := Run.loc_goto_self.symm.trans hj
        by_cases hc : n + 1 = (T : ℤ)
        · simp only [Run.lastSlice, hs, hf, Bool.not_false, Bool.true_and, decide_eq_true_eq, Option.some.injEq]
          omega
        · simp [hc] at h1
  · cases hn

/-- A worker that has been told that its job is complete and has not locked the
context's mutex since. -/
def WorkerPc.finishing : WorkerPc → Bool
  | .outside p | .leaving _ p => p = .enter .finish || p = .enter .count
  | .inside c => c = .finish

/-- The client is in `Context::Stop` and holds the context's mutex. -/
def ClientPoint.inStop : ClientPoint → Bool
  | .setStopping | .enter .stopFlag | .enter .stopClear | .zero | .join _ | .setStopped => true
  | _ => false

def ClientPc.inStop : ClientPc → Bool
  | .outside p | .leaving _ p => p.inStop
  | .inside c => c = .stopFlag || c = .stopClear

namespace Ctx

variable {T : ℕ}

/-- `Stop` holds the context's mutex and joins a worker that waits for it. -/
def Deadlocked (s : Ctx T) : Prop :=
  s.owner .context = some .client ∧
    ∃ i : Fin T, s.client = .outside (.join i) ∧ s.worker i = .outside (.enter .count)

/-- `Stop` does not lock the mutex while a worker is about to lock it for a
complete job, and while it holds it no last slice is handed back. -/
def noRace (s : Ctx T) : Event T → Bool
  | .client _ => s.client != .outside .stop || decide (∀ t, (s.worker t).finishing = false)
  | .worker t _ =>
    !s.client.inStop || s.worker t != .inside .notify ||
      match s.run.loc t with
      | .holding jobSlice => !s.run.lastSlice jobSlice
      | _ => true

def Quiet (s : Ctx T) : Prop := s.client.inStop = true → ∀ t, (s.worker t).finishing = false

variable {s s' : Ctx T} {t : Fin T}

theorem after_finishing {instant : Bool} {c : Section} {l : Loc} (hc : c ≠ .finish) (hl : ∀ job, l ≠ .finishing job) :
    (after instant c l = .enter .finish ∨ after instant c l = .enter .count) → False := by
  cases c <;> cases l <;> simp [after] at hc hl ⊢
  split <;> simp

/-- A worker gets where it will lock the context's mutex only by handing back
the last slice of a job. -/
theorem WorkerStep.finishing {instant : Bool} (hn : WorkerStep instant s t s')
    (h0 : (s.worker t).finishing = false) (h1 : (s'.worker t).finishing = true) :
    s.worker t = .inside .notify ∧ ∃ jobSlice, s.run.loc t = .holding jobSlice ∧ s.run.lastSlice jobSlice = true := by
  cases hn with
  | looped | exited | processed | dropped | cut => simp [worker_goto_self, WorkerPc.finishing] at h1
  | got =>
    rw [worker_goto_self] at h1
    split at h1 <;> simp [WorkerPc.finishing] at h1
  | locked c hp =>
    rw [hp] at h0
    rw [worker_goto_self] at h1
    simp only [WorkerPc.finishing, decide_eq_true_eq] at h1
    subst h1
    simp [WorkerPc.finishing] at h0
  | counted =>
    change ((s.goto t (.leaving .context .loop)).worker t).finishing = true at h1
    rw [worker_goto_self] at h1
    cases h1
  | retried c _ hc =>
    rw [worker_goto_self] at h1
    rcases hc with rfl | rfl <;> simp [WorkerPc.finishing] at h1
  | unlocked m p hp =>
    rw [hp] at h0
    rw [worker_goto_self] at h1
    exact absurd (h0.symm.trans h1) (by simp)
  | ran c e run hp he hrun =>
    rw [hp] at h0 ⊢
    rw [worker_goto_self] at h1
    simp only [WorkerPc.finishing, Bool.or_eq_true, decide_eq_true_eq] at h1
    by_cases hnot : c = .notify
    · subst hnot
      cases he
      refine ⟨rfl, ?_⟩
      cases hl : run.loc t with
      | finishing job => exact Run.lastSlice_of_finishing hrun hl
      | idle | checked | waiting | passed | holding | exited =>
        rw [hl] at h1
        exact (after_finishing (by simp) (by simp) h1).elim
    · exfalso
      cases c with
      | notify => exact hnot rfl
      | finish => simp [WorkerPc.finishing] at h0
      | check | arrive | leave | take | count =>
        cases hl : run.loc t <;> simp [hl, after] at h1 <;> split at h1 <;> simp at h1

/-- A step of a worker moves no other thread. -/
theorem WorkerStep.others {instant : Bool} (hn : WorkerStep instant s t s') :
    s'.client = s.client ∧ ∀ v ≠ t, s'.worker v = s.worker v := by
  cases hn with
  | processed => exact ⟨by simp, fun v hv => by rw [worker_goto_of_ne hv, process_worker]⟩
  | looped | exited | got | dropped | cut | locked | counted | ran | retried | unlocked =>
    exact ⟨rfl, fun v hv => worker_goto_of_ne hv⟩

/-- `Stop` begins to hold the mutex where it locks it; the workers stay. -/
theorem ClientStep.inStop (hn : ClientStep s s') :
    s'.worker = s.worker ∧ (s'.client.inStop = true → s.client.inStop = true ∨ s.client = .outside .stop) := by
  cases hn with
  | submitted | waits | stops | counted | setStopped =>
    exact ⟨rfl, by simp [ClientPc.inStop, ClientPoint.inStop]⟩
  | locked c hp =>
    rw [hp]
    exact ⟨rfl, fun h => .inl (by cases c <;> exact h)⟩
  | stopLocked hp => exact ⟨rfl, fun _ => .inr hp⟩
  | setStopping hp | zeroed hp | joined _ hp | joinedAll _ hp =>
    rw [hp]
    exact ⟨rfl, fun _ => .inl rfl⟩
  | waited id p _ h =>
    refine ⟨rfl, ?_⟩
    rcases h with rfl | rfl <;> simp [ClientPc.inStop, ClientPoint.inStop]
  | ran c e run p hp h =>
    refine ⟨rfl, ?_⟩
    rw [hp]
    rcases h with ⟨job, wait, rfl, -, rfl | rfl⟩ | ⟨rfl, -⟩ | ⟨rfl, -⟩ <;>
      simp [ClientPc.inStop, ClientPoint.inStop]
  | unlocked m p hp =>
    rw [hp]
    exact ⟨rfl, .inl⟩

theorem Quiet.step {instant : Bool} {e : Event T} (h : Quiet s) (hok : s.noRace e = true)
    (hn : (machine T instant).next s e = some s') : Quiet s' := by
  simp only [machine, next] at hn
  split at hn
  · cases hn
  intro hin v
  cases e with
  | worker t received =>
    have hstep := workerStep hn
    obtain ⟨hclient, hworker⟩ := hstep.others
    rw [hclient] at hin
    by_cases hv : v = t
    · subst hv
      by_contra hne
      obtain ⟨hpc, sl, hloc, hlast⟩ := hstep.finishing (h hin v) (by simpa using hne)
      simp [noRace, hin, hpc, hloc, hlast] at hok
    · rw [hworker v hv]
      exact h hin v
  | client call =>
    obtain ⟨hworker, hcase⟩ := (clientStep hn).inStop
    rw [hworker]
    rcases hcase hin with h1 | h1
    · exact h h1 v
    · simp only [noRace, h1, bne_self_eq_false, Bool.false_or, decide_eq_true_eq] at hok
      exact hok v

/-- In the runs without such a race `Stop` never waits for a worker that waits
for it. -/
theorem stop_not_deadlocked {instant : Bool} (h : (machine T instant).Reach (fun s e => s.noRace e = true) s) :
    ¬s.Deadlocked := by
  have hQ : Quiet s := by
    refine Machine.Reach.invariant (fun s hs => ?_) (fun s e s' hI hok hn => hI.step hok hn) h
    rw [show s = new T from hs]
    intro hin
    cases hin
  rintro ⟨-, i, hc, hw⟩
  have h1 := hQ (by rw [hc]; rfl) i
  rw [hw] at h1
  cases h1

/-- One worker works off the only job up to the lock of the context's mutex, by
when the job is finished and the client goes on to stop the context. -/
def raceEvents : List (Event 1) :=
  let job : Job := { id := 0, tensor := { inPtr := 0, outPtr := 64, numel := 4, dataType := .int32 } }
  -- `AllReduce` up to where it waits, the worker, and the client up to `CleanupWorker`
  List.replicate 7 (.client (.allReduce job true)) ++ List.replicate 18 (.worker 0 true) ++
    List.replicate 13 (.client .stop)

theorem stop_deadlocks : ∃ s, (machine 1 false).Reachable s ∧ s.Deadlocked := by
  obtain ⟨s, hr, ho, hc, hw⟩ : ∃ s, (machine 1 false).run (new 1) raceEvents = some s ∧
      s.owner .context = some .client ∧ s.client = .outside (.join 0) ∧ s.worker 0 = .outside (.enter .count) := by
    refine ⟨_, rfl, ?_⟩
    decide +kernel
  exact ⟨s, Machine.Reachable.run (.init rfl) hr, ho, 0, hc, hw⟩

/-- The same threads where the worker counts the job as done before the client stops the context. -/
def noRaceEvents : List (Event 1) :=
  let job : Job := { id := 0, tensor := { inPtr := 0, outPtr := 64, numel := 4, dataType := .int32 } }
  List.replicate 7 (.client (.allReduce job true)) ++ List.replicate 21 (.worker 0 true) ++
    List.replicate 13 (.client .stop)

theorem stop_not_deadlocked_alone : ∃ s : Ctx 1, s.client = .outside (.join 0) ∧ ¬s.Deadlocked := by
  obtain ⟨s, hr, hc⟩ : ∃ s, (machine 1 false).runWhile (fun s e => s.noRace e = true) (new 1) noRaceEvents = some s ∧
      s.client = .outside (.join 0) := by
    refine ⟨_, rfl, ?_⟩
    decide +kernel
  exact ⟨s, hc, stop_not_deadlocked (Machine.Reach.runWhile (.init rfl) hr)⟩

end Ctx

end SwitchML.Client
