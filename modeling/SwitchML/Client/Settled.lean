/-
How the jobs of the scheduler are decided. A job all of whose slices are handed
back is finished or about to be; any other job is in the queue, or has failed,
or a thread still owes it a slice. So once no thread runs and the queue is
empty, a job is undecided only if a thread exited with its slice.
-/
import SwitchML.Client.FifoContract

namespace SwitchML.Client

open Phases

namespace Run

variable {T : ℕ}

/-! ## What a step does -/

/-- The steps of the machine, with the state each leads to. -/
inductive Took (s : Run T) : Event T → Run T → Prop
  | enqueue (job : Job) : job.id ∉ s.jobs.map Job.id → Took s (.enqueue job)
      { s with
        sched := { s.sched with
          status := Function.update s.sched.status job.id .queued
          finishedJobSlices := mapInsert s.sched.finishedJobSlices job.id 0
          undispatchedJobSlices := mapInsert s.sched.undispatchedJobSlices job.id T
          queue := s.sched.queue ++ [job] }
        jobs := s.jobs ++ [job] }
  | refused (t : Fin T) : s.loc t = .idle → Took s (.check t) s
  | checked (t : Fin T) : s.loc t = .idle → Took s (.check t) (s.goto t .checked)
  | destroyed (t : Fin T) : s.loc t = .checked → Took s (.arrive t) { s with fault := some .barrierDestroyed }
  | arrived (t : Fin T) (barrier : Barrier) (flagCopy : Option Bool) : s.loc t = .checked → Took s (.arrive t)
      { s.goto t (flagCopy.elim .passed .waiting) with
        sched := { s.sched with barrier }, arrived := Function.update s.arrived t (s.arrived t + 1) }
  | left (t : Fin T) (flagCopy : Bool) : s.loc t = .waiting flagCopy → Took s (.leave t) (s.goto t .passed)
  | late (t : Fin T) : s.loc t = .passed → s.sched.stopped = true → Took s (.take t) (s.goto t .idle)
  | given (t : Fin T) (job : Job) (rest : List Job) : s.loc t = .passed → s.sched.stopped = false →
      s.sched.queue = job :: rest → s.jobs[s.taken t]? = some job →
      Took s (.take t) (s.given t job (s.dispatched t job rest))
  | failed (t : Fin T) (jobSlice : JobSlice) : s.loc t = .holding jobSlice → s.sched.stopped = true →
      s.jobs[s.completed t]? = some jobSlice.job → Took s (.notify t)
      { s.goto t .idle with
        sched := { s.sched with status := Function.update s.sched.status jobSlice.job.id .failed } }
  | handedBack (t : Fin T) (jobSlice : JobSlice) : s.loc t = .holding jobSlice → s.sched.stopped = false →
      s.jobs[s.completed t]? = some jobSlice.job → Took s (.notify t) (s.handedBack t jobSlice.job)
  | finished (t : Fin T) (job : Job) (i : ℕ) : s.loc t = .finishing job → s.jobs[i]? = some job →
      Complete s.completed i → Took s (.finish t)
      { s.goto t .idle with sched := { s.sched with status := Function.update s.sched.status job.id .finished } }
  | exit (t : Fin T) : s.loc t = .idle ∨ (∃ jobSlice, s.loc t = .holding jobSlice) →
      Took s (.exit t) (s.goto t .exited)
  | stopFlag : Took s .stopFlag { s with sched := s.sched.stopFlag, stopping := true }
  | stopClear : s.sched.stopped = true → Took s .stopClear
      { s with
        stopping := false
        sched := { s.sched with
          barrier := s.sched.barrier.destroy
          queue := []
          undispatchedJobSlices := fun _ => none
          finishedJobSlices := fun _ => none
          status := fun id => if id ∈ s.sched.queue.map Job.id then .failed else s.sched.status id } }

variable {s s' : Run T} {e : Event T} {t : Fin T}

theorem Inv.took (h : Inv s) (hn : next s e = some s') : Took s e s' := by
  simp only [next] at hn
  split at hn
  · cases hn
  cases e with
  | enqueue job =>
    simp only [Option.ite_none_left_eq_some, Option.some.injEq] at hn
    obtain ⟨hnew, rfl⟩ := hn
    have h1 := Took.enqueue (s := s) job hnew
    rwa [Run.enqueue, FifoScheduler.enqueueJob_ok (h.status_fresh _ hnew), guard_ok]
  | check t =>
    simp only [Option.ite_none_right_eq_some, Option.some.injEq] at hn
    obtain ⟨ht, rfl⟩ := hn
    unfold Run.check
    split
    · exact .refused t ht
    · exact .checked t ht
  | arrive t =>
    simp only [Option.ite_none_right_eq_some, Option.some.injEq] at hn
    obtain ⟨ht, rfl⟩ := hn
    unfold Run.arrive
    cases he : s.sched.barrier.enter T with
    | error f =>
      have hf : f = .barrierDestroyed := by
        unfold Barrier.enter at he
        split at he
        · exact (Except.error.inj he).symm
        · split at he <;> cases he
      rw [guard_error, hf]
      exact .destroyed t ht
    | ok r => exact .arrived t r.1 r.2 ht
  | leave t =>
    simp only at hn
    split at hn
    · rename_i flagCopy ht
      simp only [Option.ite_none_right_eq_some, Option.some.injEq] at hn
      obtain ⟨-, rfl⟩ := hn
      exact .left t flagCopy ht
    · cases hn
  | take t =>
    simp only [Option.ite_none_right_eq_some] at hn
    obtain ⟨ht, hn⟩ := hn
    cases hs : s.sched.stopped with
    | true =>
      rw [Run.take, FifoScheduler.dispatch_stopped hs] at hn
      simp only [Option.map_some, guard_ok, Option.some.injEq] at hn
      subst hn
      exact .late t ht hs
    | false =>
      obtain ⟨job, rest, hq, hget, -, rfl⟩ := h.take_live ht hs hn
      exact .given t job rest ht hs hq hget
  | notify t =>
    simp only at hn
    split at hn
    · rename_i sl ht
      cases hn
      cases hs : s.sched.stopped with
      | true =>
        obtain ⟨-, job, hget, rfl⟩ := h.holding t sl ht
        have h1 := Took.failed t _ ht hs hget
        rw [Run.notify, FifoScheduler.notify_stopped hs, guard_ok]
        simp only [Bool.false_eq_true, if_false]
        rw [if_pos hs, if_pos hs]
        exact h1
      | false =>
        obtain ⟨hget, heq⟩ := h.notify_live ht hs
        rw [heq]
        exact .handedBack t sl ht hs hget
    · cases hn
  | finish t =>
    simp only at hn
    split at hn
    · rename_i job ht
      cases hn
      obtain ⟨i, hget, hc⟩ := h.finishing t job ht
      rw [Run.finish, h.finish_ok ht, guard_ok]
      exact .finished t job i ht hget hc
    · cases hn
  | exit t =>
    simp only at hn
    split at hn
    · rename_i ht
      cases hn
      exact .exit t (.inl ht)
    · rename_i sl ht
      cases hn
      exact .exit t (.inr ⟨sl, ht⟩)
    · cases hn
  | stopFlag =>
    simp only [Option.ite_none_left_eq_some, Option.some.injEq] at hn
    obtain ⟨-, rfl⟩ := hn
    exact .stopFlag
  | stopClear =>
    simp only [Option.ite_none_right_eq_some, Option.some.injEq] at hn
    obtain ⟨hst, rfl⟩ := hn
    rw [Run.clear, FifoScheduler.stopClear_ok, guard_ok]
    exact .stopClear (h.stopping hst)

/-- The thread that takes a step. -/
def Event.thread : Event T → Option (Fin T)
  | .check t | .arrive t | .leave t | .take t | .notify t | .finish t | .exit t => some t
  | .enqueue _ | .stopFlag | .stopClear => none

theorem Took.loc_of_ne (h : Took s e s') {v : Fin T} (hv : e.thread ≠ some v) : s'.loc v = s.loc v := by
  cases h with
  | enqueue | refused | destroyed | stopFlag | stopClear => rfl
  | checked t | arrived t | left t | late t | given t | failed t | handedBack t | finished t | exit t =>
    exact loc_goto_of_ne fun he => hv (by rw [he]; rfl)

/-! ## What is settled stays settled -/

/-- The job has failed, or `Stop` will fail it. -/
def GivenUp (s : Run T) (job : Job) : Prop :=
  s.sched.status job.id = .failed ∨ s.sched.stopped = true ∧ job ∈ s.sched.queue

theorem Took.givenUp (h : Inv s) (ht : Took s e s') {i : ℕ} {job : Job} (hget : s.jobs[i]? = some job)
    (hg : s.GivenUp job) : s'.GivenUp job := by
  -- where the status of one job changes
  have hst : ∀ {job' : Job} {st : JobStatus} {sched : FifoScheduler}, job.id ≠ job'.id →
      sched.status = Function.update s.sched.status job'.id st → sched.stopped = s.sched.stopped →
      s.sched.queue <+: sched.queue →
      sched.status job.id = .failed ∨ sched.stopped = true ∧ job ∈ sched.queue := by
    intro job' st sched hne h1 h2 h3
    rcases hg with hg | ⟨hs, hq⟩
    · left
      rw [h1, Function.update_of_ne hne, hg]
    · right
      exact ⟨h2.trans hs, h3.mem hq⟩
  cases ht with
  | refused | checked | destroyed | arrived | left | late | handedBack | exit => exact hg
  | enqueue job' hnew => exact hst (fun he => hnew (he ▸ mem_ids hget)) rfl rfl (List.prefix_append ..)
  | given t job' rest _ hs =>
    exfalso
    rcases hg with hg | ⟨hs', -⟩
    · rw [(h.failed i job hget hg).1] at hs; cases hs
    · rw [hs'] at hs; cases hs
  | failed t sl _ _ hget' =>
    by_cases hne : job.id = sl.job.id
    · left
      show Function.update s.sched.status sl.job.id .failed job.id = .failed
      rw [hne, Function.update_self]
    · exact hst hne rfl rfl (List.prefix_refl _)
  | finished t job' k _ hget' hc =>
    by_cases hne : job.id = job'.id
    · exfalso
      have hik := h.index_unique hget hget' hne
      subst hik
      rcases hg with hg | ⟨-, hq⟩
      · exact (h.failed i job hget hg).2 hc
      · obtain ⟨j, hj, hopen⟩ := h.queue_open job hq
        rw [h.index_unique hj hget rfl] at hopen
        exact hopen hc
    · exact hst hne rfl rfl (List.prefix_refl _)
  | stopFlag => exact hg.imp id fun hq => ⟨rfl, hq.2⟩
  | stopClear =>
    left
    show (if job.id ∈ s.sched.queue.map Job.id then JobStatus.failed else s.sched.status job.id) = .failed
    split
    · rfl
    · rename_i hnot
      rcases hg with hg | ⟨-, hq⟩
      · exact hg
      · exact absurd (List.mem_map_of_mem hq) hnot

/-! ## Who decides a job -/

/-- Every job not given to all is in the queue or has failed; a complete one is
finished or a thread is about to say so; and a slice given and not handed back
is held, unless its job is given up. -/
structure Tidy (s : Run T) : Prop where
  queued : ∀ i job, s.jobs[i]? = some job → ¬Complete s.taken i →
    job ∈ s.sched.queue ∨ s.sched.status job.id = .failed
  complete : ∀ i job, s.jobs[i]? = some job → Complete s.completed i →
    s.sched.status job.id = .finished ∨ ∃ t, s.loc t = .finishing job
  owed_one : ∀ t, s.taken t ≤ s.completed t + 1
  owed : ∀ t job, s.completed t < s.taken t → s.jobs[s.completed t]? = some job →
    (∃ jobSlice, s.loc t = .holding jobSlice) ∨ s.GivenUp job

/-- A step that gives out or takes back no slice. -/
theorem Tidy.of_frame (hI : Inv s) (h : Tidy s) (ht : Took s e s') (hj : s'.jobs = s.jobs) (hg : s'.got = s.got)
    (hc : s'.completed = s.completed)
    (hq : ∀ (i : ℕ) job, s.jobs[i]? = some job → job ∈ s.sched.queue ∨ s.sched.status job.id = .failed →
      job ∈ s'.sched.queue ∨ s'.sched.status job.id = .failed)
    (hf : ∀ (i : ℕ) job, s.jobs[i]? = some job → Complete s.completed i →
      s.sched.status job.id = .finished → s'.sched.status job.id = .finished)
    (hl : ∀ (i : ℕ) job, s.jobs[i]? = some job → ∀ v, s.loc v = .finishing job →
      s'.loc v = .finishing job ∨ s'.sched.status job.id = .finished)
    (hh : ∀ v sl, s.loc v = .holding sl → s.jobs[s.completed v]? = some sl.job →
      (∃ jobSlice, s'.loc v = .holding jobSlice) ∨ s'.GivenUp sl.job) : Tidy s' := by
  have htk : s'.taken = s.taken := by unfold taken; rw [hg]
  refine ⟨fun i job hi hn => ?_, fun i job hi hn => ?_, fun v => ?_, fun v job hlt hi => ?_⟩
  · rw [hj] at hi
    rw [htk] at hn
    exact hq i job hi (h.queued i job hi hn)
  · rw [hj] at hi
    rw [hc] at hn
    rcases h.complete i job hi hn with h1 | ⟨v, hv⟩
    · exact .inl (hf i job hi hn h1)
    · exact (hl i job hi v hv).symm.imp id fun h1 => ⟨v, h1⟩
  · rw [htk, hc]; exact h.owed_one v
  · rw [htk, hc] at hlt
    rw [hc, hj] at hi
    rcases h.owed v job hlt hi with ⟨sl, hsl⟩ | hgu
    · obtain ⟨-, job', hget, rfl⟩ := hI.holding v sl hsl
      rw [hi, Option.some.injEq] at hget
      subst hget
      exact hh v _ hsl hi
    · exact .inr (ht.givenUp hI hi hgu)

/-- The same where only a thread moves that is neither finishing a job nor
holding a slice. -/
theorem Tidy.of_goto (hI : Inv s) (h : Tidy s) (ht : Took s e s') (hj : s'.jobs = s.jobs) (hg : s'.got = s.got)
    (hc : s'.completed = s.completed) (hq : s'.sched.queue = s.sched.queue) (hst : s'.sched.status = s.sched.status)
    (hl : ∀ v, s'.loc v = s.loc v ∨ (∀ job, s.loc v ≠ .finishing job) ∧
      ∀ sl, s.loc v = .holding sl → s.GivenUp sl.job) : Tidy s' := by
  refine h.of_frame hI ht hj hg hc (fun i job _ h1 => ?_) (fun i job _ _ h1 => ?_) (fun i job _ v hv => ?_)
    fun v sl hv hi => ?_
  · rwa [hq, hst]
  · rwa [hst]
  · rcases hl v with h1 | ⟨h1, -⟩
    · exact .inl (h1.trans hv)
    · exact absurd hv (h1 job)
  · rcases hl v with h1 | ⟨-, h1⟩
    · exact .inl ⟨sl, h1.trans hv⟩
    · exact .inr (ht.givenUp hI hi (h1 sl hv))

theorem loc_goto_cases {l : Loc} (ht : ∀ job, s.loc t ≠ .finishing job)
    (hh : ∀ sl, s.loc t = .holding sl → s.GivenUp sl.job) (v : Fin T) :
    (s.goto t l).loc v = s.loc v ∨ (∀ job, s.loc v ≠ .finishing job) ∧
      ∀ sl, s.loc v = .holding sl → s.GivenUp sl.job := by
  by_cases hvt : v = t
  · rw [hvt]; exact .inr ⟨ht, hh⟩
  · exact .inl (loc_goto_of_ne hvt)

theorem Tidy.given (hI : Inv s) (h : Tidy s) {job : Job} {rest : List Job} (ht : s.loc t = .passed)
    (hs : s.sched.stopped = false) (hq : s.sched.queue = job :: rest) (hget : s.jobs[s.taken t]? = some job) :
    Tidy (s.given t job (s.dispatched t job rest)) := by
  have hset := (hI.live hs).settled t (by rw [ht]; rfl)
  have hloc : ∀ v ≠ t, (s.given t job (s.dispatched t job rest)).loc v = s.loc v := fun v hv => loc_goto_of_ne hv
  have hnf : ∀ {i : ℕ} {j : Job}, s.jobs[i]? = some j → s.sched.status j.id ≠ .failed := by
    intro i j hj hf
    rw [(hI.failed i j hj hf).1] at hs
    cases hs
  refine ⟨fun i j hj hn => ?_, fun i j hj hc => ?_, fun v => ?_, fun v j hlt hj => ?_⟩
  · rw [taken_given] at hn
    have hold : ¬Complete s.taken i := fun hc => hn (hc.visit le_self_add)
    rcases h.queued i j hj hold with h1 | h1
    · left
      simp only [Run.given, dispatched]
      split
      · rename_i hz
        rw [hq, List.mem_cons] at h1
        rcases h1 with rfl | h1
        · exfalso
          rw [hI.index_unique hj hget rfl] at hn
          exact hn ((complete_visit_iff rfl).mpr (by omega))
        · exact h1
      · exact h1
    · exact absurd h1 (hnf hj)
  · have hne : j.id ≠ job.id := by
      intro he
      rw [hI.index_unique hj hget he] at hc
      have h1 := hc t
      change s.taken t < s.completed t at h1
      omega
    rcases h.complete i j hj hc with h1 | ⟨v, hv⟩
    · left
      show Function.update s.sched.status job.id .running j.id = .finished
      rw [Function.update_of_ne hne, h1]
    · right
      refine ⟨v, ?_⟩
      have hvt : v ≠ t := by
        rintro rfl
        rw [ht] at hv
        cases hv
      rw [hloc v hvt, hv]
  · rw [taken_given]
    show visit s.taken t (s.taken t) v ≤ s.completed v + 1
    by_cases hvt : v = t
    · rw [hvt, visit_self]; omega
    · rw [visit_of_ne hvt]; exact h.owed_one v
  · by_cases hvt : v = t
    · rw [hvt]; exact .inl ⟨_, loc_goto_self⟩
    · rw [taken_given, visit_of_ne hvt] at hlt
      rcases h.owed v j hlt hj with ⟨sl, hsl⟩ | hgu
      · exact .inl ⟨sl, (hloc v hvt).trans hsl⟩
      · exact .inr ((Took.given t job rest ht hs hq hget).givenUp hI hj hgu)

theorem Tidy.handedBack (hI : Inv s) (h : Tidy s) {sl : JobSlice} (ht : s.loc t = .holding sl)
    (hs : s.sched.stopped = false) (hget : s.jobs[s.completed t]? = some sl.job) : Tidy (s.handedBack t sl.job) := by
  obtain ⟨htk, -⟩ := hI.holding t sl ht
  have hloc : ∀ v ≠ t, (s.handedBack t sl.job).loc v = s.loc v := fun v hv => loc_goto_of_ne hv
  have hcomp : (s.handedBack t sl.job).completed = visit s.completed t (s.completed t) := rfl
  refine ⟨fun i j hj hn => h.queued i j hj hn, fun i j hj hc => ?_, fun v => ?_, fun v j hlt hj => ?_⟩
  · rw [hcomp] at hc
    by_cases hij : i = s.completed t
    · subst hij
      right
      refine ⟨t, ?_⟩
      have hjj : j = sl.job := Option.some.inj ((show s.jobs[s.completed t]? = some j from hj).symm.trans hget)
      have h1 := (complete_visit_iff (show s.completed t = s.completed t from rfl)).mp hc
      rw [hjj, show (s.handedBack t sl.job).loc t = _ from loc_goto_self, if_pos (by omega)]
    · have h2 : Complete s.completed i := by
        rw [← through_eq_univ, through_visit_of_ne rfl hij, through_eq_univ] at hc
        exact hc
      rcases h.complete i j hj h2 with h1 | ⟨v, hv⟩
      · exact .inl h1
      · exact .inr ⟨v, (hloc v fun he => by rw [he, ht] at hv; cases hv).trans hv⟩
  · rw [handedBack_taken, hcomp]
    by_cases hvt : v = t
    · rw [hvt, visit_self]; omega
    · rw [visit_of_ne hvt]; exact h.owed_one v
  · rw [handedBack_taken, hcomp] at hlt
    by_cases hvt : v = t
    · rw [hvt, visit_self] at hlt; omega
    · rw [visit_of_ne hvt] at hlt
      rw [hcomp, visit_of_ne hvt] at hj
      rcases h.owed v j hlt hj with ⟨sl', hsl⟩ | hgu
      · exact .inl ⟨sl', (hloc v hvt).trans hsl⟩
      · exact .inr ((Took.handedBack t sl ht hs hget).givenUp hI hj hgu)

theorem Tidy.enqueue (hT : 0 < T) (hI : Inv s) (h : Tidy s) {job : Job} (hnew : job.id ∉ s.jobs.map Job.id)
    (ht : Took s (.enqueue job) s') : Tidy s' := by
  cases ht with
  | enqueue _ hnew' =>
    have hjobs : ∀ {i j}, (s.jobs ++ [job])[i]? = some j → s.jobs[i]? = some j ∨ i = s.jobs.length ∧ j = job :=
      fun hj => jobs_getElem?_append.mp hj
    have hstat : ∀ {i : ℕ} {j : Job}, s.jobs[i]? = some j →
        Function.update s.sched.status job.id .queued j.id = s.sched.status j.id := by
      intro i j hj
      have hne : j.id ≠ job.id := fun he => hnew (he ▸ mem_ids hj)
      exact Function.update_of_ne hne ..
    refine ⟨fun i j hj hn => ?_, fun i j hj hc => ?_, h.owed_one, fun v j hlt hj => ?_⟩
    · show j ∈ s.sched.queue ++ [job] ∨ Function.update s.sched.status job.id .queued j.id = .failed
      rcases hjobs hj with h1 | ⟨-, rfl⟩
      · rw [hstat h1]
        exact (h.queued i j h1 hn).imp (fun h2 => List.mem_append_left _ h2) id
      · exact .inl (by simp)
    · show Function.update s.sched.status job.id .queued j.id = .finished ∨ _
      rcases hjobs hj with h1 | ⟨rfl, rfl⟩
      · rw [hstat h1]
        exact h.complete i j h1 hc
      · exact absurd hc (hI.not_complete hT le_rfl)
    · rcases hjobs hj with h1 | ⟨h1, -⟩
      · exact (h.owed v j hlt h1).imp id ((Took.enqueue job hnew).givenUp hI h1)
      · exfalso
        have h2 := hI.taken_le v
        change s.completed v < s.taken v at hlt
        change s.completed v = s.jobs.length at h1
        omega

/-- A thread may exit with a slice only if the job is given up. -/
theorem Tidy.took (hT : 0 < T) (hI : Inv s) (h : Tidy s) (ht : Took s e s')
    (hexit : ∀ v sl, e = .exit v → s.loc v = .holding sl → s.GivenUp sl.job) : Tidy s' := by
  have ht0 := ht
  cases ht with
  | enqueue job hnew => exact h.enqueue hT hI hnew ht0
  | refused => exact h
  | destroyed => exact h.of_goto hI ht0 rfl rfl rfl rfl rfl fun v => .inl rfl
  | checked t hl | arrived t _ _ hl | left t _ hl | late t hl =>
    exact h.of_goto hI ht0 rfl rfl rfl rfl rfl (loc_goto_cases (by simp [hl]) (by simp [hl]))
  | exit t hl =>
    refine h.of_goto hI ht0 rfl rfl rfl rfl rfl (loc_goto_cases (fun job he => ?_) fun sl => hexit t sl rfl)
    rcases hl with hl | ⟨sl, hl⟩ <;> rw [hl] at he <;> cases he
  | given t job rest hl hs hq hget => exact h.given hI hl hs hq hget
  | handedBack t sl hl hs hget => exact h.handedBack hI hl hs hget
  | stopFlag =>
    refine h.of_frame hI ht0 rfl rfl rfl (fun _ _ _ h1 => h1) (fun _ _ _ _ h1 => h1) (fun _ _ _ v hv => .inl hv)
      fun v sl hv _ => .inl ⟨sl, hv⟩
  | stopClear hs =>
    refine h.of_frame hI ht0 rfl rfl rfl (fun i job hj h1 => .inr ?_) (fun i job hj hc h1 => ?_)
      (fun _ _ _ v hv => .inl hv) fun v sl hv _ => .inl ⟨sl, hv⟩
    · show (if job.id ∈ s.sched.queue.map Job.id then JobStatus.failed else s.sched.status job.id) = .failed
      split
      · rfl
      · rename_i hnot
        exact h1.resolve_left fun hq => hnot (List.mem_map_of_mem hq)
    · show (if job.id ∈ s.sched.queue.map Job.id then JobStatus.failed else s.sched.status job.id) = .finished
      rw [if_neg, h1]
      intro hq
      obtain ⟨j, hjq, he⟩ := List.mem_map.mp hq
      obtain ⟨k, hk, hopen⟩ := hI.queue_open j hjq
      rw [hI.index_unique hk hj he] at hopen
      exact hopen hc
  | failed t sl hl hs hget =>
    have hopen : ¬Complete s.completed (s.completed t) := fun hc => by have h1 := hc t; omega
    refine h.of_frame hI ht0 rfl rfl rfl (fun i job hj h1 => h1.imp id fun h1 => ?_) (fun i job hj hc h1 => ?_)
      (fun i job hj v hv => .inl ?_) fun v sl' hv hi => ?_
    · show Function.update s.sched.status sl.job.id .failed job.id = .failed
      by_cases he : job.id = sl.job.id
      · rw [he, Function.update_self]
      · rw [Function.update_of_ne he, h1]
    · have he : job.id ≠ sl.job.id := fun he => hopen (hI.index_unique hj hget he ▸ hc)
      exact (Function.update_of_ne he ..).trans h1
    · exact (loc_goto_of_ne fun he => by rw [he, hl] at hv; cases hv).trans hv
    · by_cases hvt : v = t
      · rw [hvt, hl, Loc.holding.injEq] at hv
        subst hv
        exact .inr (.inl (Function.update_self ..))
      · exact .inl ⟨sl', (loc_goto_of_ne hvt).trans hv⟩
  | finished t job k hl hget hc =>
    refine h.of_frame hI ht0 rfl rfl rfl (fun i j hj h1 => h1.imp id fun h1 => ?_) (fun i j hj _ h1 => ?_)
      (fun i j hj v hv => ?_) fun v sl' hv hi => ?_
    · have he : j.id ≠ job.id := fun he => (hI.failed i j hj h1).2 (hI.index_unique hj hget he ▸ hc)
      exact (Function.update_of_ne he ..).trans h1
    · show Function.update s.sched.status job.id .finished j.id = .finished
      by_cases he : j.id = job.id
      · rw [he, Function.update_self]
      · rw [Function.update_of_ne he, h1]
    · by_cases hvt : v = t
      · rw [hvt, hl, Loc.finishing.injEq] at hv
        subst hv
        exact .inr (Function.update_self ..)
      · exact .inl ((loc_goto_of_ne hvt).trans hv)
    · exact .inl ⟨sl', (loc_goto_of_ne fun he => by rw [he, hl] at hv; cases hv).trans hv⟩

theorem Tidy.init : Tidy (new T) := by
  refine ⟨by simp [new], by simp [new], fun t => Nat.zero_le _, fun t job hlt => ?_⟩
  simp [new, taken] at hlt

/-- Once all threads have exited and the queue is empty, every job is decided. -/
theorem Tidy.decided (h : Tidy s) (hl : ∀ t, s.loc t = .exited) (hq : s.sched.queue = [])
    {job : Job} (hj : job ∈ s.jobs) : s.sched.status job.id = .finished ∨ s.sched.status job.id = .failed := by
  obtain ⟨i, hi⟩ := List.mem_iff_getElem?.mp hj
  by_cases hc : Complete s.completed i
  · rcases h.complete i job hi hc with h1 | ⟨t, ht⟩
    · exact .inl h1
    · rw [hl t] at ht; cases ht
  right
  by_cases htk : Complete s.taken i
  · simp only [Complete, not_forall, not_lt] at hc
    obtain ⟨t, ht⟩ := hc
    have h1 := htk t
    have h2 := h.owed_one t
    have h3 : s.completed t = i := by omega
    rcases h.owed t job (by omega) (by rw [h3]; exact hi) with ⟨sl, hsl⟩ | hg | ⟨-, hg⟩
    · rw [hl t] at hsl; cases hsl
    · exact hg
    · rw [hq] at hg; cases hg
  · rcases h.queued i job hi htk with h1 | h1
    · rw [hq] at h1; cases h1
    · exact h1

end Run

end SwitchML.Client
