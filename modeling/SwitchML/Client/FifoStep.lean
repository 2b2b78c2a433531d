/-
The steps of the scheduler that hand a slice back, finish a job, enqueue one or
stop, and with them the invariant of every reachable state.
-/
import SwitchML.Client.FifoInvariant

namespace SwitchML.Client

open Phases

namespace Run

variable {T : ℕ} {s : Run T} {t : Fin T}

/-- A job in the queue has not been given to some thread. -/
theorem Live.queue_index (h : Live s) {job : Job} (hj : job ∈ s.sched.queue) :
    ∃ i, s.jobs[i]? = some job ∧ ∃ v, s.taken v ≤ i := by
  obtain ⟨d, hq, -, v, hv⟩ := h.queue
  rw [hq, List.mem_iff_getElem?] at hj
  obtain ⟨k, hk⟩ := hj
  rw [List.getElem?_drop] at hk
  exact ⟨d + k, hk, v, by omega⟩

/-! ## Handing a slice back -/

/-- `notify` while the scheduler is not stopped. -/
def handedBack (s : Run T) (t : Fin T) (job : Job) : Run T :=
  let n := ((through s.completed (s.completed t)).card : ℤ) + 1
  { s.goto t (if n = T then .finishing job else .idle) with
    sched := { s.sched with
      finishedJobSlices := Function.update s.sched.finishedJobSlices job.id (if n = T then none else some n) }
    completed := visit s.completed t (s.completed t)
    notified := Function.update s.notified job.id (s.notified job.id + 1)
    trues := if n = T then Function.update s.trues job.id (s.trues job.id + 1) else s.trues }

theorem Inv.notify_live (h : Inv s) {sl : JobSlice} (ht : s.loc t = .holding sl) (hs : s.sched.stopped = false) :
    s.jobs[s.completed t]? = some sl.job ∧ s.notify t sl = s.handedBack t sl.job := by
  obtain ⟨htk, job, hget, rfl⟩ := h.holding t sl ht
  have hf := (h.live hs).finished _ _ hget
  rw [entry_of_le le_rfl] at hf
  refine ⟨hget, ?_⟩
  unfold Run.notify
  rw [FifoScheduler.notify_live (FifoScheduler.jobSlice T job t) hs hf, guard_ok]
  simp only [decide_eq_true_eq]
  rw [if_neg (show ¬s.sched.stopped = true by simp [hs]), if_neg (show ¬s.sched.stopped = true by simp [hs])]
  rfl

theorem handedBack_taken {job : Job} : (s.handedBack t job).taken = s.taken := rfl

/-- Where the thread is now: not in the barrier, and without a slice. -/
theorem handedBack_loc (s : Run T) (t : Fin T) (job : Job) : (s.handedBack t job).loc t = .finishing job ∧
      Complete (visit s.completed t (s.completed t)) (s.completed t) ∨
    (s.handedBack t job).loc t = .idle := by
  have h1 : (s.handedBack t job).loc t = if ((through s.completed (s.completed t)).card : ℤ) + 1 = T then
      .finishing job else .idle := loc_goto_self
  rw [h1]
  split
  · rename_i hc
    exact .inl ⟨rfl, (complete_visit_iff rfl).mpr (by omega)⟩
  · exact .inr rfl

theorem History.handedBack (h : History s) (hl : Live s) {sl : JobSlice} (ht : s.loc t = .holding sl)
    (hs : s.sched.stopped = false) (hget : s.jobs[s.completed t]? = some sl.job) :
    History (s.handedBack t sl.job) := by
  obtain ⟨htk, -⟩ := h.holding t sl ht
  have hle : ∀ v, visit s.completed t (s.completed t) v ≤ s.taken v := by
    intro v
    by_cases hvt : v = t
    · rw [hvt, visit_self]; omega
    · rw [visit_of_ne hvt]; exact h.completed_le v
  have hloc : ∀ v ≠ t, (s.handedBack t sl.job).loc v = s.loc v := fun v hvt => loc_goto_of_ne hvt
  refine { h with
    completed_le := hle, holding := fun v sl' hv => ?_, finishing := fun v j hv => ?_,
    notified := fun i j hj => ?_, notified_fresh := fun id hne => ?_, trues := fun i j hj => ?_, trues_fresh := fun id hne => ?_, failed := fun i j hj hf => ?_, finished := fun i j hj hf => ?_,
    queue_open := fun j hj => ?_ }
  · by_cases hvt : v = t
    · rw [hvt] at hv
      rcases handedBack_loc s t sl.job with ⟨h1, -⟩ | h1 <;> rw [h1] at hv <;> cases hv
    · rw [hloc v hvt] at hv
      show s.taken v = visit s.completed t (s.completed t) v + 1 ∧
        ∃ job, s.jobs[visit s.completed t (s.completed t) v]? = some job ∧ _
      rw [visit_of_ne hvt]
      exact h.holding v sl' hv
  · by_cases hvt : v = t
    · rw [hvt] at hv
      rcases handedBack_loc s t sl.job with ⟨h1, hc⟩ | h1 <;> rw [h1] at hv
      · rw [Loc.finishing.injEq] at hv
        exact ⟨s.completed t, hv ▸ hget, hc⟩
      · cases hv
    · rw [hloc v hvt] at hv
      obtain ⟨i, hi, hc⟩ := h.finishing v j hv
      exact ⟨i, hi, hc.visit le_self_add⟩
  · show Function.update s.notified sl.job.id (s.notified sl.job.id + 1) j.id =
      (through (visit s.completed t (s.completed t)) i).card
    by_cases hij : i = s.completed t
    · subst hij
      have hjj : j = sl.job := Option.some.inj ((show s.jobs[s.completed t]? = some j from hj).symm.trans hget)
      rw [hjj, Function.update_self, card_through_visit rfl, h.notified _ _ hget]
    · have hne : j.id ≠ sl.job.id := fun he => hij (h.index_unique hj hget he)
      rw [Function.update_of_ne hne, through_visit_of_ne rfl hij]
      exact h.notified i j hj
  · have hne' : id ≠ sl.job.id := fun he => hne (he ▸ mem_ids hget)
    exact (Function.update_of_ne hne' ..).trans (h.notified_fresh id hne)
  · have h1 := h.trues i j hj
    show (if ((through s.completed (s.completed t)).card : ℤ) + 1 = T then
      Function.update s.trues sl.job.id (s.trues sl.job.id + 1) else s.trues) j.id =
      if Complete (visit s.completed t (s.completed t)) i then 1 else 0
    have hiff := complete_visit_iff (show s.completed t = s.completed t from rfl)
    by_cases hij : i = s.completed t
    · subst hij
      have hjj : j = sl.job := Option.some.inj ((show s.jobs[s.completed t]? = some j from hj).symm.trans hget)
      rw [if_neg fun hc => by have h2 := hc t; omega] at h1
      rw [hjj] at h1 ⊢
      by_cases hc : Complete (visit s.completed t (s.completed t)) (s.completed t)
      · have h2 := hiff.mp hc
        rw [if_pos hc, if_pos (by omega), Function.update_self, h1]
      · have h2 := mt hiff.mpr hc
        rw [if_neg hc, if_neg (by omega), h1]
    · have hne : j.id ≠ sl.job.id := fun he => hij (h.index_unique hj hget he)
      have h2 : Complete (visit s.completed t (s.completed t)) i ↔ Complete s.completed i := by
        rw [← through_eq_univ, ← through_eq_univ, through_visit_of_ne rfl hij]
      have h3 : (if ((through s.completed (s.completed t)).card : ℤ) + 1 = T then
          Function.update s.trues sl.job.id (s.trues sl.job.id + 1) else s.trues) j.id = s.trues j.id := by
        split
        · exact Function.update_of_ne hne ..
        · rfl
      rw [h3, h1]
      by_cases hc : Complete s.completed i
      · rw [if_pos hc, if_pos (h2.mpr hc)]
      · rw [if_neg hc, if_neg (mt h2.mp hc)]
  · have hne' : id ≠ sl.job.id := fun he => hne (he ▸ mem_ids hget)
    show (if ((through s.completed (s.completed t)).card : ℤ) + 1 = T then
      Function.update s.trues sl.job.id (s.trues sl.job.id + 1) else s.trues) id = 0
    split
    · rw [Function.update_of_ne hne']; exact h.trues_fresh id hne
    · exact h.trues_fresh id hne
  · have h1 := (h.failed i j hj hf).1
    rw [hs] at h1
    cases h1
  · exact (h.finished i j hj hf).visit le_self_add
  · obtain ⟨i, hi, v, hv⟩ := hl.queue_index hj
    refine ⟨i, hi, fun hc => ?_⟩
    have h1 := hc v
    have h2 := hle v
    change i < visit s.completed t (s.completed t) v at h1
    omega

theorem Live.handedBack (hh : History s) (h : Live s) {sl : JobSlice} (ht : s.loc t = .holding sl)
    (hget : s.jobs[s.completed t]? = some sl.job) : Live (s.handedBack t sl.job) := by
  obtain ⟨htk, -⟩ := hh.holding t sl ht
  have hloc : ∀ v ≠ t, (s.handedBack t sl.job).loc v = s.loc v := fun v hvt => loc_goto_of_ne hvt
  have hself : ((s.handedBack t sl.job).loc t).copy = none ∧ ((s.handedBack t sl.job).loc t).pending = 0 := by
    rcases handedBack_loc s t sl.job with ⟨h1, -⟩ | h1 <;> rw [h1] <;> exact ⟨rfl, rfl⟩
  refine { h with
    rounds := ?_, arrived := fun v => ?_, settled := fun v hv => ?_, finished := fun i j hj => ?_,
    finished_fresh := fun id hne => ?_ }
  · have h1 : (fun v => ((s.handedBack t sl.job).loc v).copy) = fun v => (s.loc v).copy := by
      funext v
      by_cases hvt : v = t
      · rw [hvt, hself.1, ht]; rfl
      · rw [hloc v hvt]
    rw [h1]
    exact h.rounds
  · by_cases hvt : v = t
    · have h1 := h.arrived t
      rw [ht] at h1
      rw [hvt, hself.2]
      exact h1
    · rw [hloc v hvt]; exact h.arrived v
  · show visit s.completed t (s.completed t) v = s.taken v
    by_cases hvt : v = t
    · rw [hvt, visit_self, htk]
    · rw [hloc v hvt] at hv
      rw [visit_of_ne hvt]
      exact h.settled v hv
  · show Function.update s.sched.finishedJobSlices sl.job.id _ j.id = _
    by_cases hij : i = s.completed t
    · subst hij
      have hjj : j = sl.job := Option.some.inj ((show s.jobs[s.completed t]? = some j from hj).symm.trans hget)
      rw [hjj, Function.update_self]
      exact (entry_visit_up rfl).symm
    · have hne : j.id ≠ sl.job.id := fun he => hij (hh.index_unique hj hget he)
      rw [Function.update_of_ne hne]
      exact (h.finished i j hj).trans (entry_visit_of_ne rfl hij fun c => (c : ℤ)).symm
  · have hne' : id ≠ sl.job.id := fun he => hne (he ▸ mem_ids hget)
    exact (Function.update_of_ne hne' ..).trans (h.finished_fresh id hne)

/-- The status of one job changes, to one that is neither failed nor finished
unless that is true of the job. -/
theorem History.status_congr (h : History s) {job : Job} {i : ℕ} (hget : s.jobs[i]? = some job) (st : JobStatus)
    (hf : st = .failed → s.sched.stopped = true ∧ ¬Complete s.completed i)
    (hc : st = .finished → Complete s.completed i) :
    (∀ id ∉ s.jobs.map Job.id, Function.update s.sched.status job.id st id = .init) ∧
    (∀ j job', s.jobs[j]? = some job' → Function.update s.sched.status job.id st job'.id = .failed →
      s.sched.stopped = true ∧ ¬Complete s.completed j) ∧
    ∀ j job', s.jobs[j]? = some job' → Function.update s.sched.status job.id st job'.id = .finished →
      Complete s.completed j := by
  refine ⟨fun id hne => ?_, fun j job' hj hst => ?_, fun j job' hj hst => ?_⟩
  · have hne' : id ≠ job.id := fun he => hne (he ▸ mem_ids hget)
    rw [Function.update_of_ne hne']
    exact h.status_fresh id hne
  · by_cases he : job'.id = job.id
    · rw [he, Function.update_self] at hst
      rw [h.index_unique hj hget he]
      exact hf hst
    · rw [Function.update_of_ne he] at hst
      exact h.failed j job' hj hst
  · by_cases he : job'.id = job.id
    · rw [he, Function.update_self] at hst
      rw [h.index_unique hj hget he]
      exact hc hst
    · rw [Function.update_of_ne he] at hst
      exact h.finished j job' hj hst

/-- A slice handed back too late fails its job. -/
theorem Inv.notify_stopped (h : Inv s) {sl : JobSlice} (ht : s.loc t = .holding sl) (hs : s.sched.stopped = true) :
    Inv (s.notify t sl) := by
  obtain ⟨-, job, hget, rfl⟩ := h.holding t sl ht
  have hopen : ¬Complete s.completed (s.completed t) := fun hc => by have h1 := hc t; omega
  have hg := h.toHistory.goto (t := t) (l := .idle) (by simp) (by simp)
  obtain ⟨h1, h2, h3⟩ := h.status_congr hget .failed (fun _ => ⟨hs, hopen⟩) (by simp)
  unfold Run.notify
  rw [FifoScheduler.notify_stopped hs, guard_ok]
  simp only [Bool.false_eq_true, if_false, hs, if_true]
  exact ⟨{ hg with status_fresh := h1, failed := fun i j hj hf => ⟨rfl, (h2 i j hj hf).2⟩, finished := h3, stopping := fun _ => rfl },
    fun hs' => by cases hs'⟩

theorem Inv.notify (h : Inv s) {sl : JobSlice} (ht : s.loc t = .holding sl) : Inv (s.notify t sl) := by
  cases hs : s.sched.stopped with
  | true => exact h.notify_stopped ht hs
  | false =>
    obtain ⟨hget, heq⟩ := h.notify_live ht hs
    rw [heq]
    exact ⟨h.toHistory.handedBack (h.live hs) ht hs hget, fun _ => Live.handedBack h.toHistory (h.live hs) ht hget⟩

/-! ## Finishing a job -/

theorem Inv.finish_ok (h : Inv s) {job : Job} (ht : s.loc t = .finishing job) :
    setJobStatus s.sched.status job.id .finished = .ok (Function.update s.sched.status job.id .finished) := by
  obtain ⟨i, hget, hc⟩ := h.finishing t job ht
  refine setJobStatus_ok ?_
  cases hst : s.sched.status job.id with
  | failed => exact absurd hc (h.failed i job hget hst).2
  | init | queued | running | finished => decide

theorem Inv.finish (h : Inv s) {job : Job} (ht : s.loc t = .finishing job) : Inv (s.finish t job) := by
  obtain ⟨i, hget, hc⟩ := h.finishing t job ht
  have hg := h.toHistory.goto (t := t) (l := .idle) (by simp) (by simp)
  obtain ⟨h1, h2, h3⟩ := h.status_congr hget .finished (by simp) fun _ => hc
  unfold Run.finish
  rw [h.finish_ok ht, guard_ok]
  refine ⟨{ hg with status_fresh := h1, failed := h2, finished := h3 }, fun hs => ?_⟩
  have hl := h.live hs
  have hgl : Live (s.goto t .idle) := by
    refine hl.goto ?_ (by rw [ht]; rfl) fun _ => hl.settled t (by rw [ht]; rfl)
    rw [rounds_goto (by rw [ht]; rfl)]
    exact hl.rounds
  exact { hgl with }

/-! ## Enqueueing a job -/

theorem Inv.enqueue (h : Inv s) (hT : 0 < T) {job : Job} (hnew : job.id ∉ s.jobs.map Job.id) :
    Inv (s.enqueue job) := by
  have hne : ∀ {i} {j : Job}, s.jobs[i]? = some j → j.id ≠ job.id := fun hj he => hnew (he ▸ mem_ids hj)
  have hnot := h.not_complete hT le_rfl
  have hids : ∀ {id}, id ∉ (s.jobs ++ [job]).map Job.id → id ∉ s.jobs.map Job.id ∧ id ≠ job.id := by
    intro id hid
    simp only [List.map_append, List.mem_append, List.map_cons, List.map_nil, List.mem_singleton, not_or] at hid
    exact hid
  have hjobs : ∀ {i j}, (s.jobs ++ [job])[i]? = some j → s.jobs[i]? = some j ∨ i = s.jobs.length ∧ j = job :=
    fun hj => jobs_getElem?_append.mp hj
  have hzero : ∀ seen : Fin T → ℕ, (∀ v, seen v ≤ s.jobs.length) → through seen s.jobs.length = ∅ := by
    intro seen hle
    ext v
    have h1 := hle v
    simp only [mem_through, Finset.notMem_empty, iff_false]
    omega
  unfold Run.enqueue
  rw [FifoScheduler.enqueueJob_ok (h.status_fresh _ hnew), guard_ok]
  refine ⟨{ h.toHistory with
    ids := ?_, got_eq := fun t => ?_, holding := fun t sl ht => ?_, finishing := fun t j ht => ?_,
    notified := fun i j hj => ?_, notified_fresh := fun id hid => h.notified_fresh id (hids hid).1,
    trues := fun i j hj => ?_, trues_fresh := fun id hid => h.trues_fresh id (hids hid).1,
    status_fresh := fun id hid => ?_, failed := fun i j hj hf => ?_, finished := fun i j hj hf => ?_,
    queue_open := fun j hj => ?_ }, fun hs => ?_⟩
  · show ((s.jobs ++ [job]).map Job.id).Nodup
    rw [List.map_append, List.nodup_append]
    refine ⟨h.ids, by simp, fun a ha b hb => ?_⟩
    rw [List.map_singleton, List.mem_singleton] at hb
    intro he
    exact hnew (hb ▸ he ▸ ha)
  · show s.got t = ((s.jobs ++ [job]).take (s.taken t)).map _
    rw [List.take_append_of_le_length (h.taken_le t)]
    exact h.got_eq t
  · obtain ⟨h1, j, h2, h3⟩ := h.holding t sl ht
    exact ⟨h1, j, jobs_getElem?_append.mpr (.inl h2), h3⟩
  · obtain ⟨i, h1, h2⟩ := h.finishing t j ht
    exact ⟨i, jobs_getElem?_append.mpr (.inl h1), h2⟩
  · rcases hjobs hj with h1 | ⟨rfl, rfl⟩
    · exact h.notified i j h1
    · refine (h.notified_fresh _ hnew).trans ?_
      show 0 = (through s.completed s.jobs.length).card
      rw [hzero s.completed fun v => (h.completed_le v).trans (h.taken_le v)]
      rfl
  · rcases hjobs hj with h1 | ⟨rfl, rfl⟩
    · exact h.trues i j h1
    · exact (h.trues_fresh _ hnew).trans (if_neg hnot).symm
  · exact (Function.update_of_ne (hids hid).2 ..).trans (h.status_fresh id (hids hid).1)
  · have hf' : Function.update s.sched.status job.id .queued j.id = .failed := hf
    rcases hjobs hj with h1 | ⟨rfl, rfl⟩
    · rw [Function.update_of_ne (hne h1)] at hf'
      exact h.failed i j h1 hf'
    · rw [Function.update_self] at hf'; cases hf'
  · have hf' : Function.update s.sched.status job.id .queued j.id = .finished := hf
    rcases hjobs hj with h1 | ⟨rfl, rfl⟩
    · rw [Function.update_of_ne (hne h1)] at hf'
      exact h.finished i j h1 hf'
    · rw [Function.update_self] at hf'; cases hf'
  · have hj' : j ∈ s.sched.queue ++ [job] := hj
    rw [List.mem_append, List.mem_singleton] at hj'
    rcases hj' with h1 | rfl
    · obtain ⟨i, h2, h3⟩ := h.queue_open j h1
      exact ⟨i, jobs_getElem?_append.mpr (.inl h2), h3⟩
    · exact ⟨s.jobs.length, jobs_getElem?_append.mpr (.inr ⟨rfl, rfl⟩), hnot⟩
  · have hl := h.live hs
    have hntaken := h.taken_not_complete hT le_rfl
    refine { hl with
      queue := ?_, undispatched := fun i j hj => ?_, undispatched_fresh := fun id hid => ?_,
      finished := fun i j hj => ?_, finished_fresh := fun id hid => ?_ }
    · obtain ⟨d, hq, hle, v, hv⟩ := hl.queue
      refine ⟨d, ?_, hle, v, hv⟩
      have h1 := h.taken_le v
      show s.sched.queue ++ [job] = (s.jobs ++ [job]).drop d
      rw [List.drop_append_of_le_length (by omega), hq]
    · show mapInsert s.sched.undispatchedJobSlices job.id T j.id = _
      rw [FifoScheduler.mapInsert_fresh (hl.undispatched_fresh _ hnew)]
      rcases hjobs hj with h1 | ⟨rfl, rfl⟩
      · rw [Function.update_of_ne (hne h1)]
        exact hl.undispatched i j h1
      · rw [Function.update_self]
        show _ = entry s.taken _ _
        rw [entry, if_neg hntaken]
        show _ = some ((T : ℤ) - (through s.taken s.jobs.length).card)
        rw [hzero s.taken h.taken_le]
        simp
    · show mapInsert s.sched.undispatchedJobSlices job.id T id = _
      rw [FifoScheduler.mapInsert_fresh (hl.undispatched_fresh _ hnew), Function.update_of_ne (hids hid).2]
      exact hl.undispatched_fresh id (hids hid).1
    · show mapInsert s.sched.finishedJobSlices job.id 0 j.id = _
      rw [FifoScheduler.mapInsert_fresh (hl.finished_fresh _ hnew)]
      rcases hjobs hj with h1 | ⟨rfl, rfl⟩
      · rw [Function.update_of_ne (hne h1)]
        exact hl.finished i j h1
      · rw [Function.update_self]
        show _ = entry s.completed _ _
        rw [entry, if_neg hnot]
        show _ = some ((through s.completed s.jobs.length).card : ℤ)
        rw [hzero s.completed fun v => (h.completed_le v).trans (h.taken_le v)]
        simp
    · show mapInsert s.sched.finishedJobSlices job.id 0 id = _
      rw [FifoScheduler.mapInsert_fresh (hl.finished_fresh _ hnew), Function.update_of_ne (hids hid).2]
      exact hl.finished_fresh id (hids hid).1

/-! ## Stopping -/

theorem Inv.stopFlag (h : Inv s) : Inv { s with sched := s.sched.stopFlag, stopping := true } :=
  ⟨{ h.toHistory with failed := fun i j hj hf => ⟨rfl, (h.failed i j hj hf).2⟩, stopping := fun _ => rfl },
    fun hs => by cases hs⟩

theorem Inv.clear (h : Inv s) (hst : s.stopping = true) : Inv s.clear := by
  have hstopped := h.stopping hst
  unfold Run.clear
  rw [FifoScheduler.stopClear_ok, guard_ok]
  have hmem : ∀ {i j}, s.jobs[i]? = some j → j.id ∈ s.sched.queue.map Job.id → ¬Complete s.completed i := by
    intro i j hj hq
    obtain ⟨j', hj', he⟩ := List.mem_map.mp hq
    obtain ⟨k, hk, hopen⟩ := h.queue_open j' hj'
    rw [h.index_unique hj hk he.symm]
    exact hopen
  refine ⟨{ h.toHistory with
    status_fresh := fun id hid => ?_, failed := fun i j hj hf => ⟨hstopped, ?_⟩, finished := fun i j hj hf => ?_,
    queue_open := fun j hj => ?_, stopping := fun _ => hstopped }, fun hs => ?_⟩
  · show (if id ∈ s.sched.queue.map Job.id then JobStatus.failed else s.sched.status id) = .init
    rw [if_neg, h.status_fresh id hid]
    intro hq
    obtain ⟨j, hj, rfl⟩ := List.mem_map.mp hq
    obtain ⟨k, hk, -⟩ := h.queue_open j hj
    exact hid (mem_ids hk)
  · change (if j.id ∈ s.sched.queue.map Job.id then JobStatus.failed else s.sched.status j.id) = .failed at hf
    split at hf
    · exact hmem hj (by assumption)
    · exact (h.failed i j hj hf).2
  · change (if j.id ∈ s.sched.queue.map Job.id then JobStatus.failed else s.sched.status j.id) = .finished at hf
    split at hf
    · cases hf
    · exact h.finished i j hj hf
  · cases hj
  · exact absurd (hstopped.symm.trans hs) (by simp)

/-! ## Every reachable state -/

theorem Inv.init (hT : 0 < T) : Inv (new T) := by
  refine ⟨?_, fun _ => ?_⟩
  · refine ⟨by simp [new], fun t => by simp [new], fun t => by simp [new], ?_, ?_, ?_, ?_, ?_, ?_, ?_, ?_, ?_, ?_, ?_, .inl rfl⟩ <;>
      simp [new, FifoScheduler.new]
  · refine ⟨⟨0, ?_⟩, fun t => rfl, fun t _ => rfl, ⟨0, rfl, fun t => Nat.zero_le _, ⟨0, hT⟩, rfl⟩, ?_, ?_, ?_, ?_⟩
    · have h1 := Rounds.zero (ι := Fin T) (by rw [Fintype.card_fin]; exact hT) false
      rw [Fintype.card_fin] at h1
      exact h1
    all_goals simp [new, FifoScheduler.new]

theorem Inv.step (hT : 0 < T) {e : Event T} {s' : Run T} (h : Inv s) (hn : (machine T).next s e = some s') :
    Inv s' := by
  simp only [machine, next] at hn
  split at hn
  · cases hn
  cases e with
  | enqueue job =>
    simp only [Option.ite_none_left_eq_some, Option.some.injEq] at hn
    obtain ⟨hnew, rfl⟩ := hn
    exact h.enqueue hT hnew
  | check t =>
    simp only [Option.ite_none_right_eq_some, Option.some.injEq] at hn
    obtain ⟨ht, rfl⟩ := hn
    exact h.check ht
  | arrive t =>
    simp only [Option.ite_none_right_eq_some, Option.some.injEq] at hn
    obtain ⟨ht, rfl⟩ := hn
    exact h.arrive ht
  | leave t =>
    simp only at hn
    split at hn
    · rename_i flagCopy ht
      simp only [Option.ite_none_right_eq_some, Option.some.injEq] at hn
      obtain ⟨hrel, rfl⟩ := hn
      exact h.leave ht hrel
    · cases hn
  | take t =>
    simp only [Option.ite_none_right_eq_some] at hn
    obtain ⟨ht, hn⟩ := hn
    exact h.take ht hn
  | notify t =>
    simp only at hn
    split at hn
    · rename_i sl ht
      cases hn
      exact h.notify ht
    · cases hn
  | finish t =>
    simp only at hn
    split at hn
    · rename_i job ht
      cases hn
      exact h.finish ht
    · cases hn
  | exit t =>
    simp only at hn
    split at hn
    · rename_i ht
      cases hn
      exact h.exit (by rw [ht]; rfl) (by rw [ht]; rfl)
    · rename_i ht
      cases hn
      exact h.exit (by rw [ht]; rfl) (by rw [ht]; rfl)
    · cases hn
  | stopFlag =>
    simp only [Option.ite_none_left_eq_some, Option.some.injEq] at hn
    obtain ⟨-, rfl⟩ := hn
    exact h.stopFlag
  | stopClear =>
    simp only [Option.ite_none_right_eq_some, Option.some.injEq] at hn
    obtain ⟨hst, rfl⟩ := hn
    exact h.clear hst

theorem Inv.of_reachable (hT : 0 < T) (h : (machine T).Reachable s) : Inv s := by
  refine h.invariant (fun s hs => ?_) fun s e s' hI hn => hI.step hT hn
  rw [show s = new T from hs]
  exact Inv.init hT

end Run

end SwitchML.Client
