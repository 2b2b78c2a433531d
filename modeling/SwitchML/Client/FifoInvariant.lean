/-
What holds in every state of the scheduler and its threads.

The invariant has two parts. `History` is about the jobs, the slices given out
and handed back, and the status of the jobs; it also holds once the scheduler
is stopped. `Live` is about the queue, the two maps and the barrier, which
`Stop` empties. That the slice of a job is given to each thread once rests on
the barrier: a thread that is past it has been given no more slices than any
other, so the job at the front is the next one for it.
-/
import SwitchML.Client.FifoScheduler
import SwitchML.Lib.Phases
import SwitchML.Lib.Rounds
import Mathlib.Data.List.Nodup

namespace SwitchML.Client

open Phases

/-- The copy of the flag a thread waits in the barrier with. -/
def Loc.copy : Loc → Option Bool
  | .waiting flagCopy => some flagCopy
  | _ => none

/-- The thread has entered the barrier for a slice it has not been given. -/
def Loc.pending : Loc → ℕ
  | .waiting _ | .passed => 1
  | _ => 0

/-- A slice is out of the thread's hands, or will never be. -/
def Loc.settled : Loc → Bool
  | .holding _ | .exited => false
  | _ => true

namespace Run

variable {T : ℕ}

/-- How many slices a thread was given. -/
def taken (s : Run T) (t : Fin T) : ℕ := (s.got t).length

/-- An entry of a map that counts the threads that are not, or are, through a
job, and is erased when all are. -/
def entry (seen : Fin T → ℕ) (i : ℕ) (v : ℤ) : Option ℤ := if Complete seen i then none else some v

structure History (s : Run T) : Prop where
  ids : (s.jobs.map Job.id).Nodup
  got_eq : ∀ t, s.got t = (s.jobs.take (s.taken t)).map (FifoScheduler.jobSlice T · t)
  completed_le : ∀ t, s.completed t ≤ s.taken t
  holding : ∀ t sl, s.loc t = .holding sl → s.taken t = s.completed t + 1 ∧
    ∃ job, s.jobs[s.completed t]? = some job ∧ sl = FifoScheduler.jobSlice T job t
  finishing : ∀ t job, s.loc t = .finishing job → ∃ i, s.jobs[i]? = some job ∧ Complete s.completed i
  notified : ∀ i job, s.jobs[i]? = some job → s.notified job.id = (through s.completed i).card
  notified_fresh : ∀ id ∉ s.jobs.map Job.id, s.notified id = 0
  trues : ∀ i job, s.jobs[i]? = some job → s.trues job.id = if Complete s.completed i then 1 else 0
  trues_fresh : ∀ id ∉ s.jobs.map Job.id, s.trues id = 0
  status_fresh : ∀ id ∉ s.jobs.map Job.id, s.sched.status id = .init
  failed : ∀ i job, s.jobs[i]? = some job → s.sched.status job.id = .failed →
    s.sched.stopped = true ∧ ¬Complete s.completed i
  finished : ∀ i job, s.jobs[i]? = some job → s.sched.status job.id = .finished → Complete s.completed i
  queue_open : ∀ job ∈ s.sched.queue, ∃ i, s.jobs[i]? = some job ∧ ¬Complete s.completed i
  stopping : s.stopping = true → s.sched.stopped = true
  fault : s.fault = none ∨ s.fault = some .barrierDestroyed

/-- While the scheduler is not stopped. -/
structure Live (s : Run T) : Prop where
  rounds : ∃ round, Rounds s.sched.barrier.count s.sched.barrier.flag round s.arrived fun t => (s.loc t).copy
  arrived : ∀ t, s.arrived t = s.taken t + (s.loc t).pending
  settled : ∀ t, (s.loc t).settled = true → s.completed t = s.taken t
  queue : ∃ d, s.sched.queue = s.jobs.drop d ∧ (∀ t, d ≤ s.taken t) ∧ ∃ t, s.taken t = d
  undispatched : ∀ i job, s.jobs[i]? = some job →
    s.sched.undispatchedJobSlices job.id = entry s.taken i (T - (through s.taken i).card)
  undispatched_fresh : ∀ id ∉ s.jobs.map Job.id, s.sched.undispatchedJobSlices id = none
  finished : ∀ i job, s.jobs[i]? = some job →
    s.sched.finishedJobSlices job.id = entry s.completed i (through s.completed i).card
  finished_fresh : ∀ id ∉ s.jobs.map Job.id, s.sched.finishedJobSlices id = none

structure Inv (s : Run T) : Prop extends History s where
  live : s.sched.stopped = false → Live s

variable {s : Run T} {t : Fin T}

/-! ## Readings -/

theorem History.taken_le (h : History s) (t : Fin T) : s.taken t ≤ s.jobs.length := by
  have h1 := congrArg List.length (h.got_eq t)
  rw [List.length_map, List.length_take] at h1
  unfold taken at h1 ⊢
  omega

theorem History.not_complete (h : History s) (hT : 0 < T) {i : ℕ} (hi : s.jobs.length ≤ i) :
    ¬Complete s.completed i := by
  intro hc
  have h1 := hc ⟨0, hT⟩
  have h2 := h.completed_le ⟨0, hT⟩
  have h3 := h.taken_le ⟨0, hT⟩
  omega

theorem History.taken_not_complete (h : History s) (hT : 0 < T) {i : ℕ} (hi : s.jobs.length ≤ i) :
    ¬Complete s.taken i := by
  intro hc
  have h1 := hc ⟨0, hT⟩
  have h3 := h.taken_le ⟨0, hT⟩
  omega

/-- Jobs with one id are the same, at the same place. -/
theorem History.index_unique (h : History s) {i j : ℕ} {job job' : Job} (hi : s.jobs[i]? = some job)
    (hj : s.jobs[j]? = some job') (hid : job.id = job'.id) : i = j := by
  have h1 : (s.jobs.map Job.id)[i]? = some job.id := by rw [List.getElem?_map, hi]; rfl
  have h2 : (s.jobs.map Job.id)[j]? = some job.id := by rw [List.getElem?_map, hj, hid]; rfl
  have h3 : i < (s.jobs.map Job.id).length := by
    rw [List.length_map]
    exact (List.getElem?_eq_some_iff.mp hi).1
  exact (List.getElem?_inj h3 h.ids).mp (h1.trans h2.symm)

theorem mem_ids {i : ℕ} {job : Job} (hi : s.jobs[i]? = some job) : job.id ∈ s.jobs.map Job.id :=
  List.mem_map_of_mem (List.mem_of_getElem? hi)

/-- A thread past the barrier has been given as few slices as any. -/
theorem Live.passed (h : Live s) (ht : s.loc t = .passed) (v : Fin T) : s.taken t ≤ s.taken v := by
  obtain ⟨round, hr⟩ := h.rounds
  have h1 := hr.eq_of_outside (w := t) (by rw [ht]; rfl)
  have h2 := hr.le v
  have h3 := h.arrived t
  have h4 := h.arrived v
  have h5 : (s.loc v).pending ≤ 1 := by cases s.loc v <;> simp [Loc.pending]
  rw [ht] at h3
  have h6 : Loc.passed.pending = 1 := rfl
  omega

/-- So the job at the front of the queue is the next one for it. -/
theorem Live.front (h : Live s) (ht : s.loc t = .passed) : s.sched.queue = s.jobs.drop (s.taken t) := by
  obtain ⟨d, hq, hle, v, hv⟩ := h.queue
  have h1 := h.passed ht v
  have h2 := hle t
  have h3 : s.taken t = d := by omega
  rw [h3, hq]

theorem jobs_getElem?_append {job job' : Job} {i : ℕ} :
    (s.jobs ++ [job])[i]? = some job' ↔ s.jobs[i]? = some job' ∨ i = s.jobs.length ∧ job' = job := by
  rcases Nat.lt_trichotomy i s.jobs.length with h | h | h
  · rw [List.getElem?_append_left h]
    constructor
    · exact Or.inl
    · intro h1
      rcases h1 with h1 | ⟨h1, -⟩
      · exact h1
      · omega
  · subst h
    simp [eq_comm]
  · rw [List.getElem?_append_right h.le, List.getElem?_eq_none (by rw [List.length_singleton]; omega),
      List.getElem?_eq_none h.le]
    simp only [reduceCtorEq, false_or, false_iff, not_and]
    omega

/-! ## Steps that only move a thread -/

theorem loc_goto_of_ne {l : Loc} {v : Fin T} (h : v ≠ t) : (s.goto t l).loc v = s.loc v := Function.update_of_ne h ..

@[simp] theorem loc_goto_self {l : Loc} : (s.goto t l).loc t = l := Function.update_self ..

theorem Live.goto (h : Live s) {l : Loc}
    (hr : ∃ round, Rounds s.sched.barrier.count s.sched.barrier.flag round s.arrived fun v => ((s.goto t l).loc v).copy)
    (hp : l.pending = (s.loc t).pending) (hs : l.settled = true → s.completed t = s.taken t) : Live (s.goto t l) := by
  refine { h with rounds := hr, arrived := fun v => ?_, settled := fun v hv => ?_ }
  · by_cases hvt : v = t
    · rw [hvt, loc_goto_self, hp]; exact h.arrived t
    · rw [loc_goto_of_ne hvt]; exact h.arrived v
  · by_cases hvt : v = t
    · rw [hvt, loc_goto_self] at hv; rw [hvt]; exact hs hv
    · rw [loc_goto_of_ne hvt] at hv; exact h.settled v hv

/-- Where the thread neither enters nor leaves the barrier. -/
theorem rounds_goto {l : Loc} (hc : l.copy = (s.loc t).copy) :
    (fun v => ((s.goto t l).loc v).copy) = fun v => (s.loc v).copy := by
  funext v
  by_cases hvt : v = t
  · rw [hvt, loc_goto_self, hc]
  · rw [loc_goto_of_ne hvt]

theorem History.goto (h : History s) {l : Loc} (hh : ∀ sl, l ≠ .holding sl) (hf : ∀ job, l ≠ .finishing job) :
    History (s.goto t l) := by
  refine { h with holding := fun v sl hv => ?_, finishing := fun v job hv => ?_ }
  · by_cases hvt : v = t
    · rw [hvt, loc_goto_self] at hv; exact absurd hv (hh sl)
    · rw [loc_goto_of_ne hvt] at hv; exact h.holding v sl hv
  · by_cases hvt : v = t
    · rw [hvt, loc_goto_self] at hv; exact absurd hv (hf job)
    · rw [loc_goto_of_ne hvt] at hv; exact h.finishing v job hv

theorem Inv.check (h : Inv s) (ht : s.loc t = .idle) : Inv (s.check t) := by
  unfold Run.check
  split
  · exact h
  · refine ⟨h.toHistory.goto (by simp) (by simp), fun hs => ?_⟩
    have hl := h.live hs
    refine hl.goto ?_ (by rw [ht]; rfl) fun _ => hl.settled t (by rw [ht]; rfl)
    rw [rounds_goto (by rw [ht]; rfl)]
    exact hl.rounds

theorem Inv.leave (h : Inv s) {flagCopy : Bool} (ht : s.loc t = .waiting flagCopy)
    (hrel : s.sched.barrier.released flagCopy = true) : Inv (s.goto t .passed) := by
  refine ⟨h.toHistory.goto (by simp) (by simp), fun hs => ?_⟩
  have hl := h.live hs
  refine hl.goto ?_ (by rw [ht]; rfl) fun _ => hl.settled t (by rw [ht]; rfl)
  obtain ⟨round, hr⟩ := hl.rounds
  -- the barrier is not destroyed, since its counter is positive
  have hc : flagCopy ≠ s.sched.barrier.flag := by
    have h1 := hr.count_pos
    simp only [Barrier.released, Bool.or_eq_true, decide_eq_true_eq, bne_iff_ne] at hrel
    rcases hrel with h2 | h2
    · omega
    · exact h2
  have h1 := hr.leave (w := t) (c := flagCopy) (by rw [ht]; rfl) hc
  refine ⟨round, ?_⟩
  have h2 : (fun v => ((s.goto t .passed).loc v).copy) = Function.update (fun v => (s.loc v).copy) t none := by
    funext v
    by_cases hvt : v = t
    · rw [hvt, loc_goto_self, Function.update_self]; rfl
    · rw [loc_goto_of_ne hvt, Function.update_of_ne hvt]
  rw [h2]
  exact h1

theorem Inv.exit (h : Inv s) (hp : (s.loc t).pending = 0) (hc : (s.loc t).copy = none) : Inv (s.goto t .exited) := by
  refine ⟨h.toHistory.goto (by simp) (by simp), fun hs => ?_⟩
  have hl := h.live hs
  refine hl.goto ?_ (by rw [hp]; rfl) fun he => by cases he
  rw [rounds_goto (by rw [hc]; rfl)]
  exact hl.rounds

/-! ## Entering the barrier -/

theorem Inv.arrive (h : Inv s) (ht : s.loc t = .checked) : Inv (s.arrive t) := by
  unfold Run.arrive
  by_cases hd : s.sched.barrier.count = -1
  · -- the process stops, and nothing but `fault` changes
    rw [Barrier.enter, if_pos hd, guard_error]
    refine ⟨{ h.toHistory with fault := .inr rfl }, fun hs => ?_⟩
    obtain ⟨round, hr⟩ := (h.live hs).rounds
    have h1 := hr.count_pos
    omega
  obtain ⟨barrier, flagCopy, he⟩ : ∃ barrier flagCopy, s.sched.barrier.enter T = .ok (barrier, flagCopy) := by
    unfold Barrier.enter
    rw [if_neg hd]
    split <;> exact ⟨_, _, rfl⟩
  rw [he, guard_ok]
  have hloc : ∃ l, flagCopy.elim Loc.passed Loc.waiting = l ∧ l.pending = 1 ∧ l.settled = true ∧
      l.copy = flagCopy ∧ (∀ sl, l ≠ .holding sl) ∧ ∀ job, l ≠ .finishing job := by
    cases flagCopy <;> exact ⟨_, rfl, rfl, rfl, rfl, by simp, by simp⟩
  obtain ⟨l, hl, hpend, hset, hcopy, hh, hf⟩ := hloc
  have hg := h.toHistory.goto (t := t) hh hf
  simp only [hl]
  refine ⟨{ hg with }, fun hs => ?_⟩
  have hlive := h.live hs
  have hsett := hlive.settled t (by rw [ht]; rfl)
  have hcp : (fun v => (Function.update s.loc t l v).copy) =
      Function.update (fun v => (s.loc v).copy) t flagCopy := by
    funext v
    by_cases hvt : v = t
    · rw [hvt, Function.update_self, Function.update_self, hcopy]
    · rw [Function.update_of_ne hvt, Function.update_of_ne hvt]
  have harr : ∀ v, Function.update s.arrived t (s.arrived t + 1) v =
      s.taken v + (Function.update s.loc t l v).pending := by
    intro v
    by_cases hvt : v = t
    · have h1 := hlive.arrived t
      rw [ht] at h1
      rw [hvt, Function.update_self, Function.update_self, hpend, h1]
      rfl
    · rw [Function.update_of_ne hvt, Function.update_of_ne hvt]; exact hlive.arrived v
  refine { hlive with rounds := ?_, arrived := harr, settled := fun v hv => ?_ }
  · obtain ⟨round, hr⟩ := hlive.rounds
    have hnone : (s.loc t).copy = none := by rw [ht]; rfl
    have hround := hr.eq_of_outside (w := t) hnone
    unfold Barrier.enter at he
    rw [if_neg hd] at he
    split at he
    · rename_i hpos
      simp only [Except.ok.injEq, Prod.mk.injEq] at he
      obtain ⟨rfl, rfl⟩ := he
      refine ⟨round, ?_⟩
      rw [hround, hcp]
      exact hr.arrive hnone hpos
    · rename_i hpos
      simp only [Except.ok.injEq, Prod.mk.injEq] at he
      obtain ⟨rfl, rfl⟩ := he
      refine ⟨round + 1, ?_⟩
      have h1 := hr.last (w := t) hnone hpos
      rw [Fintype.card_fin] at h1
      rw [hround, hcp, ← hnone, Function.update_eq_self]
      exact h1
  · by_cases hvt : v = t
    · rw [hvt]; exact hsett
    · exact hlive.settled v (by rw [← loc_goto_of_ne (s := s) (l := l) hvt]; exact hv)

/-! ## One more thread through a job -/

section
variable {seen : Fin T → ℕ} {k : ℕ}

theorem card_through_visit (ht : seen t = k) : (through (visit seen t k) k).card = (through seen k).card + 1 := by
  rw [through_visit_self, Finset.card_insert_of_notMem (by rw [mem_through, ht]; omega)]

theorem complete_visit_iff (ht : seen t = k) : Complete (visit seen t k) k ↔ (through seen k).card + 1 = T := by
  rw [← card_through_eq, card_through_visit ht, Fintype.card_fin]

theorem entry_of_le {i : ℕ} {v : ℤ} (ht : seen t ≤ i) : entry seen i v = some v := by
  rw [entry, if_neg]
  intro hc
  have h1 := hc t
  omega

/-- The entry of the other jobs stays. -/
theorem entry_visit_of_ne {i : ℕ} (ht : seen t = k) (hi : i ≠ k) (f : ℕ → ℤ) :
    entry (visit seen t k) i (f (through (visit seen t k) i).card) = entry seen i (f (through seen i).card) := by
  have h1 : Complete (visit seen t k) i ↔ Complete seen i := by
    rw [← through_eq_univ, ← through_eq_univ, through_visit_of_ne ht hi]
  unfold entry
  rw [through_visit_of_ne ht hi]
  by_cases hc : Complete seen i
  · rw [if_pos hc, if_pos (h1.mpr hc)]
  · rw [if_neg hc, if_neg (mt h1.mp hc)]

theorem entry_visit_down (ht : seen t = k) :
    entry (visit seen t k) k (T - (through (visit seen t k) k).card) =
      if ((T : ℤ) - (through seen k).card) - 1 = 0 then none else some (((T : ℤ) - (through seen k).card) - 1) := by
  unfold entry
  rw [card_through_visit ht]
  push_cast
  by_cases hc : Complete (visit seen t k) k
  · rw [if_pos hc, if_pos]
    have h1 := (complete_visit_iff ht).mp hc
    omega
  · rw [if_neg hc, if_neg]
    · congr 1; omega
    · have h1 := mt (complete_visit_iff ht).mpr hc
      omega

theorem entry_visit_up (ht : seen t = k) :
    entry (visit seen t k) k (through (visit seen t k) k).card =
      if ((through seen k).card : ℤ) + 1 = T then none else some ((through seen k).card + 1 : ℤ) := by
  unfold entry
  rw [card_through_visit ht]
  push_cast
  by_cases hc : Complete (visit seen t k) k
  · rw [if_pos hc, if_pos]
    have h1 := (complete_visit_iff ht).mp hc
    omega
  · rw [if_neg hc, if_neg]
    have h1 := mt (complete_visit_iff ht).mpr hc
    omega

end

/-! ## Being given a slice -/

/-- Thread `t` is given its slice of `job`. -/
def given (s : Run T) (t : Fin T) (job : Job) (sched : FifoScheduler) : Run T :=
  { s.goto t (.holding (FifoScheduler.jobSlice T job t)) with
    sched, got := Function.update s.got t (s.got t ++ [FifoScheduler.jobSlice T job t]) }

theorem taken_given {job : Job} {sched : FifoScheduler} : (s.given t job sched).taken = visit s.taken t (s.taken t) := by
  funext v
  simp only [taken, given]
  by_cases hvt : v = t
  · rw [hvt, Function.update_self, visit_self, List.length_append, List.length_singleton]
  · rw [Function.update_of_ne hvt, visit_of_ne hvt]
    rfl

theorem jobs_given {job : Job} {sched : FifoScheduler} : (s.given t job sched).jobs = s.jobs := rfl

/-- The scheduler after the slice of `job` for `t` is given out. -/
def dispatched (s : Run T) (t : Fin T) (job : Job) (rest : List Job) : FifoScheduler :=
  let left := (T : ℤ) - (through s.taken (s.taken t)).card - 1
  { s.sched with
    queue := if left = 0 then rest else s.sched.queue
    undispatchedJobSlices := Function.update s.sched.undispatchedJobSlices job.id (if left = 0 then none else some left)
    status := Function.update s.sched.status job.id .running }

/-- What `take` does while the scheduler is not stopped. -/
theorem Inv.take_live (h : Inv s) (ht : s.loc t = .passed) (hs : s.sched.stopped = false) {s' : Run T}
    (hn : s.take t = some s') : ∃ job rest, s.sched.queue = job :: rest ∧ s.jobs[s.taken t]? = some job ∧
      rest = s.jobs.drop (s.taken t + 1) ∧ s' = s.given t job (s.dispatched t job rest) := by
  have hl := h.live hs
  have hq := hl.front ht
  unfold Run.take at hn
  cases hqueue : s.sched.queue with
  | nil =>
    rw [FifoScheduler.dispatch_nil hs hqueue] at hn
    cases hn
  | cons job rest =>
    have hdrop := hq.symm.trans hqueue
    have hget : s.jobs[s.taken t]? = some job := by
      rw [← List.head?_drop, hdrop]; rfl
    have hrest : rest = s.jobs.drop (s.taken t + 1) := by
      rw [← List.tail_drop, hdrop]; rfl
    have hu := hl.undispatched _ _ hget
    rw [entry_of_le le_rfl] at hu
    have hst : (s.sched.status job.id).toNat ≤ JobStatus.running.toNat := by
      cases hstat : s.sched.status job.id with
      | failed =>
        have h1 := (h.failed _ _ hget hstat).1
        rw [hs] at h1; cases h1
      | finished =>
        have h1 := h.finished _ _ hget hstat t
        have h2 := h.completed_le t
        omega
      | init | queued | running => decide
    rw [FifoScheduler.dispatch_cons hs hqueue hu hst] at hn
    simp only [Option.map_some, guard_ok, Option.some.injEq] at hn
    exact ⟨job, rest, rfl, hget, hrest, hn.symm⟩

theorem Inv.given (h : Inv s) (ht : s.loc t = .passed) (hs : s.sched.stopped = false) {job : Job}
    {rest : List Job} (hq : s.sched.queue = job :: rest) (hget : s.jobs[s.taken t]? = some job) :
    History (s.given t job (s.dispatched t job rest)) := by
  have hl := h.live hs
  have hset := hl.settled t (by rw [ht]; rfl)
  have hid : job.id ∈ s.jobs.map Job.id := mem_ids hget
  refine { h.toHistory with
    got_eq := fun v => ?_, completed_le := fun v => ?_, holding := fun v sl hv => ?_, finishing := fun v j hv => ?_,
    status_fresh := fun id hne => ?_, failed := fun i j hj hf => ?_, finished := fun i j hj hf => ?_,
    queue_open := fun j hj => ?_ }
  · rw [taken_given, jobs_given]
    by_cases hvt : v = t
    · subst hvt
      rw [visit_self, List.take_add_one, hget, List.map_append, ← h.got_eq v]
      exact Function.update_self ..
    · rw [visit_of_ne hvt, ← h.got_eq v]
      exact Function.update_of_ne hvt ..
  · rw [taken_given]
    exact (h.completed_le v).trans (le_visit (by omega) v)
  · rw [taken_given]
    by_cases hvt : v = t
    · subst hvt
      have h1 : (s.given v job (s.dispatched v job rest)).loc v = .holding (FifoScheduler.jobSlice T job v) :=
        loc_goto_self
      rw [h1, Loc.holding.injEq] at hv
      rw [visit_self]
      refine ⟨?_, job, ?_, hv.symm⟩
      · show s.taken v + 1 = s.completed v + 1
        omega
      · show s.jobs[s.completed v]? = some job
        rw [hset, hget]
    · rw [visit_of_ne hvt]
      exact h.holding v sl (by rw [← loc_goto_of_ne hvt]; exact hv)
  · by_cases hvt : v = t
    · have h1 : (s.given t job (s.dispatched t job rest)).loc t = .holding (FifoScheduler.jobSlice T job t) :=
        loc_goto_self
      rw [hvt, h1] at hv
      cases hv
    · exact h.finishing v j (by rw [← loc_goto_of_ne hvt]; exact hv)
  · have hne' : id ≠ job.id := fun he => hne (he ▸ hid)
    exact (Function.update_of_ne hne' ..).trans (h.status_fresh id hne)
  · have hf' : Function.update s.sched.status job.id .running j.id = .failed := hf
    by_cases hj' : j.id = job.id
    · rw [hj', Function.update_self] at hf'; cases hf'
    · rw [Function.update_of_ne hj'] at hf'
      exact h.failed i j hj hf'
  · have hf' : Function.update s.sched.status job.id .running j.id = .finished := hf
    by_cases hj' : j.id = job.id
    · rw [hj', Function.update_self] at hf'; cases hf'
    · rw [Function.update_of_ne hj'] at hf'
      exact h.finished i j hj hf'
  · have hj' : j ∈ s.sched.queue := by
      simp only [Run.given, dispatched] at hj
      split at hj
      · rw [hq]; exact List.mem_cons_of_mem _ hj
      · exact hj
    exact h.queue_open j hj'

theorem Live.given (hh : History s) (h : Live s) (ht : s.loc t = .passed) {job : Job} {rest : List Job}
    (hget : s.jobs[s.taken t]? = some job) (hrest : rest = s.jobs.drop (s.taken t + 1)) :
    Live (s.given t job (s.dispatched t job rest)) := by
  have hfront := h.front ht
  refine { h with
    rounds := ?_, arrived := fun v => ?_, settled := fun v hv => ?_, queue := ?_, undispatched := fun i j hj => ?_,
    undispatched_fresh := fun id hne => ?_ }
  · obtain ⟨round, hr⟩ := h.rounds
    refine ⟨round, ?_⟩
    have h1 := rounds_goto (s := s) (t := t) (l := .holding (FifoScheduler.jobSlice T job t)) (by rw [ht]; rfl)
    rw [show (fun v => ((s.given t job (s.dispatched t job rest)).loc v).copy) = fun v => (s.loc v).copy from h1]
    exact hr
  · rw [taken_given]
    by_cases hvt : v = t
    · have h1 := h.arrived t
      rw [ht] at h1
      rw [hvt, visit_self, show (s.given t job (s.dispatched t job rest)).loc t = _ from loc_goto_self]
      exact h1
    · rw [visit_of_ne hvt, show (s.given t job (s.dispatched t job rest)).loc v = s.loc v from loc_goto_of_ne hvt]
      exact h.arrived v
  · rw [taken_given]
    by_cases hvt : v = t
    · rw [hvt, show (s.given t job (s.dispatched t job rest)).loc t = _ from loc_goto_self] at hv
      cases hv
    · rw [show (s.given t job (s.dispatched t job rest)).loc v = s.loc v from loc_goto_of_ne hvt] at hv
      rw [visit_of_ne hvt]
      exact h.settled v hv
  · rw [taken_given]
    have hmin := h.passed ht
    by_cases hc : Complete (visit s.taken t (s.taken t)) (s.taken t)
    · have h1 := (complete_visit_iff rfl).mp hc
      refine ⟨s.taken t + 1, ?_, fun v => hc v, t, visit_self⟩
      simp only [Run.given, dispatched]
      rw [if_pos (by omega), hrest]
      rfl
    · have h1 := mt (complete_visit_iff rfl).mpr hc
      refine ⟨s.taken t, ?_, fun v => (hmin v).trans (le_visit (by omega) v), ?_⟩
      · simp only [Run.given, dispatched]
        rw [if_neg (by omega), hfront]
        rfl
      · simp only [Complete, not_forall, not_lt] at hc
        obtain ⟨v, hv⟩ := hc
        exact ⟨v, le_antisymm hv ((hmin v).trans (le_visit (by omega) v))⟩
  · rw [taken_given]
    show Function.update s.sched.undispatchedJobSlices job.id _ j.id = _
    by_cases hij : i = s.taken t
    · subst hij
      have hjj : j = job := by
        have h1 : s.jobs[s.taken t]? = some j := hj
        rw [hget, Option.some.injEq] at h1
        exact h1.symm
      rw [hjj, Function.update_self, entry_visit_down rfl]
    · have hne : j.id ≠ job.id := fun he => hij (hh.index_unique hj hget he)
      rw [Function.update_of_ne hne, entry_visit_of_ne rfl hij fun c => (T : ℤ) - c]
      exact h.undispatched i j hj
  · have hne' : id ≠ job.id := fun he => hne (he ▸ mem_ids hget)
    exact (Function.update_of_ne hne' ..).trans (h.undispatched_fresh id hne)

theorem Inv.take (h : Inv s) (ht : s.loc t = .passed) {s' : Run T} (hn : s.take t = some s') : Inv s' := by
  cases hs : s.sched.stopped with
  | true =>
    rw [Run.take, FifoScheduler.dispatch_stopped hs] at hn
    simp only [Option.map_some, guard_ok, Option.some.injEq] at hn
    subst hn
    exact ⟨{ h.toHistory.goto (t := t) (l := .idle) (by simp) (by simp) with },
      fun hs' => absurd (hs.symm.trans hs') (by simp)⟩
  | false =>
    obtain ⟨job, rest, hq, hget, hrest, rfl⟩ := h.take_live ht hs hn
    exact ⟨h.given ht hs hq hget, fun _ => Live.given h.toHistory (h.live hs) ht hget hrest⟩

end Run

end SwitchML.Client
