/-
What `FifoScheduler::Stop` does to the threads in `GetJobSlice`. Once it has
destroyed the barrier, a thread in `Wait` or waiting for a job can go on, and
leaves without a slice. The one thread that Stop misses is one that has found
`stopped_` not set and has given the scheduler's lock back, but has not entered
`Wait` yet: it enters a barrier that is gone, and the process dies there.
-/
import SwitchML.Client.Settled

namespace SwitchML.Client

theorem Barrier.enter_ok {T : ℕ} {b b' : Barrier} {flagCopy : Option Bool} (h : b.enter T = .ok (b', flagCopy)) :
    b.count ≠ -1 ∧ b'.count ≠ -1 := by
  unfold Barrier.enter at h
  split at h
  · cases h
  · rename_i hcount
    refine ⟨hcount, ?_⟩
    split at h
    · simp only [Except.ok.injEq, Prod.mk.injEq] at h
      obtain ⟨rfl, -⟩ := h
      simp only
      omega
    · simp only [Except.ok.injEq, Prod.mk.injEq] at h
      obtain ⟨rfl, -⟩ := h
      simp only
      omega

theorem Barrier.enter_error {T : ℕ} {b : Barrier} {f : Fault} (h : b.enter T = .error f) : b.count = -1 := by
  unfold Barrier.enter at h
  split at h
  · assumption
  · split at h
    · cases h
    · cases h

theorem Barrier.enter_destroyed {T : ℕ} {b : Barrier} (h : b.count = -1) :
    b.enter T = .error .barrierDestroyed := by
  rw [Barrier.enter, if_pos h]

namespace Run

variable {T : ℕ} {s s' : Run T} {e : Event T}

/-! ## What Stop promises -/

/-- The barrier is gone. -/
def Destroyed (s : Run T) : Prop := s.sched.barrier.count = -1

/-- After `Stop`, no thread enters `Wait`; one that is in it can leave it, and
one that is past it returns false. So does every later call, and no thread is
given a slice. -/
structure Released (s : Run T) : Prop where
  entering : ∀ t, next s (.arrive t) = none
  waiting : ∀ t flagCopy, s.loc t = .waiting flagCopy → next s (.leave t) = some (s.goto t .passed)
  passed : ∀ t, s.loc t = .passed → next s (.take t) = some (s.goto t .idle)
  refused : ∀ t, s.loc t = .idle → next s (.check t) = some s
  got : ∀ e s', next s e = some s' → s'.got = s.got

/-- The check in `Wait` has not fired, and once the barrier is destroyed all
threads are released. -/
def StopReleases (s : Run T) : Prop := s.fault ≠ some .barrierDestroyed ∧ (s.Destroyed → s.Released)

/-- `Stop` destroys the barrier while no thread is between its test of
`stopped_` and `Wait`. -/
def quietStop (s : Run T) : Event T → Prop
  | .stopClear => ∀ t, s.loc t ≠ .checked
  | _ => True

instance (s : Run T) (e : Event T) : Decidable (s.quietStop e) := by
  cases e <;> unfold quietStop <;> infer_instance

/-! ## One step -/

theorem next_check {t : Fin T} (hn : next s (.check t) = some s') :
    s' = if s.sched.stopped then s else s.goto t .checked := by
  simp only [next] at hn
  split at hn
  · cases hn
  · simp only [Option.ite_none_right_eq_some, Option.some.injEq] at hn
    exact hn.2.symm

/-- A thread that enters the barrier either kills the process or leaves a
barrier that is not destroyed. -/
theorem next_arrive {t : Fin T} (hn : next s (.arrive t) = some s') :
    s.loc t = .checked ∧ (s.Destroyed ∨ ¬ s.Destroyed ∧ ¬ s'.Destroyed ∧ s'.fault = s.fault) := by
  simp only [next] at hn
  split at hn
  · cases hn
  · simp only [Option.ite_none_right_eq_some, Option.some.injEq] at hn
    obtain ⟨ht, rfl⟩ := hn
    refine ⟨ht, ?_⟩
    unfold Run.arrive
    cases he : s.sched.barrier.enter T with
    | error f => exact .inl (Barrier.enter_error he)
    | ok r =>
      obtain ⟨barrier, flagCopy⟩ := r
      obtain ⟨h1, h2⟩ := Barrier.enter_ok he
      exact .inr ⟨h1, h2, rfl⟩

/-- The other steps leave the barrier alone, and no thread gets to the
barrier by them. -/
theorem Took.barrier (h : Took s e s') (hcheck : ∀ t, e ≠ .check t) (harrive : ∀ t, e ≠ .arrive t)
    (hclear : e ≠ .stopClear) :
    s'.sched.barrier = s.sched.barrier ∧ s'.fault = s.fault ∧ (s.sched.stopped = true → s'.sched.stopped = true) ∧
      ∀ v, s'.loc v = .checked → s.loc v = .checked := by
  have hgoto : ∀ {t v : Fin T} {l : Loc}, l ≠ .checked → (s.goto t l).loc v = .checked → s.loc v = .checked := by
    intro t v l hl hv
    by_cases htv : v = t
    · subst htv
      rw [loc_goto_self] at hv
      exact absurd hv hl
    · rwa [loc_goto_of_ne htv] at hv
  cases h with
  | enqueue job hnew => exact ⟨rfl, rfl, id, fun v hv => hv⟩
  | refused t ht => exact absurd rfl (hcheck t)
  | checked t ht => exact absurd rfl (hcheck t)
  | destroyed t ht => exact absurd rfl (harrive t)
  | arrived t barrier flagCopy ht => exact absurd rfl (harrive t)
  | left t flagCopy ht => exact ⟨rfl, rfl, id, fun v => hgoto (by simp)⟩
  | late t ht hs => exact ⟨rfl, rfl, id, fun v => hgoto (by simp)⟩
  | given t job rest ht hs => exact ⟨rfl, rfl, id, fun v => hgoto (by simp)⟩
  | failed t sl ht hs => exact ⟨rfl, rfl, id, fun v => hgoto (by simp)⟩
  | handedBack t sl ht hs hget =>
    refine ⟨rfl, rfl, id, fun v => hgoto ?_⟩
    split <;> simp
  | finished t job i ht => exact ⟨rfl, rfl, id, fun v => hgoto (by simp)⟩
  | exit t ht => exact ⟨rfl, rfl, id, fun v => hgoto (by simp)⟩
  | stopFlag => exact ⟨rfl, rfl, fun _ => rfl, fun v hv => hv⟩
  | stopClear hs => exact absurd rfl hclear

/-- Once the scheduler is stopped no step gives a thread a slice. -/
theorem Took.got_stopped (h : Took s e s') (hs : s.sched.stopped = true) : s'.got = s.got := by
  cases h with
  | given t job rest ht hlive => exact absurd (hs.symm.trans hlive) (by simp)
  | enqueue | refused | checked | destroyed | arrived | left | late | failed | handedBack | finished | exit
  | stopFlag | stopClear => rfl

/-! ## A destroyed barrier -/

/-- `Stop` is through with a destroyed barrier, and no thread is on the way to it. -/
structure Closed (s : Run T) : Prop where
  stopped : s.sched.stopped = true
  destroyed : s.Destroyed
  outside : ∀ t, s.loc t ≠ .checked
  fault : s.fault = none

theorem Closed.step (hI : Inv s) (h : Closed s) (hn : next s e = some s') : Closed s' := by
  have htook := hI.took hn
  cases e with
  | check t =>
    have hs' := next_check hn
    rw [if_pos h.stopped] at hs'
    rw [hs']
    exact h
  | arrive t => exact absurd (next_arrive hn).1 (h.outside t)
  | stopClear =>
    cases htook with
    | stopClear hs => exact ⟨h.stopped, rfl, h.outside, h.fault⟩
  | enqueue | leave | take | notify | finish | exit | stopFlag =>
    obtain ⟨hb, hf, hs, hl⟩ := htook.barrier (by simp) (by simp) (by simp)
    refine ⟨hs h.stopped, ?_, fun t ht => h.outside t (hl t ht), hf.trans h.fault⟩
    rw [Destroyed, hb]
    exact h.destroyed

theorem next_fault (hn : next s e = some s') : s.fault = none := by
  unfold next at hn
  split at hn
  · cases hn
  · rename_i hf
    simpa using hf

theorem Closed.stopClear (hI : Inv s) (hn : next s .stopClear = some s') (hout : ∀ t, s.loc t ≠ .checked) :
    Closed s' := by
  have hf := next_fault hn
  cases hI.took hn with
  | stopClear hs => exact ⟨hs, rfl, hout, hf⟩

theorem Closed.released (hI : Inv s) (h : Closed s) : Released s where
  entering t := by simp [next, h.fault, h.outside t]
  waiting t flagCopy ht := by
    have hrel : s.sched.barrier.released flagCopy = true := by
      have hd := h.destroyed
      unfold Destroyed at hd
      simp [Barrier.released, hd]
    simp [next, h.fault, ht, hrel]
  passed t ht := by
    have htake : s.take t = some (s.goto t .idle) := by
      rw [Run.take, FifoScheduler.dispatch_stopped h.stopped]
      rfl
    simp [next, h.fault, ht, htake]
  refused t ht := by simp [next, h.fault, ht, Run.check, h.stopped]
  got e s' hn := (hI.took hn).got_stopped h.stopped

/-! ## Runs -/

/-- Without threads there is nobody to enter the barrier. -/
theorem fault_noThreads {s : Run 0} (h : (machine 0).Reachable s) : s.fault ≠ some .barrierDestroyed := by
  refine Machine.Reachable.invariant (I := fun s => s.fault ≠ some .barrierDestroyed) ?_ ?_ h
  · intro s hs
    rw [hs]
    simp [new]
  · intro s e s' hI hn
    have hf := next_fault hn
    change next s e = some s' at hn
    unfold next at hn
    rw [if_neg (by simp [hf])] at hn
    cases e with
    | enqueue job =>
      simp only [Option.ite_none_left_eq_some, Option.some.injEq] at hn
      obtain ⟨-, rfl⟩ := hn
      unfold Run.enqueue FifoScheduler.enqueueJob setJobStatus
      split
      · simp [bind, Except.bind]
      · simp [bind, Except.bind, hf]
    | check t | arrive t | leave t | take t | notify t | finish t | exit t => exact t.elim0
    | stopFlag =>
      simp only [Option.ite_none_left_eq_some, Option.some.injEq] at hn
      obtain ⟨-, rfl⟩ := hn
      exact hI
    | stopClear =>
      simp only [Option.ite_none_right_eq_some, Option.some.injEq] at hn
      obtain ⟨-, rfl⟩ := hn
      rw [Run.clear, FifoScheduler.stopClear_ok, guard_ok]
      exact hI

theorem stopReleases_noThreads {s : Run 0} (h : (machine 0).Reachable s) : s.StopReleases :=
  ⟨fault_noThreads h, fun _ => ⟨fun t => t.elim0, fun t => t.elim0, fun t => t.elim0, fun t => t.elim0,
    fun _ _ _ => funext fun t => t.elim0⟩⟩

theorem Closed.stopReleases (hI : Inv s) (h : Closed s) : s.StopReleases :=
  ⟨by simp [h.fault], fun _ => h.released hI⟩

theorem Closed.run (hT : 0 < T) {u : Run T} {es : List (Event T)} (hr : (machine T).Reachable s) (h : Closed s)
    (hrun : (machine T).run s es = some u) : Closed u := by
  induction es generalizing s with
  | nil =>
    simp only [Machine.run, Option.some.injEq] at hrun
    exact hrun ▸ h
  | cons e es ih =>
    obtain ⟨s1, hn, hrun⟩ := Option.bind_eq_some_iff.mp hrun
    exact ih (hr.step hn) (h.step (Inv.of_reachable hT hr) hn) hrun

/-- What holds along a run in which `Stop` misses no thread. -/
structure Guarded (s : Run T) : Prop where
  fault : s.fault = none
  closed : s.Destroyed → Closed s

theorem Guarded.step (hI : Inv s) (h : Guarded s) (hok : s.quietStop e) (hn : next s e = some s') : Guarded s' := by
  have htook := hI.took hn
  cases e with
  | check t =>
    have hs' := next_check hn
    cases hs : s.sched.stopped with
    | true =>
      rw [if_pos hs] at hs'
      rw [hs']
      exact h
    | false =>
      -- the barrier is not destroyed before the scheduler is stopped
      rw [if_neg (by simp [hs])] at hs'
      refine ⟨by rw [hs']; exact h.fault, fun hd => ?_⟩
      rw [hs'] at hd
      have hstopped := (h.closed hd).stopped
      rw [hs] at hstopped
      cases hstopped
  | arrive t =>
    obtain ⟨ht, hd | ⟨-, hd', hf⟩⟩ := next_arrive hn
    · exact absurd ht ((h.closed hd).outside t)
    · exact ⟨hf.trans h.fault, fun hd => absurd hd hd'⟩
  | stopClear =>
    have hclosed := Closed.stopClear hI hn hok
    exact ⟨hclosed.fault, fun _ => hclosed⟩
  | enqueue | leave | take | notify | finish | exit | stopFlag =>
    obtain ⟨hb, hf, -, -⟩ := htook.barrier (by simp) (by simp) (by simp)
    refine ⟨hf.trans h.fault, fun hd => ?_⟩
    rw [Destroyed, hb] at hd
    exact (h.closed hd).step hI hn

theorem Guarded.of_reach (hT : 0 < T) (h : (machine T).Reach quietStop s) : Guarded s := by
  refine Machine.Reach.invariant_of (I := fun s => Inv s) (fun s hs => Inv.of_reachable hT hs.reachable) ?_ ?_ h
  · intro s hs
    rw [hs]
    refine ⟨rfl, fun hd => ?_⟩
    simp only [Destroyed, new, FifoScheduler.new, Barrier.new] at hd
    omega
  · intro s e s' hI hg hok hn
    exact hg.step hI hok hn

/-- A thread between its test of `stopped_` and `Wait` outlives `Stop`, and
then enters a barrier that is destroyed. -/
theorem arrive_destroyed (hI : Inv s) (hn : next s .stopClear = some s') {t : Fin T} (ht : s.loc t = .checked) :
    (machine T).run s' [.arrive t] = some { s' with fault := some .barrierDestroyed } := by
  have hf := next_fault hn
  cases hI.took hn with
  | stopClear hs =>
    change (next _ (.arrive t)).bind some = _
    unfold next
    rw [if_neg (by simp [hf])]
    simp only
    rw [if_pos ht, Option.bind_some, Run.arrive, Barrier.enter_destroyed rfl, guard_error]

/-- If `Stop` never destroys the barrier while a thread is between its test of
`stopped_` and `Wait`, no thread enters a destroyed barrier and every thread is
released. Where it does so, and only there, a thread may enter the barrier
afterwards. -/
theorem stop_releases (T : ℕ) :
    (∀ s, (machine T).Reach quietStop s → s.StopReleases) ∧
    ∀ s s', (machine T).Reachable s → (machine T).next s .stopClear = some s' →
      ((∀ es u, (machine T).run s' es = some u → u.StopReleases) ↔ ∀ t, s.loc t ≠ .checked) := by
  rcases Nat.eq_zero_or_pos T with rfl | hT
  · refine ⟨fun s hs => stopReleases_noThreads hs.reachable, fun s s' hs hn => ?_⟩
    exact ⟨fun _ t => t.elim0, fun _ es u hu => stopReleases_noThreads ((hs.step hn).run hu)⟩
  · refine ⟨fun s hs => ?_, fun s s' hs hn => ⟨fun hall t ht => ?_, fun hout es u hu => ?_⟩⟩
    · have hg := Guarded.of_reach hT hs
      exact ⟨by simp [hg.fault], fun hd => (hg.closed hd).released (Inv.of_reachable hT hs.reachable)⟩
    · exact (hall _ _ (arrive_destroyed (Inv.of_reachable hT hs) hn ht)).1 rfl
    · have hclosed := Closed.stopClear (Inv.of_reachable hT hs) hn hout
      exact (hclosed.run hT (hs.step hn) hu).stopReleases (Inv.of_reachable hT ((hs.step hn).run hu))

/-- One thread is in the barrier, the other has not called `GetJobSlice`. -/
def stopEvents : List (Event 2) := [.check 1, .arrive 1, .stopFlag, .stopClear]

theorem stop_releases_pair : ∃ s : Run 2, (machine 2).Reach quietStop s ∧ s.Destroyed ∧
    next s (.leave 1) = some (s.goto 1 .passed) ∧ next s (.check 0) = some s := by
  have hrun : ((machine 2).runWhile quietStop (new 2) stopEvents).map
      (fun s => (s.sched.barrier.count, s.loc 0, s.loc 1)) = some (-1, .idle, .waiting false) := by
    decide +kernel
  obtain ⟨s, hr, hs⟩ := Option.map_eq_some_iff.mp hrun
  simp only [Prod.mk.injEq] at hs
  obtain ⟨hd, h0, h1⟩ := hs
  have hreach : (machine 2).Reach quietStop s := Machine.Reach.runWhile (.init rfl) hr
  have hreleased := ((stop_releases 2).1 s hreach).2 hd
  exact ⟨s, hreach, hd, hreleased.waiting 1 false h1, hreleased.refused 0 h0⟩

/-- A thread finds `stopped_` not set, `Stop` runs, and the thread enters the
barrier. -/
def lateEvents : List (Event 2) := [.check 0, .stopFlag, .stopClear, .arrive 0]

theorem not_stop_releases : ¬ ∀ (T : ℕ) (s : Run T), (machine T).Reachable s → s.StopReleases := by
  intro hclaim
  have hrun : ((machine 2).run (new 2) lateEvents).map (fun s => s.fault) = some (some .barrierDestroyed) := by
    decide +kernel
  obtain ⟨s, hr, hs⟩ := Option.map_eq_some_iff.mp hrun
  exact (hclaim 2 s (Machine.Reachable.run (.init rfl) hr)).1 hs

end Run

end SwitchML.Client
