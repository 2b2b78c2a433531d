/-
The slice a worker of the context has in hand: what the scheduler gave it is
what it works on, tests or hands back, in every run. With it go the facts about
the scheduler, whose runs those of the context are.
-/
import SwitchML.Client.Deadlock
import SwitchML.Client.Settled

namespace SwitchML.Client

/-- The worker has a slice in hand that it works on, or hands back. -/
def Point.busy : Point → Bool
  | .test | .work | .enter .notify => true
  | _ => false

def WorkerPc.busy : WorkerPc → Bool
  | .outside p | .leaving _ p => p.busy
  | .inside c => c = .notify

/-- Where a worker goes with a slice that needs no work, and with another. -/
def Point.Suits (instantJobCompletion : Bool) (sl : JobSlice) : Point → Prop
  | .test => sl.slice.numel = 0 ∨ instantJobCompletion = true
  | .work => 0 < sl.slice.numel ∧ instantJobCompletion = false
  | _ => True

def WorkerPc.Suits (instantJobCompletion : Bool) (sl : JobSlice) : WorkerPc → Prop
  | .outside p | .leaving _ p => p.Suits instantJobCompletion sl
  | .inside _ => True

/-- The worker is at its work, or about to be. -/
def WorkerPc.toWork : WorkerPc → Bool
  | .outside p | .leaving _ p => p = .work
  | .inside _ => false

/-- The worker hands back a slice, or is about to. -/
def WorkerPc.toNotify : WorkerPc → Bool
  | .outside p | .leaving _ p => p = .enter .notify
  | .inside c => c = .notify

/-- The worker hands back a slice, or has and is on its way out. -/
def Point.winding : Point → Bool
  | .loop | .done | .enter .notify | .enter .finish | .enter .count => true
  | _ => false

def WorkerPc.winding : WorkerPc → Bool
  | .outside p | .leaving _ p => p.winding
  | .inside c => (Point.enter c).winding

namespace Run

variable {T : ℕ} {s s' : Run T} {e : Event T} {v : Fin T}

/-- What a thread was given and has handed back changes only in its own steps. -/
theorem Took.counts_of_ne (h : Took s e s') (hv : e.thread ≠ some v) :
    s'.got v = s.got v ∧ s'.completed v = s.completed v := by
  cases h with
  | enqueue | refused | checked | destroyed | arrived | left | late | failed | finished | exit | stopFlag | stopClear =>
    exact ⟨rfl, rfl⟩
  | given t => exact ⟨Function.update_of_ne (fun he => hv (by rw [he]; rfl)) .., rfl⟩
  | handedBack t => exact ⟨rfl, Function.update_of_ne (fun he => hv (by rw [he]; rfl)) ..⟩

theorem Took.taken_le (h : Took s e s') (v : Fin T) : s.taken v ≤ s'.taken v := by
  cases h with
  | enqueue | refused | checked | destroyed | arrived | left | late | failed | handedBack | finished | exit | stopFlag
  | stopClear => exact le_rfl
  | given t job rest =>
    rw [taken_given]
    exact Phases.le_visit (Nat.le_succ _) v

/-- A job is added by a step that is not a thread's. -/
theorem Took.jobs_cases (h : Took s e s') : s'.jobs = s.jobs ∨
    ∃ job, e.thread = none ∧ job.id ∉ s.jobs.map Job.id ∧ s'.jobs = s.jobs ++ [job] := by
  cases h with
  | enqueue job hnew => exact .inr ⟨job, rfl, hnew, rfl⟩
  | refused | checked | destroyed | arrived | left | late | given | failed | handedBack | finished | exit | stopFlag
  | stopClear => exact .inl rfl

end Run

namespace Ctx

variable {T : ℕ} {instant : Bool} {s s' : Ctx T} {t : Fin T}

/-! ## The scheduler's part of a step -/

theorem WorkerStep.run_eq (hn : WorkerStep instant s t s') :
    s'.run = s.run ∨ ∃ e, e.thread = some t ∧ Run.next s.run e = some s'.run := by
  cases hn with
  | looped | got | dropped | cut | locked | counted | retried | unlocked => exact .inl rfl
  | processed => exact .inl process_run
  | exited run _ _ hr => exact .inr ⟨.exit t, rfl, hr⟩
  | ran c e run _ he hr =>
    refine .inr ⟨e, ?_, hr⟩
    cases c <;> cases he <;> rfl

theorem ClientStep.run_eq (hn : ClientStep s s') :
    s'.run = s.run ∨ ∃ e, e.thread = none ∧ Run.next s.run e = some s'.run := by
  cases hn with
  | submitted | waits | stops | locked | stopLocked | setStopping | zeroed | joined | joinedAll | setStopped | counted
  | waited | unlocked => exact .inl rfl
  | ran c e run p _ hcase hr =>
    refine .inr ⟨e, ?_, hr⟩
    rcases hcase with ⟨_, _, -, rfl, -⟩ | ⟨-, rfl, -⟩ | ⟨-, rfl, -⟩ <;> rfl

/-- A step is not taken after a fault, and is one of a worker or of the client. -/
theorem next_cases {e : Event T} (hn : s.next instant e = some s') :
    s.run.fault = none ∧ ((∃ t, WorkerStep instant s t s') ∨ ClientStep s s') := by
  simp only [next] at hn
  split at hn
  · cases hn
  · rename_i hf
    refine ⟨by simpa using hf, ?_⟩
    cases e with
    | worker t received => exact .inl ⟨t, workerStep hn⟩
    | client call => exact .inr (clientStep hn)

/-- The scheduler of a context makes runs of its own. -/
theorem run_reachable (h : (machine T instant).Reachable s) : (Run.machine T).Reachable s.run := by
  refine Machine.Reach.map (fun s hs => ?_) (fun s e s' _ hn => ?_) h
  · rw [show s = new T from hs]
    rfl
  · obtain ⟨-, ⟨t, hw⟩ | hc⟩ := next_cases hn
    · exact hw.run_eq.imp id fun ⟨e', _, hr⟩ => ⟨e', trivial, hr⟩
    · exact hc.run_eq.imp id fun ⟨e', _, hr⟩ => ⟨e', trivial, hr⟩

/-! ## The slice in hand -/

/-- A worker that is busy holds the slice. -/
def Holding (instant : Bool) (s : Ctx T) : Prop :=
  ∀ t, (s.worker t).busy = true → ∃ sl, s.run.loc t = .holding sl ∧ (s.worker t).Suits instant sl

/-- A section leaves a worker busy only with a slice that it was given. -/
theorem after_busy {c : Section} {l : Loc} (h : (after instant c l).busy = true) :
    ∃ sl, l = .holding sl ∧ (after instant c l).Suits instant sl := by
  cases c with
  | take =>
    cases l with
    | holding sl =>
      refine ⟨sl, rfl, ?_⟩
      simp only [after]
      split
      · rename_i hc
        simpa [Point.Suits] using hc
      · rename_i hc
        simp only [Bool.or_eq_true, decide_eq_true_eq, not_or, Bool.not_eq_true] at hc
        exact ⟨Nat.pos_of_ne_zero hc.1, hc.2⟩
    | idle | checked | waiting | passed | finishing | exited => cases h
  | check | arrive | leave | notify | finish | count => cases l <;> cases h

theorem Holding.worker (h : Holding instant s) (hn : WorkerStep instant s t s') (hb : (s'.worker t).busy = true) :
    ∃ sl, s'.run.loc t = .holding sl ∧ (s'.worker t).Suits instant sl := by
  cases hn with
  | looped | exited | dropped =>
    rw [worker_goto_self] at hb
    cases hb
  | got =>
    rw [worker_goto_self] at hb
    split at hb <;> cases hb
  | counted =>
    change ((s.goto t (.leaving .context .loop)).worker t).busy = true at hb
    rw [worker_goto_self] at hb
    cases hb
  | processed hp =>
    rw [worker_goto_self]
    have hbusy : (s.worker t).busy = true := by rcases hp with hp | hp <;> rw [hp] <;> rfl
    obtain ⟨sl, hl, -⟩ := h t hbusy
    exact ⟨sl, by rw [goto_run, process_run]; exact hl, trivial⟩
  | cut hp =>
    rw [worker_goto_self]
    obtain ⟨sl, hl, -⟩ := h t (by rw [hp]; rfl)
    exact ⟨sl, hl, trivial⟩
  | locked c hp =>
    rw [worker_goto_self] at hb ⊢
    have hc : c = .notify := of_decide_eq_true hb
    obtain ⟨sl, hl, -⟩ := h t (by rw [hp, hc]; rfl)
    exact ⟨sl, hl, trivial⟩
  | retried c hp hc =>
    rw [worker_goto_self] at hb
    rcases hc with rfl | rfl <;> cases hb
  | ran c e run hp he hr =>
    rw [worker_goto_self] at hb ⊢
    exact after_busy hb
  | unlocked m p hp =>
    rw [worker_goto_self] at hb ⊢
    obtain ⟨sl, hl, hs⟩ := h t (by rw [hp]; exact hb)
    rw [hp] at hs
    exact ⟨sl, hl, hs⟩

/-- A step of a worker leaves the other threads where they are. -/
theorem WorkerStep.loc_of_ne (hI : s.run.Inv) (hn : WorkerStep instant s t s') {v : Fin T} (hv : v ≠ t) :
    s'.run.loc v = s.run.loc v := by
  rcases hn.run_eq with heq | ⟨e, he, hr⟩
  · rw [heq]
  · exact (hI.took hr).loc_of_ne (by rw [he]; simpa using Ne.symm hv)

theorem ClientStep.loc_eq (hI : s.run.Inv) (hn : ClientStep s s') : s'.run.loc = s.run.loc := by
  rcases hn.run_eq with heq | ⟨e, he, hr⟩
  · rw [heq]
  · exact funext fun v => (hI.took hr).loc_of_ne (by rw [he]; simp)

theorem ClientStep.worker_eq (hn : ClientStep s s') : s'.worker = s.worker := by cases hn <;> rfl

theorem Holding.step (h : Holding instant s) (hI : s.run.Inv) {e : Event T} (hn : s.next instant e = some s') :
    Holding instant s' := by
  intro v hb
  obtain ⟨-, ⟨t, hw⟩ | hc⟩ := next_cases hn
  · by_cases hvt : v = t
    · subst hvt
      exact h.worker hw hb
    · rw [hw.loc_of_ne hI hvt, hw.others.2 v hvt] at *
      exact h v hb
  · rw [hc.loc_eq hI, hc.worker_eq] at *
    exact h v hb

theorem Holding.of_reachable (hT : 0 < T) (h : (machine T instant).Reachable s) : Holding instant s := by
  refine Machine.Reachable.invariant_of (I := fun s => s.run.Inv) (fun s hs => ?_) (fun s hs => ?_)
    (fun s e s' hI hH hn => hH.step hI hn) h
  · exact Run.Inv.of_reachable hT (run_reachable hs)
  · rw [show s = new T from hs]
    intro t hb
    cases hb

/-! ## When the context is not running -/

/-- Once the context is not running it never is again. -/
theorem not_running_of_next {e : Event T} (hn : s.next instant e = some s') (hs : s.state ≠ .running) :
    s'.state ≠ .running := by
  obtain ⟨-, ⟨t, hw⟩ | hc⟩ := next_cases hn
  · have hstate : s'.state = s.state := by
      cases hw with
      | processed => exact process_state
      | looped | exited | got | dropped | cut | locked | counted | ran | retried | unlocked => rfl
    rwa [hstate]
  · cases hc with
    | setStopping | setStopped => simp
    | submitted | waits | stops | locked | stopLocked | zeroed | joined | joinedAll | counted | waited | ran
    | unlocked => exact hs

/-- A worker that is on its way out after its last slice stays so. -/
theorem WorkerStep.winding (hn : WorkerStep instant s t s') (hs : s.state ≠ .running)
    (hw : (s.worker t).winding = true) : (s'.worker t).winding = true := by
  cases hn with
  | looped _ hr => exact absurd hr hs
  | exited | dropped | cut => rw [worker_goto_self]; rfl
  | got hp =>
    rw [hp] at hw
    cases hw
  | processed hp => rcases hp with hp | hp <;> rw [hp] at hw <;> cases hw
  | locked c hp =>
    rw [hp] at hw
    rw [worker_goto_self]
    cases c <;> first | rfl | cases hw
  | counted =>
    show ((s.goto t (.leaving .context .loop)).worker t).winding = true
    rw [worker_goto_self]
    rfl
  | ran c e run hp he =>
    rw [hp] at hw
    rw [worker_goto_self]
    cases c with
    | notify | finish => cases run.loc t <;> rfl
    | check | arrive | leave | take => cases hw
    | count => cases he
  | retried c hp hc =>
    rw [hp] at hw
    rcases hc with rfl | rfl <;> cases hw
  | unlocked m p hp =>
    rw [hp] at hw
    rw [worker_goto_self]
    exact hw

/-- A worker moves only in steps of its own. -/
theorem worker_of_next {e : Event T} (hn : s.next instant e = some s') (he : ∀ received, e ≠ .worker t received) :
    s'.worker t = s.worker t := by
  simp only [next] at hn
  split at hn
  · cases hn
  cases e with
  | worker v received =>
    refine (workerStep hn).others.2 t ?_
    rintro rfl
    exact he received rfl
  | client call => rw [(clientStep hn).worker_eq]

theorem run_of_next {e : Event T} (hn : s.next instant e = some s') (he : ∀ received, e ≠ .worker t received) :
    s'.run = s.run ∨ ∃ e', e'.thread ≠ some t ∧ Run.next s.run e' = some s'.run := by
  simp only [next] at hn
  split at hn
  · cases hn
  cases e with
  | worker v received =>
    rcases (workerStep hn).run_eq with heq | ⟨e', hv, hr⟩
    · exact .inl heq
    · refine .inr ⟨e', ?_, hr⟩
      rw [hv]
      intro hvt
      obtain rfl := Option.some.inj hvt
      exact he received rfl
  | client call =>
    rcases (clientStep hn).run_eq with heq | ⟨e', hv, hr⟩
    · exact .inl heq
    · exact .inr ⟨e', by rw [hv]; simp, hr⟩

theorem loc_of_next (hI : s.run.Inv) {e : Event T} (hn : s.next instant e = some s')
    (he : ∀ received, e ≠ .worker t received) : s'.run.loc t = s.run.loc t := by
  rcases run_of_next hn he with heq | ⟨e', hv, hr⟩
  · rw [heq]
  · exact (hI.took hr).loc_of_ne hv

theorem counts_of_next (hI : s.run.Inv) {e : Event T} (hn : s.next instant e = some s')
    (he : ∀ received, e ≠ .worker t received) :
    s'.run.got t = s.run.got t ∧ s'.run.completed t = s.run.completed t := by
  rcases run_of_next hn he with heq | ⟨e', hv, hr⟩
  · rw [heq]
    exact ⟨rfl, rfl⟩
  · exact (hI.took hr).counts_of_ne hv

/-- A job is added in a step of the client, in which no thread is given a slice. -/
theorem jobs_of_next (hI : s.run.Inv) {e : Event T} (hn : s.next instant e = some s') : s'.run.jobs = s.run.jobs ∨
    ∃ job, job.id ∉ s.run.jobs.map Job.id ∧ s'.run.jobs = s.run.jobs ++ [job] ∧ s'.run.got = s.run.got := by
  have key : ∀ e', Run.next s.run e' = some s'.run → s'.run.jobs = s.run.jobs ∨
      ∃ job, job.id ∉ s.run.jobs.map Job.id ∧ s'.run.jobs = s.run.jobs ++ [job] ∧ s'.run.got = s.run.got := by
    intro e' hr
    have ht := hI.took hr
    refine ht.jobs_cases.imp_right fun ⟨job, hnone, hnew, hjobs⟩ => ⟨job, hnew, hjobs, ?_⟩
    exact funext fun v => (ht.counts_of_ne (v := v) (by rw [hnone]; simp)).1
  obtain ⟨-, ⟨t, hw⟩ | hc⟩ := next_cases hn
  · rcases hw.run_eq with heq | ⟨e', -, hr⟩
    · exact .inl (by rw [heq])
    · exact key e' hr
  · rcases hc.run_eq with heq | ⟨e', -, hr⟩
    · exact .inl (by rw [heq])
    · exact key e' hr

theorem winding_of_next {e : Event T} (hn : s.next instant e = some s') (hs : s.state ≠ .running)
    (hw : (s.worker t).winding = true) : (s'.worker t).winding = true := by
  obtain ⟨-, ⟨v, hv⟩ | hc⟩ := next_cases hn
  · by_cases htv : t = v
    · subst htv
      exact hv.winding hs hw
    · rw [hv.others.2 t htv]
      exact hw
  · rw [hc.worker_eq]
    exact hw

/-- A worker leaves its work to hand the slice back: with all packets received,
or because the context is not running. -/
theorem next_work {received : Bool} (hw : s.worker t = .outside .work)
    (hn : s.next instant (.worker t received) = some s') :
    s'.run = s.run ∧ s'.state = s.state ∧ s'.worker = Function.update s.worker t (.outside (.enter .notify)) ∧
      (received = false → s.state ≠ .running) := by
  simp only [next] at hn
  split at hn
  · cases hn
  simp only [workerNext, hw] at hn
  cases received with
  | true =>
    simp only [if_true, Option.some.injEq] at hn
    subst hn
    refine ⟨process_run, process_state, ?_, fun h => by cases h⟩
    rw [goto, process_worker]
  | false =>
    simp only [Bool.false_eq_true, if_false, Option.ite_none_left_eq_some, Option.some.injEq] at hn
    obtain ⟨hs, rfl⟩ := hn
    exact ⟨rfl, rfl, rfl, fun _ => hs⟩

/-! ## The way of a slice -/

/-- A worker goes to its work only with a slice it has just been given. -/
theorem WorkerStep.toWork (hn : WorkerStep instant s t s') (hw : (s'.worker t).toWork = true) :
    s'.run = s.run ∧ (s.worker t).toWork = true ∨ Run.next s.run (.take t) = some s'.run := by
  cases hn with
  | looped | exited | processed | dropped | cut | locked =>
    rw [worker_goto_self] at hw
    cases hw
  | got =>
    rw [worker_goto_self] at hw
    split at hw <;> cases hw
  | counted =>
    change ((s.goto t (.leaving .context .loop)).worker t).toWork = true at hw
    rw [worker_goto_self] at hw
    cases hw
  | retried c hp hc =>
    rw [worker_goto_self] at hw
    rcases hc with rfl | rfl <;> cases hw
  | unlocked m p hp =>
    rw [worker_goto_self] at hw
    refine .inl ⟨rfl, ?_⟩
    rw [hp]
    exact hw
  | ran c e run hp he hr =>
    right
    rw [worker_goto_self] at hw
    cases c with
    | take =>
      cases he
      exact hr
    | check | arrive | leave | notify | finish | count => cases hl : run.loc t <;> rw [hl] at hw <;> cases hw

/-- A worker goes to hand a slice back only from its work or the test. -/
theorem WorkerStep.toNotify (hn : WorkerStep instant s t s') (hw : (s'.worker t).toNotify = true) :
    s'.run = s.run ∧ ((s.worker t).toNotify = true ∨ s.worker t = .outside .test ∨ s.worker t = .outside .work) := by
  cases hn with
  | looped | exited | dropped =>
    rw [worker_goto_self] at hw
    cases hw
  | processed hp => exact ⟨process_run, .inr hp⟩
  | cut hp => exact ⟨rfl, .inr (.inr hp)⟩
  | locked c hp =>
    rw [worker_goto_self] at hw
    have hc : c = .notify := of_decide_eq_true hw
    exact ⟨rfl, .inl (by rw [hp, hc]; rfl)⟩
  | got =>
    rw [worker_goto_self] at hw
    split at hw <;> cases hw
  | counted =>
    change ((s.goto t (.leaving .context .loop)).worker t).toNotify = true at hw
    rw [worker_goto_self] at hw
    cases hw
  | retried c hp hc =>
    rw [worker_goto_self] at hw
    rcases hc with rfl | rfl <;> cases hw
  | unlocked m p hp =>
    rw [worker_goto_self] at hw
    refine ⟨rfl, .inl ?_⟩
    rw [hp]
    exact hw
  | ran c e run hp he hr =>
    rw [worker_goto_self] at hw
    cases c with
    | take =>
      cases hl : run.loc t <;> rw [hl] at hw
      case holding sl =>
        simp only [after, WorkerPc.toNotify] at hw
        split at hw <;> cases hw
      all_goals cases hw
    | check | arrive | leave | notify | finish | count => cases hl : run.loc t <;> rw [hl] at hw <;> cases hw

/-- A slice is counted when its worker hands it back. -/
theorem WorkerStep.completed_cases (hI : s.run.Inv) (hn : WorkerStep instant s t s') :
    s'.run.completed t = s.run.completed t ∨
      s.worker t = .inside .notify ∧ s'.run.completed t = s.run.completed t + 1 := by
  cases hn with
  | looped | got | dropped | cut | locked | counted | retried | unlocked => exact .inl rfl
  | processed => exact .inl (congrArg (Run.completed · t) process_run)
  | exited run _ _ hr =>
    cases hI.took hr
    exact .inl rfl
  | ran c e run hp he hr =>
    cases c with
    | notify =>
      cases he
      cases hI.took hr with
      | failed => exact .inl rfl
      | handedBack => exact .inr ⟨hp, Function.update_self ..⟩
    | check | arrive | leave | take | finish =>
      cases he
      cases hI.took hr <;> exact .inl rfl
    | count => cases he

end Ctx

end SwitchML.Client
