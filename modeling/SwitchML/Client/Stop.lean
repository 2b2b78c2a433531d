/-
What `Context::Stop` leaves behind. A worker that has a slice without work in
hand when it sees that the context is not running does not hand it back, and
if the job is out of the queue by then nobody fails it. In the runs where that
does not happen every job is decided once `Stop` has returned, and a job is
finished only if all its slices were worked off: a slice that was cut short may
still be counted, but then a worker that counts the last slice of the job waits
for the context's mutex, and `Stop` does not return.
-/
import SwitchML.Client.Deadlock
import SwitchML.Client.Settled

namespace SwitchML.Client

open Phases

/-- The client holds the context's mutex. -/
def ClientPc.holding : ClientPc → Bool
  | .outside p => p.inStop
  | .inside c =>
    match c with
    | .count _ _ | .stopFlag | .stopClear => true
    | _ => false
  | .leaving m p => m = .context || p.inStop

/-- The context is no longer running. -/
def ClientPc.stopping : ClientPc → Bool
  | .outside p | .leaving _ p => p.inStop && p != .setStopping || p = .stopped
  | .inside c => c = .stopFlag || c = .stopClear

/-- `Stop` unlocks the context's mutex as its last step. -/
def ClientPc.Orderly : ClientPc → Prop
  | .leaving m p => (m = .context → p.inStop = false) ∧ (p = .stopped → m = .context)
  | _ => True

/-- `Stop` has emptied the queue. -/
def ClientPoint.cleared : ClientPoint → Bool
  | .zero | .join _ | .setStopped | .stopped => true
  | _ => false

def ClientPc.cleared : ClientPc → Bool
  | .outside p | .leaving _ p => p.cleared
  | .inside _ => false

/-- How many workers were joined. -/
def ClientPoint.joined (T : ℕ) : ClientPoint → ℕ
  | .join i => i
  | .setStopped | .stopped => T
  | _ => 0

def ClientPc.joined (T : ℕ) : ClientPc → ℕ
  | .outside p | .leaving _ p => p.joined T
  | .inside _ => 0

/-- The worker holds the context's mutex. -/
def WorkerPc.counting : WorkerPc → Bool
  | .inside c => c = .count
  | .leaving m _ => m = .context
  | .outside _ => false

namespace Ctx

variable {T : ℕ}

/-! ## Where the scheduler has the threads -/

def SectionAt (s : Ctx T) (t : Fin T) : Section → Loc → Prop
  | .check, l | .count, l => l = .idle
  | .arrive, l => l = .checked
  | .leave, l => ∃ flagCopy, l = .waiting flagCopy
  | .take, l => l = .passed
  | .notify, l => ∃ sl, l = .holding sl ∧ (s.processed sl.job.id t = true ∨ s.state ≠ .running)
  | .finish, l => ∃ job, l = .finishing job

def PointAt (s : Ctx T) (t : Fin T) : Point → Loc → Prop
  | .loop, l => l = .idle ∨ s.state ≠ .running ∧ ∃ sl, l = .holding sl ∧ s.run.GivenUp sl.job
  | .get, l => l = .idle
  | .test, l | .work, l => ∃ sl, l = .holding sl
  | .enter c, l => s.SectionAt t c l
  | .done, l => l = .exited

def PcAt (s : Ctx T) (t : Fin T) : WorkerPc → Loc → Prop
  | .outside p, l | .leaving _ p, l => s.PointAt t p l
  | .inside c, l => s.SectionAt t c l

/-- What the threads have in hand, and who holds the context's mutex. -/
structure Inv (s : Ctx T) : Prop where
  run : s.run.Inv
  tidy : s.run.Tidy
  pc : s.run.fault = none → ∀ t, s.PcAt t (s.worker t) (s.run.loc t)
  exited : ∀ t, s.worker t = .outside .done → s.run.loc t = .exited
  counting : ∀ t, (s.worker t).counting = true → s.owner .context = some (.worker t)
  holding : s.client.holding = true → s.owner .context = some .client
  orderly : s.client.Orderly
  running : s.state ≠ .running → s.client.stopping = true
  joined : ∀ t : Fin T, t < s.client.joined T → s.worker t = .outside .done
  cleared : s.client.cleared = true → s.run.sched.queue = []
  /-- Where a slice was cut short, the worker that completes its job is stuck. -/
  cut : ∀ t i job, i < s.run.completed t → s.run.jobs[i]? = some job → s.processed job.id t = false →
    s.state ≠ .running ∧ (Complete s.run.completed i → ∃ v, (s.worker v).finishing = true)

/-- No slice is dropped whose job `Stop` does not fail anyway. -/
def keepsSlices (s : Ctx T) : Event T → Bool
  | .client _ => true
  | .worker t _ =>
    s.worker t != .outside .test || s.state = .running ||
      match s.run.loc t with
      | .holding sl => s.run.sched.status sl.job.id = .failed || s.run.sched.stopped && s.run.sched.queue.contains sl.job
      | _ => true

variable {s s' : Ctx T} {t : Fin T}

/-! ## A step of a worker -/

theorem Inv.holding_or_stopped (h : Inv s) (hs : s.state ≠ .running) :
    s.client.holding = true ∨ s.client = .outside .stopped := by
  have h1 := h.running hs
  have h2 := h.orderly
  cases hc : s.client with
  | outside p =>
    rw [hc] at h1
    simp only [ClientPc.stopping, Bool.or_eq_true, Bool.and_eq_true, decide_eq_true_eq] at h1
    exact h1.imp (fun h3 => h3.1) fun h3 => by rw [h3]
  | leaving m p =>
    rw [hc] at h1 h2
    simp only [ClientPc.stopping, Bool.or_eq_true, Bool.and_eq_true, decide_eq_true_eq] at h1
    left
    simp only [ClientPc.holding, Bool.or_eq_true, decide_eq_true_eq]
    exact h1.symm.imp (fun h3 => h2.2 h3) fun h3 => h3.1
  | inside c =>
    rw [hc] at h1
    left
    cases c <;> simp [ClientPc.stopping, ClientPc.holding] at h1 ⊢

theorem Inv.mutex_free (h : Inv s) (hs : s.state ≠ .running) (hfree : s.owner .context = none) :
    ∀ t, s.worker t = .outside .done := by
  intro t
  rcases h.holding_or_stopped hs with h1 | h1
  · rw [h.holding h1] at hfree; cases hfree
  · exact h.joined t (by rw [h1]; exact t.isLt)

/-- A worker that is stuck stays so. -/
theorem Inv.stuck (h : Inv s) {instant : Bool} (hn : WorkerStep instant s t s') (hs : s.state ≠ .running)
    (hf : (s.worker t).finishing = true) : (s'.worker t).finishing = true := by
  cases hn with
  | looped hp | exited _ hp | got hp | dropped hp | cut hp | counted hp =>
    rw [hp] at hf
    simp [WorkerPc.finishing] at hf
  | processed hp => rcases hp with hp | hp <;> rw [hp] at hf <;> simp [WorkerPc.finishing] at hf
  | locked c hp hfree =>
    rw [worker_goto_self]
    rw [hp] at hf
    simp only [WorkerPc.finishing, Bool.or_eq_true, decide_eq_true_eq, Point.enter.injEq] at hf ⊢
    rcases hf with rfl | rfl
    · rfl
    · have h1 := h.mutex_free hs hfree t
      rw [hp] at h1
      cases h1
  | retried c hp hc =>
    rw [hp] at hf
    rcases hc with rfl | rfl <;> simp [WorkerPc.finishing] at hf
  | ran c e run hp he =>
    rw [hp] at hf
    simp only [WorkerPc.finishing, decide_eq_true_eq] at hf
    subst hf
    rw [worker_goto_self]
    cases hl : run.loc t <;> simp [WorkerPc.finishing, after]
  | unlocked m p hp =>
    rw [worker_goto_self]
    rw [hp] at hf
    exact hf

theorem Inv.holdsSlice (h : Inv s) {sl : JobSlice} (hl : s.run.loc t = .holding sl) :
    s.run.jobs[s.run.completed t]? = some sl.job := by
  obtain ⟨-, job, hget, rfl⟩ := h.run.holding t sl hl
  exact hget

/-- What a step of worker `t` has to show. -/
theorem Inv.of_worker (h : Inv s) {instant : Bool} (hf : s.run.fault = none) (hn : WorkerStep instant s t s') (hrun : s'.run.Inv)
    (htidy : s'.run.Tidy) (hstate : s'.state = s.state) (hdone : s.worker t ≠ .outside .done)
    (hlocs : ∀ v ≠ t, s'.run.loc v = s.run.loc v)
    (hgu : ∀ v sl, s.run.loc v = .holding sl → s.run.GivenUp sl.job → s'.run.GivenUp sl.job)
    (hproc : ∀ id v, s.processed id v = true → s'.processed id v = true)
    (hpc : s'.run.fault = none → s'.PcAt t (s'.worker t) (s'.run.loc t))
    (hexited : s'.worker t = .outside .done → s'.run.loc t = .exited)
    (hqueue : s.run.sched.queue = [] → s'.run.sched.queue = [])
    (howner : s'.owner .context = s.owner .context ∨ s.owner .context = none ∨
      s.owner .context = some (.worker t))
    (hcounting : (s'.worker t).counting = true → s'.owner .context = some (.worker t))
    (hcut : ∀ v i job, i < s'.run.completed v → s'.run.jobs[i]? = some job → s'.processed job.id v = false →
      s.state ≠ .running ∧ (Complete s'.run.completed i → ∃ v, (s'.worker v).finishing = true)) : Inv s' := by
  obtain ⟨hclient, hworker⟩ := hn.others
  have hother : ∀ th, th ≠ .worker t → s.owner .context = some th → s'.owner .context = some th := by
    intro th hne hth
    rcases howner with h1 | h1 | h1
    · rw [h1, hth]
    · rw [hth] at h1; cases h1
    · rw [hth, Option.some.injEq] at h1; exact absurd h1 hne
  refine ⟨hrun, htidy, fun hf' v => ?_, fun v hv => ?_, fun v hv => ?_, fun hh => ?_,
    hclient ▸ h.orderly, fun hs => ?_, fun v hv => ?_, fun hc => ?_, fun v i job hi hj hp => ?_⟩
  · by_cases hvt : v = t
    · rw [hvt]; exact hpc hf'
    · rw [hworker v hvt, hlocs v hvt]
      have hsec : ∀ c l, s.SectionAt v c l → s'.SectionAt v c l := by
        intro c l hc
        cases c with
        | notify =>
          obtain ⟨sl, hl, hp⟩ := hc
          exact ⟨sl, hl, hp.imp (hproc _ _) fun h1 => by rw [hstate]; exact h1⟩
        | check | arrive | leave | take | finish | count => exact hc
      have hpt : ∀ p, s.PointAt v p (s.run.loc v) → s'.PointAt v p (s.run.loc v) := by
        intro p hp
        cases p with
        | loop =>
          refine hp.imp id ?_
          rintro ⟨hs, sl, hl, hg⟩
          exact ⟨by rw [hstate]; exact hs, sl, hl, hgu v sl hl hg⟩
        | enter c => exact hsec c _ hp
        | get | test | work | done => exact hp
      have h1 := h.pc hf v
      cases hw : s.worker v with
      | outside p => rw [hw] at h1; exact hpt p h1
      | leaving m p => rw [hw] at h1; exact hpt p h1
      | inside c => rw [hw] at h1; exact hsec c _ h1
  · by_cases hvt : v = t
    · rw [hvt] at hv ⊢; exact hexited hv
    · rw [hworker v hvt] at hv
      rw [hlocs v hvt]
      exact h.exited v hv
  · by_cases hvt : v = t
    · rw [hvt] at hv ⊢; exact hcounting hv
    · rw [hworker v hvt] at hv
      exact hother _ (by simpa using hvt) (h.counting v hv)
  · rw [hclient] at hh
    exact hother _ (by simp) (h.holding hh)
  · rw [hstate] at hs
    rw [hclient]
    exact h.running hs
  · rw [hclient] at hv
    have hvt : v ≠ t := by
      rintro rfl
      exact hdone (h.joined v hv)
    rw [hworker v hvt]
    exact h.joined v hv
  · rw [hclient] at hc
    exact hqueue (h.cleared hc)
  · rw [hstate]
    exact hcut v i job hi hj hp

/-- Where no slice is handed back, cut slices and stuck workers stay. -/
theorem Inv.cut_frame (h : Inv s) {instant : Bool} (hn : WorkerStep instant s t s')
    (hc : s'.run.completed = s.run.completed) (hj : s'.run.jobs = s.run.jobs)
    (hproc : ∀ id v, s.processed id v = true → s'.processed id v = true) (v : Fin T) (i : ℕ) (job : Job)
    (hi : i < s'.run.completed v) (hget : s'.run.jobs[i]? = some job) (hp : s'.processed job.id v = false) :
    s.state ≠ .running ∧ (Complete s'.run.completed i → ∃ v, (s'.worker v).finishing = true) := by
  rw [hc] at hi
  rw [hj] at hget
  have hp' : s.processed job.id v = false := by
    cases h1 : s.processed job.id v with
    | false => rfl
    | true => rw [hproc _ _ h1] at hp; cases hp
  obtain ⟨hs, hex⟩ := h.cut v i job hi hget hp'
  refine ⟨hs, fun hcomp => ?_⟩
  rw [hc] at hcomp
  obtain ⟨w, hw⟩ := hex hcomp
  refine ⟨w, ?_⟩
  by_cases hwt : w = t
  · rw [hwt] at hw ⊢; exact h.stuck hn hs hw
  · rw [hn.others.2 w hwt]; exact hw

/-- A step that leaves the scheduler alone. -/
theorem Inv.of_same (h : Inv s) {instant : Bool} (hf : s.run.fault = none) (hn : WorkerStep instant s t s') (hrun : s'.run = s.run)
    (hstate : s'.state = s.state) (hdone : s.worker t ≠ .outside .done)
    (hproc : ∀ id v, s.processed id v = true → s'.processed id v = true)
    (hpc : s'.PcAt t (s'.worker t) (s.run.loc t)) (hexited : s'.worker t = .outside .done → s.run.loc t = .exited)
    (howner : s'.owner .context = s.owner .context ∨ s.owner .context = none ∨
      s.owner .context = some (.worker t))
    (hcounting : (s'.worker t).counting = true → s'.owner .context = some (.worker t)) : Inv s' := by
  refine h.of_worker hf hn (hrun ▸ h.run) (hrun ▸ h.tidy) hstate hdone (fun v _ => by rw [hrun])
    (fun v sl _ hg => by rw [hrun]; exact hg) hproc (fun _ => by rw [hrun]; exact hpc)
    (fun hd => by rw [hrun]; exact hexited hd) (fun hq => by rw [hrun]; exact hq)
    howner hcounting (h.cut_frame hn (by rw [hrun]) (by rw [hrun]) hproc)

theorem jobs_of_thread {r r' : Run T} {e : Run.Event T} (ht : Run.Took r e r') (he : e.thread = some t) :
    r'.jobs = r.jobs := by
  cases ht <;> first | rfl | cases he

theorem queue_of_thread {r r' : Run T} {e : Run.Event T} (ht : Run.Took r e r') (he : e.thread = some t)
    (hq : r.sched.queue = []) : r'.sched.queue = [] := by
  cases ht with
  | enqueue | stopFlag | stopClear => cases he
  | given _ job rest _ _ hq' => rw [hq] at hq'; cases hq'
  | refused | checked | destroyed | arrived | left | late | failed | handedBack | finished | exit => exact hq

theorem thread_of_schedEvent {c : Section} {e : Run.Event T} (he : schedEvent t c = some e) : e.thread = some t := by
  cases c <;> cases he <;> rfl

/-- A section leaves the thread where the worker goes on. -/
theorem pointAt_after {c : Section} {e : Run.Event T} {run : Run T} {instant : Bool}
    (ht : Run.Took s.run e run) (he : schedEvent t c = some e) (hc : s.SectionAt t c (s.run.loc t))
    (hf : run.fault = none) (u : Ctx T) : u.PointAt t (after instant c (run.loc t)) (run.loc t) := by
  cases c with
  | count => cases he
  | check =>
    cases he
    cases ht with
    | refused _ hl => rw [hl]; exact .inl rfl
    | checked _ hl => rw [show (s.run.goto t .checked).loc t = _ from Run.loc_goto_self]; exact rfl
  | arrive =>
    cases he
    cases ht with
    | destroyed => cases hf
    | arrived _ barrier flagCopy hl =>
      have h1 : (s.run.goto t (flagCopy.elim .passed .waiting)).loc t = flagCopy.elim .passed .waiting :=
        Run.loc_goto_self
      show u.PointAt t (after instant .arrive ((s.run.goto t (flagCopy.elim .passed .waiting)).loc t))
        ((s.run.goto t (flagCopy.elim .passed .waiting)).loc t)
      rw [h1]
      cases flagCopy with
      | none => exact rfl
      | some c => exact ⟨c, rfl⟩
  | leave =>
    cases he
    cases ht with
    | left _ flagCopy hl => rw [show (s.run.goto t .passed).loc t = _ from Run.loc_goto_self]; exact rfl
  | take =>
    cases he
    cases ht with
    | late _ hl hs => rw [show (s.run.goto t .idle).loc t = _ from Run.loc_goto_self]; exact .inl rfl
    | given _ job rest hl hs hq hget =>
      rw [show (s.run.given t job (s.run.dispatched t job rest)).loc t = _ from Run.loc_goto_self]
      simp only [after]
      split <;> exact ⟨_, rfl⟩
  | notify =>
    cases he
    cases ht with
    | failed _ sl hl hs hget =>
      show u.PointAt t (after instant .notify ((s.run.goto t .idle).loc t)) ((s.run.goto t .idle).loc t)
      rw [Run.loc_goto_self]
      exact .inl rfl
    | handedBack _ sl hl hs hget =>
      rcases Run.handedBack_loc s.run t sl.job with ⟨h1, -⟩ | h1 <;> rw [h1]
      · exact ⟨_, rfl⟩
      · exact .inl rfl
  | finish =>
    cases he
    cases ht with
    | finished _ job i hl hget hcomp =>
      show u.PointAt t (after instant .finish ((s.run.goto t .idle).loc t)) ((s.run.goto t .idle).loc t)
      rw [Run.loc_goto_self]
      exact rfl

/-- The mutex of a section that runs the scheduler is not the context's. -/
theorem mutex_ne_context {c : Section} {e : Run.Event T} (he : schedEvent t c = some e)
    (hc : s.SectionAt t c (s.run.loc t)) : s.mutex t c ≠ .context := by
  cases c with
  | finish =>
    obtain ⟨job, hj⟩ := hc
    simp [mutex, hj]
  | count => cases he
  | check | arrive | leave | take | notify => simp [mutex]

/-- A slice that is handed back was worked off, or the context is stopping; and
if it completes a job its worker is now stuck. -/
theorem Inv.cut_ran (h : Inv s) {instant : Bool} (hn : WorkerStep instant s t s') (hf : s.run.fault = none)
    {c : Section} {e : Run.Event T} (hp : s.worker t = .inside c) (he : schedEvent t c = some e)
    (ht : Run.Took s.run e s'.run) (hproc : s'.processed = s.processed)
    (hpc : s'.worker t = .leaving (s.mutex t c) (after instant c (s'.run.loc t))) (v : Fin T) (i : ℕ) (job : Job)
    (hi : i < s'.run.completed v) (hget : s'.run.jobs[i]? = some job) (hpr : s'.processed job.id v = false) :
    s.state ≠ .running ∧ (Complete s'.run.completed i → ∃ v, (s'.worker v).finishing = true) := by
  have hth := thread_of_schedEvent he
  have hjobs := jobs_of_thread ht hth
  have hrest : s'.run.completed = s.run.completed →
      s.state ≠ .running ∧ (Complete s'.run.completed i → ∃ v, (s'.worker v).finishing = true) := fun hc =>
    h.cut_frame hn hc hjobs (fun id v hv => by rw [hproc]; exact hv) v i job hi hget hpr
  generalize hr : s'.run = r' at ht hi hget hpc hrest hjobs ⊢
  cases ht with
  | enqueue | stopFlag | stopClear => cases hth
  | refused | checked | destroyed | arrived | left | late | given | failed | finished | exit => exact hrest rfl
  | handedBack t' sl hl hs hget' =>
    obtain rfl : t' = t := by simpa [Run.Event.thread] using hth
    have hc : c = .notify := by cases c <;> cases he; rfl
    subst hc
    have hpt := h.pc hf t'
    rw [hp] at hpt
    obtain ⟨sl', hl', hdone⟩ := hpt
    rw [hl, Loc.holding.injEq] at hl'
    subst hl'
    rw [hproc] at hpr
    change i < visit s.run.completed t' (s.run.completed t') v at hi
    change s.run.jobs[i]? = some job at hget
    have hstate : s.state ≠ .running := by
      by_cases hvt : v = t'
      · subst hvt
        rw [visit_self] at hi
        by_cases hie : i = s.run.completed v
        · subst hie
          rw [hget', Option.some.injEq] at hget
          rw [← hget] at hpr
          rcases hdone with h1 | h1
          · rw [h1] at hpr; cases hpr
          · exact h1
        · exact (h.cut v i job (by omega) hget hpr).1
      · rw [visit_of_ne hvt] at hi
        exact (h.cut v i job hi hget hpr).1
    refine ⟨hstate, fun hcomp => ?_⟩
    change Complete (visit s.run.completed t' (s.run.completed t')) i at hcomp
    by_cases hie : i = s.run.completed t'
    · subst hie
      refine ⟨t', ?_⟩
      have h1 := (Run.complete_visit_iff (show s.run.completed t' = s.run.completed t' from rfl)).mp hcomp
      have h2 : (s.run.handedBack t' sl.job).loc t' = .finishing sl.job := by
        rw [show (s.run.handedBack t' sl.job).loc t' = _ from Run.loc_goto_self, if_pos (by omega)]
      rw [hpc, h2]
      rfl
    · have hcomp' : Complete s.run.completed i := by
        rw [← through_eq_univ, through_visit_of_ne rfl hie, through_eq_univ] at hcomp
        exact hcomp
      have hlt : i < s.run.completed v := by
        by_cases hvt : v = t'
        · rw [hvt, visit_self] at hi; rw [hvt]; omega
        · rwa [visit_of_ne hvt] at hi
      obtain ⟨w, hw⟩ := (h.cut v i job hlt hget hpr).2 hcomp'
      have hwt : w ≠ t' := by
        rintro rfl
        rw [hp] at hw
        cases hw
      exact ⟨w, by rw [hn.others.2 w hwt]; exact hw⟩

theorem Inv.ran (h : Inv s) (hT : 0 < T) {instant : Bool} (hf : s.run.fault = none) {c : Section}
    {e : Run.Event T} {run : Run T} (hp : s.worker t = .inside c) (he : schedEvent t c = some e)
    (hr : Run.next s.run e = some run) :
    Inv ({ s with run }.goto t (.leaving (s.mutex t c) (after instant c (run.loc t)))) := by
  have hn : WorkerStep instant s t _ := .ran c e run hp he hr
  have ht := h.run.took hr
  have hth := thread_of_schedEvent he
  have hpt := h.pc hf t
  rw [hp] at hpt
  have hpc : ({ s with run }.goto t (.leaving (s.mutex t c) (after instant c (run.loc t)))).worker t =
      .leaving (s.mutex t c) (after instant c (run.loc t)) := worker_goto_self
  refine h.of_worker hf hn (h.run.step hT hr) (h.tidy.took hT h.run ht fun v sl hev => ?_) rfl (by rw [hp]; simp)
    (fun v hv => ht.loc_of_ne ?_) (fun v sl hl hg => ht.givenUp h.run (h.holdsSlice hl) hg) (fun _ _ hx => hx)
    (fun hf' => ?_) (fun hd => ?_) (queue_of_thread ht hth) (.inl rfl) (fun hcnt => ?_)
    (h.cut_ran hn hf hp he ht rfl hpc)
  · rw [hev] at he
    cases c <;> cases he
  · rw [hth]
    simpa using Ne.symm hv
  · rw [hpc]
    exact pointAt_after ht he hpt hf' _
  · rw [hpc] at hd
    cases hd
  · rw [hpc] at hcnt
    exact absurd (by simpa [WorkerPc.counting] using hcnt) (mutex_ne_context he hpt)

theorem Inv.worker_exited (h : Inv s) (hT : 0 < T) {instant : Bool} (hf : s.run.fault = none) {run : Run T}
    (hp : s.worker t = .outside .loop) (hn : WorkerStep instant s t ({ s with run }.goto t (.outside .done)))
    (hr : Run.next s.run (.exit t) = some run) : Inv ({ s with run }.goto t (.outside .done)) := by
  have hpt := h.pc hf t
  rw [hp] at hpt
  have ht := h.run.took hr
  have hloc : run.loc t = .exited := by
    cases ht with
    | exit _ hl => exact Run.loc_goto_self
  have hcomp : run.completed = s.run.completed := by cases ht; rfl
  refine h.of_worker hf hn (h.run.step hT (e := .exit t) hr) (h.tidy.took hT h.run ht fun v sl hev hl => ?_) rfl (by rw [hp]; simp)
    (fun v hv => ht.loc_of_ne ?_) (fun v sl hl hg => ht.givenUp h.run (h.holdsSlice hl) hg) (fun _ _ hx => hx)
    (fun _ => ?_) (fun _ => hloc) (queue_of_thread ht rfl) (.inl rfl) (fun hcnt => ?_)
    (h.cut_frame hn hcomp (jobs_of_thread ht rfl) fun _ _ hx => hx)
  · cases hev
    rcases hpt with h1 | ⟨-, sl', h1, hg⟩
    · rw [h1] at hl; cases hl
    · rw [h1, Loc.holding.injEq] at hl
      rw [← hl]
      exact hg
  · simpa [Run.Event.thread] using Ne.symm hv
  · rw [worker_goto_self]
    exact hloc
  · rw [worker_goto_self] at hcnt
    cases hcnt

theorem Inv.worker_processed (h : Inv s) {instant : Bool} (hf : s.run.fault = none)
    (hp : s.worker t = .outside .test ∨ s.worker t = .outside .work)
    (hn : WorkerStep instant s t ((s.process t).goto t (.outside (.enter .notify)))) :
    Inv ((s.process t).goto t (.outside (.enter .notify))) := by
  have hpt := h.pc hf t
  have hl : ∃ sl, s.run.loc t = .holding sl := by
    rcases hp with hp | hp <;> (rw [hp] at hpt; exact hpt)
  obtain ⟨sl, hl⟩ := hl
  have hproc : (s.process t).processed = Function.update s.processed sl.job.id
      (Function.update (s.processed sl.job.id) t true) := by
    unfold process
    rw [hl]
  refine h.of_same hf hn (by simp) (by simp) (by rcases hp with hp | hp <;> (rw [hp]; simp)) (fun id v hx => ?_) ?_ ?_
    (.inl ?_) ?_
  · show (s.process t).processed id v = true
    rw [hproc]
    by_cases hid : id = sl.job.id
    · subst hid
      rw [Function.update_self]
      by_cases hv : v = t
      · rw [hv, Function.update_self]
      · rw [Function.update_of_ne hv, hx]
    · rw [Function.update_of_ne hid, hx]
  · rw [worker_goto_self, hl]
    refine ⟨sl, rfl, .inl ?_⟩
    show (s.process t).processed sl.job.id t = true
    rw [hproc, Function.update_self, Function.update_self]
  · rw [worker_goto_self]; simp
  · show (s.process t).owner .context = s.owner .context
    unfold process
    split <;> rfl
  · rw [worker_goto_self]
    exact fun hc => by cases hc

theorem Inv.worker_locked (h : Inv s) {instant : Bool} (hf : s.run.fault = none) {c : Section}
    (hp : s.worker t = .outside (.enter c)) (hfree : s.owner (s.mutex t c) = none)
    (hn : WorkerStep instant s t
      ({ s with owner := Function.update s.owner (s.mutex t c) (some (.worker t)) }.goto t (.inside c))) :
    Inv ({ s with owner := Function.update s.owner (s.mutex t c) (some (.worker t)) }.goto t (.inside c)) := by
  have hpt := h.pc hf t
  rw [hp] at hpt
  refine h.of_same hf hn rfl rfl (by rw [hp]; simp) (fun _ _ hx => hx) ?_ ?_ ?_ ?_ <;> try rw [worker_goto_self]
  · exact hpt
  · simp
  · by_cases hm : s.mutex t c = .context
    · rw [hm] at hfree
      exact .inr (.inl hfree)
    · exact .inl (Function.update_of_ne (Ne.symm hm) ..)
  · intro hc
    have hc' : c = .count := by simpa [WorkerPc.counting] using hc
    subst hc'
    show Function.update s.owner .context (some (.worker t)) .context = some (.worker t)
    exact Function.update_self ..

theorem Inv.worker_unlocked (h : Inv s) {instant : Bool} (hf : s.run.fault = none) {m : Mutex} {p : Point}
    (hp : s.worker t = .leaving m p) (hn : WorkerStep instant s t ((s.unlock m).goto t (.outside p))) :
    Inv ((s.unlock m).goto t (.outside p)) := by
  have hpt := h.pc hf t
  rw [hp] at hpt
  refine h.of_same hf hn rfl rfl (by rw [hp]; simp) (fun _ _ hx => hx) ?_ ?_ ?_ ?_ <;> try rw [worker_goto_self]
  · exact hpt
  · intro hd
    rw [WorkerPc.outside.injEq] at hd
    rw [hd] at hpt
    exact hpt
  · by_cases hm : m = .context
    · exact .inr (.inr (h.counting t (by rw [hp, hm]; rfl)))
    · exact .inl (Function.update_of_ne (Ne.symm hm) ..)
  · exact fun hc => by cases hc

theorem Inv.worker_step (h : Inv s) (hT : 0 < T) {instant received : Bool} (hf : s.run.fault = none)
    (hok : s.keepsSlices (.worker t received) = true) (hn : WorkerStep instant s t s') : Inv s' := by
  have hn0 := hn
  have hpt := h.pc hf t
  cases hn with
  | looped hp hs =>
    rw [hp] at hpt
    refine h.of_same hf hn0 rfl rfl (by rw [hp]; simp) (fun _ _ hx => hx) ?_ (by rw [worker_goto_self]; simp) (.inl rfl) ?_ <;>
      rw [worker_goto_self]
    · rcases hpt with h1 | ⟨h1, -⟩
      · exact h1
      · exact absurd hs h1
    · exact fun hc => by cases hc
  | exited run hp _ hr => exact h.worker_exited hT hf hp hn0 hr
  | got hp =>
    rw [hp] at hpt
    refine h.of_same hf hn0 rfl rfl (by rw [hp]; simp) (fun _ _ hx => hx) ?_ ?_ (.inl rfl) ?_ <;> rw [worker_goto_self]
    · split
      · exact hpt
      · exact .inl hpt
    · split <;> simp
    · split <;> exact fun hc => by cases hc
  | processed hp => exact h.worker_processed hf hp hn0
  | dropped hp hs =>
    rw [hp] at hpt
    obtain ⟨sl, hl⟩ := hpt
    refine h.of_same hf hn0 rfl rfl (by rw [hp]; simp) (fun _ _ hx => hx) ?_ ?_ (.inl rfl) ?_ <;> rw [worker_goto_self]
    · refine .inr ⟨hs, sl, hl, ?_⟩
      simp only [keepsSlices, hp, bne_self_eq_false, Bool.false_or, hl, Bool.or_eq_true, decide_eq_true_eq,
        Bool.and_eq_true, List.contains_iff_mem] at hok
      rcases hok with h1 | h1
      · exact absurd h1 hs
      · exact h1
    · simp
    · exact fun hc => by cases hc
  | cut hp hs =>
    rw [hp] at hpt
    obtain ⟨sl, hl⟩ := hpt
    refine h.of_same hf hn0 rfl rfl (by rw [hp]; simp) (fun _ _ hx => hx) ?_ ?_ (.inl rfl) ?_ <;> rw [worker_goto_self]
    · exact ⟨sl, hl, .inr hs⟩
    · simp
    · exact fun hc => by cases hc
  | locked c hp hfree => exact h.worker_locked hf hp hfree hn0
  | counted hp =>
    rw [hp] at hpt
    have hw : ({ s.goto t (.leaving .context .loop) with numberOfCurrentJobs := s.numberOfCurrentJobs - 1 } : Ctx T).worker t =
        .leaving .context .loop := worker_goto_self
    refine h.of_same hf hn0 rfl rfl (by rw [hp]; simp) (fun _ _ hx => hx) ?_ ?_ (.inl rfl) ?_ <;> rw [hw]
    · exact .inl hpt
    · simp
    · exact fun _ => h.counting t (by rw [hp]; rfl)
  | ran c e run hp he hr => exact h.ran hT hf hp he hr
  | retried c hp hc =>
    rw [hp] at hpt
    refine h.of_same hf hn0 rfl rfl (by rw [hp]; simp) (fun _ _ hx => hx) ?_ ?_ (.inl rfl) ?_ <;> rw [worker_goto_self]
    · exact hpt
    · simp
    · intro hcnt
      rcases hc with rfl | rfl <;> simp [WorkerPc.counting, mutex] at hcnt
  | unlocked m p hp => exact h.worker_unlocked hf hp hn0

/-! ## A step of the client -/

theorem sectionAt_congr {u : Ctx T} (hp : u.processed = s.processed) (hs : s.state ≠ .running → u.state ≠ .running)
    {c : Section} {l : Loc} (h : s.SectionAt t c l) : u.SectionAt t c l := by
  cases c with
  | notify =>
    obtain ⟨sl, hl, hd⟩ := h
    exact ⟨sl, hl, hd.imp (fun h1 => by rw [hp]; exact h1) hs⟩
  | check | arrive | leave | take | finish | count => exact h

/-- What a step of the client has to show. -/
theorem Inv.of_client (h : Inv s) (hrun : s'.run.Inv) (htidy : s'.run.Tidy) (hworker : s'.worker = s.worker)
    (hproc : s'.processed = s.processed) (hf : s.run.fault = none)
    (hstate : s.state ≠ .running → s'.state ≠ .running) (hloc : s'.run.loc = s.run.loc)
    (hgu : ∀ v sl, s.run.loc v = .holding sl → s.run.GivenUp sl.job → s'.run.GivenUp sl.job)
    (hcomp : s'.run.completed = s.run.completed)
    (hget : ∀ i job v, i < s.run.completed v → s'.run.jobs[i]? = some job → s.run.jobs[i]? = some job)
    (howner : ∀ v, s.owner .context = some (.worker v) → s'.owner .context = some (.worker v))
    (hholding : s'.client.holding = true → s'.owner .context = some .client)
    (horderly : s'.client.Orderly) (hrunning : s'.state ≠ .running → s'.client.stopping = true)
    (hjoined : ∀ v : Fin T, v < s'.client.joined T → s.worker v = .outside .done)
    (hcleared : s'.client.cleared = true → s'.run.sched.queue = []) : Inv s' := by
  refine ⟨hrun, htidy, fun _ v => ?_, fun v hv => ?_, fun v hv => ?_, hholding, horderly, hrunning, fun v hv => ?_,
    hcleared, fun v i job hi hj hp => ?_⟩
  · rw [hworker, hloc]
    have hpt : ∀ p, s.PointAt v p (s.run.loc v) → s'.PointAt v p (s.run.loc v) := by
      intro p hp
      cases p with
      | loop =>
        refine hp.imp id ?_
        rintro ⟨hs, sl, hl, hg⟩
        exact ⟨hstate hs, sl, hl, hgu v sl hl hg⟩
      | enter c => exact sectionAt_congr hproc hstate hp
      | get | test | work | done => exact hp
    have h1 := h.pc hf v
    cases hw : s.worker v with
    | outside p => rw [hw] at h1; exact hpt p h1
    | leaving m p => rw [hw] at h1; exact hpt p h1
    | inside c => rw [hw] at h1; exact sectionAt_congr hproc hstate h1
  · rw [hworker] at hv
    rw [hloc]
    exact h.exited v hv
  · rw [hworker] at hv
    exact howner v (h.counting v hv)
  · rw [hworker]
    exact hjoined v hv
  · rw [hcomp] at hi
    rw [hproc] at hp
    obtain ⟨hs, hex⟩ := h.cut v i job hi (hget i job v hi hj) hp
    refine ⟨hstate hs, fun hc => ?_⟩
    rw [hcomp] at hc
    rw [hworker]
    exact hex hc

/-- A step that leaves the scheduler alone. -/
theorem Inv.of_client_same (h : Inv s) (hrun : s'.run = s.run) (hworker : s'.worker = s.worker)
    (hproc : s'.processed = s.processed) (hf : s.run.fault = none)
    (hstate : s.state ≠ .running → s'.state ≠ .running)
    (howner : ∀ v, s.owner .context = some (.worker v) → s'.owner .context = some (.worker v))
    (hholding : s'.client.holding = true → s'.owner .context = some .client)
    (horderly : s'.client.Orderly) (hrunning : s'.state ≠ .running → s'.client.stopping = true)
    (hjoined : ∀ v : Fin T, v < s'.client.joined T → s.worker v = .outside .done)
    (hcleared : s'.client.cleared = true → s.run.sched.queue = []) : Inv s' := by
  refine h.of_client (hrun ▸ h.run) (hrun ▸ h.tidy) hworker hproc hf hstate (by rw [hrun])
    (fun v sl _ hg => by rw [hrun]; exact hg) (by rw [hrun]) (fun i job v _ hj => by rw [hrun] at hj; exact hj) howner
    hholding horderly hrunning hjoined (fun hc => by rw [hrun]; exact hcleared hc)

/-- The context is running while the client is not in `Stop`. -/
theorem Inv.is_running (h : Inv s) (hc : s.client.stopping = false) : s.state = .running := by
  by_contra hs
  rw [h.running hs] at hc
  cases hc

theorem Inv.client_locked (h : Inv s) (hf : s.run.fault = none) {c : ClientSection} (hp : s.client = .outside (.enter c))
    (hfree : s.owner (clientMutex c) = none) :
    Inv { s with owner := Function.update s.owner (clientMutex c) (some .client), client := .inside c } := by
  refine h.of_client_same rfl rfl rfl hf id (fun v ho => ?_) (fun hh => ?_) trivial (fun hs => ?_)
    (by simp [ClientPc.joined]) (by simp [ClientPc.cleared])
  · have hm : clientMutex c ≠ .context := by
      intro hm
      rw [hm, ho] at hfree
      cases hfree
    exact (Function.update_of_ne (Ne.symm hm) ..).trans ho
  · cases c with
    | count =>
      show Function.update s.owner .context (some .client) .context = some .client
      rw [Function.update_self]
    | enqueue | wait => cases hh
    | stopFlag | stopClear =>
      show Function.update s.owner .scheduler (some .client) .context = some .client
      rw [Function.update_of_ne (by simp)]
      exact h.holding (by rw [hp]; rfl)
  · have h1 := h.running hs
    rw [hp] at h1
    cases c <;> simp [ClientPc.stopping, ClientPoint.inStop] at h1 ⊢

theorem Inv.client_joined (h : Inv s) (hf : s.run.fault = none) {i : Fin T} (hp : s.client = .outside (.join i))
    (hd : s.worker i = .outside .done) : Inv { s with client := .outside (.join (i + 1)) } := by
  have ho := h.holding (by rw [hp]; rfl)
  have hq := h.cleared (by rw [hp]; rfl)
  refine h.of_client_same rfl rfl rfl hf id (fun _ ho => ho) (fun _ => ho) trivial (fun _ => rfl) (fun v hv => ?_)
    fun _ => hq
  by_cases hvi : v = i
  · rw [hvi, hd]
  · refine h.joined v ?_
    have h1 : (v : ℕ) < i + 1 := hv
    have h2 : (v : ℕ) ≠ i := fun he => hvi (Fin.ext he)
    rw [hp]
    show (v : ℕ) < i
    omega

theorem Inv.client_unlocked (h : Inv s) (hf : s.run.fault = none) {m : Mutex} {p : ClientPoint}
    (hp : s.client = .leaving m p) : Inv { s.unlock m with client := .outside p } := by
  have hord := h.orderly
  rw [hp] at hord
  refine h.of_client_same rfl rfl rfl hf id (fun v ho => ?_) (fun hh => ?_) trivial (fun hs => ?_) (fun v hv => ?_)
    fun hc => ?_
  · have hm : m ≠ .context := by
      rintro rfl
      rw [h.holding (by rw [hp]; rfl)] at ho
      cases ho
    exact (Function.update_of_ne (Ne.symm hm) ..).trans ho
  · have hin : p.inStop = true := hh
    have hm : m ≠ .context := by
      intro hm
      rw [hord.1 hm] at hin
      cases hin
    exact (Function.update_of_ne (Ne.symm hm) ..).trans (h.holding (by rw [hp]; simp [ClientPc.holding, hin]))
  · have h1 := h.running hs
    rw [hp] at h1
    exact h1
  · exact h.joined v (by rw [hp]; exact hv)
  · exact h.cleared (by rw [hp]; exact hc)

theorem Inv.client_ran (h : Inv s) (hT : 0 < T) (hf : s.run.fault = none) {c : ClientSection} {e : Run.Event T}
    {run : Run T} {p : ClientPoint} (hp : s.client = .inside c)
    (hcase : (∃ job wait, c = .enqueue job wait ∧ e = .enqueue job ∧ (p = .idle ∨ p = .enter (.wait job.id))) ∨
      (c = .stopFlag ∧ e = .stopFlag ∧ p = .enter .stopClear) ∨ (c = .stopClear ∧ e = .stopClear ∧ p = .zero))
    (hr : Run.next s.run e = some run) : Inv { s with run, client := .leaving .scheduler p } := by
  have ht := h.run.took hr
  have hinv := h.run.step hT hr
  have htidy := h.tidy.took hT h.run ht fun v sl hev => by
    rcases hcase with ⟨_, _, -, rfl, -⟩ | ⟨-, rfl, -⟩ | ⟨-, rfl, -⟩ <;> cases hev
  have hthread : e.thread = none := by
    rcases hcase with ⟨_, _, -, rfl, -⟩ | ⟨-, rfl, -⟩ | ⟨-, rfl, -⟩ <;> rfl
  refine h.of_client hinv htidy rfl rfl hf id (funext fun v => ht.loc_of_ne (by rw [hthread]; simp))
    (fun v sl hl hg => ht.givenUp h.run (h.holdsSlice hl) hg) ?_ ?_ (fun _ ho => ho) (fun hh => ?_) ?_ (fun hs => ?_)
    ?_ ?_
  · show run.completed = s.run.completed
    rcases hcase with ⟨_, _, -, rfl, -⟩ | ⟨-, rfl, -⟩ | ⟨-, rfl, -⟩ <;> cases ht <;> rfl
  · intro i job v hi hj
    rcases hcase with ⟨_, _, -, rfl, -⟩ | ⟨-, rfl, -⟩ | ⟨-, rfl, -⟩ <;> cases ht
    · have h1 := h.run.completed_le v
      have h2 := h.run.taken_le v
      rwa [List.getElem?_append_left (by omega)] at hj
    · exact hj
    · exact hj
  · rcases hcase with ⟨_, _, rfl, -, rfl | rfl⟩ | ⟨rfl, -, rfl⟩ | ⟨rfl, -, rfl⟩
    · cases hh
    · cases hh
    · exact h.holding (by rw [hp]; rfl)
    · exact h.holding (by rw [hp]; rfl)
  · rcases hcase with ⟨_, _, -, -, rfl | rfl⟩ | ⟨-, -, rfl⟩ | ⟨-, -, rfl⟩ <;> simp [ClientPc.Orderly]
  · rcases hcase with ⟨_, _, rfl, -, -⟩ | ⟨-, -, rfl⟩ | ⟨-, -, rfl⟩
    · have h1 := h.running hs
      rw [hp] at h1
      cases h1
    · rfl
    · rfl
  · rcases hcase with ⟨_, _, -, -, rfl | rfl⟩ | ⟨-, -, rfl⟩ | ⟨-, -, rfl⟩ <;>
      simp [ClientPc.joined, ClientPoint.joined]
  · rcases hcase with ⟨_, _, -, -, rfl | rfl⟩ | ⟨-, -, rfl⟩ | ⟨-, rfl, rfl⟩
    · intro hc; cases hc
    · intro hc; cases hc
    · intro hc; cases hc
    · intro _
      cases ht
      rfl

theorem Inv.client_step (h : Inv s) (hT : 0 < T) (hf : s.run.fault = none) (hn : ClientStep s s') : Inv s' := by
  cases hn with
  | submitted _ _ hp | waits _ hp | stops hp =>
    have hr := h.is_running (by rw [hp]; rfl)
    refine h.of_client_same rfl rfl rfl hf id (fun _ ho => ho) ?_ trivial (fun hs => absurd hr hs) ?_ ?_ <;>
      simp [ClientPc.holding, ClientPoint.inStop, ClientPc.joined, ClientPoint.joined, ClientPc.cleared,
        ClientPoint.cleared]
  | waited _ p hp hcase =>
    have hr := h.is_running (by rw [hp]; rfl)
    refine h.of_client_same rfl rfl rfl hf id (fun _ ho => ho) ?_ ?_ (fun hs => absurd hr hs) ?_ ?_ <;>
      rcases hcase with rfl | rfl <;>
      simp [ClientPc.holding, ClientPoint.inStop, ClientPc.joined, ClientPoint.joined, ClientPc.cleared,
        ClientPoint.cleared, ClientPc.Orderly]
  | counted job wait hp =>
    have hr := h.is_running (by rw [hp]; rfl)
    have ho := h.holding (by rw [hp]; rfl)
    refine h.of_client_same rfl rfl rfl hf id (fun _ ho => ho) (fun _ => ho) ?_ (fun hs => absurd hr hs) ?_ ?_ <;>
      simp [ClientPoint.inStop, ClientPc.joined, ClientPoint.joined, ClientPc.cleared,
        ClientPoint.cleared, ClientPc.Orderly]
  | locked c hp hfree => exact h.client_locked hf hp hfree
  | stopLocked hp hfree =>
    have hr := h.is_running (by rw [hp]; rfl)
    refine h.of_client_same rfl rfl rfl hf id (fun v ho => ?_) (fun _ => ?_) trivial
      (fun hs => absurd hr hs) (by simp [ClientPc.joined, ClientPoint.joined])
      (by simp [ClientPc.cleared, ClientPoint.cleared])
    · rw [ho] at hfree
      cases hfree
    · show Function.update s.owner .context (some .client) .context = some .client
      rw [Function.update_self]
  | setStopping hp =>
    have ho := h.holding (by rw [hp]; rfl)
    exact h.of_client_same rfl rfl rfl hf (fun _ => by simp) (fun _ ho => ho) (fun _ => ho) trivial (fun _ => rfl)
      (by simp [ClientPc.joined, ClientPoint.joined]) (by simp [ClientPc.cleared, ClientPoint.cleared])
  | zeroed hp =>
    have ho := h.holding (by rw [hp]; rfl)
    have hq := h.cleared (by rw [hp]; rfl)
    exact h.of_client_same rfl rfl rfl hf id (fun _ ho => ho) (fun _ => ho) trivial (fun _ => rfl)
      (by simp [ClientPc.joined, ClientPoint.joined]) fun _ => hq
  | joined i hp hd => exact h.client_joined hf hp hd
  | joinedAll i hp hi =>
    have ho := h.holding (by rw [hp]; rfl)
    have hq := h.cleared (by rw [hp]; rfl)
    refine h.of_client_same rfl rfl rfl hf id (fun _ ho => ho) (fun _ => ho) trivial (fun _ => rfl) (fun v _ => ?_)
      fun _ => hq
    refine h.joined v ?_
    rw [hp]
    exact v.isLt.trans_le hi
  | setStopped hp =>
    have ho := h.holding (by rw [hp]; rfl)
    have hq := h.cleared (by rw [hp]; rfl)
    refine h.of_client_same rfl rfl rfl hf (fun _ => by simp) (fun _ ho => ho) (fun _ => ho) ⟨fun _ => rfl, fun _ => rfl⟩
      (fun _ => rfl) (fun v _ => h.joined v ?_) fun _ => hq
    rw [hp]
    exact v.isLt
  | unlocked m p hp => exact h.client_unlocked hf hp
  | ran c e run p hp hcase hr => exact h.client_ran hT hf hp hcase hr

/-! ## When `Stop` has returned -/

theorem Inv.init (hT : 0 < T) : Inv (new T) where
  run := Run.Inv.init hT
  tidy := Run.Tidy.init
  pc _ _ := .inl rfl
  exited _ hd := by cases hd
  counting _ hc := by cases hc
  holding hh := by cases hh
  orderly := trivial
  running hs := absurd rfl hs
  joined _ hv := by cases hv
  cleared hc := by cases hc
  cut _ _ _ hi := by cases hi

theorem Inv.of_reach (hT : 0 < T) {instant : Bool}
    (h : (machine T instant).Reach (fun s e => s.keepsSlices e = true) s) : Inv s := by
  refine Machine.Reach.invariant (fun s hs => ?_) (fun s e s' hI hok hn => ?_) h
  · rw [show s = new T from hs]
    exact Inv.init hT
  · simp only [machine, next] at hn
    split at hn
    · cases hn
    · rename_i hf
      have hf' : s.run.fault = none := by simpa using hf
      cases e with
      | worker t received => exact hI.worker_step hT hf' hok (workerStep hn)
      | client call => exact hI.client_step hT hf' (clientStep hn)

/-- Every job is finished or failed then, and those that are finished were
worked off by all workers. -/
theorem stopped_decided (hT : 0 < T) {instant : Bool}
    (h : (machine T instant).Reach (fun s e => s.keepsSlices e = true) s) (hc : s.client = .outside .stopped) :
    ∀ job ∈ s.run.jobs, (s.run.sched.status job.id).decided = true ∧
      (s.run.sched.status job.id = .finished → ∀ t, s.processed job.id t = true) := by
  have hI := Inv.of_reach hT h
  have hdone : ∀ t, s.worker t = .outside .done := fun t => hI.joined t (by rw [hc]; exact t.isLt)
  intro job hj
  refine ⟨?_, fun hfin t => ?_⟩
  · rcases hI.tidy.decided (fun t => hI.exited t (hdone t)) (hI.cleared (by rw [hc]; rfl)) hj with h1 | h1 <;>
      rw [h1] <;> rfl
  · obtain ⟨i, hi⟩ := List.mem_iff_getElem?.mp hj
    have hcomp := hI.run.finished i job hi hfin
    by_contra hp
    obtain ⟨-, hex⟩ := hI.cut t i job (hcomp t) hi (by simpa using hp)
    obtain ⟨v, hv⟩ := hex hcomp
    rw [hdone v] at hv
    cases hv

/-- A worker is given the only slice of an empty job, and then the client stops
the context. -/
def droppedEvents : List (Event 1) :=
  let job : Job := { id := 0, tensor := { inPtr := 0, outPtr := 64, numel := 0, dataType := .int32 } }
  List.replicate 7 (.client (.allReduce job false)) ++ List.replicate 11 (.worker 0 true) ++
    List.replicate 3 (.client .stop) ++ List.replicate 2 (.worker 0 true) ++ List.replicate 11 (.client .stop)

/-- The job stays running for ever. -/
theorem stop_leaves_undecided : ∃ s, (machine 1 false).Reachable s ∧ s.client = .outside .stopped ∧
    ∃ job ∈ s.run.jobs, (s.run.sched.status job.id).decided = false := by
  obtain ⟨s, hr, hc, job, hj, hst⟩ : ∃ s, (machine 1 false).run (new 1) droppedEvents = some s ∧
      s.client = .outside .stopped ∧ ∃ job ∈ s.run.jobs, (s.run.sched.status job.id).decided = false := by
    refine ⟨_, rfl, ?_⟩
    decide +kernel
  exact ⟨s, Machine.Reachable.run (.init rfl) hr, hc, job, hj, hst⟩

/-- The worker hands back the first job; it has the next one in work and another one is
queued when the client stops the context, and it does no more of it. -/
def keptEvents : List (Event 1) :=
  let submit (id : ℕ) : List (Event 1) := List.replicate 7 (.client (.allReduce (exampleSlice id 1 .int32).job false))
  submit 0 ++ List.replicate 21 (.worker 0 true) ++ submit 1 ++ submit 2 ++ List.replicate 11 (.worker 0 true) ++
    List.replicate 9 (.client .stop) ++ List.replicate 5 (.worker 0 false) ++ List.replicate 5 (.client .stop)

theorem stopped_decided_alone : ∃ s : Ctx 1, s.client = .outside .stopped ∧
    s.run.jobs.map (fun job => s.run.sched.status job.id) = [.finished, .failed, .failed] ∧
    (∀ job ∈ s.run.jobs, (s.run.sched.status job.id).decided = true) ∧ s.processed 0 0 = true := by
  have hrun : ((machine 1 false).runWhile (fun s e => s.keepsSlices e = true) (new 1) keptEvents).map (fun s =>
      (s.client, s.run.jobs.map Job.id, s.run.jobs.map fun job => s.run.sched.status job.id)) =
      some (.outside .stopped, [0, 1, 2], [.finished, .failed, .failed]) := by
    decide +kernel
  obtain ⟨s, hr, heq⟩ := Option.map_eq_some_iff.mp hrun
  simp only [Prod.mk.injEq] at heq
  obtain ⟨hc, hids, hst⟩ := heq
  have hall := stopped_decided (by decide) (Machine.Reach.runWhile (.init rfl) hr) hc
  refine ⟨s, hc, hst, fun job hj => (hall job hj).1, ?_⟩
  obtain ⟨job, rest, hjobs, hid, -⟩ := List.map_eq_cons_iff.mp hids
  rw [hjobs, List.map_cons, List.cons_eq_cons] at hst
  have hdone := (hall job (by rw [hjobs]; exact List.mem_cons_self)).2 hst.1 0
  rwa [hid] at hdone

end Ctx

end SwitchML.Client
