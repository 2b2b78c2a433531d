/-
`Barrier::Wait` of `utils.cc`, statement by statement, for threads that call it
again and again. A thread holds the lock from one place to another and gives it
back where it falls asleep or returns; it may be woken up at any time, and after
the last thread has notified it. `Destroy` is left out: this is the barrier
before it.

While the lock is held the counter and the flag are on their way to the next
values. What `Rounds` says of them is said of the values they have once the
thread with the lock is done with its statements (`settled`).
-/
import SwitchML.Client.FifoScheduler
import SwitchML.Lib.Rounds

namespace SwitchML.Client

/-- Where a thread is in `Wait`. -/
inductive WaitLoc
  | outside
  /-- It has taken the lock. -/
  | locked
  | copied (flagCopy : Bool)
  | counted (flagCopy : Bool)
  /-- It has the lock, and tests what it waits for. -/
  | testing (flagCopy : Bool)
  | asleep (flagCopy : Bool)
  /-- It is to take the lock again. -/
  | woken (flagCopy : Bool)
  /-- The last thread has flipped the flag. -/
  | flipped
  | reset
  | returning
deriving DecidableEq

namespace WaitLoc

/-- The lock is held there. -/
def holds : WaitLoc → Bool
  | .outside | .asleep _ | .woken _ => false
  | _ => true

/-- The copy of the flag a thread waits with. -/
def copy : WaitLoc → Option Bool
  | .testing flagCopy | .asleep flagCopy | .woken flagCopy => some flagCopy
  | _ => none

/-- The thread has entered `Wait`, but the others do not count it yet. -/
def early : WaitLoc → ℕ
  | .locked | .copied _ | .counted _ => 1
  | _ => 0

def notify : WaitLoc → WaitLoc
  | .asleep flagCopy => .woken flagCopy
  | l => l

@[simp] theorem notify_holds (l : WaitLoc) : l.notify.holds = l.holds := by
  cases l <;> rfl

@[simp] theorem notify_copy (l : WaitLoc) : l.notify.copy = l.copy := by
  cases l <;> rfl

@[simp] theorem notify_early (l : WaitLoc) : l.notify.early = l.early := by
  cases l <;> rfl

@[simp] theorem notify_eq_outside {l : WaitLoc} : l.notify = .outside ↔ l = .outside := by
  cases l <;> simp [notify]

theorem notify_ne_asleep (l : WaitLoc) (flagCopy : Bool) : l.notify ≠ .asleep flagCopy := by
  cases l <;> simp [notify]

theorem notify_of_holds {l : WaitLoc} (h : l.holds = true) : l.notify = l := by
  cases l with
  | asleep => cases h
  | _ => rfl

end WaitLoc

structure BarrierRun (N : ℕ) where
  barrier : Barrier
  owner : Option (Fin N)
  loc : Fin N → WaitLoc
  /-- How often a thread has entered `Wait`, which it does when it takes the lock. -/
  entered : Fin N → ℕ
  /-- How often it has left. -/
  left : Fin N → ℕ
  /-- The check at the start of `Wait` has stopped the process. -/
  fatal : Bool

namespace BarrierRun

variable {N : ℕ}

inductive Event (N : ℕ)
  /-- A thread makes its next step. -/
  | step (t : Fin N)
  /-- A thread is woken up without being notified. -/
  | wake (t : Fin N)

def new (N : ℕ) : BarrierRun N where
  barrier := Barrier.new N
  owner := none
  loc _ := .outside
  entered _ := 0
  left _ := 0
  fatal := false

def goto (s : BarrierRun N) (t : Fin N) (l : WaitLoc) : BarrierRun N := { s with loc := Function.update s.loc t l }

/-- The statement a thread is at; `none` where it has to wait. -/
def step (s : BarrierRun N) (t : Fin N) : Option (BarrierRun N) :=
  match s.loc t with
  | .outside =>
    if s.owner = none then
      some { s.goto t .locked with owner := some t, entered := Function.update s.entered t (s.entered t + 1) }
    else none
  | .locked =>
    if s.barrier.count = -1 then some { s with fatal := true }
    -- grab a copy of the current flag value
    else some (s.goto t (.copied s.barrier.flag))
  | .copied flagCopy =>
    -- note this thread has arrived
    some { s.goto t (.counted flagCopy) with barrier := { s.barrier with count := s.barrier.count - 1 } }
  | .counted flagCopy =>
    if 0 < s.barrier.count then some (s.goto t (.testing flagCopy))
    else some { s.goto t .flipped with barrier := { s.barrier with flag := !s.barrier.flag } }
  | .testing flagCopy =>
    if s.barrier.released flagCopy then some (s.goto t .returning)
    else some { s.goto t (.asleep flagCopy) with owner := none }
  | .asleep _ => none
  | .woken flagCopy => if s.owner = none then some { s.goto t (.testing flagCopy) with owner := some t } else none
  | .flipped => some { s.goto t .reset with barrier := { s.barrier with count := N } }
  | .reset => some { s with loc := Function.update (fun v => (s.loc v).notify) t .returning }
  | .returning =>
    some { s.goto t .outside with owner := none, left := Function.update s.left t (s.left t + 1) }

def next (s : BarrierRun N) (e : Event N) : Option (BarrierRun N) :=
  if s.fatal then none
  else
    match e with
    | .step t => s.step t
    | .wake t =>
      match s.loc t with
      | .asleep flagCopy => some (s.goto t (.woken flagCopy))
      | _ => none

/-- The barrier and its threads. -/
def machine (N : ℕ) : Machine (BarrierRun N) (Event N) where
  init s := s = new N
  next := next

/-! ## What the counter and the flag mean -/

/-- How often a thread has entered and is counted. -/
def arrived (s : BarrierRun N) (t : Fin N) : ℕ := s.entered t - (s.loc t).early

/-- The counter before the thread with the lock has taken itself off, or once it
has reset it. -/
def settledCount (N : ℕ) (count : ℤ) : WaitLoc → ℤ
  | .counted _ => count + 1
  | .flipped => N
  | _ => count

def settled (s : BarrierRun N) : ℤ :=
  (s.owner.map s.loc).elim s.barrier.count (settledCount N s.barrier.count)

structure Inv (s : BarrierRun N) : Prop where
  alive : s.fatal = false
  rounds : ∃ round, Rounds s.settled s.barrier.flag round s.arrived fun t => (s.loc t).copy
  owner : ∀ t, (s.loc t).holds = true ↔ s.owner = some t
  copied : ∀ t flagCopy, s.loc t = .copied flagCopy ∨ s.loc t = .counted flagCopy → flagCopy = s.barrier.flag
  /-- Who sleeps waits for the flag to flip, unless it is about to be notified. -/
  asleep : ∀ t flagCopy, s.loc t = .asleep flagCopy →
    flagCopy = s.barrier.flag ∨ ∃ u, s.loc u = .flipped ∨ s.loc u = .reset
  inside : ∀ t, s.entered t = s.left t + if s.loc t = .outside then 0 else 1

variable {s s' : BarrierRun N} {t : Fin N} {l : WaitLoc}

theorem loc_update (hloc : s'.loc = Function.update s.loc t l) (v : Fin N) :
    s'.loc v = if v = t then l else s.loc v := by
  rw [hloc, Function.update_apply]

theorem copy_update (hloc : s'.loc = Function.update s.loc t l) :
    (fun v => (s'.loc v).copy) = Function.update (fun v => (s.loc v).copy) t l.copy := by
  funext v
  rw [loc_update hloc, Function.update_apply]
  split <;> rfl

theorem arrived_update (hloc : s'.loc = Function.update s.loc t l) (hentered : ∀ v ≠ t, s'.entered v = s.entered v) :
    s'.arrived = Function.update s.arrived t (s'.entered t - l.early) := by
  funext v
  rw [arrived, loc_update hloc, Function.update_apply]
  split
  · rename_i hv
    rw [hv]
  · rename_i hv
    rw [hentered v hv]
    rfl

theorem settledCount_of_not_holds {count : ℤ} (hl : l.holds = false) : settledCount N count l = count := by
  cases l with
  | outside | asleep | woken => rfl
  | locked | copied | counted | testing | flipped | reset | returning => cases hl

/-- A thread that takes the lock, has it or gives it back goes to `l`. -/
structure Moves (s s' : BarrierRun N) (t : Fin N) (l : WaitLoc) : Prop where
  loc : s'.loc = Function.update s.loc t l
  free : ∀ u, s.owner = some u → u = t
  owner : s'.owner = if l.holds then some t else none
  fatal : s'.fatal = s.fatal
  others : ∀ v ≠ t, s'.entered v = s.entered v ∧ s'.left v = s.left v
  inside : s'.entered t = s'.left t + if l = .outside then 0 else 1

theorem Inv.moves (h : Inv s) (hm : Moves s s' t l)
    (hrounds : ∃ round, Rounds s'.settled s'.barrier.flag round s'.arrived fun v => (s'.loc v).copy)
    (hcopied : ∀ flagCopy, l = .copied flagCopy ∨ l = .counted flagCopy → flagCopy = s'.barrier.flag)
    (hasleep : ∀ v flagCopy, s'.loc v = .asleep flagCopy →
      flagCopy = s'.barrier.flag ∨ ∃ u, s'.loc u = .flipped ∨ s'.loc u = .reset) : Inv s' := by
  -- no other thread has the lock
  have hothers (v : Fin N) (hv : v ≠ t) : (s.loc v).holds = false := by
    by_contra hholds
    rw [Bool.not_eq_false] at hholds
    exact hv (hm.free v ((h.owner v).mp hholds))
  refine ⟨hm.fatal.trans h.alive, hrounds, fun v => ?_, fun v flagCopy hv => ?_, hasleep, fun v => ?_⟩
  · rw [loc_update hm.loc, hm.owner]
    by_cases hv : v = t
    · rw [if_pos hv, hv]
      cases l.holds <;> simp
    · rw [if_neg hv, hothers v hv]
      cases l.holds <;> simp [Ne.symm hv]
  · rw [loc_update hm.loc] at hv
    by_cases hvt : v = t
    · rw [if_pos hvt] at hv
      exact hcopied flagCopy hv
    · have hholds := hothers v hvt
      rw [if_neg hvt] at hv
      rcases hv with hv | hv <;> rw [hv] at hholds <;> cases hholds
  · rw [loc_update hm.loc]
    by_cases hv : v = t
    · rw [if_pos hv, hv]
      exact hm.inside
    · obtain ⟨h1, h2⟩ := hm.others v hv
      rw [if_neg hv, h1, h2]
      exact h.inside v

theorem Moves.settled (hm : Moves s s' t l) : s'.settled = settledCount N s'.barrier.count l := by
  have hl : s'.loc t = l := by rw [loc_update hm.loc, if_pos rfl]
  cases hholds : l.holds with
  | true =>
    rw [BarrierRun.settled, hm.owner, if_pos hholds, Option.map_some, hl]
    rfl
  | false =>
    rw [BarrierRun.settled, hm.owner, if_neg (by simp [hholds]), settledCount_of_not_holds hholds]
    rfl

theorem Inv.settled (h : Inv s) (hm : Moves s s' t l) : s.settled = settledCount N s.barrier.count (s.loc t) := by
  cases ho : s.owner with
  | some u =>
    rw [BarrierRun.settled, ho, hm.free u ho]
    rfl
  | none =>
    have hholds : (s.loc t).holds = false := by
      rw [Bool.eq_false_iff, ne_eq, h.owner t, ho]
      simp
    rw [BarrierRun.settled, ho, settledCount_of_not_holds hholds]
    rfl

/-- Where the flag stays and the thread was not about to notify, who sleeps goes on to. -/
theorem Inv.asleep_of_flag (h : Inv s) (hloc : s'.loc = Function.update s.loc t l) (hflag : s'.barrier.flag = s.barrier.flag)
    (hl : ∀ flagCopy, l = .asleep flagCopy → flagCopy = s.barrier.flag)
    (hbefore : s.loc t = .flipped ∨ s.loc t = .reset → l = .flipped ∨ l = .reset) (v : Fin N) (flagCopy : Bool)
    (hv : s'.loc v = .asleep flagCopy) :
    flagCopy = s'.barrier.flag ∨ ∃ u, s'.loc u = .flipped ∨ s'.loc u = .reset := by
  rw [hflag]
  rw [loc_update hloc] at hv
  by_cases hvt : v = t
  · rw [if_pos hvt] at hv
    exact .inl (hl flagCopy hv)
  · rw [if_neg hvt] at hv
    rcases h.asleep v flagCopy hv with heq | ⟨u, hu⟩
    · exact .inl heq
    · refine .inr ⟨u, ?_⟩
      rw [loc_update hloc]
      by_cases hut : u = t
      · rw [if_pos hut]
        exact hbefore (hut ▸ hu)
      · rw [if_neg hut]
        exact hu

/-! ## The statements -/

/-- The thread keeps its copy and is counted as before. -/
theorem Inv.rounds_same (h : Inv s) (hm : Moves s s' t l) {l₀ : WaitLoc} (ht : s.loc t = l₀) (hcopy : l.copy = l₀.copy)
    (harrived : s'.entered t - l.early = s.entered t - l₀.early) (hflag : s'.barrier.flag = s.barrier.flag)
    (hsettled : settledCount N s'.barrier.count l = settledCount N s.barrier.count l₀) :
    ∃ round, Rounds s'.settled s'.barrier.flag round s'.arrived fun v => (s'.loc v).copy := by
  subst ht
  obtain ⟨round, hr⟩ := h.rounds
  refine ⟨round, ?_⟩
  rw [h.settled hm] at hr
  rw [hm.settled, hsettled, hflag, copy_update hm.loc, arrived_update hm.loc fun v hv => (hm.others v hv).1, harrived,
    hcopy, Function.update_eq_self]
  exact (Function.update_eq_self t s.arrived).symm ▸ hr

theorem Inv.enter (h : Inv s) (ht : s.loc t = .outside) (hfree : s.owner = none) :
    Inv { s.goto t .locked with owner := some t, entered := Function.update s.entered t (s.entered t + 1) } := by
  have hinside := h.inside t
  rw [ht, if_pos rfl] at hinside
  have hm : Moves s { s.goto t .locked with
      owner := some t, entered := Function.update s.entered t (s.entered t + 1) } t .locked := by
    refine ⟨rfl, fun u hu => ?_, rfl, rfl, fun v hv => ⟨Function.update_of_ne hv _ _, rfl⟩, ?_⟩
    · rw [hfree] at hu
      cases hu
    · show Function.update s.entered t (s.entered t + 1) t = s.left t + 1
      rw [Function.update_self, hinside]
  refine h.moves hm (h.rounds_same hm ht rfl ?_ rfl rfl) (by simp) (h.asleep_of_flag rfl rfl (by simp) (by simp [ht]))
  show Function.update s.entered t (s.entered t + 1) t - 1 = s.entered t
  rw [Function.update_self, Nat.add_sub_cancel]

/-- Only one thread has the lock. -/
theorem Inv.only (h : Inv s) (ht : (s.loc t).holds = true) (u : Fin N) (hu : s.owner = some u) : u = t := by
  rw [(h.owner t).mp ht, Option.some.injEq] at hu
  exact hu.symm

/-- A step of the thread with the lock that it keeps. -/
theorem Inv.keeps (h : Inv s) (hl : l.holds = true) (ht : (s.loc t).holds = true) (barrier : Barrier) :
    Moves s { s.goto t l with barrier } t l := by
  refine ⟨rfl, h.only ht, ?_, rfl, fun v _ => ⟨rfl, rfl⟩, ?_⟩
  · rw [if_pos hl]
    exact (h.owner t).mp ht
  · have hinside := h.inside t
    have hout : s.loc t ≠ .outside := by
      intro he
      rw [he] at ht
      cases ht
    have hout' : l ≠ .outside := by
      rintro rfl
      cases hl
    rw [if_neg hout] at hinside
    rw [if_neg hout']
    exact hinside

theorem Inv.copy_flag (h : Inv s) (ht : s.loc t = .locked) : Inv (s.goto t (.copied s.barrier.flag)) := by
  have hm : Moves s (s.goto t (.copied s.barrier.flag)) t _ := h.keeps rfl (by rw [ht]; rfl) s.barrier
  exact h.moves hm (h.rounds_same hm ht rfl rfl rfl rfl) (by simp [goto])
    (h.asleep_of_flag rfl rfl (by simp) (by simp [ht]))

theorem Inv.count_down (h : Inv s) {flagCopy : Bool} (ht : s.loc t = .copied flagCopy) :
    Inv { s.goto t (.counted flagCopy) with barrier := { s.barrier with count := s.barrier.count - 1 } } := by
  have hm := h.keeps (l := .counted flagCopy) rfl (by rw [ht]; rfl) { s.barrier with count := s.barrier.count - 1 }
  refine h.moves hm (h.rounds_same hm ht rfl rfl rfl ?_) ?_ (h.asleep_of_flag rfl rfl (by simp) (by simp [ht]))
  · show s.barrier.count - 1 + 1 = s.barrier.count
    omega
  · intro c hc
    simp only [reduceCtorEq, WaitLoc.counted.injEq, false_or] at hc
    exact hc ▸ h.copied t flagCopy (.inl ht)

/-- Who has counted itself has entered once more than it is counted. -/
theorem Inv.entered_eq (h : Inv s) (hearly : (s.loc t).early = 1) : s.entered t = s.arrived t + 1 := by
  have hinside := h.inside t
  have hout : s.loc t ≠ .outside := by
    intro he
    rw [he] at hearly
    cases hearly
  rw [if_neg hout] at hinside
  rw [arrived, hearly]
  omega

theorem Inv.wait (h : Inv s) {flagCopy : Bool} (ht : s.loc t = .counted flagCopy) (hpos : 0 < s.barrier.count) :
    Inv (s.goto t (.testing flagCopy)) := by
  have hm : Moves s (s.goto t (.testing flagCopy)) t _ := h.keeps rfl (by rw [ht]; rfl) s.barrier
  refine h.moves hm ?_ (by simp) (h.asleep_of_flag rfl rfl (by simp) (by simp [ht]))
  obtain ⟨round, hr⟩ := h.rounds
  have hnone : (s.loc t).copy = none := by rw [ht]; rfl
  have hround := hr.eq_of_outside (w := t) hnone
  have hentered := h.entered_eq (t := t) (by rw [ht]; rfl)
  have hflag := h.copied t flagCopy (.inr ht)
  rw [h.settled hm, ht] at hr
  have harrive := hr.arrive (w := t) hnone (by show 0 < s.barrier.count + 1 - 1; omega)
  refine ⟨round, ?_⟩
  rw [hm.settled, copy_update hm.loc, arrived_update hm.loc fun v hv => (hm.others v hv).1]
  have hcount : settledCount N s.barrier.count (.counted flagCopy) - 1 = s.barrier.count := Int.add_sub_cancel _ _
  rw [hcount, ← hround, ← hentered, ← hflag] at harrive
  rw [← hround]
  exact hflag ▸ harrive

/-- The last thread to arrive ends the round. -/
theorem Inv.flip (h : Inv s) {flagCopy : Bool} (ht : s.loc t = .counted flagCopy) (hlast : ¬0 < s.barrier.count) :
    Inv { s.goto t .flipped with barrier := { s.barrier with flag := !s.barrier.flag } } := by
  have hm := h.keeps (l := .flipped) rfl (by rw [ht]; rfl) { s.barrier with flag := !s.barrier.flag }
  refine h.moves hm ?_ (by simp) fun v c _ => .inr ⟨t, .inl ?_⟩
  · obtain ⟨round, hr⟩ := h.rounds
    have hnone : (s.loc t).copy = none := by rw [ht]; rfl
    have hround := hr.eq_of_outside (w := t) hnone
    have hentered := h.entered_eq (t := t) (by rw [ht]; rfl)
    rw [h.settled hm, ht] at hr
    have hover := hr.last (w := t) hnone (by show ¬0 < s.barrier.count + 1 - 1; omega)
    refine ⟨s.entered t, ?_⟩
    rw [hm.settled, copy_update hm.loc, arrived_update hm.loc fun v hv => (hm.others v hv).1]
    rw [Fintype.card_fin, ← hround, ← hentered] at hover
    rw [show WaitLoc.flipped.copy = (s.loc t).copy from hnone.symm, Function.update_eq_self t fun v => (s.loc v).copy]
    exact hover
  · show Function.update s.loc t _ t = _
    rw [Function.update_self]

theorem Inv.reset_count (h : Inv s) (ht : s.loc t = .flipped) :
    Inv { s.goto t .reset with barrier := { s.barrier with count := N } } := by
  have hm := h.keeps (l := .reset) rfl (by rw [ht]; rfl) { s.barrier with count := N }
  exact h.moves hm (h.rounds_same hm ht rfl rfl rfl rfl) (by simp) (h.asleep_of_flag rfl rfl (by simp) (by simp))

theorem Inv.count_pos (h : Inv s) (ht : settledCount N s.barrier.count (s.loc t) = s.barrier.count)
    (hholds : (s.loc t).holds = true) : 0 < s.barrier.count := by
  obtain ⟨round, hr⟩ := h.rounds
  have hpos := hr.count_pos
  rw [BarrierRun.settled, (h.owner t).mp hholds, Option.map_some] at hpos
  exact ht ▸ hpos

/-- What a thread waits for is that the flag differs from its copy. -/
theorem Inv.released_iff (h : Inv s) {flagCopy : Bool} (ht : s.loc t = .testing flagCopy) :
    s.barrier.released flagCopy = true ↔ flagCopy ≠ s.barrier.flag := by
  have hpos := h.count_pos (t := t) (by rw [ht]; rfl) (by rw [ht]; rfl)
  rw [Barrier.released, Bool.or_eq_true, bne_iff_ne, decide_eq_true_iff]
  exact ⟨fun hr => hr.resolve_left (by omega), .inr⟩

theorem Inv.pass (h : Inv s) {flagCopy : Bool} (ht : s.loc t = .testing flagCopy)
    (hreleased : s.barrier.released flagCopy = true) : Inv (s.goto t .returning) := by
  have hm : Moves s (s.goto t .returning) t .returning := h.keeps rfl (by rw [ht]; rfl) s.barrier
  refine h.moves hm ?_ (by simp) (h.asleep_of_flag rfl rfl (by simp) (by simp [ht]))
  obtain ⟨round, hr⟩ := h.rounds
  have hleave := hr.leave (w := t) (by rw [ht]; rfl) ((h.released_iff ht).mp hreleased)
  refine ⟨round, ?_⟩
  rw [h.settled hm, ht] at hleave
  rw [hm.settled, copy_update hm.loc, arrived_update hm.loc fun v hv => (hm.others v hv).1]
  have harrived : (s.goto t .returning).entered t - WaitLoc.returning.early = s.arrived t := by
    rw [arrived, ht]
    rfl
  rw [harrived, Function.update_eq_self]
  exact hleave

theorem Inv.sleep (h : Inv s) {flagCopy : Bool} (ht : s.loc t = .testing flagCopy)
    (hreleased : ¬s.barrier.released flagCopy = true) :
    Inv { s.goto t (.asleep flagCopy) with owner := none } := by
  have hinside := h.inside t
  rw [ht, if_neg (by simp)] at hinside
  have hm : Moves s { s.goto t (.asleep flagCopy) with owner := none } t (.asleep flagCopy) := by
    refine ⟨rfl, h.only (by rw [ht]; rfl), rfl, rfl, fun v _ => ⟨rfl, rfl⟩, ?_⟩
    rw [if_neg (by simp)]
    exact hinside
  rw [h.released_iff ht, ne_eq, not_not] at hreleased
  refine h.moves hm (h.rounds_same hm ht rfl rfl rfl rfl) (by simp) (h.asleep_of_flag rfl rfl ?_ (by simp [ht]))
  intro c hc
  rw [WaitLoc.asleep.injEq] at hc
  exact hc ▸ hreleased

theorem Inv.relock (h : Inv s) {flagCopy : Bool} (ht : s.loc t = .woken flagCopy) (hfree : s.owner = none) :
    Inv { s.goto t (.testing flagCopy) with owner := some t } := by
  have hinside := h.inside t
  rw [ht, if_neg (by simp)] at hinside
  have hm : Moves s { s.goto t (.testing flagCopy) with owner := some t } t (.testing flagCopy) := by
    refine ⟨rfl, fun u hu => ?_, rfl, rfl, fun v _ => ⟨rfl, rfl⟩, ?_⟩
    · rw [hfree] at hu
      cases hu
    · rw [if_neg (by simp)]
      exact hinside
  exact h.moves hm (h.rounds_same hm ht rfl rfl rfl rfl) (by simp) (h.asleep_of_flag rfl rfl (by simp) (by simp [ht]))

theorem Inv.leave (h : Inv s) (ht : s.loc t = .returning) :
    Inv { s.goto t .outside with owner := none, left := Function.update s.left t (s.left t + 1) } := by
  have hinside := h.inside t
  rw [ht, if_neg (by simp)] at hinside
  have hm : Moves s { s.goto t .outside with owner := none, left := Function.update s.left t (s.left t + 1) } t
      .outside := by
    refine ⟨rfl, h.only (by rw [ht]; rfl), rfl, rfl, fun v hv => ⟨rfl, Function.update_of_ne hv _ _⟩, ?_⟩
    show s.entered t = Function.update s.left t (s.left t + 1) t
    rw [Function.update_self]
    exact hinside
  exact h.moves hm (h.rounds_same hm ht rfl rfl rfl rfl) (by simp) (h.asleep_of_flag rfl rfl (by simp) (by simp [ht]))

/-! ## Waking up -/

/-- Some of those who sleep are woken up. -/
theorem Inv.awaken (h : Inv s) {loc : Fin N → WaitLoc} (hloc : ∀ v, loc v = s.loc v ∨ loc v = (s.loc v).notify) :
    Inv { s with loc } := by
  have hholds (v : Fin N) : (loc v).holds = (s.loc v).holds := by
    rcases hloc v with h1 | h1 <;> simp [h1]
  have hcopy (v : Fin N) : (loc v).copy = (s.loc v).copy := by
    rcases hloc v with h1 | h1 <;> simp [h1]
  have hearly (v : Fin N) : (loc v).early = (s.loc v).early := by
    rcases hloc v with h1 | h1 <;> simp [h1]
  have hout (v : Fin N) : loc v = .outside ↔ s.loc v = .outside := by
    rcases hloc v with h1 | h1 <;> simp [h1]
  have hsame (v : Fin N) (hv : (s.loc v).holds = true) : loc v = s.loc v := by
    rcases hloc v with h1 | h1
    · exact h1
    · rw [h1, WaitLoc.notify_of_holds hv]
  refine ⟨h.alive, ?_, fun v => ?_, fun v flagCopy hv => ?_, fun v flagCopy hv => ?_, fun v => ?_⟩
  · have hsettled : BarrierRun.settled { s with loc } = s.settled := by
      cases ho : s.owner with
      | none => rw [BarrierRun.settled, BarrierRun.settled, ho]; rfl
      | some u =>
        have hu := hsame u ((h.owner u).mpr ho)
        rw [BarrierRun.settled, BarrierRun.settled, ho, Option.map_some, Option.map_some]
        exact congrArg (settledCount N s.barrier.count) hu
    have harrived : BarrierRun.arrived { s with loc } = s.arrived := by
      funext v
      rw [BarrierRun.arrived, BarrierRun.arrived, hearly]
    rw [hsettled, harrived, funext hcopy]
    exact h.rounds
  · rw [hholds]
    exact h.owner v
  · change loc v = _ ∨ loc v = _ at hv
    have hv' : (s.loc v).holds = true := by
      rw [← hholds]
      rcases hv with hv | hv <;> rw [hv] <;> rfl
    rw [hsame v hv'] at hv
    exact h.copied v flagCopy hv
  · change loc v = _ at hv
    rcases hloc v with h1 | h1
    · rw [h1] at hv
      rcases h.asleep v flagCopy hv with heq | ⟨u, hu⟩
      · exact .inl heq
      · refine .inr ⟨u, ?_⟩
        have hu' := hsame u (by rcases hu with hu | hu <;> rw [hu] <;> rfl)
        exact hu.imp hu'.trans hu'.trans
    · exact absurd (h1.symm.trans hv) (WaitLoc.notify_ne_asleep _ _)
  · rw [if_congr (hout v) rfl rfl]
    exact h.inside v

/-- After the last thread has notified the others nobody sleeps. -/
theorem Inv.notify_all (h : Inv s) (ht : s.loc t = .reset) :
    Inv { s with loc := Function.update (fun v => (s.loc v).notify) t .returning } := by
  have h' := h.awaken fun v => .inr rfl
  have ht' : ({ s with loc := fun v => (s.loc v).notify } : BarrierRun N).loc t = .reset := by
    show (s.loc t).notify = .reset
    rw [ht]
    rfl
  have hm := h'.keeps (t := t) (l := .returning) rfl (by rw [ht']; rfl) s.barrier
  refine h'.moves hm (h'.rounds_same hm ht' rfl rfl rfl rfl) (by simp) fun v flagCopy hv => ?_
  change Function.update (fun v => (s.loc v).notify) t .returning v = _ at hv
  rw [Function.update_apply] at hv
  split at hv
  · cases hv
  · exact absurd hv (WaitLoc.notify_ne_asleep _ _)

theorem Inv.wake (h : Inv s) {flagCopy : Bool} (ht : s.loc t = .asleep flagCopy) :
    Inv (s.goto t (.woken flagCopy)) := by
  refine h.awaken fun v => ?_
  by_cases hv : v = t
  · rw [hv, Function.update_self, ht]
    exact .inr rfl
  · rw [Function.update_of_ne hv]
    exact .inl rfl

/-! ## Runs -/

theorem Inv.init (hN : 0 < N) : Inv (new N) := by
  refine ⟨rfl, ⟨0, ?_⟩, fun t => ?_, by simp [new], by simp [new], fun t => rfl⟩
  · have hzero := Rounds.zero (ι := Fin N) (by rwa [Fintype.card_fin]) false
    rw [Fintype.card_fin] at hzero
    exact hzero
  · simp [new, WaitLoc.holds]

theorem Inv.step (h : Inv s) (hn : s.step t = some s') : Inv s' := by
  cases ht : s.loc t with
  | outside =>
    simp only [BarrierRun.step, ht] at hn
    split at hn
    · rename_i hfree
      exact Option.some.inj hn ▸ h.enter ht hfree
    · cases hn
  | locked =>
    have hpos := h.count_pos (t := t) (by rw [ht]; rfl) (by rw [ht]; rfl)
    simp only [BarrierRun.step, ht, if_neg (show s.barrier.count ≠ -1 by omega)] at hn
    exact Option.some.inj hn ▸ h.copy_flag ht
  | copied flagCopy =>
    simp only [BarrierRun.step, ht] at hn
    exact Option.some.inj hn ▸ h.count_down ht
  | counted flagCopy =>
    simp only [BarrierRun.step, ht] at hn
    split at hn
    · rename_i hpos
      exact Option.some.inj hn ▸ h.wait ht hpos
    · rename_i hlast
      exact Option.some.inj hn ▸ h.flip ht hlast
  | testing flagCopy =>
    simp only [BarrierRun.step, ht] at hn
    split at hn
    · rename_i hreleased
      exact Option.some.inj hn ▸ h.pass ht hreleased
    · rename_i hreleased
      exact Option.some.inj hn ▸ h.sleep ht hreleased
  | asleep flagCopy =>
    simp only [BarrierRun.step, ht] at hn
    cases hn
  | woken flagCopy =>
    simp only [BarrierRun.step, ht] at hn
    split at hn
    · rename_i hfree
      exact Option.some.inj hn ▸ h.relock ht hfree
    · cases hn
  | flipped =>
    simp only [BarrierRun.step, ht] at hn
    exact Option.some.inj hn ▸ h.reset_count ht
  | reset =>
    simp only [BarrierRun.step, ht] at hn
    exact Option.some.inj hn ▸ h.notify_all ht
  | returning =>
    simp only [BarrierRun.step, ht] at hn
    exact Option.some.inj hn ▸ h.leave ht

theorem Inv.next {e : Event N} (h : Inv s) (hn : s.next e = some s') : Inv s' := by
  simp only [BarrierRun.next, h.alive, Bool.false_eq_true, if_false] at hn
  cases e with
  | step t => exact h.step hn
  | wake t =>
    simp only at hn
    split at hn
    · rename_i flagCopy ht
      exact Option.some.inj hn ▸ h.wake ht
    · cases hn

theorem Inv.of_reachable (hN : 0 < N) (hs : (machine N).Reachable s) : Inv s := by
  refine Machine.Reachable.invariant (fun s h0 => ?_) (fun s e s' h hn => h.next hn) hs
  cases h0
  exact .init hN

/-! ## A thread that is slow to wake -/

/-- The thread is to leave its `Wait`: the flag has flipped since it came, or it
is past the test. -/
def Free (s : BarrierRun N) (t : Fin N) : Prop :=
  s.loc t = .returning ∨ ∃ flagCopy, (s.loc t).copy = some flagCopy ∧ flagCopy ≠ s.barrier.flag

/-- Only the last thread to arrive flips the flag. -/
theorem step_flag {v : Fin N} (hn : s.step v = some s') :
    s'.barrier.flag = s.barrier.flag ∨ (∃ flagCopy, s.loc v = .counted flagCopy) ∧ ¬0 < s.barrier.count := by
  revert hn
  fun_cases BarrierRun.step s v <;> intro hn
  case case7 flagCopy hv hlast => exact .inr ⟨⟨flagCopy, hv⟩, hlast⟩
  all_goals first
    | exact .inl (Option.some.inj hn ▸ rfl)
    | cases hn

/-- What a step of a thread leaves to the others, who may be notified. -/
theorem step_others {v : Fin N} (hn : s.step v = some s') (hv : t ≠ v) :
    (s'.loc t = s.loc t ∨ s'.loc t = (s.loc t).notify) ∧ s'.left t = s.left t := by
  have hgoto (l : WaitLoc) : Function.update s.loc v l t = s.loc t := Function.update_of_ne hv _ _
  revert hn
  fun_cases BarrierRun.step s v <;> intro hn
  case case3 => exact Option.some.inj hn ▸ ⟨.inl rfl, rfl⟩
  case case14 => exact Option.some.inj hn ▸ ⟨.inr (Function.update_of_ne hv _ fun u => (s.loc u).notify), rfl⟩
  case case15 => exact Option.some.inj hn ▸ ⟨.inl (hgoto _), Function.update_of_ne hv _ _⟩
  all_goals first
    | exact Option.some.inj hn ▸ ⟨.inl (hgoto _), rfl⟩
    | cases hn

theorem step_left_le (hn : s.step t = some s') : s.left t ≤ s'.left t := by
  revert hn
  fun_cases BarrierRun.step s t <;> intro hn
  case case15 ht =>
    rw [← Option.some.inj hn]
    show s.left t ≤ Function.update s.left t (s.left t + 1) t
    rw [Function.update_self]
    omega
  all_goals first
    | exact Option.some.inj hn ▸ Nat.le_refl _
    | cases hn

/-- The flag flips only when nobody waits that is free to leave. -/
theorem Inv.flag_same {v : Fin N} (h : Inv s) {flagCopy : Bool} (ht : (s.loc t).copy = some flagCopy)
    (hfree : flagCopy ≠ s.barrier.flag) (hn : s.step v = some s') : s'.barrier.flag = s.barrier.flag := by
  rcases step_flag hn with hflag | ⟨⟨c, hv⟩, hlast⟩
  · exact hflag
  · obtain ⟨round, hr⟩ := h.rounds
    have hround := hr.eq_of_released (w := t) ht hfree
    rw [BarrierRun.settled, (h.owner v).mp (by rw [hv]; rfl), Option.map_some, hv] at hr
    have htv : t ≠ v := by
      rintro rfl
      rw [hv] at ht
      cases ht
    have hahead := hr.others_ahead (w := v) (by rw [hv]; rfl) (by show ¬0 < s.barrier.count + 1 - 1; omega) htv
    omega

/-- A thread that is free to leave stays so until it has left. -/
theorem Inv.free_step {v : Fin N} (h : Inv s) (hfree : s.Free t) (hn : s.step v = some s') :
    s'.Free t ∨ s.left t < s'.left t := by
  by_cases hvt : v = t
  · subst hvt
    rcases hfree with hret | ⟨flagCopy, hcopy, hne⟩
    · simp only [BarrierRun.step, hret, Option.some.injEq] at hn
      subst hn
      refine .inr ?_
      show s.left v < Function.update s.left v (s.left v + 1) v
      rw [Function.update_self]
      omega
    · have hflag := h.flag_same hcopy hne hn
      cases hv : s.loc v with
      | testing c =>
        simp only [BarrierRun.step, hv] at hn
        split at hn
        · refine .inl (.inl ?_)
          rw [← Option.some.inj hn]
          exact Function.update_self _ _ _
        · rename_i hreleased
          rw [hv, WaitLoc.copy, Option.some.injEq] at hcopy
          rw [h.released_iff hv, hcopy] at hreleased
          exact absurd hne hreleased
      | woken c =>
        simp only [BarrierRun.step, hv] at hn
        split at hn
        · refine .inl (.inr ⟨flagCopy, ?_, hflag ▸ hne⟩)
          rw [← Option.some.inj hn]
          show (Function.update s.loc v (.testing c) v).copy = some flagCopy
          rw [Function.update_self, ← hcopy, hv]
          rfl
        · cases hn
      | asleep c =>
        simp only [BarrierRun.step, hv] at hn
        cases hn
      | outside | locked | copied | counted | flipped | reset | returning =>
        rw [hv] at hcopy
        cases hcopy
  · obtain ⟨hloc, hleft⟩ := step_others hn (Ne.symm hvt)
    refine .inl ?_
    rcases hfree with hret | ⟨flagCopy, hcopy, hne⟩
    · refine .inl ?_
      rcases hloc with hloc | hloc <;> rw [hloc, hret]
      rfl
    · refine .inr ⟨flagCopy, ?_, h.flag_same hcopy hne hn ▸ hne⟩
      rcases hloc with hloc | hloc <;> rw [hloc]
      · exact hcopy
      · rw [WaitLoc.notify_copy]
        exact hcopy

theorem Inv.free_next {e : Event N} (h : Inv s) (hfree : s.Free t) (hn : s.next e = some s') :
    s'.Free t ∨ s.left t < s'.left t := by
  simp only [BarrierRun.next, h.alive, Bool.false_eq_true, if_false] at hn
  cases e with
  | step v => exact h.free_step hfree hn
  | wake v =>
    simp only at hn
    split at hn
    · rename_i flagCopy hv
      refine .inl ?_
      rw [← Option.some.inj hn]
      by_cases htv : t = v
      · rcases hfree with hret | ⟨c, hcopy, hne⟩
        · rw [htv, hv] at hret
          cases hret
        · refine .inr ⟨c, ?_, hne⟩
          rw [htv, hv] at hcopy
          show (Function.update s.loc v (.woken flagCopy) t).copy = some c
          rw [htv, Function.update_self]
          exact hcopy
      · have hloc : Function.update s.loc v (.woken flagCopy) t = s.loc t := Function.update_of_ne htv _ _
        exact hfree.imp hloc.trans fun ⟨c, hcopy, hne⟩ => ⟨c, (congrArg WaitLoc.copy hloc).trans hcopy, hne⟩
    · cases hn

theorem next_left_le {e : Event N} (hn : s.next e = some s') : s.left t ≤ s'.left t := by
  unfold BarrierRun.next at hn
  split at hn
  · cases hn
  · cases e with
    | step v =>
      by_cases htv : t = v
      · exact step_left_le (htv ▸ hn)
      · exact Nat.le_of_eq (step_others hn htv).2.symm
    | wake v =>
      simp only at hn
      split at hn
      · exact Option.some.inj hn ▸ Nat.le_refl _
      · cases hn

theorem run_left_le {es : List (Event N)} (hr : (machine N).run s es = some s') : s.left t ≤ s'.left t := by
  induction es generalizing s with
  | nil => exact Option.some.inj hr ▸ Nat.le_refl _
  | cons e es ih =>
    obtain ⟨u, hn, hr⟩ := Option.bind_eq_some_iff.mp hr
    exact Nat.le_trans (next_left_le hn) (ih hr)

/-- The flag does not flip twice before the thread has left. -/
theorem Inv.free_run {es : List (Event N)} (h : Inv s) (hfree : s.Free t) (hr : (machine N).run s es = some s') :
    s'.Free t ∨ s.left t < s'.left t := by
  induction es generalizing s with
  | nil => exact .inl (Option.some.inj hr ▸ hfree)
  | cons e es ih =>
    obtain ⟨u, hn, hr⟩ := Option.bind_eq_some_iff.mp hr
    rcases h.free_next hfree hn with hfree' | hleft
    · exact (ih (h.next hn) hfree' hr).imp id fun hlt => Nat.lt_of_le_of_lt (next_left_le hn) hlt
    · exact .inr (Nat.lt_of_lt_of_le hleft (run_left_le hr))

/-- A thread that has been woken up and is free to leave does so with its next steps. -/
theorem Inv.leaves (h : Inv s) (hlock : s.owner = none) {flagCopy : Bool} (ht : s.loc t = .woken flagCopy)
    (hne : flagCopy ≠ s.barrier.flag) :
    ∃ s', (machine N).run s [.step t, .step t, .step t] = some s' ∧ s'.left t = s.left t + 1 := by
  have hreleased : s.barrier.released flagCopy = true := by
    rw [Barrier.released, bne_iff_ne.mpr hne, Bool.or_true]
  refine ⟨{ s.goto t .outside with owner := none, left := Function.update s.left t (s.left t + 1) }, ?_,
    Function.update_self t (s.left t + 1) s.left⟩
  simp [Machine.run, machine, BarrierRun.next, h.alive, BarrierRun.step, ht, hlock, goto, hreleased]

/-! ## The rounds -/

/-- Nobody is ahead of the others by more than the `Wait` it is in. -/
theorem Inv.left_le (h : Inv s) (t v : Fin N) : s.left t ≤ s.entered v := by
  obtain ⟨round, hr⟩ := h.rounds
  have hround : s.left t ≤ round := by
    have hinside := h.inside t
    rcases hr.near t with hnear | hnear
    · have hout : (s.loc t).early ≤ if s.loc t = .outside then 0 else 1 := by
        cases s.loc t <;> simp [WaitLoc.early]
      rw [arrived] at hnear
      omega
    · -- it is ahead of the others, so it is inside
      have hcopy := hr.ahead t hnear
      have hout : s.loc t ≠ .outside := by
        intro hout
        rw [hout] at hcopy
        cases hcopy
      have hearly : (s.loc t).early = 0 := by
        cases hl : s.loc t <;> rw [hl] at hcopy <;> first | rfl | cases hcopy
      rw [if_neg hout] at hinside
      rw [arrived, hearly] at hnear
      omega
  exact Nat.le_trans hround (Nat.le_trans (hr.le v) (Nat.sub_le _ _))

theorem Inv.count_of_free (h : Inv s) (hlock : s.owner = none) : 1 ≤ s.barrier.count ∧ s.barrier.count ≤ N := by
  obtain ⟨round, hr⟩ := h.rounds
  rw [BarrierRun.settled, hlock] at hr
  have hle := hr.count_le
  rw [Fintype.card_fin] at hle
  exact ⟨hr.count_pos, hle⟩

/-- Where everyone has entered the `Wait` a thread is in, it has been woken up
and the flag has flipped. -/
theorem Inv.woken_of_entered (h : Inv s) (hlock : s.owner = none) (ht : s.loc t ≠ .outside)
    (hall : ∀ v, s.left t < s.entered v) : ∃ flagCopy, s.loc t = .woken flagCopy ∧ flagCopy ≠ s.barrier.flag := by
  have hholds (v : Fin N) : (s.loc v).holds = false := by
    rw [Bool.eq_false_iff, ne_eq, h.owner v, hlock]
    simp
  have hearly (v : Fin N) : s.arrived v = s.entered v := by
    have hv := hholds v
    rw [arrived]
    cases hl : s.loc v <;> rw [hl] at hv <;> first | rfl | cases hv
  have hinside := h.inside t
  rw [if_neg ht] at hinside
  obtain ⟨round, hr⟩ := h.rounds
  -- it is not ahead: else all would be, and the counter 0
  have hround : s.arrived t = round := by
    refine (hr.near t).resolve_right fun hahead => ?_
    have huniv : aheadOf s.arrived round = Finset.univ := by
      ext v
      have hv := hall v
      rw [Rounds.mem_aheadOf, hearly]
      rw [hearly] at hahead
      exact iff_of_true (by omega) (Finset.mem_univ v)
    have hcount := hr.count_eq
    have hpos := hr.count_pos
    rw [huniv, Finset.card_univ] at hcount
    omega
  have hbehind (c : Bool) (hc : (s.loc t).copy = some c) : c ≠ s.barrier.flag := by
    rw [hr.behind t c hround hc]
    cases s.barrier.flag <;> decide
  have hv := hholds t
  cases hl : s.loc t with
  | woken c => exact ⟨c, rfl, hbehind c (by rw [hl]; rfl)⟩
  | asleep c =>
    rcases h.asleep t c hl with hflag | ⟨u, hu | hu⟩
    · exact absurd hflag (hbehind c (by rw [hl]; rfl))
    · have hu' := hholds u
      rw [hu] at hu'
      cases hu'
    · have hu' := hholds u
      rw [hu] at hu'
      cases hu'
  | outside => exact absurd hl ht
  | locked | copied | counted | testing | flipped | reset | returning =>
    rw [hl] at hv
    cases hv

/-- With no other thread about, the statements up to where a thread falls asleep
or has left are `Barrier.enter`. -/
theorem Inv.enter_steps (h : Inv s) (hlock : s.owner = none) (ht : s.loc t = .outside) :
    ∃ (b : Barrier) (copy : Option Bool) (n : ℕ) (s' : BarrierRun N), Barrier.enter N s.barrier = .ok (b, copy) ∧
      (machine N).run s (List.replicate n (.step t)) = some s' ∧ s'.barrier = b ∧ s'.owner = none ∧
      s'.loc t = copy.elim .outside .asleep := by
  have hcount := (h.count_of_free hlock).1
  have halive : s.barrier.count ≠ -1 := by omega
  by_cases hlast : 1 < s.barrier.count
  · have hwaits : ¬s.barrier.count - 1 = -1 := by omega
    refine ⟨{ s.barrier with count := s.barrier.count - 1 }, some s.barrier.flag, 5,
      { s.goto t (.asleep s.barrier.flag) with
        barrier := { s.barrier with count := s.barrier.count - 1 }
        owner := none
        entered := Function.update s.entered t (s.entered t + 1) }, ?_, ?_, rfl, rfl, Function.update_self _ _ _⟩
    · rw [Barrier.enter, if_neg halive, if_pos (by omega)]
    · simp [List.replicate, Machine.run, machine, BarrierRun.next, h.alive, BarrierRun.step, ht, hlock, goto, halive,
        hlast, Barrier.released, hwaits]
  · refine ⟨{ count := N, flag := !s.barrier.flag }, none, 7,
      { s with
        barrier := { count := N, flag := !s.barrier.flag }
        owner := none
        loc := Function.update (fun v => (s.loc v).notify) t .outside
        entered := Function.update s.entered t (s.entered t + 1)
        left := Function.update s.left t (s.left t + 1) }, ?_, ?_, rfl, rfl,
      Function.update_self t WaitLoc.outside fun v => (s.loc v).notify⟩
    · rw [Barrier.enter, if_neg halive, if_neg (by omega)]
    · have hloc : Function.update (fun v => (Function.update s.loc t .reset v).notify) t .outside =
          Function.update (fun v => (s.loc v).notify) t .outside := by
        funext v
        by_cases hv : v = t <;> simp [hv]
      simp [List.replicate, Machine.run, machine, BarrierRun.next, h.alive, BarrierRun.step, ht, hlock, goto, halive,
        hlast, hloc]

/-- What the barrier is for. -/
structure Separates (s : BarrierRun N) : Prop where
  alive : s.fatal = false
  /-- Who has left its k-th `Wait` finds that everyone has entered theirs. -/
  apart : ∀ t v, s.left t ≤ s.entered v
  /-- Once everyone has entered the `Wait` a thread is in, it is woken up and the flag has flipped, -/
  free : s.owner = none → ∀ t, s.loc t ≠ .outside → (∀ v, s.left t < s.entered v) →
    ∃ flagCopy, s.loc t = .woken flagCopy ∧ flagCopy ≠ s.barrier.flag
  /-- which stays so until it has left, however long that takes; -/
  kept : ∀ t, s.Free t → ∀ es s', (machine N).run s es = some s' → s'.Free t ∨ s.left t < s'.left t
  /-- and it leaves with its own next steps. -/
  leaves : s.owner = none → ∀ t flagCopy, s.loc t = .woken flagCopy → flagCopy ≠ s.barrier.flag →
    ∃ s', (machine N).run s [.step t, .step t, .step t] = some s' ∧ s'.left t = s.left t + 1
  count : s.owner = none → 1 ≤ s.barrier.count ∧ s.barrier.count ≤ N

/-- The barrier separates rounds. -/
theorem wait_separates (hN : 0 < N) (hs : (machine N).Reachable s) : s.Separates := by
  have h := Inv.of_reachable hN hs
  exact {
    alive := h.alive
    apart := h.left_le
    free := fun hlock t ht hall => h.woken_of_entered hlock ht hall
    kept := fun t hfree es s' hr => h.free_run hfree hr
    leaves := fun hlock t flagCopy ht hne => h.leaves hlock ht hne
    count := h.count_of_free }

/-- Thread 0 falls asleep twice, thread 1 ends the round and waits in the next one. -/
def slowRun : List (Event 2) :=
  List.replicate 5 (.step 0) ++ [.wake 0] ++ List.replicate 2 (.step 0) ++ List.replicate 12 (.step 1)

/-- A thread that has been through a round and sleeps in the next one does not
strand the thread that is slow to wake. -/
theorem wait_separates_two : ∃ s : BarrierRun 2, (machine 2).Reachable s ∧ s.left 1 = 1 ∧ s.loc 1 = .asleep true ∧
    s.loc 0 = .woken false ∧ ∃ s', (machine 2).run s [.step 0, .step 0, .step 0] = some s' ∧ s'.left 0 = s.left 0 + 1 := by
  have hrun : ((machine 2).run (new 2) slowRun).map (fun s => (s.owner, s.left 1, s.loc 1, s.loc 0, s.barrier.flag)) =
      some (none, 1, .asleep true, .woken false, true) := by
    decide +kernel
  obtain ⟨s, hr, hs⟩ := Option.map_eq_some_iff.mp hrun
  simp only [Prod.mk.injEq] at hs
  obtain ⟨hlock, hleft, hloc1, hloc0, hflag⟩ := hs
  have hreach : (machine 2).Reachable s := Machine.Reachable.run (.init rfl) hr
  have hseparates := wait_separates (by decide) hreach
  exact ⟨s, hreach, hleft, hloc1, hloc0, hseparates.leaves hlock 0 false hloc0 (by rw [hflag]; decide)⟩

end BarrierRun

end SwitchML.Client
