/-
`AllReduce` over the dummy backend, from the job that is enqueued to the job that
is finished. The invariant follows each thread's slice of the job: as long as it
is not handed out its elements are those that were submitted, while a thread
works on it they are what its receive loop keeps, and from when it is handed
back they are reduced.

The context's `Stop` can cut a receive loop short, and the slice is handed back
all the same. So this holds for the runs where no slice of the job is, and where
nobody else writes to its buffers.
-/
import SwitchML.Client.DummyReduce
import SwitchML.Client.FifoContract

namespace SwitchML.Client

open FifoScheduler (jobSlice)

/-! ## The slices of a job -/

section Slices

variable {T : ℕ} {job : Job} {t u : Fin T} {k l : ℕ}

/-- Where the slice of thread `t` starts. -/
def sliceStart (T : ℕ) (job : Job) (t : ℕ) : ℕ := Split.start job.tensor.numel T t

theorem slice_inPtr (job : Job) (t : Fin T) (k : ℕ) :
    (jobSlice T job t).slice.inPtr + 4 * k = job.tensor.inPtr + 4 * (sliceStart T job t + k) := by
  show job.tensor.inPtr + FifoScheduler.sliceOffset T job.tensor.numel t * dataTypeSize job.tensor.dataType + 4 * k = _
  rw [sliceOffset_eq, Ppp.dataTypeSize_eq, sliceStart]
  ring

theorem slice_outPtr (job : Job) (t : Fin T) (k : ℕ) :
    (jobSlice T job t).slice.outPtr + 4 * k = job.tensor.outPtr + 4 * (sliceStart T job t + k) := by
  show job.tensor.outPtr + FifoScheduler.sliceOffset T job.tensor.numel t * dataTypeSize job.tensor.dataType + 4 * k = _
  rw [sliceOffset_eq, Ppp.dataTypeSize_eq, sliceStart]
  ring

theorem slice_numel : (jobSlice T job t).slice.numel = Split.size job.tensor.numel T t := rfl

theorem slice_lt (hk : k < (jobSlice T job t).slice.numel) : sliceStart T job t + k < job.tensor.numel := by
  have h1 := Split.start_add_size_le (n := job.tensor.numel) t.pos t.isLt
  rw [slice_numel] at hk
  rw [sliceStart]
  omega

/-- The slices of different threads have no element in common. -/
theorem slice_ne (htu : t ≠ u) (hk : k < (jobSlice T job t).slice.numel) (hl : l < (jobSlice T job u).slice.numel) :
    sliceStart T job t + k ≠ sliceStart T job u + l := by
  intro heq
  rw [slice_numel] at hk hl
  refine htu (Fin.ext (Split.part_unique (n := job.tensor.numel) (T := T) (i := sliceStart T job t + k) ?_ ?_))
  · exact ⟨Nat.le_add_right _ _, Nat.add_lt_add_left hk _⟩
  · rw [heq]
    exact ⟨Nat.le_add_right _ _, Nat.add_lt_add_left hl _⟩

theorem slice_separate (h : job.tensor.Separate) : (jobSlice T job t).slice.Separate := by
  have h1 := Split.start_add_size_le (n := job.tensor.numel) t.pos t.isLt
  have h2 := slice_inPtr job t 0
  have h3 := slice_outPtr job t 0
  have h4 : (jobSlice T job t).slice.numel = Split.size job.tensor.numel T t := rfl
  unfold Tensor.Separate at h ⊢
  rw [sliceStart] at h2 h3
  omega

/-- Every element is in the slice of some thread. -/
theorem exists_slice (hT : 0 < T) {i : ℕ} (hi : i < job.tensor.numel) :
    ∃ (t : Fin T) (k : ℕ), k < (jobSlice T job t).slice.numel ∧ i = sliceStart T job t + k := by
  rw [← Split.start_self (n := job.tensor.numel) hT] at hi
  obtain ⟨t, ht, h1, h2⟩ := Split.exists_part hi
  refine ⟨⟨t, ht⟩, i - sliceStart T job t, ?_, ?_⟩
  · rw [slice_numel]
    show i - Split.start job.tensor.numel T t < Split.size job.tensor.numel T t
    omega
  · show i = Split.start job.tensor.numel T t + (i - Split.start job.tensor.numel T t)
    omega

/-- The bytes from an address on are not in the tensor's buffers. -/
def Tensor.Spares (x : Tensor) (addr bytes : ℕ) : Prop :=
  (addr + bytes ≤ x.inPtr ∨ x.inPtr + 4 * x.numel ≤ addr) ∧ (addr + bytes ≤ x.outPtr ∨ x.outPtr + 4 * x.numel ≤ addr)

instance (x : Tensor) (addr bytes : ℕ) : Decidable (x.Spares addr bytes) := inferInstanceAs (Decidable (_ ∧ _))

end Slices

namespace DummyBackend

variable {T : ℕ} {K : Type} {c : DummyConfig T} {ops : FloatOps K} {s s' : DummyBackend T K} {t u : Fin T} {job : Job}
  {i : ℕ}

/-! ## The runs -/

/-- Nobody else writes to the buffers of a job that was enqueued: not the client,
and not a thread that works on another job. -/
def keepsBuffers (job : Job) (s : DummyBackend T K) : Event T → Bool
  | .write addr _ => !s.ctx.run.jobs.contains job || job.tensor.Spares addr 4
  | .process t =>
    match s.ctx.run.loc t with
    | .holding sl =>
      !s.ctx.run.jobs.contains job || sl.job = job || job.tensor.Spares sl.slice.outPtr (4 * sl.slice.numel)
    | _ => true
  | _ => true

/-- The context does not cut the receive loop of a slice of the job short. -/
def receivesAll (job : Job) (s : DummyBackend T K) : Event T → Bool
  | .ctx (.worker t received) =>
    s.ctx.worker t != .outside .work || received ||
      match s.ctx.run.loc t with
      | .holding sl => sl.job != job
      | _ => true
  | _ => true

/-! ## The invariant -/

/-- The input of thread `t`'s slice is what was submitted. -/
def Intact (job : Job) (s : DummyBackend T K) (t : Fin T) : Prop :=
  ∀ k < (jobSlice T job t).slice.numel, s.memory ((jobSlice T job t).slice.inPtr + 4 * k) =
    s.submitted job.id ((jobSlice T job t).slice.inPtr + 4 * k)

/-- The output of thread `t`'s slice is the reduced input. -/
def Reduced (c : DummyConfig T) (job : Job) (s : DummyBackend T K) (t : Fin T) : Prop :=
  ∀ k < (jobSlice T job t).slice.numel, s.memory ((jobSlice T job t).slice.outPtr + 4 * k) =
    s.submitted job.id ((jobSlice T job t).slice.inPtr + 4 * k) * BitVec.ofNat 32 c.numWorkers

/-- How far thread `t` is with its slice of the job, the `i`-th that was enqueued. -/
structure Correct (c : DummyConfig T) (job : Job) (i : ℕ) (s : DummyBackend T K) (t : Fin T) : Prop where
  fresh : s.ctx.run.taken t ≤ i → Intact job s t
  given : s.ctx.run.loc t = .holding (jobSlice T job t) → (s.ctx.worker t).toWork = true →
    (s.thread t).current = none → Intact job s t
  working : ∀ lp, (s.thread t).current = some lp → s.ctx.run.loc t = .holding (jobSlice T job t) →
    (s.thread t).Reducing c (s.submitted job.id) s.memory lp
  ended : s.ctx.run.loc t = .holding (jobSlice T job t) → (s.ctx.worker t).toNotify = true → Reduced c job s t
  completed : i < s.ctx.run.completed t → Reduced c job s t

/-- A step that leaves the thread and the elements of its slice alone. -/
theorem Correct.congr (h : Correct c job i s t) (hL : Loops c s) (htaken : s'.ctx.run.taken t = s.ctx.run.taken t)
    (hloc : s'.ctx.run.loc t = s.ctx.run.loc t) (hworker : s'.ctx.worker t = s.ctx.worker t)
    (hcompleted : s'.ctx.run.completed t = s.ctx.run.completed t) (hthread : s'.thread t = s.thread t)
    (hsub : s'.submitted job.id = s.submitted job.id)
    (hin : ∀ k < (jobSlice T job t).slice.numel, s'.memory ((jobSlice T job t).slice.inPtr + 4 * k) =
      s.memory ((jobSlice T job t).slice.inPtr + 4 * k))
    (hout : ∀ k < (jobSlice T job t).slice.numel, s'.memory ((jobSlice T job t).slice.outPtr + 4 * k) =
      s.memory ((jobSlice T job t).slice.outPtr + 4 * k)) : Correct c job i s' t := by
  have hintact : Intact job s t → Intact job s' t := fun hi k hk => by rw [hin k hk, hsub, hi k hk]
  have hreduced : Reduced c job s t → Reduced c job s' t := fun hr k hk => by rw [hout k hk, hsub, hr k hk]
  refine ⟨fun ht => ?_, fun hl hw hc => ?_, fun lp hlp hl => ?_, fun hl hw => ?_, fun hc => ?_⟩
  · exact hintact (h.fresh (htaken ▸ ht))
  · exact hintact (h.given (hloc ▸ hl) (hworker ▸ hw) (hthread ▸ hc))
  · rw [hthread] at hlp ⊢
    rw [hloc] at hl
    obtain ⟨hrec, -, ⟨sl, hl', hsl⟩, hset, htotal⟩ := (hL.kept t).working lp hlp
    obtain rfl : jobSlice T job t = sl := Loc.holding.inj (hl.symm.trans hl')
    have hred := h.working lp hlp hl
    rw [hsub]
    refine hred.frame hset (fun p hp => ?_) (fun k hk => ?_) fun k hk => ?_
    · have hlt := hrec.window.lt (List.mem_toFinset.mpr hp)
      rwa [htotal, hred.int32, if_neg (by simp), Nat.add_zero] at hlt
    · rw [Ppp.input, Ppp.input, hsl]
      exact hin k (hsl ▸ hk)
    · rw [hsl]
      exact hout k (hsl ▸ hk)
  · exact hreduced (h.ended (hloc ▸ hl) (hworker ▸ hw))
  · exact hreduced (h.completed (hcompleted ▸ hc))

/-! ## The context's steps -/

theorem submitted_withCtx (ctx : Ctx T) (hget : s.ctx.run.jobs[i]? = some job) :
    (s.withCtx ctx).submitted job.id = s.submitted job.id :=
  if_pos (Run.mem_ids hget)

/-- A job that was enqueued in this step. -/
theorem Correct.enqueued (hI : s'.ctx.run.Inv) (hget : s'.ctx.run.jobs[i]? = some job)
    (htaken : s'.ctx.run.taken t ≤ i) (hsub : s'.submitted job.id = s'.memory) : Correct c job i s' t := by
  have hnot : s'.ctx.run.loc t ≠ .holding (jobSlice T job t) := by
    intro hl
    obtain ⟨h1, job', hget', heq⟩ := hI.holding t _ hl
    have hjob : job = job' := congrArg JobSlice.job heq
    have h2 := hI.index_unique hget hget' (by rw [hjob])
    omega
  refine ⟨fun _ k _ => by rw [hsub], fun hl => absurd hl hnot, fun _ _ hl => absurd hl hnot, fun hl => absurd hl hnot,
    fun hc => ?_⟩
  have h1 := hI.completed_le t
  omega

/-- A step of the thread in the context, but for the end of its work. -/
theorem Correct.moved (h : Correct c job i s t) (hL : Loops c s) (hI : s.ctx.run.Inv)
    (hH : Ctx.Holding c.instantJobCompletion s.ctx) (hinst : c.instantJobCompletion = false)
    (hget : s.ctx.run.jobs[i]? = some job) {ctx : Ctx T} (hn : Ctx.WorkerStep c.instantJobCompletion s.ctx t ctx)
    (hw : s.ctx.worker t ≠ .outside .work) : Correct c job i (s.withCtx ctx) t := by
  have hsub := submitted_withCtx ctx hget
  have hcur : (s.thread t).current = none := by
    cases hc : (s.thread t).current with
    | none => rfl
    | some lp => exact absurd ((hL.kept t).working lp hc).work hw
  have hintact : Intact job s t → Intact job (s.withCtx ctx) t := fun hi k hk => by
    rw [hsub]
    exact hi k hk
  have hreduced : Reduced c job s t → Reduced c job (s.withCtx ctx) t := fun hr k hk => by
    rw [hsub]
    exact hr k hk
  refine ⟨fun ht => hintact (h.fresh ?_), fun hl hwork _ => hintact ?_, fun lp hlp => ?_,
    fun hl hnotify => hreduced ?_, fun hc => hreduced ?_⟩
  · rcases hn.run_eq with heq | ⟨e, -, hr⟩
    · rw [← heq]
      exact ht
    · exact ((hI.took hr).taken_le t).trans ht
  · rcases hn.toWork hwork with ⟨heq, hwork'⟩ | hr
    · exact h.given (heq ▸ hl) hwork' hcur
    · -- it has just been given the slice
      have hl' : ctx.run.loc t = .holding (jobSlice T job t) := hl
      generalize ctx.run = run at hr hl'
      cases hI.took hr with
      | late => rw [Run.loc_goto_self] at hl'; cases hl'
      | given t job' rest _ _ _ hget' =>
        have hl'' : (s.ctx.run.goto t (.holding (jobSlice T job' t))).loc t = .holding (jobSlice T job t) := hl'
        rw [Run.loc_goto_self] at hl''
        have hjob : job' = job := congrArg JobSlice.job (Loc.holding.inj hl'')
        exact h.fresh (hI.index_unique hget' hget (by rw [hjob])).le
  · rw [withCtx_thread, hcur] at hlp
    cases hlp
  · obtain ⟨heq, hnotify' | htest | hwork⟩ := hn.toNotify hnotify
    · exact h.ended (heq ▸ hl) hnotify'
    · -- the slice has no elements
      obtain ⟨sl, hl', hsuits⟩ := hH t (by rw [htest]; rfl)
      have hl'' : s.ctx.run.loc t = .holding (jobSlice T job t) := heq ▸ hl
      obtain rfl : jobSlice T job t = sl := Loc.holding.inj (hl''.symm.trans hl')
      rw [htest, hinst] at hsuits
      have hzero : (jobSlice T job t).slice.numel = 0 := hsuits.resolve_right (by simp)
      intro k hk
      omega
    · exact absurd hwork hw
  · rcases hn.completed_cases hI with heq | ⟨hnotify, heq⟩
    · exact h.completed (heq ▸ hc)
    · have hc' : i < s.ctx.run.completed t + 1 := heq ▸ hc
      rcases Nat.lt_succ_iff_lt_or_eq.mp hc' with hlt | rfl
      · exact h.completed hlt
      · obtain ⟨sl, hl, -⟩ := hH t (by rw [hnotify]; rfl)
        obtain ⟨-, job', hget', rfl⟩ := hI.holding t sl hl
        obtain rfl : job = job' := Option.some.inj (hget.symm.trans hget')
        exact h.ended hl (by rw [hnotify]; rfl)

/-- The thread leaves its receive loop with its slice reduced. -/
theorem Correct.left (h : Correct c job i s t) (hL : Loops c s) (hget : s.ctx.run.jobs[i]? = some job)
    {received : Bool} {lp : DummyLoop} {ctx : Ctx T} (hw : s.ctx.worker t = .outside .work)
    (hlp : (s.thread t).current = some lp) (hleft : lp.left = some received)
    (hn : s.ctx.next c.instantJobCompletion (.worker t received) = some ctx)
    (hall : s.ctx.run.loc t = .holding (jobSlice T job t) → received = true) :
    Correct c job i ((s.withCtx ctx).setThread t { s.thread t with current := none }) t := by
  obtain ⟨hrun, -, hworker, -⟩ := Ctx.next_work hw hn
  have hsub := submitted_withCtx ctx hget
  have hpc : ctx.worker t = .outside (.enter .notify) := by rw [hworker, Function.update_self]
  refine ⟨fun ht k hk => ?_, fun _ hwork => ?_, fun lp' hlp' => ?_, fun hl _ k hk => ?_, fun hc k hk => ?_⟩
  · rw [setThread_submitted, hsub]
    exact h.fresh (hrun ▸ ht) k hk
  · change (ctx.worker t).toWork = true at hwork
    rw [hpc] at hwork
    cases hwork
  · rw [setThread_self] at hlp'
    cases hlp'
  · have hl' : s.ctx.run.loc t = .holding (jobSlice T job t) := hrun ▸ hl
    obtain ⟨hrec, -, ⟨sl, hl'', hsl⟩, hset, htotal⟩ := (hL.kept t).working lp hlp
    obtain rfl : jobSlice T job t = sl := Loc.holding.inj (hl'.symm.trans hl'')
    have hred := h.working lp hlp hl'
    rw [hred.int32, if_neg (by simp), Nat.add_zero] at htotal
    rw [hall hl'] at hleft
    unfold DummyLoop.left at hleft
    split at hleft
    · rename_i hburst
      have hperm := (hrec.perm_iff hburst).mp (of_decide_eq_true (Option.some.inj hleft))
      rw [htotal] at hperm
      have hdone := hred.reduced hset hperm (i := k) (by rw [hsl]; exact hk)
      rw [setThread_submitted, hsub]
      rw [Ppp.input, hsl] at hdone
      exact hdone
    · cases hleft
  · rw [setThread_submitted, hsub]
    exact h.completed (hrun ▸ hc) k hk

/-! ## The thread's own steps -/

/-- A step that changes only what the thread has while it works on a slice. -/
theorem Correct.setThread (h : Correct c job i s t) {w : DummyWorkerThread K} {lp : DummyLoop} {memory : Memory}
    (hlp : w.current = some lp) (hmem : memory = s.memory)
    (hw : s.ctx.run.loc t = .holding (jobSlice T job t) → w.Reducing c (s.submitted job.id) memory lp) :
    Correct c job i { s.setThread t w with memory } t := by
  subst hmem
  refine ⟨h.fresh, fun _ _ hnone => ?_, fun lp' hlp' hl => ?_, h.ended, h.completed⟩
  · change ((s.setThread t w).thread t).current = none at hnone
    rw [setThread_self, hlp] at hnone
    cases hnone
  · change ((s.setThread t w).thread t).current = some lp' at hlp'
    rw [setThread_self, hlp] at hlp'
    obtain rfl := Option.some.inj hlp'
    show ((s.setThread t w).thread t).Reducing c (s.submitted job.id) s.memory lp
    rw [setThread_self]
    exact hw hl

theorem Correct.began (h : Correct c job i s t) (hL : Loops c s) (hc : c.Rounds)
    (hH : Ctx.Holding c.instantJobCompletion s.ctx) (hd : job.tensor.dataType = .int32) (hsep : job.tensor.Separate)
    {sl : JobSlice} (hw : s.ctx.worker t = .outside .work) (hl : s.ctx.run.loc t = .holding sl)
    (hcur : (s.thread t).current = none)
    (hb : DummyWorkerThread.batchNumPkts c ((s.thread t).ppp.setupJobSlice sl.slice) ≠ 0) :
    Correct c job i (s.setThread t ((s.thread t).begin c ops s.memory sl)) t := by
  have hk := hL.kept t
  obtain ⟨sl', hl', hsuits⟩ := hH t (by rw [hw]; rfl)
  obtain rfl : sl = sl' := Loc.holding.inj (hl.symm.trans hl')
  rw [hw] at hsuits
  have hpending : (s.thread t).pendingPackets = [] := by
    refine (hk.idle hcur).resolve_right fun hwind => ?_
    rw [hw] at hwind
    cases hwind.2
  obtain ⟨lp, hlp⟩ : ∃ lp, ((s.thread t).begin c ops s.memory sl).current = some lp := ⟨_, rfl⟩
  refine h.setThread hlp rfl fun hjob => ?_
  have hwork := Working.begin hk hc hpending hw hl hsuits.1 hb hlp
  obtain rfl : sl = jobSlice T job t := Loc.holding.inj (hl.symm.trans hjob)
  have hd' : ((s.thread t).begin c ops s.memory (jobSlice T job t)).ppp.slice.dataType = .int32 := hd
  have htotal := hwork.total
  rw [hd', if_neg (by simp), Nat.add_zero] at htotal
  exact .begin hpending hd (slice_separate hsep) hwork.receiving htotal hwork.setUp hlp
    (h.given hjob (by rw [hw]; rfl) hcur)

theorem Correct.receivedBurst (h : Correct c job i s t) (hL : Loops c s) (hproc : c.processPackets = true)
    {choices : List ℕ} {lp : DummyLoop} {w : DummyWorkerThread K} {received : List DummyPacket}
    (hlp : (s.thread t).current = some lp) (hburst : lp.receivedPackets = [])
    (hr : (s.thread t).receiveBurst c [] choices = some (w, received)) :
    Correct c job i (s.setThread t { w with
      current := some { lp with
        receivedPackets := received, numPacketsReceived := lp.numPacketsReceived + received.length } }) t := by
  refine h.setThread rfl rfl fun hl => ?_
  have hltu : (s.thread t).ppp.ltuNumel = c.packetNumel := by
    rw [Ppp.ltuNumel, Ppp.dataTypeSize_eq, (hL.kept t).ltuSize]
    exact Nat.mul_div_cancel _ (by decide)
  exact (h.working lp hlp hl).receiveBurst ((hL.kept t).working lp hlp).receiving hproc hltu hburst hr

/-- A packet is postprocessed within the output of its slice. -/
theorem process_frame {w : DummyWorkerThread K} {lp : DummyLoop} (hw : Working c s.ctx u w lp) {pkt : DummyPacket}
    {rest : List DummyPacket} (hburst : lp.receivedPackets = pkt :: rest) {memory : Memory} {addr : ℕ}
    (ha : ∀ k < w.ppp.slice.numel, addr ≠ w.ppp.slice.outPtr + 4 * k) :
    (w.process ops memory lp pkt rest).2 addr = memory addr := by
  have hpkt : pkt ∈ w.live lp := by
    rw [DummyWorkerThread.live, hburst]
    simp
  have hlt := (hw.receiving.outstanding hpkt).1.1
  rw [hw.total] at hlt
  exact Ppp.postprocessSingle_frame hw.setUp (fun l => Ppp.lt_of_payloadLtu hlt) ha

/-- It changes no element of another slice of the job. -/
theorem process_elements (hL : Loops c s) (hI : s.ctx.run.Inv) (hsep : job.tensor.Separate)
    (hget : s.ctx.run.jobs[i]? = some job) (hkeep : s.keepsBuffers job (.process u) = true) {lp : DummyLoop}
    (hlp : (s.thread u).current = some lp) {pkt : DummyPacket} {rest : List DummyPacket}
    (hburst : lp.receivedPackets = pkt :: rest) (hother : t ≠ u ∨ s.ctx.run.loc u ≠ .holding (jobSlice T job u)) {k : ℕ}
    (hk : k < (jobSlice T job t).slice.numel) :
    ((s.thread u).process ops s.memory lp pkt rest).2 ((jobSlice T job t).slice.inPtr + 4 * k) =
        s.memory ((jobSlice T job t).slice.inPtr + 4 * k) ∧
      ((s.thread u).process ops s.memory lp pkt rest).2 ((jobSlice T job t).slice.outPtr + 4 * k) =
        s.memory ((jobSlice T job t).slice.outPtr + 4 * k) := by
  have hw := (hL.kept u).working lp hlp
  obtain ⟨sl, hl, hsl⟩ := hw.holding
  have hlt := slice_lt hk
  have key : ∀ l < sl.slice.numel, (jobSlice T job t).slice.inPtr + 4 * k ≠ sl.slice.outPtr + 4 * l ∧
      (jobSlice T job t).slice.outPtr + 4 * k ≠ sl.slice.outPtr + 4 * l := by
    intro l hlen
    rw [slice_inPtr, slice_outPtr]
    by_cases hjob : sl.job = job
    · -- a slice of the same job, so of another thread
      obtain ⟨-, job', -, rfl⟩ := hI.holding u sl hl
      obtain rfl : job' = job := hjob
      have htu : t ≠ u := hother.resolve_right fun hne => hne hl
      have hne := slice_ne htu hk hlen
      have hlt' := slice_lt hlen
      rw [slice_outPtr]
      unfold Tensor.Separate at hsep
      omega
    · have hmem : job ∈ s.ctx.run.jobs := List.mem_of_getElem? hget
      simp only [keepsBuffers, hl, List.contains_eq_mem, hmem, decide_true, Bool.not_true, hjob, decide_false,
        Bool.false_or, decide_eq_true_eq] at hkeep
      unfold Tensor.Spares at hkeep
      omega
  rw [← hsl] at key
  exact ⟨process_frame hw hburst fun l hlen => (key l hlen).1, process_frame hw hburst fun l hlen => (key l hlen).2⟩

/-- The thread postprocesses a packet. -/
theorem Correct.processed (h : Correct c job i s t) (hL : Loops c s) (hI : s.ctx.run.Inv) (hsep : job.tensor.Separate)
    (hget : s.ctx.run.jobs[i]? = some job) (hkeep : s.keepsBuffers job (.process t) = true) {lp : DummyLoop}
    (hlp : (s.thread t).current = some lp) {pkt : DummyPacket} {rest : List DummyPacket}
    (hburst : lp.receivedPackets = pkt :: rest) :
    Correct c job i { s.setThread t ((s.thread t).process ops s.memory lp pkt rest).1 with
      memory := ((s.thread t).process ops s.memory lp pkt rest).2 } t := by
  have hw := (hL.kept t).working lp hlp
  obtain ⟨sl, hl, hsl⟩ := hw.holding
  by_cases hjob : s.ctx.run.loc t = .holding (jobSlice T job t)
  · obtain ⟨htaken, job', hget', heq⟩ := hI.holding t _ hjob
    have hjobs : job = job' := congrArg JobSlice.job heq
    have hi : i = s.ctx.run.completed t := hI.index_unique hget hget' (by rw [hjobs])
    refine ⟨fun ht => ?_, fun _ _ hnone => ?_, fun lp' hlp' _ => ?_, fun _ hnotify => ?_, fun hc => ?_⟩
    · have ht' : s.ctx.run.taken t ≤ i := ht
      omega
    · change ((s.setThread t _).thread t).current = none at hnone
      rw [setThread_self] at hnone
      cases hnone
    · change ((s.setThread t _).thread t).current = some lp' at hlp'
      show ((s.setThread t ((s.thread t).process ops s.memory lp pkt rest).1).thread t).Reducing c
        (s.submitted job.id) ((s.thread t).process ops s.memory lp pkt rest).2 lp'
      rw [setThread_self] at hlp' ⊢
      obtain rfl := Option.some.inj hlp'
      have hred := h.working lp hlp hjob
      have htotal := hw.total
      rw [hred.int32, if_neg (by simp), Nat.add_zero] at htotal
      exact hred.process hw.receiving hw.setUp htotal hburst
    · change (s.ctx.worker t).toNotify = true at hnotify
      rw [hw.work] at hnotify
      cases hnotify
    · have hc' : i < s.ctx.run.completed t := hc
      omega
  · have helem : ∀ k < (jobSlice T job t).slice.numel,
        ((s.thread t).process ops s.memory lp pkt rest).2 ((jobSlice T job t).slice.inPtr + 4 * k) =
          s.memory ((jobSlice T job t).slice.inPtr + 4 * k) ∧
        ((s.thread t).process ops s.memory lp pkt rest).2 ((jobSlice T job t).slice.outPtr + 4 * k) =
          s.memory ((jobSlice T job t).slice.outPtr + 4 * k) := fun k hk =>
      process_elements hL hI hsep hget hkeep hlp hburst (.inr hjob) hk
    refine ⟨fun ht k hk => ?_, fun hl' => absurd hl' hjob, fun _ _ hl' => absurd hl' hjob,
      fun hl' => absurd hl' hjob, fun hc k hk => ?_⟩
    · exact (helem k hk).1.trans (h.fresh ht k hk)
    · exact (helem k hk).2.trans (h.completed hc k hk)

/-! ## Every step -/

/-- How far all threads are with the job, once it was enqueued. -/
def Reduces (c : DummyConfig T) (job : Job) (s : DummyBackend T K) : Prop :=
  ∀ i, s.ctx.run.jobs[i]? = some job → ∀ t, Correct c job i s t

theorem Reduces.ctx (h : Reduces c job s) (hL : Loops c s) (hI : s.ctx.run.Inv) {ctx : Ctx T} (hI' : ctx.run.Inv)
    {e : Ctx.Event T} (hn : s.ctx.next c.instantJobCompletion e = some ctx) {thread : Fin T → DummyWorkerThread K}
    (hown : ∀ i, s.ctx.run.jobs[i]? = some job → ∀ t received, e = .worker t received →
      Correct c job i { s.withCtx ctx with thread } t)
    (hthread : ∀ t, (∀ received, e ≠ .worker t received) → thread t = s.thread t) :
    Reduces c job { s.withCtx ctx with thread } := by
  intro i hget t
  have hold : s.ctx.run.jobs[i]? = some job → Correct c job i { s.withCtx ctx with thread } t := by
    intro hget'
    by_cases he : ∃ received, e = .worker t received
    · obtain ⟨received, he⟩ := he
      exact hown i hget' t received he
    · have he' : ∀ received, e ≠ .worker t received := fun received heq => he ⟨received, heq⟩
      obtain ⟨hgot, hcompleted⟩ := Ctx.counts_of_next hI hn he'
      exact (h i hget' t).congr hL (congrArg List.length hgot) (Ctx.loc_of_next hI hn he') (Ctx.worker_of_next hn he')
        hcompleted (hthread t he') (submitted_withCtx ctx hget') (fun _ _ => rfl) fun _ _ => rfl
  have hget' : ctx.run.jobs[i]? = some job := hget
  rcases Ctx.jobs_of_next hI hn with hjobs | ⟨job', hnew, hjobs, hgot⟩
  · exact hold (hjobs ▸ hget')
  · rw [hjobs] at hget'
    rcases Run.jobs_getElem?_append.mp hget' with hget'' | ⟨hlen, rfl⟩
    · exact hold hget''
    · refine .enqueued hI' hget ?_ (if_neg hnew)
      have h1 := hI.taken_le t
      show (ctx.run.got t).length ≤ i
      rw [hgot, hlen]
      exact h1

/-- A step of one thread leaves the others as they are. -/
theorem Reduces.thread (h : Reduces c job s) (hL : Loops c s) {w : DummyWorkerThread K} {memory : Memory}
    (hown : ∀ i, s.ctx.run.jobs[i]? = some job → Correct c job i { s.setThread t w with memory } t)
    (helem : ∀ v ≠ t, ∀ i : ℕ, s.ctx.run.jobs[i]? = some job → ∀ k < (jobSlice T job v).slice.numel,
      memory ((jobSlice T job v).slice.inPtr + 4 * k) = s.memory ((jobSlice T job v).slice.inPtr + 4 * k) ∧
      memory ((jobSlice T job v).slice.outPtr + 4 * k) = s.memory ((jobSlice T job v).slice.outPtr + 4 * k)) :
    Reduces c job { s.setThread t w with memory } := by
  intro i hget v
  by_cases hvt : v = t
  · subst hvt
    exact hown i hget
  · exact (h i hget v).congr hL rfl rfl rfl rfl (setThread_of_ne hvt) rfl (fun k hk => (helem v hvt i hget k hk).1)
      fun k hk => (helem v hvt i hget k hk).2

theorem Reduces.step (h : Reduces c job s) (hL : Loops c s) (hc : c.Rounds) (hproc : c.processPackets = true)
    (hinst : c.instantJobCompletion = false) (hd : job.tensor.dataType = .int32) (hsep : job.tensor.Separate)
    (hI : s.ctx.run.Inv) (hH : Ctx.Holding c.instantJobCompletion s.ctx) (hI' : s'.ctx.run.Inv) {e : Event T}
    (hkeep : s.keepsBuffers job e = true) (hall : s.receivesAll job e = true) (hn : s.next c ops e = some s') :
    Reduces c job s' := by
  cases DummyBackend.step hn with
  | moved e ctx hctx hwork =>
    refine h.ctx hL hI hI' hctx (fun i hget t received he => ?_) fun _ _ => rfl
    subst he
    obtain ⟨-, hstep⟩ := Ctx.next_cases hctx
    have hw : Ctx.WorkerStep c.instantJobCompletion s.ctx t ctx := by
      simp only [Ctx.next] at hctx
      split at hctx
      · cases hctx
      · exact Ctx.workerStep hctx
    exact (h i hget t).moved hL hI hH hinst hget hw (hwork t received rfl)
  | left t received lp ctx hw hlp hleft hctx =>
    refine h.ctx hL hI hI' hctx (fun i hget v received' he => ?_) fun v hv => ?_
    · cases he
      refine (h i hget t).left hL hget hw hlp hleft hctx fun hl => ?_
      simpa [receivesAll, hw, hl, jobSlice] using hall
    · refine Function.update_of_ne ?_ ..
      rintro rfl
      exact hv received rfl
  | began t sl hw hl hcur hb =>
    exact h.thread hL (fun i hget => (h i hget t).began hL hc hH hd hsep hw hl hcur hb) fun v _ i _ k _ => ⟨rfl, rfl⟩
  | sentNone t sl hw hl hcur hb =>
    exact fun i hget v => (h i hget v).congr hL rfl rfl rfl rfl rfl rfl (fun _ _ => rfl) fun _ _ => rfl
  | receivedBurst t choices lp w received hlp hburst hnum hr =>
    exact h.thread hL (fun i hget => (h i hget t).receivedBurst hL hproc hlp hburst hr) fun v _ i _ k _ => ⟨rfl, rfl⟩
  | receivedNone t choices lp hlp hburst hnum hp =>
    exact fun i hget v => (h i hget v).congr hL rfl rfl rfl rfl rfl rfl (fun _ _ => rfl) fun _ _ => rfl
  | processed t lp pkt rest hlp hburst =>
    refine h.thread hL (fun i hget => (h i hget t).processed hL hI hsep hget hkeep hlp hburst) fun v hv i hget k hk => ?_
    exact process_elements hL hI hsep hget hkeep hlp hburst (.inl hv) hk
  | wrote addr w =>
    intro i hget v
    have hspare : job.tensor.Spares addr 4 := by
      have hmem : job ∈ s.ctx.run.jobs := List.mem_of_getElem? hget
      simpa [keepsBuffers, hmem] using hkeep
    refine (h i hget v).congr hL rfl rfl rfl rfl rfl rfl (fun k hk => ?_) fun k hk => ?_
    · refine Function.update_of_ne ?_ ..
      rw [slice_inPtr]
      have hlt := slice_lt hk
      unfold Tensor.Spares at hspare
      omega
    · refine Function.update_of_ne ?_ ..
      rw [slice_outPtr]
      have hlt := slice_lt hk
      unfold Tensor.Spares at hspare
      omega

theorem Reduces.of_reach (hc : c.Rounds) (hproc : c.processPackets = true) (hinst : c.instantJobCompletion = false)
    (hd : job.tensor.dataType = .int32) (hsep : job.tensor.Separate)
    (h : (machine c ops).Reach (fun s e => s.keepsBuffers job e = true ∧ s.receivesAll job e = true) s) :
    Reduces c job s := by
  have hpair : (machine c ops).Reachable s ∧ Reduces c job s := by
    refine Machine.Reach.invariant (I := fun s => (machine c ops).Reachable s ∧ Reduces c job s) (fun s hs => ?_)
      (fun s e s' hI hok hn => ?_) h
    · refine ⟨.init hs, fun i hget => ?_⟩
      obtain ⟨memory, outstanding, rfl⟩ := hs
      cases hget
    · obtain ⟨hr, hred⟩ := hI
      have hr' := hr.step hn
      exact ⟨hr', hred.step (Loops.of_reachable hc hr) hc hproc hinst hd hsep (run_inv hr) (holding_of_reachable hr)
        (run_inv hr') hok.1 hok.2 hn⟩
  exact hpair.2

/-! ## The job -/

/-- Memory is changed by the client, and by the threads in the outputs of the
jobs. -/
theorem memory_frame (hL : Loops c s) (hI : s.ctx.run.Inv) {e : Event T} (hn : s.next c ops e = some s') {addr : ℕ}
    (hne : s'.memory addr ≠ s.memory addr) :
    (∃ w, e = .write addr w) ∨ ∃ job ∈ s.ctx.run.jobs, ∃ i < job.tensor.numel, addr = job.tensor.outPtr + 4 * i := by
  cases DummyBackend.step hn with
  | moved | left | began | sentNone | receivedBurst | receivedNone => exact absurd rfl hne
  | processed t lp pkt rest hlp hburst =>
    right
    have hw := (hL.kept t).working lp hlp
    obtain ⟨sl, hl, hsl⟩ := hw.holding
    obtain ⟨-, job, hget, rfl⟩ := hI.holding t sl hl
    by_contra hall
    refine hne (process_frame hw hburst fun k hk heq => hall ⟨job, List.mem_of_getElem? hget, ?_⟩)
    rw [hsl] at hk heq
    rw [slice_outPtr] at heq
    exact ⟨_, slice_lt hk, heq⟩
  | wrote a w =>
    left
    by_cases ha : addr = a
    · exact ⟨w, by rw [ha]⟩
    · exact absurd (Function.update_of_ne ha ..) hne

/-- In these runs the loops receive every packet once, in buffers of their own,
no check fails, and a job that is finished is reduced. -/
theorem allReduce_correct (hc : c.Rounds) (hproc : c.processPackets = true) (hinst : c.instantJobCompletion = false)
    (hd : job.tensor.dataType = .int32) (hsep : job.tensor.Separate)
    (h : (machine c ops).Reach (fun s e => s.keepsBuffers job e = true ∧ s.receivesAll job e = true) s) :
    s.fault = none ∧
    (∀ t lp, (s.thread t).current = some lp →
      ((s.thread t).pendingPackets.map DummyPacket.buffer).Nodup ∧
      (lp.receivedPackets = [] → lp.numPacketsReceived ≠ lp.totalNumPkts → (s.thread t).pendingPackets ≠ []) ∧
      (lp.posts.Nodup ∧ ∀ p ∈ lp.posts, p < lp.totalNumPkts) ∧
      (lp.receivedPackets = [] →
        (lp.numPacketsReceived = lp.totalNumPkts ↔ lp.posts.Perm (List.range lp.totalNumPkts)))) ∧
    (∀ e s', s.next c ops e = some s' → ∀ addr, s'.memory addr ≠ s.memory addr → (∃ w, e = .write addr w) ∨
      ∃ job' ∈ s.ctx.run.jobs, ∃ i < job'.tensor.numel, addr = job'.tensor.outPtr + 4 * i) ∧
    (job ∈ s.ctx.run.jobs → s.ctx.run.sched.status job.id = .finished → ∀ i < job.tensor.numel,
      s.memory (job.tensor.outPtr + 4 * i) =
        s.submitted job.id (job.tensor.inPtr + 4 * i) * BitVec.ofNat 32 c.numWorkers) := by
  have hL := Loops.of_reachable hc h.reachable
  have hI := run_inv h.reachable
  refine ⟨hL.fault, fun t lp hlp => ?_, fun e s' hn addr hne => memory_frame hL hI hn hne, fun hj hfin i hi => ?_⟩
  · have hrec := ((hL.kept t).working lp hlp).receiving
    refine ⟨?_, hrec.pending, ⟨hrec.nodup, fun p hp => hrec.window.lt (List.mem_toFinset.mpr hp)⟩, hrec.perm_iff⟩
    have hbuf := hrec.buffers
    rw [DummyWorkerThread.live, List.append_assoc, List.map_append] at hbuf
    exact (List.nodup_append.mp hbuf).1
  · obtain ⟨n, hget⟩ := List.mem_iff_getElem?.mp hj
    obtain ⟨t, k, hk, rfl⟩ := exists_slice c.threads_pos hi
    have hdone := (Reduces.of_reach hc hproc hinst hd hsep h n hget t).completed (hI.finished n job hget hfin t) k hk
    rwa [slice_inPtr, slice_outPtr] at hdone

/-! ## Runs -/

def exampleGeneral (T : ℕ) (maxOutstandingPackets : BitVec 32) : Config where
  numWorkerThreads := BitVec.ofNat 16 T
  maxOutstandingPackets
  packetNumel := 1
  backend := .dummy
  msgNumel := 0

/-- Two workers reduce packets of one element each. -/
def exampleConfig (T : ℕ) (maxOutstandingPackets validated : BitVec 32) (ht : (BitVec.ofNat 16 T).toNat = T)
    (ha : (exampleGeneral T maxOutstandingPackets).validate ⟨false, false⟩ = .ok (exampleGeneral T validated))
    (hb : (exampleGeneral T validated).maxOutstandingPkts < 2 ^ 62) : DummyConfig T where
  build := ⟨false, false⟩
  general := exampleGeneral T maxOutstandingPackets
  numWorkers := 2
  instantJobCompletion := false
  processPackets := true
  validated := exampleGeneral T validated
  backend := rfl
  threads := ht
  accepted := ha
  packetNumel_pos := Nat.one_pos
  buffers := by
    show (exampleGeneral T validated).maxOutstandingPkts * 1 * 4 < 2 ^ 64
    omega

/-- A job that is reduced in place. -/
def exampleJob (numel : ℕ) : Job := { id := 0, tensor := { inPtr := 0, outPtr := 0, numel, dataType := .int32 } }

/-- Every word in memory is 1. -/
def exampleInit (c : DummyConfig T) : DummyBackend T ℕ where
  ctx := Ctx.new T
  memory _ := 1
  thread _ := DummyWorkerThread.new c fun _ => { entries := fun _ => 0, exponent := 0 }
  fault := none
  submitted _ _ := 1

theorem init_exampleInit (c : DummyConfig T) : (machine c exampleOps).init (exampleInit c) := ⟨_, _, rfl⟩

def workerSteps (t : Fin T) (n : ℕ) (received : Bool) : List (Event T) := List.replicate n (.ctx (.worker t received))

def clientSteps (call : Call) (n : ℕ) : List (Event T) := List.replicate n (.ctx (.client call))

/-- `2^32 - 1` packets for four threads are rounded to `2^32`, which is 0, and the
thread that sets up its slice sends no packet. -/
def wrappedEvents : List (Event 4) :=
  clientSteps (.allReduce (exampleJob 4) false) 7 ++ (List.finRange 4).flatMap (workerSteps · 8 true) ++
    workerSteps 0 6 true ++ [.begin 0]

/-- The context is stopped while the thread has its packet outstanding, and the
thread hands its slice back before the scheduler is stopped. -/
def cutEvents : List (Event 1) :=
  clientSteps (.allReduce (exampleJob 1) false) 7 ++ workerSteps 0 11 true ++ [.begin 0] ++ clientSteps .stop 3 ++
    workerSteps 0 7 false

/-- A check fails, and a job is finished that was not reduced. -/
theorem allReduce_incorrect :
    (∃ (c : DummyConfig 4) (s : DummyBackend 4 ℕ), c.general.maxOutstandingPackets.toNat = 2 ^ 32 - 1 ∧
      (machine c exampleOps).Reachable s ∧ s.fault = some .sendBurst) ∧
    ∃ (c : DummyConfig 1) (s : DummyBackend 1 ℕ), c.processPackets = true ∧ c.instantJobCompletion = false ∧
      (machine c exampleOps).Reach (fun s e => s.keepsBuffers (exampleJob 1) e = true) s ∧
      exampleJob 1 ∈ s.ctx.run.jobs ∧ s.ctx.run.sched.status 0 = .finished ∧
      s.memory 0 ≠ s.submitted 0 0 * BitVec.ofNat 32 c.numWorkers := by
  constructor
  · let c := exampleConfig 4 (BitVec.allOnes 32) 0 rfl rfl (by decide)
    have hrun : ((machine c exampleOps).run (exampleInit c) wrappedEvents).map (fun s => s.fault) =
        some (some .sendBurst) := by
      decide +kernel
    obtain ⟨s, hr, hfault⟩ := Option.map_eq_some_iff.mp hrun
    exact ⟨c, s, rfl, Machine.Reachable.run (.init (init_exampleInit c)) hr, hfault⟩
  · let c := exampleConfig 1 1 1 rfl rfl (by decide)
    have hrun : ((machine c exampleOps).runWhile (fun s e => s.keepsBuffers (exampleJob 1) e = true) (exampleInit c)
        cutEvents).map (fun s => (s.ctx.run.jobs, s.ctx.run.sched.status 0, s.memory 0, s.submitted 0 0)) =
        some ([exampleJob 1], .finished, 1, 1) := by
      decide +kernel
    obtain ⟨s, hr, heq⟩ := Option.map_eq_some_iff.mp hrun
    simp only [Prod.mk.injEq] at heq
    obtain ⟨hjobs, hstatus, hmem, hsub⟩ := heq
    refine ⟨c, s, rfl, rfl, Machine.Reach.runWhile (.init (init_exampleInit c)) hr, ?_, hstatus, ?_⟩
    · rw [hjobs]
      exact List.mem_singleton_self _
    · rw [hmem, hsub]
      decide

/-- Three packets in two buffers, which come back out of order. -/
def reducedEvents : List (Event 1) :=
  clientSteps (.allReduce (exampleJob 3) false) 7 ++ workerSteps 0 11 true ++
    [.begin 0, .receiveBurst 0 [0], .process 0, .receiveBurst 0 [1, 0], .process 0, .process 0] ++ workerSteps 0 7 true

theorem allReduce_correct_three : ∃ s : DummyBackend 1 ℕ, s.ctx.run.sched.status 0 = .finished ∧
    ∀ i < 3, s.memory (0 + 4 * i) = s.submitted 0 (0 + 4 * i) * 2 := by
  let c := exampleConfig 1 2 2 rfl rfl (by decide)
  have hrun : ((machine c exampleOps).runWhile
      (fun s e => s.keepsBuffers (exampleJob 3) e = true ∧ s.receivesAll (exampleJob 3) e = true) (exampleInit c)
      reducedEvents).map (fun s => (s.ctx.run.jobs, s.ctx.run.sched.status 0)) = some ([exampleJob 3], .finished) := by
    decide +kernel
  obtain ⟨s, hr, heq⟩ := Option.map_eq_some_iff.mp hrun
  simp only [Prod.mk.injEq] at heq
  obtain ⟨hjobs, hstatus⟩ := heq
  obtain ⟨-, -, -, hout⟩ := allReduce_correct (c := c) (by decide) rfl rfl rfl (by decide)
    (Machine.Reach.runWhile (.init (init_exampleInit c)) hr)
  exact ⟨s, hstatus, hout (by rw [hjobs]; exact List.mem_singleton_self _) hstatus⟩

end DummyBackend

end SwitchML.Client
