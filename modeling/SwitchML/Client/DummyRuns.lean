/-
The runs of the dummy backend: in each the receive loops keep their invariant
and no check of the backend fails. It rests on each thread having a packet
outstanding at least. A thread whose receive loop the stopped context has cut
short still has packets pending, but it never sets up another slice.
-/
import SwitchML.Client.DummyReceive

namespace SwitchML.Client

namespace DummyBackend

variable {T : ℕ} {K : Type} {c : DummyConfig T} {ops : FloatOps K} {s s' : DummyBackend T K} {t : Fin T}
  {w : DummyWorkerThread K}

/-- A thread in its receive loop, with the slice it holds. -/
structure Working (c : DummyConfig T) (ctx : Ctx T) (t : Fin T) (w : DummyWorkerThread K) (lp : DummyLoop) : Prop where
  receiving : w.Receiving c lp
  work : ctx.worker t = .outside .work
  holding : ∃ sl, ctx.run.loc t = .holding sl ∧ w.ppp.slice = sl.slice
  setUp : w.ppp.SetUp
  total : lp.totalNumPkts = w.ppp.totalMainNumLtus + if w.ppp.slice.dataType = .float32 then w.ppp.batchNumLtus else 0

/-- What a thread keeps from one slice to the next. -/
structure Kept (c : DummyConfig T) (ctx : Ctx T) (t : Fin T) (w : DummyWorkerThread K) : Prop where
  ltuSize : w.ppp.ltuSize = c.packetNumel * 4
  batchMaxNumLtus : w.ppp.batchMaxNumLtus = c.maxOutstandingPkts
  working : ∀ lp, w.current = some lp → Working c ctx t w lp
  idle : w.current = none → w.pendingPackets = [] ∨ ctx.state ≠ .running ∧ (ctx.worker t).winding = true

/-- No check has failed, and all threads keep theirs. -/
structure Loops (c : DummyConfig T) (s : DummyBackend T K) : Prop where
  fault : s.fault = none
  kept : ∀ t, Kept c s.ctx t (s.thread t)

/-- The slice is set up with a packet at least. -/
theorem Kept.setUp (h : Kept c s.ctx t w) (hc : c.Rounds) {slice : Tensor} (hnumel : 0 < slice.numel) :
    (w.ppp.setupJobSlice slice).SetUp := by
  have h1 : 0 < c.packetNumel := c.packetNumel_pos
  refine Ppp.setUp ?_ ?_ ?_ hnumel
  · rw [h.ltuSize]
    exact ⟨c.packetNumel, Nat.mul_comm _ _⟩
  · rw [h.ltuSize]
    omega
  · rw [h.batchMaxNumLtus]
    exact c.maxOutstandingPkts_pos hc

theorem Kept.batchNumPkts_eq (h : Kept c s.ctx t w) (slice : Tensor) :
    DummyWorkerThread.batchNumPkts c (w.ppp.setupJobSlice slice) = (w.ppp.setupJobSlice slice).batchNumLtus := by
  show min c.maxOutstandingPkts _ = min _ w.ppp.batchMaxNumLtus
  rw [h.batchMaxNumLtus]
  exact min_comm _ _

theorem Kept.of_ctx {ctx ctx' : Ctx T} {e : Ctx.Event T} {instant : Bool} (h : Kept c ctx t w) (hI : ctx.run.Inv)
    (hn : ctx.next instant e = some ctx') (hw : w.current.isSome → ∀ received, e ≠ .worker t received) :
    Kept c ctx' t w := by
  refine ⟨h.ltuSize, h.batchMaxNumLtus, fun lp hlp => ?_, fun hnone => ?_⟩
  · obtain ⟨hrec, hwork, ⟨sl, hl, hsl⟩, hset, htotal⟩ := h.working lp hlp
    have he := hw (by rw [hlp]; rfl)
    exact ⟨hrec, (Ctx.worker_of_next hn he).trans hwork, ⟨sl, (Ctx.loc_of_next hI hn he).trans hl, hsl⟩, hset, htotal⟩
  · refine (h.idle hnone).imp_right fun ⟨hs, hwind⟩ => ?_
    exact ⟨Ctx.not_running_of_next hn hs, Ctx.winding_of_next hn hs hwind⟩

theorem Loops.setThread (h : Loops c s) (hk : Kept c s.ctx t w) : Loops c (s.setThread t w) := by
  refine ⟨h.fault, fun v => ?_⟩
  by_cases hvt : v = t
  · subst hvt
    rw [setThread_self]
    exact hk
  · rw [setThread_of_ne hvt]
    exact h.kept v

/-- A thread that has left its receive loop. -/
theorem Loops.leave (h : Loops c s) {lp : DummyLoop} {received : Bool} {ctx : Ctx T} (hw : s.ctx.worker t = .outside .work)
    (hlp : (s.thread t).current = some lp) (hleft : lp.left = some received)
    (hn : s.ctx.next c.instantJobCompletion (.worker t received) = some ctx) :
    Kept c ctx t { s.thread t with current := none } := by
  obtain ⟨-, hstate, hworker, hcut⟩ := Ctx.next_work hw hn
  have hk := h.kept t
  have hrec := (hk.working lp hlp).receiving
  refine ⟨hk.ltuSize, hk.batchMaxNumLtus, fun _ hc => (by cases hc), fun _ => ?_⟩
  unfold DummyLoop.left at hleft
  split at hleft
  · rename_i hburst
    rw [Option.some.injEq] at hleft
    cases received with
    | true =>
      left
      by_contra hne
      obtain ⟨pkt, hm⟩ := List.exists_mem_of_ne_nil _ hne
      have hlive : pkt ∈ (s.thread t).live lp := by
        rw [DummyWorkerThread.live]
        exact List.mem_append_left _ (List.mem_append_left _ hm)
      have hout := hrec.outstanding hlive
      have hall := (hrec.perm_iff hburst).mp (of_decide_eq_true hleft)
      exact hout.2 (List.mem_toFinset.mpr (hall.mem_iff.mpr (List.mem_range.mpr hout.1.1)))
    | false =>
      right
      rw [hstate, hworker, Function.update_self]
      exact ⟨hcut rfl, rfl⟩
  · cases hleft

/-- The slice is set up, and the loop has all its packets. -/
theorem Working.begin (hk : Kept c s.ctx t w) (hc : c.Rounds) (hpending : w.pendingPackets = []) {job : JobSlice}
    (hw : s.ctx.worker t = .outside .work) (hl : s.ctx.run.loc t = .holding job) (hnumel : 0 < job.slice.numel)
    (hb : DummyWorkerThread.batchNumPkts c (w.ppp.setupJobSlice job.slice) ≠ 0) {lp : DummyLoop}
    (hlp : (w.begin c ops s.memory job).current = some lp) : Working c s.ctx t (w.begin c ops s.memory job) lp := by
  refine ⟨.begin hpending hb hlp, hw, ⟨job, hl, rfl⟩, hk.setUp hc hnumel, ?_⟩
  cases hlp
  show DummyWorkerThread.totalNumPkts c (w.ppp.setupJobSlice job.slice) = (w.ppp.setupJobSlice job.slice).totalMainNumLtus +
    if job.slice.dataType = .float32 then (w.ppp.setupJobSlice job.slice).batchNumLtus else 0
  have hneeds : (w.ppp.setupJobSlice job.slice).needsExtraBatch = decide (job.slice.dataType = .float32) := rfl
  rw [DummyWorkerThread.totalNumPkts, hk.batchNumPkts_eq, hneeds]
  split
  · rename_i hd
    rw [if_pos (of_decide_eq_true hd)]
  · rename_i hd
    rw [if_neg (by simpa using hd)]
    rfl

theorem Working.process {lp : DummyLoop} (h : Working c s.ctx t w lp) {pkt : DummyPacket} {rest : List DummyPacket}
    (hburst : lp.receivedPackets = pkt :: rest) (memory : Memory) :
    Working c s.ctx t (w.process ops memory lp pkt rest).1 (DummyWorkerThread.processed lp pkt rest) := by
  have hppp : (w.process ops memory lp pkt rest).1.ppp =
      { w.ppp with scalingFactors := (w.process ops memory lp pkt rest).1.ppp.scalingFactors } :=
    Ppp.postprocessSingle_eq _ _ _ _
  obtain ⟨sl, hl, hsl⟩ := h.holding
  refine ⟨h.receiving.process hburst memory, h.work, ⟨sl, hl, ?_⟩, ?_, ?_⟩
  · rw [hppp]
    exact hsl
  · rw [hppp]
    exact ⟨h.setUp.ltuNumel_pos, h.setUp.total, h.setUp.batch, h.setUp.batch_pos⟩
  · rw [hppp]
    exact h.total

theorem Loops.step (h : Loops c s) (hc : c.Rounds) (hI : s.ctx.run.Inv) (hH : Ctx.Holding c.instantJobCompletion s.ctx)
    {e : Event T} (hn : s.next c ops e = some s') : Loops c s' := by
  cases DummyBackend.step hn with
  | moved e ctx hctx hwork =>
    refine ⟨h.fault, fun v => (h.kept v).of_ctx hI hctx fun hsome received he => ?_⟩
    obtain ⟨lp, hlp⟩ := Option.isSome_iff_exists.mp hsome
    exact hwork v received he ((h.kept v).working lp hlp).work
  | left t received lp ctx hw hlp hleft hctx =>
    refine ⟨h.fault, fun v => ?_⟩
    by_cases hvt : v = t
    · subst hvt
      rw [setThread_self]
      exact h.leave hw hlp hleft hctx
    · rw [setThread_of_ne hvt]
      refine (h.kept v).of_ctx hI hctx fun _ received he => ?_
      cases he
      exact hvt rfl
  | began t job hw hl hcur hb =>
    have hk := h.kept t
    obtain ⟨sl, hl', hsuits⟩ := hH t (by rw [hw]; rfl)
    obtain rfl : job = sl := Loc.holding.inj (hl.symm.trans hl')
    rw [hw] at hsuits
    have hpending : (s.thread t).pendingPackets = [] := by
      refine (hk.idle hcur).resolve_right fun hwind => ?_
      rw [hw] at hwind
      cases hwind.2
    exact h.setThread ⟨hk.ltuSize, hk.batchMaxNumLtus,
      fun lp hlp => Working.begin hk hc hpending hw hl hsuits.1 hb hlp, fun hnone => (by cases hnone)⟩
  | sentNone t job hw hl hcur hb =>
    -- the slice has an element
    obtain ⟨sl, hl', hsuits⟩ := hH t (by rw [hw]; rfl)
    obtain rfl : job = sl := Loc.holding.inj (hl.symm.trans hl')
    rw [hw] at hsuits
    have hset := (h.kept t).setUp hc hsuits.1
    rw [(h.kept t).batchNumPkts_eq] at hb
    have hpos := hset.batch_pos
    omega
  | receivedBurst t choices lp w received hlp hburst hnum hr =>
    have hk := h.kept t
    obtain ⟨hrec, hw, hsl, hset, htotal⟩ := hk.working lp hlp
    have hppp := DummyWorkerThread.receiveBurst_ppp hr
    rw [← hppp] at hsl hset htotal
    refine h.setThread ⟨?_, ?_, fun lp' hlp' => ?_, fun hnone => (by cases hnone)⟩
    · rw [← hk.ltuSize, ← hppp]
    · rw [← hk.batchMaxNumLtus, ← hppp]
    · cases hlp'
      exact ⟨hrec.receiveBurst hburst hr rfl, hw, hsl, hset, htotal⟩
  | receivedNone t choices lp hlp hburst hnum hp =>
    exact absurd hp (((h.kept t).working lp hlp).receiving.pending hburst hnum)
  | processed t lp pkt rest hlp hburst =>
    have hk := h.kept t
    have hcur : ((s.thread t).process ops s.memory lp pkt rest).1.current =
        some (DummyWorkerThread.processed lp pkt rest) := rfl
    have hppp : ((s.thread t).process ops s.memory lp pkt rest).1.ppp = { (s.thread t).ppp with
        scalingFactors := ((s.thread t).process ops s.memory lp pkt rest).1.ppp.scalingFactors } :=
      Ppp.postprocessSingle_eq _ _ _ _
    have hkept : Kept c s.ctx t ((s.thread t).process ops s.memory lp pkt rest).1 := by
      refine ⟨?_, ?_, fun lp' hlp' => ?_, fun hnone => ?_⟩
      · rw [hppp]
        exact hk.ltuSize
      · rw [hppp]
        exact hk.batchMaxNumLtus
      · obtain rfl := Option.some.inj (hcur.symm.trans hlp')
        exact (hk.working lp hlp).process hburst s.memory
      · rw [hcur] at hnone
        cases hnone
    exact ⟨h.fault, (h.setThread hkept).kept⟩
  | wrote addr w => exact ⟨h.fault, h.kept⟩

theorem ctx_reachable (h : (machine c ops).Reachable s) : (Ctx.machine T c.instantJobCompletion).Reachable s.ctx :=
  ctx_reach (fun _ _ _ => trivial) h

theorem run_inv (h : (machine c ops).Reachable s) : s.ctx.run.Inv :=
  Run.Inv.of_reachable c.threads_pos (Ctx.run_reachable (ctx_reachable h))

theorem holding_of_reachable (h : (machine c ops).Reachable s) : Ctx.Holding c.instantJobCompletion s.ctx :=
  Ctx.Holding.of_reachable c.threads_pos (ctx_reachable h)

theorem Loops.of_reachable (hc : c.Rounds) (h : (machine c ops).Reachable s) : Loops c s := by
  refine Machine.Reachable.invariant_of
    (I := fun s : DummyBackend T K => s.ctx.run.Inv ∧ Ctx.Holding c.instantJobCompletion s.ctx)
    (fun s hs => ⟨run_inv hs, holding_of_reachable hs⟩) (fun s hs => ?_)
    (fun s e s' hI hL hn => hL.step hc hI.1 hI.2 hn) h
  obtain ⟨memory, outstanding, rfl⟩ := hs
  exact ⟨rfl, fun t => ⟨rfl, rfl, fun _ hlp => (by cases hlp), fun _ => .inl rfl⟩⟩

end DummyBackend

end SwitchML.Client
