/-
What an RDMA worker's packets carry. A message is preprocessed once, into the
buffer in which its result is received, and a retransmission reads the buffer
again. As long as the packets that the switch takes as new were read before
anything was written over their message, they carry the words of the message; a
late response to the message before is enough to break this
(`new_carries_original_clobbered`).
-/
import SwitchML.Aggregation.RdmaFlights

namespace SwitchML.Aggregation

open P4 Tna Phases Controller Client

variable {n : ℕ} {S : RdmaSession n} {K : Type} {ops : FloatOps K} {s s' : RdmaState S K} {w : Fin n} {x y : S.Place}

/-! ## The parts of a buffer -/

/-- Writing one packet's part of the buffer leaves the others alone. -/
theorem slices_write (hxy : x ≠ y) (hq : x.1 = y.1) (payload : List DataH) (words : ℕ → Word) :
    S.slices x (S.write y payload words) = S.slices x words := by
  have hne : x.2.val ≠ y.2.val := fun h => hxy (Prod.ext hq (Fin.ext h))
  have hnumel := S.packetNumel
  unfold RdmaSession.slices
  refine List.map_congr_left fun j hj => ?_
  rw [List.mem_range] at hj
  funext i
  have hi := i.isLt
  have hin : 32 * j + i.val < S.config.packetNumel := by
    rw [hnumel]
    split at hj <;> rename_i h256
    · rw [if_pos h256]
      omega
    · rw [if_neg h256]
      omega
  refine congrArg htonl (if_neg ?_)
  unfold RdmaSession.wordAt
  rintro ⟨hle, hlt⟩
  rcases Nat.lt_or_gt_of_ne hne with hlt' | hgt
  · have hmul := Nat.mul_le_mul_right S.config.packetNumel (Nat.succ_le_of_lt hlt')
    rw [Nat.succ_mul] at hmul
    omega
  · have hmul := Nat.mul_le_mul_right S.config.packetNumel (Nat.succ_le_of_lt hgt)
    rw [Nat.succ_mul] at hmul
    omega

namespace RdmaState

/-! ## Intact messages -/

/-- What was not written over is as it was preprocessed: the message in the
buffer, and the packets on their way, as far as the pipes have not consumed them. -/
structure Intact (s : RdmaState S K) (x : S.Place) : Prop where
  buffer : ∀ w, s.written w x = false → 0 < ((s.threads w).sendWrs x.1).no →
    S.slices x ((s.threads w).buffers x.1) = S.slices x ((s.threads w).sendWrs x.1).original
  flight : ∀ w p, ∀ f ∈ (s.slots x).flight (w, consumeType p), (w, x, f.phase, f.copy) ∉ s.stale →
    ∃ post ∈ (s.threads w).posts x.1, post.wr.no = f.phase + 1 ∧
      f.wire.payload = (S.slices x post.wr.original).drop (2 * p)

/-- What the packets carry does not depend on what is posted later. -/
theorem Intact.flight_congr (h : s.Intact x) (hslots : s'.slots x = s.slots x) (hstale : s'.stale = s.stale)
    (hposts : ∀ w, ∃ new, (s'.threads w).posts x.1 = (s.threads w).posts x.1 ++ new) :
    ∀ w p, ∀ f ∈ (s'.slots x).flight (w, consumeType p), (w, x, f.phase, f.copy) ∉ s'.stale →
      ∃ post ∈ (s'.threads w).posts x.1, post.wr.no = f.phase + 1 ∧
        f.wire.payload = (S.slices x post.wr.original).drop (2 * p) := by
  intro w p f hf hnot
  rw [hslots] at hf
  rw [hstale] at hnot
  obtain ⟨post, hpost, hno, hpayload⟩ := h.flight w p f hf hnot
  obtain ⟨new, hnew⟩ := hposts w
  refine ⟨post, ?_, hno, hpayload⟩
  rw [hnew]
  exact List.mem_append_left _ hpost

/-- A thread posts a message that it has just preprocessed, or leaves the buffer alone. -/
theorem Intact.setThread (h : s.Intact x) {t : RdmaWorkerThread S.config K}
    (hmoves : (t.sendWrs x.1 = (s.threads w).sendWrs x.1 ∧ t.buffers x.1 = (s.threads w).buffers x.1) ∨
      RdmaWorkerThread.Sends (s.threads w) t x.1)
    (v : Fin n) (hwritten : (s.setThread w t).written v x = false)
    (hpos : 0 < (((s.setThread w t).threads v).sendWrs x.1).no) :
    S.slices x (((s.setThread w t).threads v).buffers x.1) =
      S.slices x (((s.setThread w t).threads v).sendWrs x.1).original := by
  unfold RdmaState.setThread at hwritten hpos ⊢
  dsimp only at hwritten hpos ⊢
  by_cases hv : v = w
  · subst hv
    rw [Function.update_self] at hpos ⊢
    rcases hmoves with ⟨hwr, hbuf⟩ | hs
    · rw [if_neg fun hc => hc.2 (by rw [hwr])] at hwritten
      rw [hwr] at hpos
      rw [hwr, hbuf]
      exact h.buffer v hwritten hpos
    · rw [hs.buffers]
  · rw [Function.update_of_ne hv] at hpos ⊢
    rw [if_neg fun hc => hv hc.1] at hwritten
    exact h.buffer v hwritten hpos

/-- The network card sends a packet. -/
theorem Intact.emit (h : s.Intact x) {p : Post} (hp : ((s.threads w).posts y.1)[s.emitted w y]? = some p)
    (hnum : (s.threads w).Numbered y.1) : (s.emit w y p).Intact x where
  buffer := h.buffer
  flight v q f hf hnot := by
    have hstale : (v, x, f.phase, f.copy) ∉ s.stale := by
      refine fun hmem => hnot ?_
      unfold RdmaState.emit
      dsimp only
      split
      · exact List.mem_cons_of_mem _ hmem
      · exact hmem
    by_cases hx : x = y
    · subst hx
      have hslot : (s.emit w x p).slots x = _ := Function.update_self ..
      rw [hslot] at hf
      rcases Queues.mem_put.mp hf with hf | ⟨hkey, rfl⟩
      · exact h.flight v q f hf hstale
      · simp only [Prod.mk.injEq] at hkey
        obtain ⟨rfl, htype⟩ := hkey
        obtain rfl : q = 0 := consumeType_eq_CONSUME0.mp htype
        have hmem := List.mem_of_getElem? hp
        have hpos := hnum.pos p hmem
        -- the buffer still holds the message
        have hkept : ¬(s.written v x = true ∨ p.wr.no ≠ ((s.threads v).sendWrs x.1).no) := by
          refine fun hc => hnot ?_
          unfold RdmaState.emit
          dsimp only
          rw [if_pos hc]
          exact List.mem_cons_self
        rw [not_or, Bool.not_eq_true, not_ne_iff] at hkept
        have hwr := hnum.current p hmem hkept.2
        refine ⟨p, hmem, (Nat.sub_add_cancel hpos).symm, ?_⟩
        show S.slices x ((s.threads v).buffers x.1) = (S.slices x p.wr.original).drop 0
        rw [hwr, List.drop_zero]
        refine h.buffer v hkept.1 ?_
        rw [← hwr]
        exact hpos
    · have hslot : (s.emit w y p).slots x = s.slots x := Function.update_of_ne hx ..
      rw [hslot] at hf
      exact h.flight v q f hf hstale

/-- A step of the slot: each pipe consumes two slices. -/
theorem Intact.stepSlot (h : s.Intact x) (ht : s.Tracks y) {e : Event n} {t : State n} (he : e.ofSwitch = true)
    (hn : (S.job y).next (s.slots y) e = some t) : (s.stepSlot y t).Intact x where
  buffer := h.buffer
  flight v q g hg hnot := by
    by_cases hx : x = y
    · subst hx
      have hslot : (s.stepSlot x t).slots x = t := Function.update_self ..
      rw [hslot] at hg
      cases e with
      | pass w ty i inp =>
        obtain ⟨f, regs', o, hf, rfl, hwent⟩ := next_pass (ht.flight w ty) hn
        rcases mem_land_takeOff hg with hg | ⟨port, wire, ho, hkey, rfl⟩
        · exact h.flight v q g hg hnot
        · simp only [Prod.mk.injEq] at hkey
          obtain ⟨rfl, hq⟩ := hkey
          obtain ⟨p, rfl, hval, hdrop⟩ := (hwent.recirculated port wire ho).consume q hq.symm
          obtain ⟨post, hpost, hno, hpayload⟩ := h.flight v p f (List.mem_of_getElem? hf) hnot
          refine ⟨post, hpost, hno, ?_⟩
          show wire.payload = _
          rw [hdrop, hpayload, List.drop_drop, hval]
          rfl
      | lose w ty i =>
        simp only [Session.next, Option.map_eq_some_iff] at hn
        obtain ⟨f, -, rfl⟩ := hn
        exact h.flight v q g (Queues.mem_of_mem_take hg) hnot
      | other p ig =>
        simp only [Session.next, Option.ite_none_left_eq_some, Option.some.injEq] at hn
        obtain ⟨-, rfl⟩ := hn
        exact h.flight v q g hg hnot
      | _ => cases he
    · have hslot : (s.stepSlot y t).slots x = s.slots x := Function.update_of_ne hx ..
      rw [hslot] at hg
      exact h.flight v q g hg hnot

/-- A response arrives. -/
theorem Intact.deliver (h : s.Intact x) (i : ℕ) (r : Response n) (v : Fin n)
    (hwritten : (s.deliver y w i r).written v x = false) (hpos : 0 < (((s.deliver y w i r).threads v).sendWrs x.1).no) :
    S.slices x (((s.deliver y w i r).threads v).buffers x.1) =
      S.slices x (((s.deliver y w i r).threads v).sendWrs x.1).original := by
  unfold RdmaState.deliver at hwritten hpos ⊢
  dsimp only at hwritten hpos ⊢
  by_cases hv : v = w
  · subst hv
    rw [Function.update_self] at hwritten hpos ⊢
    dsimp only at hpos ⊢
    by_cases hxy : x = y
    · subst hxy
      rw [Function.update_self] at hwritten
      cases hwritten
    · rw [Function.update_of_ne hxy] at hwritten
      by_cases hq : x.1 = y.1
      · rw [← hq, Function.update_self, slices_write hxy hq]
        exact h.buffer v hwritten hpos
      · rw [Function.update_of_ne hq]
        exact h.buffer v hwritten hpos
  · rw [Function.update_of_ne hv] at hwritten hpos ⊢
    exact h.buffer v hwritten hpos

theorem Intact.step (h : s.Intact x) (hr : (machine ops).Reachable s) {e : RdmaEvent S} (hn : s.next ops e = some s') :
    s'.Intact x := by
  have hposts (v : Fin n) := posts_append hr hn v x.1
  have hnum (v : Fin n) (q : S.config.Qpn) : (s.threads v).Numbered q := .of_reachable (threads_reachable hr v) q
  cases RdmaState.step hn with
  | threaded w e t he ht =>
    refine ⟨fun v => h.setThread ?_ v, h.flight_congr rfl rfl hposts⟩
    have hI := RdmaWorkerThread.Bookkeeping.of_reachable (threads_reachable hr w)
    rcases hI.own he ht x.1 with hrests | ⟨-, hre⟩ | ⟨-, hs⟩
    · exact .inl ⟨hrests.sendWrs, hrests.buffers⟩
    · exact .inl ⟨hre.sendWrs, hre.buffers⟩
    · exact .inr hs
  | emitted w y p hp => exact h.emit hp (hnum w y.1)
  | slotted y e t he ht => exact h.stepSlot (.of_reachable hr y) he ht
  | lost y w i => exact ⟨h.buffer, h.flight_congr rfl rfl hposts⟩
  | delivered y w i r hr => exact ⟨fun v => h.deliver i r v, h.flight_congr rfl rfl hposts⟩
  | polled q w r t hr ht =>
    refine ⟨fun v => h.setThread ?_ v, h.flight_congr rfl rfl hposts⟩
    rcases RdmaWorkerThread.completes ht x.1 with hrests | ⟨-, -, hends | hs⟩
    · exact .inl ⟨hrests.sendWrs, hrests.buffers⟩
    · exact .inl ⟨hends.sendWrs, hends.buffers⟩
    · exact .inr hs

theorem Intact.of_reachable (h : (machine ops).Reachable s) (x : S.Place) : s.Intact x := by
  induction h with
  | init hs =>
    obtain ⟨memory, buffers, rfl⟩ := hs
    exact ⟨fun _ _ hpos => absurd hpos (Nat.lt_irrefl 0), fun _ _ _ hf => by cases hf⟩
  | step hr _ hn ih => exact ih.step hr hn

/-! ## New packets -/

end RdmaState

/-- What the worker bitmap tells a packet in a pass: 0 if it is new. -/
def Session.mapResult (J : Session n) (s : State n) (w : Fin n) (t : PacketType) (i : ℕ) (inp : PassInputs) :
    Option WorkerBitmap :=
  ((s.flight (w, t))[i]?).bind fun f =>
    (J.enter w inp f).map fun ig => (Ingress.process J.tables (s.regs (pipeOf f.port)) ig).2.md.mapResult

namespace RdmaState

/-- A packet is taken as new that was read after something was written over its message. -/
def takesStale (s : RdmaState S K) : RdmaEvent S → Bool
  | .slot x (.pass w t i inp) =>
    t.isConsume && decide ((S.job x).mapResult (s.slots x) w t i inp = some 0) &&
      (((s.slots x).flight (w, t))[i]?).any fun f => decide ((w, x, f.phase, f.copy) ∈ s.stale)
  | _ => false

/-- A packet that is taken as new goes to the slot of a message that was posted,
and carries its words, as far as the pipes before have not consumed them. -/
theorem new_carries_original (h : (machine ops).Reach (fun s e => s.takesStale e = false) s) {p : Fin 4} {i : ℕ}
    {inp : PassInputs} (hok : s.takesStale (.slot x (.pass w (consumeType p) i inp)) = false)
    (hnew : (S.job x).mapResult (s.slots x) w (consumeType p) i inp = some 0) :
    ∃ f, ((s.slots x).flight (w, consumeType p))[i]? = some f ∧ ∃ post ∈ (s.threads w).posts x.1,
      post.wr.no = f.phase + 1 ∧ f.wire.md.poolIndex = advance post.wr.rkey x.2 ∧
        f.wire.payload = (S.slices x post.wr.original).drop (2 * p) := by
  have hr := h.reachable
  obtain ⟨f, hf, -⟩ := Option.bind_eq_some_iff.mp hnew
  have hnot : (w, x, f.phase, f.copy) ∉ s.stale := by
    simp only [takesStale, isConsume_consumeType, hnew, hf, Option.any_some, decide_true, Bool.true_and,
      decide_eq_false_iff_not] at hok
    exact hok
  have hmem := List.mem_of_getElem? hf
  obtain ⟨post, hpost, hno, hpayload⟩ := (Intact.of_reachable hr x).flight w p f hmem hnot
  refine ⟨f, hf, post, hpost, hno, ?_, hpayload⟩
  have hnum : (s.threads w).Numbered x.1 := .of_reachable (threads_reachable hr w) x.1
  have hplace := ((Tracks.of_reachable hr x).flight w _ f hmem).consume p rfl
  have hidx : f.wire.md.poolIndex = (S.job x).poolIndex f.phase := poolIndex_of_fixed hplace.fixed
  rw [hidx, hnum.rkeys post hpost, hno, advance_messageRkey]

end RdmaState

/-! ## Two workers -/

/-- One queue pair, with messages of one packet. -/
def oneQueuePair : RdmaConfig where
  tid := 0
  maxOutstandingMsgs := 1
  numPktsPerMsg := 1
  packetNumel := 64
  numWorkers := 2
  timeout := 1
  timeoutThreshold := 100
  timeoutThresholdIncrement := 100
  maxOutstandingMsgs_pos := Nat.one_pos
  numPktsPerMsg_pos := Nat.one_pos
  packetNumel_pos := Nat.succ_pos 63

theorem oneQueuePair_fits (q : oneQueuePair.Qpn) :
    (oneQueuePair.globalIndex q + 1) * oneQueuePair.numPktsPerMsg * 2 ≤ 2 ^ 15 := by
  have hq : q.val = 0 := Nat.lt_one_iff.mp q.isLt
  rw [RdmaConfig.globalIndex, hq]
  decide

/-- The workers of `Job.pair`, with this queue pair. -/
def RdmaSession.pair : RdmaSession 2 :=
  let J := Job.pair .MTU_256 (.inl rfl)
  { config := oneQueuePair
    pos := Nat.two_pos
    id := J.id
    id_injective := J.id_injective
    packetSize := .MTU_256
    foldedPipe := J.foldedPipe
    supported := J.supported
    packetNumel := rfl
    fits := oneQueuePair_fits
    port := J.port
    pipeOf_port := J.pipeOf_port
    receivedMd := fun _ => default
    rdmaAddr := fun _ => 0
    arpIcmp := []
    forward := ⟨[], none⟩ }

namespace RdmaState

/-- The only queue pair, its only slot, and what the workers have in memory. -/
def onlyQp : RdmaSession.pair.config.Qpn := ⟨0, by decide⟩

def onlyPlace : RdmaSession.pair.Place := (onlyQp, ⟨0, by decide⟩)

def pairInit : RdmaState RdmaSession.pair ℕ :=
  init (fun w addr => BitVec.ofNat 32 (1000 * w + addr)) fun _ _ _ => 0

/-- The only packet on its way makes a pass. -/
def firstPass : RdmaEvent RdmaSession.pair := .slot onlyPlace (.pass 0 .CONSUME0 0 .quiet)

/-- Is it taken as new there? -/
def firstIsNew (s : RdmaState RdmaSession.pair ℕ) : Bool :=
  decide ((RdmaSession.pair.job onlyPlace).mapResult (s.slots onlyPlace) 0 .CONSUME0 0 .quiet = some 0)

/-- A packet of worker 0 is lost, and sent again. -/
theorem new_carries_original_loss : ∃ (s : RdmaState RdmaSession.pair ℕ) (f : Flight 2),
    f.copy = 1 ∧ ((s.slots onlyPlace).flight (0, .CONSUME0))[0]? = some f ∧
      ∃ post ∈ (s.threads 0).posts onlyQp, post.wr.no = f.phase + 1 ∧
        f.wire.md.poolIndex = advance post.wr.rkey 0 ∧
        f.wire.payload = RdmaSession.pair.slices onlyPlace post.wr.original := by
  have hrun : ((machine exampleOps).runWhile (fun s e => s.takesStale e = false) pairInit
      [.thread 0 (.begin (exampleSlice 0 128 .int32)), .emit 0 onlyPlace,
        .slot onlyPlace (.lose 0 .CONSUME0 0), .thread 0 (.tick (3 * 10 ^ 6)), .thread 0 .checkTimeouts,
        .emit 0 onlyPlace]).bind (fun s => (((s.slots onlyPlace).flight (0, .CONSUME0))[0]?).map fun f =>
          decide (f.copy = 1) && !s.takesStale firstPass && s.firstIsNew) = some true := by
    decide +kernel
  obtain ⟨s, hs, hflight⟩ := Option.bind_eq_some_iff.mp hrun
  obtain ⟨f, hf, hall⟩ := Option.map_eq_some_iff.mp hflight
  simp only [Bool.and_eq_true, decide_eq_true_eq, Bool.not_eq_true'] at hall
  obtain ⟨⟨hcopy, hok⟩, hnew⟩ := hall
  obtain ⟨f', hf', post, hpost, hno, hidx, hpayload⟩ := new_carries_original (p := 0)
    (Machine.Reach.runWhile (.init ⟨_, _, rfl⟩) hs) hok (of_decide_eq_true hnew)
  obtain rfl : f = f' := Option.some.inj (hf.symm.trans hf')
  exact ⟨s, f, hcopy, hf, post, hpost, hno, hidx, hpayload⟩

/-- The results of the first message come to worker 0 twice, the second time when
the next message is in the buffer. Its first packet is lost, and what is sent
again is taken as new with the old results. -/
theorem new_carries_original_clobbered : ∃ (s : RdmaState RdmaSession.pair ℕ) (f : Flight 2),
    (machine exampleOps).Reachable s ∧
      ((s.slots onlyPlace).flight (0, .CONSUME0))[0]? = some f ∧
      (RdmaSession.pair.job onlyPlace).mapResult (s.slots onlyPlace) 0 .CONSUME0 0 .quiet = some 0 ∧
      ∀ post ∈ (s.threads 0).posts onlyQp, f.wire.payload ≠ RdmaSession.pair.slices onlyPlace post.wr.original := by
  have hrun : ((machine exampleOps).run pairInit
      [.thread 0 (.begin (exampleSlice 0 128 .int32)),
        .thread 1 (.begin (exampleSlice 0 128 .int32)), .emit 0 onlyPlace, .emit 1 onlyPlace,
        firstPass, .thread 0 (.tick (3 * 10 ^ 6)), .thread 0 .checkTimeouts, .emit 0 onlyPlace,
        .slot onlyPlace (.pass 1 .CONSUME0 0 .quiet), .slot onlyPlace (.pass 1 .HARVEST7 0 .quiet),
        firstPass, .slot onlyPlace (.pass 0 .HARVEST7 0 .quiet),
        .deliver onlyPlace 0 0, .poll onlyQp 0, .emit 0 onlyPlace, .slot onlyPlace (.lose 0 .CONSUME0 0),
        .deliver onlyPlace 0 0, .thread 0 (.tick (3 * 10 ^ 6)), .thread 0 .checkTimeouts, .emit 0 onlyPlace]).bind
      (fun s => (((s.slots onlyPlace).flight (0, .CONSUME0))[0]?).map fun f =>
        s.firstIsNew && ((s.threads 0).posts onlyQp).all fun post =>
          decide (f.wire.payload.map (· 0) ≠ (RdmaSession.pair.slices onlyPlace post.wr.original).map (· 0))) =
      some true := by
    decide +kernel
  obtain ⟨s, hs, hflight⟩ := Option.bind_eq_some_iff.mp hrun
  obtain ⟨f, hf, hall⟩ := Option.map_eq_some_iff.mp hflight
  simp only [Bool.and_eq_true, List.all_eq_true, decide_eq_true_eq] at hall
  refine ⟨s, f, .run (.init ⟨_, _, rfl⟩) hs, hf, of_decide_eq_true hall.1, fun post hpost heq => ?_⟩
  exact hall.2 post hpost (by rw [heq])

end RdmaState

end SwitchML.Aggregation
