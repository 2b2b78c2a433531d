/-
Which results an RDMA worker accepts. It compares only the first 16 bits of the
message id, and the ids start over with each slice. Where no message is posted
while an earlier one with the same bits is under way, each queue pair goes
through its slots as a worker of the slot's job does (`Follows`), and what it
accepts was made for its message. A second response that is late by a slice
breaks this (`accepted_own_late`).
-/
import SwitchML.Aggregation.RdmaBuffers
import SwitchML.Aggregation.RdmaUnderWay

namespace SwitchML.Aggregation

open P4 Tna Phases Controller Client

variable {n : ℕ} {S : RdmaSession n} {K : Type} {ops : FloatOps K} {s s' : RdmaState S K} {w : Fin n} {x y : S.Place}
  {q : S.config.Qpn} {s₀ s₀' : State n}

namespace RdmaState

/-! ## Responses -/

/-- Where the responses of a queue pair come from. -/
structure FromSlot (s : RdmaState S K) (q : S.config.Qpn) : Prop where
  poolIndex : ∀ r ∈ (s.slots (S.lastPlace q)).responses, r.wire.md.poolIndex = (S.job (S.lastPlace q)).poolIndex r.phase
  inbox : ∀ w, ∀ r ∈ s.inbox (S.lastPlace q, w), r ∈ (s.slots (S.lastPlace q)).responses ∧ r.goesTo w = true
  completions : ∀ w, ∀ r ∈ s.completions (q, w), r ∈ (s.slots (S.lastPlace q)).responses ∧ r.goesTo w = true

theorem FromSlot.of_subset (h : s.FromSlot q)
    (hresponses : (s'.slots (S.lastPlace q)).responses = (s.slots (S.lastPlace q)).responses)
    (hinbox : ∀ w, ∀ r ∈ s'.inbox (S.lastPlace q, w), r ∈ s.inbox (S.lastPlace q, w))
    (hcompletions : ∀ w, ∀ r ∈ s'.completions (q, w), r ∈ s.completions (q, w) ∨ r ∈ s.inbox (S.lastPlace q, w)) :
    s'.FromSlot q where
  poolIndex := by
    rw [hresponses]
    exact h.poolIndex
  inbox w r hr := by
    rw [hresponses]
    exact h.inbox w r (hinbox w r hr)
  completions w r hr := by
    rw [hresponses]
    exact (hcompletions w r hr).elim (h.completions w r) (h.inbox w r)

/-- A completion of the queue pair is of a response on its way to the worker. -/
theorem mem_completions_deliver {v : Fin n} {i : ℕ} {r r' : Response n} (hr : (s.inbox (y, v))[i]? = some r)
    (hmem : r' ∈ (s.deliver y v i r).completions (q, w)) :
    r' ∈ s.completions (q, w) ∨ r' ∈ s.inbox (S.lastPlace q, w) := by
  have hcompletions : (s.deliver y v i r).completions =
      if S.isLast y = true ∧ (s.completions (y.1, v)).length < (s.threads v).recvWrs y.1 then
        s.completions.put (y.1, v) r
      else s.completions := rfl
  rw [hcompletions] at hmem
  split at hmem
  · rename_i hlast
    rcases Queues.mem_put.mp hmem with hmem | ⟨hkey, rfl⟩
    · exact .inl hmem
    · simp only [Prod.mk.injEq] at hkey
      obtain ⟨rfl, rfl⟩ := hkey
      rw [← eq_lastPlace hlast.1]
      exact .inr (List.mem_of_getElem? hr)
  · exact .inl hmem

theorem FromSlot.step (h : s.FromSlot q) (hr : (machine ops).Reachable s) {e : RdmaEvent S}
    (hn : s.next ops e = some s') : s'.FromSlot q := by
  cases RdmaState.step hn with
  | threaded w e t he ht => exact ⟨h.poolIndex, h.inbox, h.completions⟩
  | emitted w y p hp =>
    refine h.of_subset ?_ (fun _ _ => id) fun _ _ => .inl
    by_cases hy : S.lastPlace q = y
    · subst hy
      have hslot : (s.emit w (S.lastPlace q) p).slots (S.lastPlace q) = _ := Function.update_self ..
      rw [hslot]
    · exact congrArg State.responses (Function.update_of_ne hy ..)
  | slotted y e t he ht =>
    by_cases hy : S.lastPlace q = y
    · subst hy
      obtain ⟨new, hnew, hidx⟩ := responses_next (Tracks.of_reachable hr (S.lastPlace q)).flight he ht
      have hslot : (s.stepSlot (S.lastPlace q) t).slots (S.lastPlace q) = t := Function.update_self ..
      have hold {w : Fin n} {r : Response n}
          (hr : r ∈ (s.slots (S.lastPlace q)).responses ∧ r.goesTo w = true) :
          r ∈ t.responses ∧ r.goesTo w = true := by
        rw [hnew]
        exact ⟨List.mem_append_left _ hr.1, hr.2⟩
      refine ⟨fun r hr => ?_, fun w r hr => ?_, fun w r hr => ?_⟩
      · rw [hslot, hnew] at hr
        exact (List.mem_append.mp hr).elim (h.poolIndex r) (hidx r)
      · have hinbox : (s.stepSlot (S.lastPlace q) t).inbox (S.lastPlace q, w) = s.inbox (S.lastPlace q, w) ++
            (t.responses.drop (s.slots (S.lastPlace q)).responses.length).filter (·.goesTo w) := if_pos rfl
        rw [hinbox, hnew, List.drop_left] at hr
        rw [hslot]
        rcases List.mem_append.mp hr with hr | hr
        · exact hold (h.inbox w r hr)
        · obtain ⟨hr, hgoes⟩ := List.mem_filter.mp hr
          rw [hnew]
          exact ⟨List.mem_append_right _ hr, hgoes⟩
      · rw [hslot]
        exact hold (h.completions w r hr)
    · refine h.of_subset (congrArg State.responses (Function.update_of_ne hy ..)) (fun w r hr => ?_) fun _ _ => .inl
      have hinbox : (s.stepSlot y t).inbox (S.lastPlace q, w) = s.inbox (S.lastPlace q, w) := if_neg hy
      rw [hinbox] at hr
      exact hr
  | lost y w i => exact h.of_subset rfl (fun _ _ => Queues.mem_of_mem_take) fun _ _ => .inl
  | delivered y v i r hr =>
    exact h.of_subset rfl (fun _ _ => Queues.mem_of_mem_take) fun _ _ => mem_completions_deliver hr
  | polled p v r t hr ht => exact h.of_subset rfl (fun _ _ => id) fun _ _ hr => .inl (Queues.mem_of_mem_take hr)

theorem FromSlot.of_reachable (h : (machine ops).Reachable s) (q : S.config.Qpn) : s.FromSlot q := by
  induction h with
  | init hs =>
    obtain ⟨memory, buffers, rfl⟩ := hs
    exact ⟨(fun _ hr => by cases hr), (fun _ _ hr => by cases hr), fun _ _ hr => by cases hr⟩
  | step hr _ hn ih => exact ih.step hr hn

/-! ## As a worker of the job -/

/-- The worker has accepted a response for each message of the queue pair but the
one it waits for, and only what is of this one could be taken for its result. -/
structure Waits (s : RdmaState S K) (q : S.config.Qpn) (w : Fin n) (s₀ : State n) : Prop where
  accepted : ∀ k < (s.currentWr q w).no, k + 1 < (s.currentWr q w).no ∨ (s.threads w).recvWrs q = 0 →
    (s₀.accepted w k).isSome = true
  none : 0 < (s.threads w).recvWrs q → s₀.accepted w ((s.currentWr q w).no - 1) = none
  onlyCurrent : 0 < (s.threads w).recvWrs q → s.OnlyCurrent q w

/-- The slot of a queue pair's last packets is that of its job, in a run of the job. -/
structure Follows (s : RdmaState S K) (q : S.config.Qpn) (s₀ : State n) : Prop where
  reachable : (S.job (S.lastPlace q)).machine.Reachable s₀
  blanks : Blanks (S.job (S.lastPlace q)).slot (s.slots (S.lastPlace q)) s₀
  waits : ∀ w, s.Waits q w s₀

theorem Waits.congr (h : s.Waits q w s₀) (hacc : s₀'.accepted w = s₀.accepted w)
    (hwr : s'.currentWr q w = s.currentWr q w) (hrecv : (s'.threads w).recvWrs q = (s.threads w).recvWrs q)
    (hd : s.Dwindles s' q w) : s'.Waits q w s₀' where
  accepted k hk hcase := by
    rw [hwr] at hk hcase
    rw [hrecv] at hcase
    rw [hacc]
    exact h.accepted k hk hcase
  none hpos := by
    rw [hrecv] at hpos
    rw [hacc, hwr]
    exact h.none hpos
  onlyCurrent hpos := by
    rw [hrecv] at hpos
    exact (h.onlyCurrent hpos).of_dwindles hd hwr

/-- A message is posted, after a response was accepted for all before. -/
theorem Waits.sends (hall : ∀ k < (s.currentWr q w).no, (s₀.accepted w k).isSome = true)
    (hlt : ∀ k, (s₀.accepted w k).isSome = true → k < (s.currentWr q w).no)
    (hs : RdmaWorkerThread.Sends (s.threads w) (s'.threads w) q) (honly : s'.OnlyCurrent q w) : s'.Waits q w s₀ where
  accepted k hk hcase := by
    have hno : (s'.currentWr q w).no = (s.currentWr q w).no + 1 := hs.no
    have hpos := hs.recvWrs
    refine hall k ?_
    rcases hcase with hcase | hcase
    · omega
    · omega
  none _ := by
    have hno : (s'.currentWr q w).no = (s.currentWr q w).no + 1 := hs.no
    rw [hno, Nat.add_sub_cancel]
    by_contra hne
    exact absurd (hlt _ (Option.isSome_iff_ne_none.mpr hne)) (Nat.lt_irrefl _)
  onlyCurrent _ := honly

/-- No more was sent than posted. -/
theorem Tracks.sent_le (h : s.Tracks x) (hnum : (s.threads w).Numbered x.1) :
    (s.slots x).sent w ≤ (s.currentWr x.1 w).no := by
  have hno : (s.currentWr x.1 w).no = newCount ((s.threads w).posts x.1) := hnum.no
  rw [h.sent, hno]
  exact newCount_take_le _ _

/-- Nothing is accepted for a message that was not posted. -/
theorem Follows.accepted_lt (h : s.Follows q s₀) (hr : (machine ops).Reachable s) {k : ℕ}
    (hacc : (s₀.accepted w k).isSome = true) : k < (s.currentWr q w).no := by
  have hI := Inv.of_reachable h.reachable
  have hlt := hI.sent_of_complete (hI.complete_of_accepted hacc) w
  rw [h.blanks.sent] at hlt
  exact hlt.trans_le ((Tracks.of_reachable hr (S.lastPlace q)).sent_le (.of_reachable (threads_reachable hr w) q))

/-- A packet is sent: the worker of the job sends or resends. -/
theorem Follows.emit (h : s.Follows q s₀) (hr : (machine ops).Reachable s) {p : Post}
    (hp : ((s.threads w).posts y.1)[s.emitted w y]? = some p) : ∃ s₀', (s.emit w y p).Follows q s₀' := by
  have hnum : (s.threads w).Numbered y.1 := .of_reachable (threads_reachable hr w) y.1
  have hmem := List.mem_of_getElem? hp
  have hpos := hnum.pos p hmem
  have hwaits (s₀' : State n) (hacc : s₀'.accepted = s₀.accepted) (v : Fin n) : (s.emit w y p).Waits q v s₀' :=
    (h.waits v).congr (congrFun hacc v) rfl rfl (.emit hp hpos)
  by_cases hy : S.lastPlace q = y
  · subst hy
    have hsent : s₀.sent w = newCount (((s.threads w).posts (S.lastPlace q).1).take (s.emitted w (S.lastPlace q))) := by
      rw [h.blanks.sent]
      exact (Tracks.of_reachable hr (S.lastPlace q)).sent w
    have hcount := hnum.count _ p hp
    rw [newCount_take_succ hp] at hcount
    obtain ⟨copy, hcopy⟩ : ∃ copy, copy = if p.isRetransmission then (s.slots (S.lastPlace q)).copies w else 0 := ⟨_, rfl⟩
    have hslot : (s.emit w (S.lastPlace q) p).slots (S.lastPlace q) =
        { s.slots (S.lastPlace q) with
          sent := Function.update (s.slots (S.lastPlace q)).sent w p.wr.no
          copies := Function.update (s.slots (S.lastPlace q)).copies w (copy + 1)
          flight := (s.slots (S.lastPlace q)).flight.put (w, .CONSUME0)
            (S.request w (S.lastPlace q) p.wr copy ((s.threads w).buffers q)) } := by
      rw [hcopy]
      exact Function.update_self ..
    have hblanks := h.blanks.put w (S.request w (S.lastPlace q) p.wr copy ((s.threads w).buffers q))
      (Function.update (s.slots (S.lastPlace q)).sent w p.wr.no)
      (Function.update (s.slots (S.lastPlace q)).copies w (copy + 1))
    rw [← hslot, request_blank (hnum.rkeys p hmem) hpos, ← h.blanks.sent, ← h.blanks.copies] at hblanks
    rw [← h.blanks.copies] at hcopy
    refine ⟨_, ?_, hblanks, hwaits _ rfl⟩
    cases hre : p.isRetransmission with
    | false =>
      rw [hre, if_neg Bool.false_ne_true] at hcopy
      rw [hre, if_neg Bool.false_ne_true, ← hsent] at hcount
      -- the response for the message before was accepted
      have hready : s₀.sent w = 0 ∨ (s₀.accepted w (s₀.sent w - 1)).isSome = true := by
        have hle : p.wr.no ≤ (s.currentWr q w).no := hnum.le hmem
        by_cases h0 : s₀.sent w = 0
        · exact .inl h0
        · exact .inr ((h.waits w).accepted _ (by omega) (.inl (by omega)))
      refine h.reachable.step (e := .send w) ?_
      show (if _ then _ else _) = _
      rw [if_pos hready, hcopy, hcount, Nat.add_sub_cancel]
    | true =>
      rw [hre, if_pos rfl] at hcopy
      rw [hre, if_pos rfl, Nat.add_zero, ← hsent] at hcount
      refine h.reachable.step (e := .resend w) ?_
      show (if _ then _ else _) = _
      rw [if_pos (by omega), hcopy, hcount, Function.update_eq_self]
  · have hslot : (s.emit w y p).slots (S.lastPlace q) = s.slots (S.lastPlace q) := Function.update_of_ne hy ..
    refine ⟨s₀, h.reachable, ?_, hwaits s₀ rfl⟩
    rw [hslot]
    exact h.blanks

/-- Another worker's step, or a step that the queue pair has no part in. -/
theorem Waits.rests (h : s.Waits q w s₀) (hacc : s₀'.accepted w = s₀.accepted w)
    (hrests : RdmaWorkerThread.Rests (s.threads w) (s'.threads w) q) (hslots : s'.slots = s.slots)
    (hemitted : s'.emitted = s.emitted) (hinbox : s'.inbox = s.inbox)
    (hcompletions : ∀ r ∈ s'.completions (q, w), r ∈ s.completions (q, w)) : s'.Waits q w s₀' := by
  refine h.congr hacc hrests.sendWrs hrests.recvWrs (.of_subset ?_ ?_ (.inl hrests.posts) ?_ fun r hr => .inl (hcompletions r hr))
  · rw [hslots]
    exact fun _ _ => id
  · rw [hemitted]
  · rw [hinbox]
    exact fun _ => id

/-- Whenever a message is posted, nothing else under way on the queue pair has its id. -/
def postsClear (ops : FloatOps K) (s : RdmaState S K) (e : RdmaEvent S) : Prop :=
  ∀ s', s.next ops e = some s' → ∀ w q, (s'.currentWr q w).no ≠ (s.currentWr q w).no → s'.OnlyCurrent q w

theorem setThread_self (s : RdmaState S K) (w : Fin n) (t : RdmaWorkerThread S.config K) :
    (s.setThread w t).threads w = t := Function.update_self ..

theorem setThread_of_ne {v : Fin n} (h : v ≠ w) (t : RdmaWorkerThread S.config K) :
    (s.setThread w t).threads v = s.threads v := Function.update_of_ne h ..

/-- The network card writes only to the buffers. -/
theorem deliver_thread (s : RdmaState S K) (y : S.Place) (w : Fin n) (i : ℕ) (r : Response n) (v : Fin n) :
    ((s.deliver y w i r).threads v).sendWrs = (s.threads v).sendWrs ∧
      ((s.deliver y w i r).threads v).recvWrs = (s.threads v).recvWrs ∧
      ((s.deliver y w i r).threads v).posts = (s.threads v).posts := by
  unfold deliver
  dsimp only
  by_cases hv : v = w
  · subst hv
    rw [Function.update_self]
    exact ⟨rfl, rfl, rfl⟩
  · rw [Function.update_of_ne hv]
    exact ⟨rfl, rfl, rfl⟩

/-- A thread's own step. -/
theorem Follows.threaded (h : s.Follows q s₀) (hr : (machine ops).Reachable s) {e : RdmaWorkerThread.Event S.config}
    {t : RdmaWorkerThread S.config K} (he : e.isOwn = true) (ht : (s.threads w).next ops e = some t)
    (hclear : (t.sendWrs q).no ≠ (s.currentWr q w).no → (s.setThread w t).OnlyCurrent q w) :
    (s.setThread w t).Follows q s₀ := by
  refine ⟨h.reachable, h.blanks, fun v => ?_⟩
  by_cases hv : v = w
  · subst hv
    have hself := s.setThread_self v t
    rcases (RdmaWorkerThread.Bookkeeping.of_reachable (threads_reachable hr v)).own he ht q with
      hrests | ⟨-, hre⟩ | ⟨hrecv, hs⟩
    · rw [← hself] at hrests
      exact (h.waits v).rests rfl hrests rfl rfl rfl fun _ => id
    · rw [← hself] at hre
      exact (h.waits v).congr rfl hre.sendWrs hre.recvWrs
        (.of_subset (fun _ _ => id) rfl (.inr hre.posts) (fun _ => id) fun _ => .inl)
    · have hno : (t.sendWrs q).no = (s.currentWr q v).no + 1 := hs.no
      have honly := hclear (by omega)
      rw [← hself] at hs
      exact .sends (fun k hk => (h.waits v).accepted k hk (.inr hrecv)) (fun k => h.accepted_lt hr) hs honly
  · refine (h.waits v).rests rfl ?_ rfl rfl rfl fun _ => id
    rw [setThread_of_ne hv]
    exact .refl _ _

/-- What the worker accepts is a response to its message. -/
theorem Follows.own (h : s.Follows q s₀) (hr : (machine ops).Reachable s) {r : Response n}
    (hmem : r ∈ s.completions (q, w)) (hpos : 0 < (s.threads w).recvWrs q)
    (hid : shortIdOf r.wire.md = shortMsgId (s.currentWr q w).immData) :
    r.phase + 1 = (s.currentWr q w).no ∧ ∃ s₀', (S.job (S.lastPlace q)).machine.Reachable s₀' ∧
      Blanks (S.job (S.lastPlace q)).slot (s.slots (S.lastPlace q)) s₀' ∧
      (∀ v, v ≠ w → s₀'.accepted v = s₀.accepted v) ∧
      ∀ k, (s₀'.accepted w k).isSome = true ↔ k = r.phase ∨ (s₀.accepted w k).isSome = true := by
  have hunder : s.UnderWay q w (shortIdOf r.wire.md) (r.phase + 1) := .completion r hmem
  rw [hid] at hunder
  have hno := (h.waits w).onlyCurrent hpos _ hunder
  have hI := Inv.of_reachable h.reachable
  obtain ⟨hresp, hgoes⟩ := (FromSlot.of_reachable hr q).completions w r hmem
  have hblank : r.blank ∈ s₀.responses := by
    rw [h.blanks.responses]
    exact List.mem_map_of_mem hresp
  -- all have sent the message, and the worker has sent no later one
  have hle : s₀.sent w ≤ (s.currentWr q w).no := by
    rw [h.blanks.sent]
    exact (Tracks.of_reachable hr (S.lastPlace q)).sent_le (.of_reachable (threads_reachable hr w) q)
  have hsent : r.phase < s₀.sent w := hI.sent_of_complete (hI.responses _ hblank).complete w
  have hnone : s₀.accepted w r.phase = none := by
    have hwaits := (h.waits w).none hpos
    rw [← hno, Nat.add_sub_cancel] at hwaits
    exact hwaits
  have hphase : r.blank.phase + 1 = s₀.sent w := by
    show r.phase + 1 = s₀.sent w
    omega
  obtain ⟨i, hi⟩ := List.mem_iff_getElem?.mp hblank
  have haddressed : r.blank.broadcast = true ∨ r.blank.worker = w := by
    unfold Response.goesTo at hgoes
    rw [Bool.or_eq_true, decide_eq_true_eq] at hgoes
    exact hgoes
  refine ⟨hno, { s₀ with
    accepted := Function.update s₀.accepted w (Function.update (s₀.accepted w) r.phase (some r.blank)) }, ?_,
    ⟨h.blanks.cells, h.blanks.flight, h.blanks.sent, h.blanks.copies, h.blanks.seen, h.blanks.responses⟩, ?_, ?_⟩
  · refine h.reachable.step (e := .accept w i) ?_
    show (s₀.responses[i]?).bind _ = _
    rw [hi, Option.bind_some]
    exact if_pos ⟨haddressed, hphase, hnone⟩
  · exact fun v hv => Function.update_of_ne hv ..
  · intro k
    show (Function.update s₀.accepted w _ w k).isSome = true ↔ _
    rw [Function.update_self]
    by_cases hk : k = r.phase
    · subst hk
      rw [Function.update_self]
      exact ⟨fun _ => .inl rfl, fun _ => rfl⟩
    · rw [Function.update_of_ne hk]
      exact ⟨.inr, fun hcase => hcase.resolve_left hk⟩

/-- The id of the completion that a thread expects is the one of its message. -/
theorem expected_id (hr : (machine ops).Reachable s) {r : Response n} {t : RdmaWorkerThread S.config K}
    (ht : (s.threads w).next ops (.complete (completion q r)) = some t)
    (hacc : (s.threads w).isExpected (completion q r) = true) :
    (∃ l, (s.threads w).Outstanding l q) ∧ shortIdOf r.wire.md = shortMsgId (s.currentWr q w).immData := by
  cases RdmaWorkerThread.step ht with
  | completed sl _ hs hpos =>
    obtain ⟨l, hsend⟩ := (RdmaWorkerThread.Bookkeeping.of_reachable (threads_reachable hr w)).loop sl hs
    obtain ⟨-, -, ho⟩ := hsend.loop.outstanding_of_recv hpos
    have hid : shortIdOf r.wire.md = BitVec.ofNat 16 ((s.threads w).msgIds q) := of_decide_eq_true hacc
    exact ⟨⟨l, ho⟩, hid.trans ho.immData.symm⟩

/-- A completion is polled. -/
theorem Follows.polled (h : s.Follows q s₀) (hr : (machine ops).Reachable s) {p : S.config.Qpn} {r : Response n}
    {t : RdmaWorkerThread S.config K} (hhead : (s.completions (p, w))[0]? = some r)
    (ht : (s.threads w).next ops (.complete (completion p r)) = some t)
    (hs' : s' = { s.setThread w t with completions := s.completions.take (p, w) 0 })
    (hclear : (t.sendWrs q).no ≠ (s.currentWr q w).no → s'.OnlyCurrent q w) : ∃ s₀', s'.Follows q s₀' := by
  subst hs'
  have hself := s.setThread_self w t
  have hcompletions (v : Fin n) : ∀ r' ∈ s.completions.take (p, w) 0 (q, v), r' ∈ s.completions (q, v) :=
    fun _ => Queues.mem_of_mem_take
  have hothers (s₀' : State n) {v : Fin n} (hv : v ≠ w) (hacc : s₀'.accepted v = s₀.accepted v) :
      ({ s.setThread w t with completions := s.completions.take (p, w) 0 } : RdmaState S K).Waits q v s₀' := by
    refine (h.waits v).rests hacc ?_ rfl rfl rfl (hcompletions v)
    show RdmaWorkerThread.Rests _ ((s.setThread w t).threads v) q
    rw [setThread_of_ne hv]
    exact .refl _ _
  rcases RdmaWorkerThread.completes ht q with hrests | ⟨hp, hacc, hmoves⟩
  · refine ⟨s₀, h.reachable, h.blanks, fun v => ?_⟩
    by_cases hv : v = w
    · subst hv
      rw [← hself] at hrests
      exact (h.waits v).rests rfl hrests rfl rfl rfl (hcompletions v)
    · exact hothers s₀ hv rfl
  · obtain rfl : p = q := hp
    obtain ⟨⟨l, hout⟩, hid⟩ := expected_id hr ht hacc
    have hrecv := hout.recv
    obtain ⟨hno, s₀', hr₀, hblanks, hsame, haccepted⟩ := h.own hr (List.mem_of_getElem? hhead) (by omega) hid
    -- now a response is accepted for every message that was posted
    have hall : ∀ k < (s.currentWr p w).no, (s₀'.accepted w k).isSome = true := by
      intro k hk
      rw [haccepted]
      by_cases hlast : k = r.phase
      · exact .inl hlast
      · exact .inr ((h.waits w).accepted k hk (.inl (by omega)))
    refine ⟨s₀', hr₀, hblanks, fun v => ?_⟩
    by_cases hv : v = w
    · subst hv
      rcases hmoves with hends | hs
      · have hzero : t.recvWrs p = 0 := by
          rw [hends.recvWrs, hrecv]
        refine ⟨fun k hk _ => hall k ?_, fun hpos => ?_, fun hpos => ?_⟩
        · have hwr : ((s.setThread v t).threads v).sendWrs p = (s.threads v).sendWrs p := by
            rw [hself]
            exact hends.sendWrs
          exact lt_of_lt_of_eq hk (congrArg SendWr.no hwr)
        all_goals
          have hpos' : 0 < ((s.setThread v t).threads v).recvWrs p := hpos
          rw [hself, hzero] at hpos'
          exact absurd hpos' (Nat.lt_irrefl 0)
      · have hnext : (t.sendWrs p).no = (s.currentWr p v).no + 1 := hs.no
        have honly := hclear (by omega)
        rw [← hself] at hs
        refine .sends hall (fun k hk => ?_) hs honly
        rcases (haccepted k).mp hk with rfl | hk
        · omega
        · exact h.accepted_lt hr hk
    · exact hothers s₀' hv (hsame v hv)

theorem Follows.step (h : s.Follows q s₀) (hr : (machine ops).Reachable s) {e : RdmaEvent S} (hok : s.postsClear ops e)
    (hn : s.next ops e = some s') : ∃ s₀', s'.Follows q s₀' := by
  have hclear := hok s' hn
  cases RdmaState.step hn with
  | threaded w e t he ht =>
    refine ⟨s₀, h.threaded hr he ht fun hne => hclear w q ?_⟩
    show (((s.setThread w t).threads w).sendWrs q).no ≠ _
    rw [setThread_self]
    exact hne
  | emitted w y p hp => exact h.emit hr hp
  | slotted y e t he ht =>
    have htracks := Tracks.of_reachable hr y
    have hwaits (s₀' : State n) (hacc : s₀'.accepted = s₀.accepted) (v : Fin n) :
        (s.stepSlot y t).Waits q v s₀' := by
      refine (h.waits v).congr (congrFun hacc v) rfl rfl
        (.stepSlot htracks he ht (.of_reachable h.reachable) h.blanks (fun k hk => ?_) ?_)
      · exact (h.waits v).accepted k (by omega) (.inl hk)
      · exact (Tracks.of_reachable hr (S.lastPlace q)).sent_le (.of_reachable (threads_reachable hr v) q)
    by_cases hy : S.lastPlace q = y
    · subst hy
      have hslot : (s.stepSlot (S.lastPlace q) t).slots (S.lastPlace q) = t := Function.update_self ..
      obtain ⟨s₀', hr₀, hblanks, hacc⟩ := h.blanks.next h.reachable he ht
      refine ⟨s₀', hr₀, ?_, hwaits s₀' hacc⟩
      rw [hslot]
      exact hblanks
    · have hslot : (s.stepSlot y t).slots (S.lastPlace q) = s.slots (S.lastPlace q) := Function.update_of_ne hy ..
      refine ⟨s₀, h.reachable, ?_, hwaits s₀ rfl⟩
      rw [hslot]
      exact h.blanks
  | lost y w i =>
    refine ⟨s₀, h.reachable, h.blanks, fun v => (h.waits v).congr rfl rfl rfl
      (.of_subset (fun _ _ => id) rfl (.inl rfl) (fun _ => Queues.mem_of_mem_take) fun _ => .inl)⟩
  | delivered y w i r hin =>
    refine ⟨s₀, h.reachable, h.blanks, fun v => ?_⟩
    obtain ⟨hwr, hrecv, hposts⟩ := s.deliver_thread y w i r v
    exact (h.waits v).congr rfl (congrFun hwr q) (congrFun hrecv q)
      (.of_subset (fun _ _ => id) rfl (.inl (congrFun hposts q)) (fun _ => Queues.mem_of_mem_take)
        fun _ => mem_completions_deliver hin)
  | polled p w r t hhead ht =>
    refine h.polled hr hhead ht rfl fun hne => hclear w q ?_
    show (((s.setThread w t).threads w).sendWrs q).no ≠ _
    rw [setThread_self]
    exact hne

theorem Follows.of_reach (h : (machine ops).Reach (postsClear ops) s) (q : S.config.Qpn) : ∃ s₀, s.Follows q s₀ := by
  induction h with
  | init hs =>
    obtain ⟨memory, buffers, rfl⟩ := hs
    exact ⟨State.init n, .init rfl, .init _, fun _ =>
      ⟨(fun _ hk => absurd hk (Nat.not_lt_zero _)), fun hpos => absurd hpos (Nat.lt_irrefl 0),
        fun hpos => absurd hpos (Nat.lt_irrefl 0)⟩⟩
  | step hr hok hn ih =>
    obtain ⟨s₀, hs₀⟩ := ih
    exact hs₀.step hr.reachable hok hn

/-- A completion that the receive loop accepts on a queue pair is of a response
that the switch made in the slot and the set to which the queue pair sent the
message it is accepted for. -/
theorem accepted_own (h : (machine ops).Reach (postsClear ops) s) {r : Response n}
    (hhead : (s.completions (q, w))[0]? = some r) (hn : s.next ops (.poll q w) = some s')
    (hacc : (s.threads w).isExpected (completion q r) = true) :
    r ∈ (s.slots (S.lastPlace q)).responses ∧ ∃ post ∈ (s.threads w).posts q,
      post.wr.slice = (s.threads w).slices ∧ post.wr.msgId = (s.threads w).msgIds q ∧ r.phase + 1 = post.wr.no ∧
        r.wire.md.poolIndex = advance post.wr.rkey (S.lastPlace q).2 := by
  have hr := h.reachable
  obtain ⟨s₀, hs₀⟩ := Follows.of_reach h q
  have hmem := List.mem_of_getElem? hhead
  have hfrom := FromSlot.of_reachable hr q
  have hresp := (hfrom.completions w r hmem).1
  cases RdmaState.step hn with
  | polled _ _ r' t hhead' ht =>
    obtain rfl : r = r' := Option.some.inj (hhead.symm.trans hhead')
    obtain ⟨⟨l, hout⟩, hid⟩ := expected_id hr ht hacc
    obtain ⟨hno, -⟩ := hs₀.own hr hmem (by rw [hout.recv]; exact Nat.one_pos) hid
    have hnum : (s.threads w).Numbered q := .of_reachable (threads_reachable hr w) q
    -- the last post is of the message waited for
    have hne : (s.threads w).posts q ≠ [] := by
      intro hnil
      have hzero : (s.currentWr q w).no = 0 := by
        show ((s.threads w).sendWrs q).no = 0
        rw [hnum.no, hnil, newCount_nil]
      omega
    obtain ⟨post, hlast⟩ : ∃ post, ((s.threads w).posts q).getLast? = some post :=
      ⟨_, List.getLast?_eq_some_getLast hne⟩
    have hwr : post.wr = s.currentWr q w :=
      (RdmaWorkerThread.Bookkeeping.of_reachable (threads_reachable hr w)).last_post hlast
    refine ⟨hresp, post, List.mem_of_getLast? hlast, ?_, ?_, ?_, ?_⟩
    · rw [hwr]
      exact hout.slice
    · rw [hwr]
      exact hout.msgId
    · rw [hwr, hno]
    · rw [hfrom.poolIndex r hresp, hnum.rkeys post (List.mem_of_getLast? hlast), hwr, ← hno]
      exact (advance_messageRkey (S.lastPlace q) r.phase).symm

/-! ## Two workers -/

theorem onlyCurrent_iff : s.OnlyCurrent q w ↔
    (∀ p ∈ ((s.threads w).posts q).drop (s.emitted w (S.lastPlace q)),
      shortMsgId p.wr.immData = shortMsgId (s.currentWr q w).immData → p.wr.no = (s.currentWr q w).no) ∧
    (∀ v t, ∀ f ∈ (s.slots (S.lastPlace q)).flight (v, t), v = w ∨ t.isConsume = false ∧ f.wire.md.mapResult = 0 →
      shortIdOf f.wire.md = shortMsgId (s.currentWr q w).immData → f.phase + 1 = (s.currentWr q w).no) ∧
    ∀ r ∈ s.inbox (S.lastPlace q, w) ++ s.completions (q, w),
      shortIdOf r.wire.md = shortMsgId (s.currentWr q w).immData → r.phase + 1 = (s.currentWr q w).no := by
  constructor
  · intro h
    refine ⟨fun p hp hid => h _ (hid ▸ .posted p hp), fun v t f hf hcase hid => h _ ?_, fun r hr hid => h _ ?_⟩
    · rw [← hid]
      rcases hcase with rfl | ⟨ht, hmap⟩
      · exact .packet t f hf
      · exact .candidate v t f ht hf hmap
    · rw [← hid]
      exact (List.mem_append.mp hr).elim (.response r) (.completion r)
  · rintro ⟨hposted, hpackets, hresponses⟩ no hno
    generalize hid : shortMsgId (s.currentWr q w).immData = id at hno
    cases hno with
    | posted p hp => exact hposted p hp hid.symm
    | packet t f hf => exact hpackets w t f hf (.inl rfl) hid.symm
    | candidate v t f ht hf hmap => exact hpackets v t f hf (.inr ⟨ht, hmap⟩) hid.symm
    | response r hr => exact hresponses r (List.mem_append_left _ hr) hid.symm
    | completion r hr => exact hresponses r (List.mem_append_right _ hr) hid.symm

instance decidableOnlyCurrent (s : RdmaState S K) (q : S.config.Qpn) (w : Fin n) : Decidable (s.OnlyCurrent q w) :=
  decidable_of_iff _ onlyCurrent_iff.symm

instance decidablePostsClear (ops : FloatOps K) (s : RdmaState S K) (e : RdmaEvent S) : Decidable (s.postsClear ops e) :=
  match h : s.next ops e with
  | none => .isTrue fun s' hn => by rw [h] at hn; cases hn
  | some s' =>
    decidable_of_iff (∀ w q, (s'.currentWr q w).no ≠ (s.currentWr q w).no → s'.OnlyCurrent q w)
      ⟨fun hall s'' hn => by rw [h, Option.some.injEq] at hn; exact hn ▸ hall, fun hall => hall s' h⟩

/-- Both workers begin a slice of one message, and worker 0 gets the result. -/
def sliceEvents (id : ℕ) : List (RdmaEvent RdmaSession.pair) :=
  [.thread 0 (.begin (exampleSlice id 64 .int32)),
    .thread 1 (.begin (exampleSlice id 64 .int32)), .emit 0 onlyPlace, .emit 1 onlyPlace,
    firstPass, .slot onlyPlace (.pass 1 .CONSUME0 0 .quiet), .slot onlyPlace (.pass 1 .HARVEST7 0 .quiet),
    .deliver onlyPlace 0 0]

/-- The result of a second slice, with the id of the first one. -/
theorem accepted_own_second : ∃ (s : RdmaState RdmaSession.pair ℕ) (r : Response 2),
    (s.threads 0).slices = 2 ∧ (s.completions (onlyQp, 0))[0]? = some r ∧
      r ∈ (s.slots onlyPlace).responses ∧ ∃ post ∈ (s.threads 0).posts onlyQp,
        post.wr.slice = (s.threads 0).slices ∧ post.wr.msgId = (s.threads 0).msgIds onlyQp ∧
          r.phase + 1 = post.wr.no ∧ r.wire.md.poolIndex = advance post.wr.rkey 0 := by
  have hrun : ((machine exampleOps).runWhile (postsClear exampleOps) pairInit
      (sliceEvents 0 ++ [.poll onlyQp 0, .deliver onlyPlace 1 0, .poll onlyQp 1, .thread 0 .finish, .thread 1 .finish] ++
        sliceEvents 1)).bind (fun s => ((s.completions (onlyQp, 0))[0]?).bind fun r =>
          (s.next exampleOps (.poll onlyQp 0)).map fun _ =>
            decide ((s.threads 0).slices = 2) && (s.threads 0).isExpected (completion onlyQp r)) = some true := by
    decide +kernel
  obtain ⟨s, hs, hrest⟩ := Option.bind_eq_some_iff.mp hrun
  obtain ⟨r, hhead, hnext⟩ := Option.bind_eq_some_iff.mp hrest
  obtain ⟨s', hn, hall⟩ := Option.map_eq_some_iff.mp hnext
  rw [Bool.and_eq_true, decide_eq_true_eq] at hall
  exact ⟨s, r, hall.1, hhead, accepted_own (Machine.Reach.runWhile (.init ⟨_, _, rfl⟩) hs) hhead hn hall.2⟩

/-- Worker 0 sends its first packet twice and gets two responses. The second one
comes in the next slice, and is accepted for the message of that slice. -/
theorem accepted_own_late : ∃ (s s' : RdmaState RdmaSession.pair ℕ) (r : Response 2),
    (machine exampleOps).Reachable s ∧ (s.completions (onlyQp, 0))[0]? = some r ∧
      s.next exampleOps (.poll onlyQp 0) = some s' ∧
      (s.threads 0).isExpected (completion onlyQp r) = true ∧
      ∀ post ∈ (s.threads 0).posts onlyQp, post.wr.slice = (s.threads 0).slices →
        post.wr.msgId = (s.threads 0).msgIds onlyQp → r.wire.md.poolIndex ≠ advance post.wr.rkey 0 := by
  have hrun : ((machine exampleOps).run pairInit
      [.thread 0 (.begin (exampleSlice 0 64 .int32)),
        .thread 1 (.begin (exampleSlice 0 64 .int32)), .emit 0 onlyPlace, .emit 1 onlyPlace,
        firstPass, .thread 0 (.tick (3 * 10 ^ 6)), .thread 0 .checkTimeouts, .emit 0 onlyPlace,
        .slot onlyPlace (.pass 1 .CONSUME0 0 .quiet), .slot onlyPlace (.pass 1 .HARVEST7 0 .quiet),
        firstPass, .slot onlyPlace (.pass 0 .HARVEST7 0 .quiet), .deliver onlyPlace 0 0, .poll onlyQp 0,
        .thread 0 .finish, .thread 0 (.begin (exampleSlice 1 64 .int32)),
        .deliver onlyPlace 0 0]).bind (fun s => ((s.completions (onlyQp, 0))[0]?).bind fun r =>
          (s.next exampleOps (.poll onlyQp 0)).map fun _ =>
            (s.threads 0).isExpected (completion onlyQp r) && ((s.threads 0).posts onlyQp).all fun post =>
              decide (post.wr.slice = (s.threads 0).slices → post.wr.msgId = (s.threads 0).msgIds onlyQp →
                r.wire.md.poolIndex ≠ advance post.wr.rkey 0)) = some true := by
    decide +kernel
  obtain ⟨s, hs, hrest⟩ := Option.bind_eq_some_iff.mp hrun
  obtain ⟨r, hhead, hnext⟩ := Option.bind_eq_some_iff.mp hrest
  obtain ⟨s', hn, hall⟩ := Option.map_eq_some_iff.mp hnext
  rw [Bool.and_eq_true, List.all_eq_true] at hall
  exact ⟨s, s', r, .run (.init ⟨_, _, rfl⟩) hs, hhead, hn, hall.1, fun post hpost => of_decide_eq_true (hall.2 post hpost)⟩

end RdmaState

end SwitchML.Aggregation
