/-
What the RDMA workers get, with 256 byte packets. Where every response arrives
while its message is the current one, and the one to a message's last packet
after the others, each slot is the one of a job whose contributions are the
posted messages (`Carries`), for packets that carry other words are repeated
ones. So a message that is completed holds the sums of the messages that the
workers posted with its number.
-/
import SwitchML.Aggregation.RdmaAccept
import SwitchML.Aggregation.Restore

namespace SwitchML.Aggregation

open P4 Tna Phases Controller Client

variable {n : ℕ} {S : RdmaSession n} {K : Type} {ops : FloatOps K} {s s' : RdmaState S K} {w : Fin n} {x y : S.Place}
  {q : S.config.Qpn} {u : Fin n}

/-! ## The jobs of the messages -/

namespace RdmaSession

/-- The requests of the workers, by queue pair and number. -/
abbrev Requests (S : RdmaSession n) := Fin n → S.config.Qpn → ℕ → SendWr

/-- The slot of a place, with what the requests carry. -/
def dataJob (S : RdmaSession n) (wrs : S.Requests) (x : S.Place) : Job n :=
  { S.job x with
    receivedMd := fun w k => S.requestMd w x (wrs w x.1 (k + 1))
    contribution := fun w k j i => htonl ((wrs w x.1 (k + 1)).original (S.wordAt x j i)) }

end RdmaSession

variable {wrs : S.Requests}

theorem dataJob_next {e : Event n} (he : e.ofSwitch = true) (t : State n) :
    (S.dataJob wrs x).next t e = (S.job x).next t e := by
  cases e with
  | pass w ty i inp => rfl
  | lose w ty i => rfl
  | other p ig => rfl
  | _ => cases he

theorem two_mul_pipes : 2 * (S.dataJob wrs x).pipes = if S.packetSize = .MTU_256 then 2 else 8 := by
  show 2 * (if S.packetSize = .MTU_256 then 1 else 4) = _
  split <;> rfl

/-- With the words of its message, a packet of a request is the job's packet of its phase. -/
theorem restore_request {wr : SendWr} {copy : ℕ} {words : ℕ → Word} (hwr : wrs w x.1 wr.no = wr)
    (hrkey : wr.rkey = S.config.messageRkey x.1 wr.no) (hpos : 0 < wr.no) :
    (S.dataJob wrs x).restore w .CONSUME0 (S.request w x wr copy words) =
      (S.dataJob wrs x).launch w (wr.no - 1) copy := by
  obtain ⟨k, hk⟩ : ∃ k, wr.no = k + 1 := ⟨wr.no - 1, by omega⟩
  have hidx : advance wr.rkey x.2 = (S.dataJob wrs x).poolIndex k := by
    rw [hrkey, hk, advance_messageRkey]
    rfl
  have hmd : S.requestMd w x wr = (S.dataJob wrs x).packetMd w k := by
    have hreceived : (S.dataJob wrs x).receivedMd w k = S.requestMd w x wr := by
      show S.requestMd w x (wrs w x.1 (k + 1)) = _
      rw [← hk, hwr]
    unfold Session.packetMd
    rw [hreceived, ← hidx]
    rfl
  have hphase : wr.no - 1 = k := by omega
  unfold Job.restore RdmaSession.request Session.launch Session.packet
  rw [hphase, hmd]
  rfl

theorem restoreWire_request {wr : SendWr} {copy : ℕ} {words : ℕ → Word} (hwr : wrs w x.1 wr.no = wr) (hpos : 0 < wr.no) :
    (S.dataJob wrs x).restoreWire w (wr.no - 1) .CONSUME0 (S.request w x wr copy words).wire =
      (S.request w x wr copy wr.original).wire := by
  have hwr' : wrs w x.1 (wr.no - 1 + 1) = wr := by
    rw [Nat.sub_add_cancel hpos]
    exact hwr
  have hslices : (S.dataJob wrs x).slicesFrom w (wr.no - 1) (2 * (0 : Fin 4).val) = S.slices x wr.original := by
    unfold Job.slicesFrom RdmaSession.slices
    rw [two_mul_pipes]
    refine List.map_congr_left fun j _ => funext fun i => ?_
    show htonl ((wrs w x.1 (wr.no - 1 + 1)).original (S.wordAt x j i)) = _
    rw [hwr']
  have htype : PacketType.CONSUME0 = consumeType 0 := rfl
  rw [htype, restoreWire_consumeType, hslices]
  rfl

/-- A packet of a request does no harm: it carries the words of its message, or is repeated. -/
theorem harmless_request {t : State n} {wr : SendWr} {copy : ℕ} {words : ℕ → Word} (hwr : wrs w x.1 wr.no = wr)
    (hpos : 0 < wr.no)
    (h : S.slices x words = S.slices x wr.original ∨ Repeated (S.dataJob wrs x) t w (wr.no - 1)) :
    Harmless (S.dataJob wrs x) t w (wr.no - 1) (S.request w x wr copy words).wire := by
  have htype : (S.request w x wr copy words).wire.md.packetType = .CONSUME0 := rfl
  unfold Harmless
  rw [htype, restoreWire_request hwr hpos]
  refine h.imp (fun hsame => ?_) fun hrep => ⟨?_, hrep⟩
  · exact congrArg (fun payload => { (S.request w x wr copy words).wire with payload := payload }) hsame.symm
  · show (S.slices x words).length = (S.slices x wr.original).length
    rw [RdmaSession.slices, RdmaSession.slices, List.length_map, List.length_map]

namespace RdmaState

/-! ## As the jobs have it -/

/-- The requests are those that were posted. -/
def Agrees (s : RdmaState S K) (wrs : S.Requests) : Prop :=
  ∀ w q, ∀ p ∈ (s.threads w).posts q, wrs w q p.wr.no = p.wr

/-- What a worker has received at a place: it has accepted a response for each
message but the one it waits for, and for this one as well once one has arrived,
which then is what the buffer holds. -/
structure Receives (s : RdmaState S K) (wrs : S.Requests) (x : S.Place) (w : Fin n) (t : State n) : Prop where
  accepted : ∀ k < (s.currentWr x.1 w).no, k + 1 < (s.currentWr x.1 w).no ∨ (s.threads w).recvWrs x.1 = 0 ∨
    s.written w x = true → (t.accepted w k).isSome = true
  words : S.packetSize = .MTU_256 → s.written w x = true →
    S.slices x ((s.threads w).buffers x.1) =
      [(S.dataJob wrs x).sum Finset.univ ((s.currentWr x.1 w).no - 1) 0,
        (S.dataJob wrs x).sum Finset.univ ((s.currentWr x.1 w).no - 1) 1]

/-- A completion is of the message posted last, and all of it has arrived. -/
structure Completed (s : RdmaState S K) (q : S.config.Qpn) (w : Fin n) : Prop where
  length : (s.completions (q, w)).length ≤ (s.threads w).recvWrs q
  current : ∀ r ∈ s.completions (q, w), r.phase + 1 = (s.currentWr q w).no ∧ ∀ x : S.Place, x.1 = q → s.written w x = true

/-- The slot of a place is the one of its job, in a run of the job. -/
structure Carries (s : RdmaState S K) (wrs : S.Requests) (x : S.Place) (t : State n) : Prop where
  reachable : (S.dataJob wrs x).machine.Reachable t
  restores : Restores (S.dataJob wrs x) (s.slots x) t
  inbox : ∀ w, ∀ r ∈ s.inbox (x, w), r ∈ (s.slots x).responses ∧ r.goesTo w = true
  receives : ∀ w, s.Receives wrs x w t

variable {t t' : State n}

theorem Agrees.of_append (h : s'.Agrees wrs)
    (hposts : ∀ w q, ∃ new, (s'.threads w).posts q = (s.threads w).posts q ++ new) : s.Agrees wrs := by
  intro w q p hp
  obtain ⟨new, hnew⟩ := hposts w q
  refine h w q p ?_
  rw [hnew]
  exact List.mem_append_left _ hp

theorem Receives.congr (h : s.Receives wrs x w t)
    (hacc : ∀ k, (t.accepted w k).isSome = true → (t'.accepted w k).isSome = true)
    (hwr : s'.currentWr x.1 w = s.currentWr x.1 w) (hrecv : (s'.threads w).recvWrs x.1 = (s.threads w).recvWrs x.1)
    (hbuf : S.slices x ((s'.threads w).buffers x.1) = S.slices x ((s.threads w).buffers x.1))
    (hwritten : s'.written w x = s.written w x) : s'.Receives wrs x w t' where
  accepted k hk hcase := by
    rw [hwr] at hk
    rw [hwr, hrecv, hwritten] at hcase
    exact hacc k (h.accepted k hk hcase)
  words := by
    rw [hwr, hbuf, hwritten]
    exact h.words

/-- A step that the slot and the responses have no part in. -/
theorem Carries.congr (h : s.Carries wrs x t) (hslots : s'.slots x = s.slots x)
    (hinbox : ∀ w, ∀ r ∈ s'.inbox (x, w), r ∈ s.inbox (x, w)) (hreceives : ∀ w, s'.Receives wrs x w t) :
    s'.Carries wrs x t where
  reachable := h.reachable
  restores := by
    rw [hslots]
    exact h.restores
  inbox w r hr := by
    rw [hslots]
    exact h.inbox w r (hinbox w r hr)
  receives := hreceives

/-- All pipes have seen a message for which a response was accepted. -/
theorem Carries.repeated (h : s.Carries wrs x t) {k : ℕ} (hacc : (t.accepted w k).isSome = true) :
    Repeated (S.dataJob wrs x) (s.slots x) w k := by
  have hcomplete := (Inv.of_reachable h.reachable).complete_of_accepted hacc
  intro p hp
  rw [← h.restores.seen]
  exact hcomplete p hp w

/-- What is read from a buffer that was written over is of a message for which a response was accepted. -/
theorem Carries.harmless (h : s.Carries wrs x t) (ha : s.Agrees wrs) (hr : (machine ops).Reachable s) {p : Post}
    (hmem : p ∈ (s.threads w).posts x.1) (copy : ℕ) :
    Harmless (S.dataJob wrs x) (s.slots x) w (p.wr.no - 1)
      (S.request w x p.wr copy ((s.threads w).buffers x.1)).wire := by
  have hnum : (s.threads w).Numbered x.1 := .of_reachable (threads_reachable hr w) x.1
  have hpos := hnum.pos p hmem
  have hle : p.wr.no ≤ (s.currentWr x.1 w).no := hnum.le hmem
  refine harmless_request (ha w x.1 p hmem) hpos ?_
  by_cases hcur : p.wr.no = (s.currentWr x.1 w).no ∧ s.written w x = false
  · refine .inl ?_
    have hcurrent : p.wr = (s.threads w).sendWrs x.1 := hnum.current p hmem hcur.1
    rw [hcurrent]
    exact (Intact.of_reachable hr x).buffer w hcur.2 (by rw [← hcurrent]; exact hpos)
  · refine .inr (h.repeated ((h.receives w).accepted _ (by omega) ?_))
    rw [not_and_or, Bool.not_eq_false] at hcur
    exact hcur.elim (fun hne => .inl (by omega)) fun hwritten => .inr (.inr hwritten)

/-- A packet is sent: the worker of the job sends or resends. -/
theorem Carries.emit_self (h : s.Carries wrs x t) (ha : s.Agrees wrs) (hr : (machine ops).Reachable s) {p : Post}
    (hp : ((s.threads w).posts x.1)[s.emitted w x]? = some p) : ∃ t', (s.emit w x p).Carries wrs x t' := by
  have hnum : (s.threads w).Numbered x.1 := .of_reachable (threads_reachable hr w) x.1
  have hmem := List.mem_of_getElem? hp
  have hpos := hnum.pos p hmem
  have hle : p.wr.no ≤ (s.currentWr x.1 w).no := hnum.le hmem
  have hsent : t.sent w = newCount (((s.threads w).posts x.1).take (s.emitted w x)) := by
    rw [h.restores.sent]
    exact (Tracks.of_reachable hr x).sent w
  have hcount := hnum.count _ p hp
  rw [newCount_take_succ hp] at hcount
  obtain ⟨copy, hcopy⟩ : ∃ copy, copy = if p.isRetransmission then (s.slots x).copies w else 0 := ⟨_, rfl⟩
  have hslot : (s.emit w x p).slots x =
      { s.slots x with
        sent := Function.update (s.slots x).sent w p.wr.no
        copies := Function.update (s.slots x).copies w (copy + 1)
        flight := (s.slots x).flight.put (w, .CONSUME0) (S.request w x p.wr copy ((s.threads w).buffers x.1)) } := by
    rw [hcopy]
    exact Function.update_self ..
  have hput := h.restores.put w (S.request w x p.wr copy ((s.threads w).buffers x.1)) (Function.update (s.slots x).sent w p.wr.no)
    (Function.update (s.slots x).copies w (copy + 1)) (h.harmless ha hr hmem copy)
  rw [← hslot, restore_request (ha w x.1 p hmem) (hnum.rkeys p hmem) hpos, ← h.restores.sent, ← h.restores.copies] at hput
  rw [← h.restores.copies] at hcopy
  refine ⟨_, ?_, hput, fun u r hin => ?_, fun u => (h.receives u).congr (fun _ => id) rfl rfl rfl rfl⟩
  · cases hre : p.isRetransmission with
    | false =>
      rw [hre, if_neg Bool.false_ne_true] at hcopy
      rw [hre, if_neg Bool.false_ne_true, ← hsent] at hcount
      have hready : t.sent w = 0 ∨ (t.accepted w (t.sent w - 1)).isSome = true := by
        by_cases h0 : t.sent w = 0
        · exact .inl h0
        · exact .inr ((h.receives w).accepted _ (by omega) (.inl (by omega)))
      refine h.reachable.step (e := .send w) ?_
      show (if _ then _ else _) = _
      rw [if_pos hready, hcopy, hcount, Nat.add_sub_cancel]
    | true =>
      rw [hre, if_pos rfl] at hcopy
      rw [hre, if_pos rfl, Nat.add_zero, ← hsent] at hcount
      refine h.reachable.step (e := .resend w) ?_
      show (if _ then _ else _) = _
      rw [if_pos (by omega), hcopy, hcount, Function.update_eq_self]
  · rw [hslot]
    exact h.inbox u r hin

theorem Carries.emit (h : s.Carries wrs x t) (ha : s.Agrees wrs) (hr : (machine ops).Reachable s) {p : Post}
    (hp : ((s.threads w).posts y.1)[s.emitted w y]? = some p) : ∃ t', (s.emit w y p).Carries wrs x t' := by
  by_cases hx : x = y
  · subst hx
    exact h.emit_self ha hr hp
  · exact ⟨t, h.congr (Function.update_of_ne hx ..) (fun _ _ => id) fun u => (h.receives u).congr (fun _ => id) rfl rfl rfl rfl⟩

/-- A step of the slot. -/
theorem Carries.stepSlot (h : s.Carries wrs x t) (hr : (machine ops).Reachable s) {e : Event n} {u : State n}
    (he : e.ofSwitch = true) (hn : (S.job y).next (s.slots y) e = some u) : ∃ t', (s.stepSlot y u).Carries wrs x t' := by
  by_cases hx : x = y
  · subst hx
    have hslot : (s.stepSlot x u).slots x = u := Function.update_self ..
    obtain ⟨new, hnew, -⟩ := responses_next (Tracks.of_reachable hr x).flight he hn
    have hn : (S.dataJob wrs x).next (s.slots x) e = some u := (dataJob_next he _).trans hn
    obtain ⟨t', hr', hrestores, hacc⟩ := h.restores.next h.reachable he hn
    refine ⟨t', hr', ?_, fun v r hin => ?_, fun v => (h.receives v).congr (fun k => ?_) rfl rfl rfl rfl⟩
    · rw [hslot]
      exact hrestores
    · have hinbox : (s.stepSlot x u).inbox (x, v) = s.inbox (x, v) ++
          (u.responses.drop (s.slots x).responses.length).filter (·.goesTo v) := if_pos rfl
      rw [hinbox, hnew, List.drop_left] at hin
      rw [hslot, hnew]
      rcases List.mem_append.mp hin with hin | hin
      · exact ⟨List.mem_append_left _ (h.inbox v r hin).1, (h.inbox v r hin).2⟩
      · obtain ⟨hin, hgoes⟩ := List.mem_filter.mp hin
        exact ⟨List.mem_append_right _ hin, hgoes⟩
    · rw [hacc]
      exact id
  · refine ⟨t, h.congr (Function.update_of_ne hx ..) (fun v r hin => ?_) fun v => (h.receives v).congr (fun _ => id) rfl rfl rfl rfl⟩
    have hinbox : (s.stepSlot y u).inbox (x, v) = s.inbox (x, v) := if_neg hx
    rw [hinbox] at hin
    exact hin

/-! ## Responses in time -/

/-- A response arrives while its message is the current one; where it is to the
last packet, the rest of the message has arrived. -/
def inTime (s : RdmaState S K) : RdmaEvent S → Bool
  | .deliver x w i =>
    ((s.inbox (x, w))[i]?).all fun r =>
      decide (r.phase + 1 = (s.currentWr x.1 w).no) &&
        (!S.isLast x || decide (∀ j, j ≠ x.2 → s.written w (x.1, j) = true))
  | _ => true

theorem inTime_deliver {i : ℕ} {r : Response n} (hok : s.inTime (.deliver x w i) = true)
    (hin : (s.inbox (x, w))[i]? = some r) :
    r.phase + 1 = (s.currentWr x.1 w).no ∧
      (S.isLast x = true → ∀ y : S.Place, y.1 = x.1 → y ≠ x → s.written w y = true) := by
  simp only [inTime, hin, Option.all_some, Bool.and_eq_true, decide_eq_true_eq, Bool.or_eq_true, Bool.not_eq_true'] at hok
  refine ⟨hok.1, fun hlast y hy hne => ?_⟩
  have hall := hok.2.resolve_left (by rw [hlast]; exact Bool.noConfusion)
  have hj : y.2 ≠ x.2 := fun heq => hne (Prod.ext hy heq)
  have hwritten := hall y.2 hj
  rw [← hy] at hwritten
  exact hwritten

/-- What a response writes over its part of the buffer is read there. -/
theorem slices_write_self (h256 : S.packetSize = .MTU_256) {d0 d1 : DataH} (words : ℕ → Word) :
    S.slices x (S.write x [d0, d1] words) = [d0, d1] := by
  have hnumel : S.config.packetNumel = 64 := by
    rw [S.packetNumel, if_pos h256]
  have hword (j : ℕ) (hj : j < 2) (i : Fin 32) :
      S.write x [d0, d1] words (S.wordAt x j i) = htonl ([d0, d1].getD j blankData i) := by
    have hi := i.isLt
    have hoff : S.wordAt x j i - x.2.val * S.config.packetNumel = 32 * j + i.val := Nat.add_sub_cancel_left ..
    have hdiv : (32 * j + i.val) / 32 = j := by omega
    have hmod : (32 * j + i.val) % 32 = i.val := by omega
    unfold RdmaSession.write
    dsimp only
    rw [if_pos ⟨Nat.le_add_right _ _, by rw [hoff]; omega⟩]
    simp only [hoff, hdiv, hmod]
  unfold RdmaSession.slices
  rw [if_pos h256]
  show [_, _] = _
  congr 1
  · funext i
    exact (congrArg htonl (hword 0 (by decide) i)).trans (htonl_htonl _)
  · congr 1
    funext i
    exact (congrArg htonl (hword 1 (by decide) i)).trans (htonl_htonl _)

/-- A response that arrives in time is one the worker of the job accepts, or one
like it was accepted before. -/
theorem Carries.arrives (h : s.Carries wrs x t) (hr : (machine ops).Reachable s) {r : Response n}
    (hin : r ∈ s.inbox (x, w)) (hno : r.phase + 1 = (s.currentWr x.1 w).no) :
    (∃ t', (S.dataJob wrs x).machine.Reachable t' ∧ Restores (S.dataJob wrs x) (s.slots x) t' ∧
        (∀ v k, (t.accepted v k).isSome = true → (t'.accepted v k).isSome = true) ∧
        (t'.accepted w r.phase).isSome = true) ∧
      (S.packetSize = .MTU_256 → r.wire.payload =
        [(S.dataJob wrs x).sum Finset.univ r.phase 0, (S.dataJob wrs x).sum Finset.univ r.phase 1]) := by
  have hI := Inv.of_reachable h.reachable
  obtain ⟨hmem, hgoes⟩ := h.inbox w r hin
  rw [← h.restores.responses] at hmem
  have hresp := hI.responses r hmem
  -- the worker has sent the message, and no later one
  have hle : t.sent w ≤ (s.currentWr x.1 w).no := by
    rw [h.restores.sent]
    exact (Tracks.of_reachable hr x).sent_le (.of_reachable (threads_reachable hr w) x.1)
  have hsent := hI.sent_of_complete hresp.complete w
  refine ⟨?_, fun h256 => hresp.values h256 (hI.stillHeld (w := w) (by omega))⟩
  cases hacc : t.accepted w r.phase with
  | some r' =>
    refine ⟨t, h.reachable, h.restores, fun _ _ => id, ?_⟩
    rw [hacc]
    rfl
  | none =>
    obtain ⟨i, hi⟩ := List.mem_iff_getElem?.mp hmem
    have haddressed : r.broadcast = true ∨ r.worker = w := by
      unfold Response.goesTo at hgoes
      rw [Bool.or_eq_true, decide_eq_true_eq] at hgoes
      exact hgoes
    refine ⟨{ t with accepted := Function.update t.accepted w (Function.update (t.accepted w) r.phase (some r)) }, ?_,
      ⟨h.restores.regs, h.restores.flight, h.restores.sent, h.restores.copies, h.restores.seen, h.restores.responses,
        h.restores.harmless⟩, fun v k hk => ?_, ?_⟩
    · refine h.reachable.step (e := .accept w i) ?_
      show (t.responses[i]?).bind _ = _
      rw [hi, Option.bind_some]
      exact if_pos ⟨haddressed, by omega, hacc⟩
    · dsimp only
      by_cases hv : v = w
      · subst hv
        rw [Function.update_self]
        by_cases hphase : k = r.phase
        · subst hphase
          rw [Function.update_self]
          rfl
        · rw [Function.update_of_ne hphase]
          exact hk
      · rw [Function.update_of_ne hv]
        exact hk
    · dsimp only
      rw [Function.update_self, Function.update_self]
      rfl

theorem deliver_buffers (s : RdmaState S K) (i : ℕ) (r : Response n) (v : Fin n) (hne : ¬(v = w ∧ x = y)) :
    S.slices x (((s.deliver y w i r).threads v).buffers x.1) = S.slices x ((s.threads v).buffers x.1) := by
  unfold deliver
  dsimp only
  by_cases hv : v = w
  · subst hv
    have hxy : x ≠ y := fun heq => hne ⟨rfl, heq⟩
    rw [Function.update_self]
    dsimp only
    by_cases hq : x.1 = y.1
    · rw [← hq, Function.update_self, slices_write hxy hq]
    · rw [Function.update_of_ne hq]
  · rw [Function.update_of_ne hv]

theorem deliver_written (s : RdmaState S K) (y : S.Place) (w : Fin n) (i : ℕ) (r : Response n) (v : Fin n) (x : S.Place) :
    (s.deliver y w i r).written v x = if v = w ∧ x = y then true else s.written v x := by
  unfold deliver
  dsimp only
  by_cases hv : v = w
  · subst hv
    rw [Function.update_self, Function.update_apply]
    simp only [true_and]
  · rw [Function.update_of_ne hv, if_neg fun hc => hv hc.1]

/-- A response arrives. -/
theorem Carries.deliver (h : s.Carries wrs x t) (hr : (machine ops).Reachable s) {i : ℕ} {r : Response n}
    (hin : (s.inbox (y, w))[i]? = some r) (hno : r.phase + 1 = (s.currentWr y.1 w).no) :
    ∃ t', (s.deliver y w i r).Carries wrs x t' := by
  have hother {t' : State n} (v : Fin n)
      (hacc : ∀ k, (t.accepted v k).isSome = true → (t'.accepted v k).isSome = true) (hne : ¬(v = w ∧ x = y)) :
      (s.deliver y w i r).Receives wrs x v t' := by
    obtain ⟨hwr, hrecv, -⟩ := s.deliver_thread y w i r v
    refine (h.receives v).congr hacc (congrFun hwr x.1) (congrFun hrecv x.1) (s.deliver_buffers i r v hne) ?_
    rw [deliver_written, if_neg hne]
  by_cases hx : x = y
  · subst hx
    obtain ⟨⟨t', hr', hrestores, hmono, hacc⟩, hpayload⟩ := h.arrives hr (List.mem_of_getElem? hin) hno
    refine ⟨t', hr', hrestores, fun v r' hr' => h.inbox v r' (Queues.mem_of_mem_take hr'), fun v => ?_⟩
    by_cases hv : v = w
    · subst hv
      obtain ⟨hwr, hrecv, -⟩ := s.deliver_thread x v i r v
      have hcur : (s.deliver x v i r).currentWr x.1 v = s.currentWr x.1 v := congrFun hwr x.1
      refine ⟨fun k hk _ => ?_, fun h256 _ => ?_⟩
      · rw [hcur] at hk
        by_cases hlast : k = r.phase
        · rw [hlast]
          exact hacc
        · exact hmono v k ((h.receives v).accepted k hk (.inl (by omega)))
      · have hbuf : ((s.deliver x v i r).threads v).buffers x.1 =
            S.write x r.wire.payload ((s.threads v).buffers x.1) := by
          unfold RdmaState.deliver
          dsimp only
          rw [Function.update_self]
          exact Function.update_self ..
        rw [hbuf, hpayload h256, slices_write_self h256, hcur, ← hno, Nat.add_sub_cancel]
    · exact hother v (hmono v) fun hc => hv hc.1
  · exact ⟨t, h.congr rfl (fun v _ => Queues.mem_of_mem_take) fun v => hother v (fun _ => id) fun hc => hx hc.2⟩

theorem Completed.deliver (h : s.Completed q u) {i : ℕ} {r : Response n} (hin : (s.inbox (y, w))[i]? = some r)
    (hok : s.inTime (.deliver y w i) = true) : (s.deliver y w i r).Completed q u := by
  obtain ⟨hno, hrest⟩ := inTime_deliver hok hin
  obtain ⟨hwr, hrecv, -⟩ := s.deliver_thread y w i r u
  have hcur : (s.deliver y w i r).currentWr q u = s.currentWr q u := congrFun hwr q
  have hold : ∀ r' ∈ s.completions (q, u), r'.phase + 1 = ((s.deliver y w i r).currentWr q u).no ∧
      ∀ x : S.Place, x.1 = q → (s.deliver y w i r).written u x = true := by
    intro r' hr'
    obtain ⟨hno', hall⟩ := h.current r' hr'
    refine ⟨hcur ▸ hno', fun x hx => ?_⟩
    rw [deliver_written]
    split
    · rfl
    · exact hall x hx
  have hcompletions : (s.deliver y w i r).completions =
      if S.isLast y = true ∧ (s.completions (y.1, w)).length < (s.threads w).recvWrs y.1 then
        s.completions.put (y.1, w) r
      else s.completions := rfl
  constructor
  · rw [hrecv, hcompletions]
    split
    · rename_i hlast
      by_cases hkey : (q, u) = (y.1, w)
      · cases hkey
        rw [Queues.put_self, List.length_append]
        exact hlast.2
      · rw [Queues.put_of_ne hkey]
        exact h.length
    · exact h.length
  · rw [hcompletions]
    intro r' hr'
    split at hr'
    · rename_i hlast
      rcases Queues.mem_put.mp hr' with hr' | ⟨hkey, rfl⟩
      · exact hold r' hr'
      · cases hkey
        refine ⟨hcur ▸ hno, fun x hx => ?_⟩
        rw [deliver_written]
        split
        · rfl
        · rename_i hne
          exact hrest hlast.1 x hx fun hxy => hne ⟨rfl, hxy⟩
    · exact hold r' hr'

/-! ## Steps of the threads -/

/-- What a thread leaves alone on a queue pair. -/
theorem Receives.setThread_of_same (h : s.Receives wrs x u t) {tw : RdmaWorkerThread S.config K}
    (hsame : u = w → tw.sendWrs x.1 = (s.threads w).sendWrs x.1 ∧ tw.recvWrs x.1 = (s.threads w).recvWrs x.1 ∧
      tw.buffers x.1 = (s.threads w).buffers x.1) : (s.setThread w tw).Receives wrs x u t := by
  by_cases hu : u = w
  · subst hu
    obtain ⟨hwr, hrecv, hbuf⟩ := hsame rfl
    have hself := s.setThread_self u tw
    refine h.congr (fun _ => id) ?_ ?_ ?_ (if_neg fun hc => hc.2 (by rw [hwr]))
    · rw [currentWr, hself]
      exact hwr
    · rw [hself, hrecv]
    · rw [hself, hbuf]
  · have hother := setThread_of_ne (s := s) hu tw
    refine h.congr (fun _ => id) ?_ ?_ ?_ (if_neg fun hc => hu hc.1)
    · rw [currentWr, hother]
      rfl
    · rw [hother]
    · rw [hother]

/-- A message is posted, after a response was accepted for all before. -/
theorem Receives.sends {tw : RdmaWorkerThread S.config K}
    (hall : ∀ k < (s.currentWr x.1 w).no, (t.accepted w k).isSome = true)
    (hs : RdmaWorkerThread.Sends (s.threads w) tw x.1) : (s.setThread w tw).Receives wrs x w t := by
  have hself := s.setThread_self w tw
  have hno : (tw.sendWrs x.1).no = (s.currentWr x.1 w).no + 1 := hs.no
  have hunwritten : (s.setThread w tw).written w x = false :=
    if_pos ⟨rfl, fun heq => absurd (heq.symm.trans hno) (Nat.succ_ne_self _).symm⟩
  refine ⟨fun k hk hcase => hall k ?_, fun _ hwritten => by rw [hunwritten] at hwritten; cases hwritten⟩
  rw [currentWr, hself, hno] at hk hcase
  rw [hunwritten] at hcase
  have hpos := hs.recvWrs
  rcases hcase with hcase | hcase | hcase
  · omega
  · omega
  · cases hcase

/-- The last result was received, and no message is left to send. -/
theorem Receives.ends (h : s.Receives wrs x w t) {tw : RdmaWorkerThread S.config K}
    (hall : ∀ k < (s.currentWr x.1 w).no, (t.accepted w k).isSome = true)
    (he : RdmaWorkerThread.Ends (s.threads w) tw x.1) : (s.setThread w tw).Receives wrs x w t := by
  have hself := s.setThread_self w tw
  have hcur : (s.setThread w tw).currentWr x.1 w = s.currentWr x.1 w := by
    rw [currentWr, hself]
    exact he.sendWrs
  have hwritten : (s.setThread w tw).written w x = s.written w x := if_neg fun hc => hc.2 (by rw [he.sendWrs])
  refine ⟨fun k hk _ => hall k (hcur ▸ hk), ?_⟩
  rw [hwritten, hcur, hself, he.buffers]
  exact h.words

/-- A thread's own step. -/
theorem Carries.threaded (h : s.Carries wrs x t) (hr : (machine ops).Reachable s) {e : RdmaWorkerThread.Event S.config}
    {tw : RdmaWorkerThread S.config K} (he : e.isOwn = true) (ht : (s.threads w).next ops e = some tw) :
    (s.setThread w tw).Carries wrs x t := by
  refine h.congr rfl (fun _ _ => id) fun u => ?_
  by_cases hu : u = w
  · subst hu
    rcases (RdmaWorkerThread.Bookkeeping.of_reachable (threads_reachable hr u)).own he ht x.1 with
      hrests | ⟨-, hre⟩ | ⟨hrecv, hs⟩
    · exact (h.receives u).setThread_of_same fun _ => ⟨hrests.sendWrs, hrests.recvWrs, hrests.buffers⟩
    · exact (h.receives u).setThread_of_same fun _ => ⟨hre.sendWrs, hre.recvWrs, hre.buffers⟩
    · exact .sends (fun k hk => (h.receives u).accepted k hk (.inr (.inl hrecv))) hs
  · exact (h.receives u).setThread_of_same fun hc => absurd hc hu

/-- Once a message is completed, a response was accepted for each of its packets. -/
theorem Carries.all_accepted (h : s.Carries wrs x t) (hdone : s.Completed x.1 w) {r : Response n}
    (hmem : r ∈ s.completions (x.1, w)) : ∀ k < (s.currentWr x.1 w).no, (t.accepted w k).isSome = true :=
  fun k hk => (h.receives w).accepted k hk (.inr (.inr ((hdone.current r hmem).2 x rfl)))

/-- A completion is polled. -/
theorem Carries.polled (h : s.Carries wrs x t) (hdone : s.Completed x.1 w) {p : S.config.Qpn} {r : Response n}
    {tw : RdmaWorkerThread S.config K} (hhead : (s.completions (p, w))[0]? = some r)
    (ht : (s.threads w).next ops (.complete (completion p r)) = some tw) : (s.setThread w tw).Carries wrs x t := by
  refine h.congr rfl (fun _ _ => id) fun u => ?_
  by_cases hu : u = w
  · subst hu
    rcases RdmaWorkerThread.completes ht x.1 with hrests | ⟨hp, -, hmoves⟩
    · exact (h.receives u).setThread_of_same fun _ => ⟨hrests.sendWrs, hrests.recvWrs, hrests.buffers⟩
    · obtain rfl : p = x.1 := hp
      have hall := h.all_accepted hdone (List.mem_of_getElem? hhead)
      rcases hmoves with hends | hs
      · exact (h.receives u).ends hall hends
      · exact .sends hall hs
  · exact (h.receives u).setThread_of_same fun hc => absurd hc hu

theorem Completed.setThread_of_same (h : s.Completed q u) {tw : RdmaWorkerThread S.config K}
    (hsame : u = w → tw.sendWrs q = (s.threads w).sendWrs q ∧ tw.recvWrs q = (s.threads w).recvWrs q) :
    (s.setThread w tw).Completed q u := by
  by_cases hu : u = w
  · subst hu
    obtain ⟨hwr, hrecv⟩ := hsame rfl
    have hself := s.setThread_self u tw
    refine ⟨?_, fun r hr => ?_⟩
    · rw [hself, hrecv]
      exact h.length
    · obtain ⟨hno, hall⟩ := h.current r hr
      refine ⟨?_, fun x hx => ?_⟩
      · rw [currentWr, hself, hwr]
        exact hno
      · have hwritten : (s.setThread u tw).written u x = s.written u x := if_neg fun hc => hc.2 (by rw [hx, hwr])
        rw [hwritten]
        exact hall x hx
  · have hother := setThread_of_ne (s := s) hu tw
    refine ⟨?_, fun r hr => ?_⟩
    · rw [hother]
      exact h.length
    · obtain ⟨hno, hall⟩ := h.current r hr
      refine ⟨?_, fun x hx => ?_⟩
      · rw [currentWr, hother]
        exact hno
      · have hwritten : (s.setThread w tw).written u x = s.written u x := if_neg fun hc => hu hc.1
        rw [hwritten]
        exact hall x hx

theorem Completed.threaded (h : s.Completed q u) (hr : (machine ops).Reachable s)
    {e : RdmaWorkerThread.Event S.config} {tw : RdmaWorkerThread S.config K} (he : e.isOwn = true)
    (ht : (s.threads w).next ops e = some tw) : (s.setThread w tw).Completed q u := by
  rcases (RdmaWorkerThread.Bookkeeping.of_reachable (threads_reachable hr w)).own he ht q with
    hrests | ⟨-, hre⟩ | ⟨hrecv, hs⟩
  · exact h.setThread_of_same fun _ => ⟨hrests.sendWrs, hrests.recvWrs⟩
  · exact h.setThread_of_same fun _ => ⟨hre.sendWrs, hre.recvWrs⟩
  · by_cases hu : u = w
    · subst hu
      have hnil : (s.setThread u tw).completions (q, u) = [] := by
        have hlen := h.length
        rw [hrecv, Nat.le_zero, List.length_eq_zero_iff] at hlen
        exact hlen
      refine ⟨?_, fun r hmem => ?_⟩
      · rw [hnil]
        exact Nat.zero_le _
      · rw [hnil] at hmem
        cases hmem
    · exact h.setThread_of_same fun hc => absurd hc hu

theorem Completed.take (h : s.Completed q u) (key : S.config.Qpn × Fin n) :
    ({ s with completions := s.completions.take key 0 } : RdmaState S K).Completed q u where
  length := by
    refine le_trans ?_ h.length
    show (s.completions.take key 0 (q, u)).length ≤ _
    by_cases hkey : (q, u) = key
    · subst hkey
      rw [Queues.take_self]
      exact List.length_eraseIdx_le ..
    · rw [Queues.take_of_ne hkey]
  current r hr := h.current r (Queues.mem_of_mem_take hr)

/-- A completion is polled. -/
theorem Completed.polled (h : s.Completed q u) (hr : (machine ops).Reachable s) {p : S.config.Qpn} {r : Response n}
    {tw : RdmaWorkerThread S.config K} (hhead : (s.completions (p, w))[0]? = some r)
    (ht : (s.threads w).next ops (.complete (completion p r)) = some tw) :
    ({ s.setThread w tw with completions := s.completions.take (p, w) 0 } : RdmaState S K).Completed q u := by
  rcases RdmaWorkerThread.completes ht q with hrests | ⟨hp, hacc, -⟩
  · exact (h.setThread_of_same fun _ => ⟨hrests.sendWrs, hrests.recvWrs⟩).take (p, w)
  · by_cases hu : u = w
    · subst hu
      obtain rfl : p = q := hp
      -- it was the only one
      obtain ⟨⟨l, hout⟩, -⟩ := expected_id hr ht hacc
      have hnil : s.completions.take (p, u) 0 (p, u) = [] := by
        have hlen := h.length
        rw [hout.recv] at hlen
        obtain ⟨hlt, -⟩ := List.getElem?_eq_some_iff.mp hhead
        rw [Queues.take_self, ← List.length_eq_zero_iff, List.length_eraseIdx_of_lt hlt]
        omega
      refine ⟨?_, fun r' hmem => ?_⟩
      · show (s.completions.take (p, u) 0 (p, u)).length ≤ _
        rw [hnil]
        exact Nat.zero_le _
      · have hmem' : r' ∈ s.completions.take (p, u) 0 (p, u) := hmem
        rw [hnil] at hmem'
        cases hmem'
    · exact (h.setThread_of_same fun hc => absurd hc hu).take (p, w)

/-! ## Every run -/

theorem Completed.step (h : s.Completed q u) (hr : (machine ops).Reachable s) {e : RdmaEvent S} (hok : s.inTime e = true)
    (hn : s.next ops e = some s') : s'.Completed q u := by
  cases RdmaState.step hn with
  | threaded w e tw he ht => exact h.threaded hr he ht
  | emitted w y p hp => exact ⟨h.length, h.current⟩
  | slotted y e t he ht => exact ⟨h.length, h.current⟩
  | lost y w i => exact ⟨h.length, h.current⟩
  | delivered y w i r hin => exact h.deliver hin hok
  | polled p w r tw hhead ht => exact h.polled hr hhead ht

theorem Completed.of_reach (h : (machine ops).Reach (fun s e => s.inTime e = true) s) (q : S.config.Qpn) (u : Fin n) :
    s.Completed q u := by
  induction h with
  | init hs =>
    obtain ⟨memory, buffers, rfl⟩ := hs
    exact ⟨le_rfl, fun _ hr => by cases hr⟩
  | step hr hok hn ih => exact ih.step hr.reachable hok hn

theorem Carries.step (h : s.Carries wrs x t) (ha : s.Agrees wrs) (hr : (machine ops).Reachable s)
    (hdone : ∀ w, s.Completed x.1 w) {e : RdmaEvent S} (hok : s.inTime e = true) (hn : s.next ops e = some s') :
    ∃ t', s'.Carries wrs x t' := by
  cases RdmaState.step hn with
  | threaded w e tw he ht => exact ⟨t, h.threaded hr he ht⟩
  | emitted w y p hp => exact h.emit ha hr hp
  | slotted y e u he hu => exact h.stepSlot hr he hu
  | lost y w i =>
    exact ⟨t, h.congr rfl (fun _ _ => Queues.mem_of_mem_take) fun u => (h.receives u).congr (fun _ => id) rfl rfl rfl rfl⟩
  | delivered y w i r hin => exact h.deliver hr hin (inTime_deliver hok hin).1
  | polled p w r tw hhead ht =>
    have hcarries := h.polled (hdone w) hhead ht
    exact ⟨t, hcarries.congr rfl (fun _ _ => id) fun u => (hcarries.receives u).congr (fun _ => id) rfl rfl rfl rfl⟩

theorem Carries.of_reach (h : (machine ops).Reach (fun s e => s.inTime e = true) s) (ha : s.Agrees wrs) (x : S.Place) :
    ∃ t, s.Carries wrs x t := by
  induction h with
  | init hs =>
    obtain ⟨memory, buffers, rfl⟩ := hs
    exact ⟨State.init n, .init rfl, .init _, (fun _ _ hr => by cases hr), fun w =>
      ⟨fun _ hk => absurd hk (Nat.not_lt_zero _), fun _ hwritten => by cases hwritten⟩⟩
  | step hr hok hn ih =>
    have hbefore := ha.of_append fun w q => posts_append hr.reachable hn w q
    obtain ⟨t, ht⟩ := ih hbefore
    exact ht.step hbefore hr.reachable (fun w => .of_reach hr x.1 w) hok hn

/-! ## The results -/

/-- The requests that were posted. -/
def requests (s : RdmaState S K) : S.Requests := fun w q no =>
  (((s.threads w).posts q).find? fun p => decide (p.wr.no = no)).elim ((s.threads w).sendWrs q) (·.wr)

theorem agrees_requests (hr : (machine ops).Reachable s) : s.Agrees s.requests := by
  intro w q p hp
  have hnum : (s.threads w).Numbered q := .of_reachable (threads_reachable hr w) q
  unfold requests
  cases hfind : ((s.threads w).posts q).find? fun p' => decide (p'.wr.no = p.wr.no) with
  | none =>
    have hne := List.find?_eq_none.mp hfind p hp
    exact absurd (decide_eq_true rfl) hne
  | some p' =>
    have hno : p'.wr.no = p.wr.no := of_decide_eq_true (List.find?_some (p := fun p' : Post => decide (p'.wr.no = p.wr.no)) hfind)
    exact hnum.same p' (List.mem_of_find?_eq_some hfind) p hp hno

/-- Every number up to that of the last message was posted. -/
theorem exists_post {posts : List Post} (hcount : ∀ j p, posts[j]? = some p → p.wr.no = newCount (posts.take (j + 1)))
    {k : ℕ} (hk : k < newCount posts) : ∃ p ∈ posts, p.wr.no = k + 1 := by
  induction posts using List.reverseRecOn with
  | nil => cases hk
  | append_singleton posts p ih =>
    by_cases hbefore : k < newCount posts
    · have hcount' (j : ℕ) (p' : Post) (hp' : posts[j]? = some p') : p'.wr.no = newCount (posts.take (j + 1)) := by
        have hlt := (List.getElem?_eq_some_iff.mp hp').1
        have hno := hcount j p' (by rw [List.getElem?_append_left hlt]; exact hp')
        rw [List.take_append_of_le_length hlt] at hno
        exact hno
      obtain ⟨p', hp', hno⟩ := ih hcount' hbefore
      exact ⟨p', List.mem_append_left _ hp', hno⟩
    · have hlast := hcount posts.length p List.getElem?_concat_length
      rw [List.take_of_length_le (by rw [List.length_append]; rfl)] at hlast
      rw [newCount_concat] at hlast hk
      refine ⟨p, List.mem_append_right _ (List.mem_singleton_self p), ?_⟩
      by_cases hre : p.isRetransmission = true
      · rw [if_pos hre] at hk
        exact absurd hk hbefore
      · rw [if_neg hre] at hk hlast
        omega

/-- The extra info is in the byte that the switch takes for the first exponent. -/
theorem htonl_extraInfo (v : BitVec 32) : (htonl v).extractLsb' 8 8 = v.extractLsb' 16 8 := by
  apply BitVec.eq_of_getLsbD_eq
  intro i hi
  have h1 : ¬8 + i < 8 := by omega
  have h2 : 8 + i - 8 < 8 := by omega
  have h3 : 8 + i - 8 = i := by omega
  simp only [htonl, BitVec.getLsbD_extractLsb', BitVec.getLsbD_append]
  rw [if_neg h1, if_pos h2, h3, decide_eq_true hi, Bool.true_and, Bool.true_and]

theorem e0_responseImmediate (md : SwitchmlMd) : (responseImmediate md).extractLsb' 8 8 = md.e0.toBitVec := by
  apply BitVec.eq_of_getLsbD_eq
  intro i hi
  have h1 : ¬8 + i < 8 := by omega
  have h2 : 8 + i - 8 < 8 := by omega
  have h3 : 8 + i - 8 = i := by omega
  simp only [responseImmediate, BitVec.getLsbD_extractLsb', BitVec.getLsbD_append]
  rw [if_neg h1, if_pos h2, h3, decide_eq_true hi, Bool.true_and]

/-- A word of a message is one of a packet. -/
theorem exists_wordAt (h256 : S.packetSize = .MTU_256) (q : S.config.Qpn) {i : ℕ}
    (hi : i < S.config.numPktsPerMsg * S.config.packetNumel) :
    ∃ (x : S.Place) (j : ℕ) (b : Fin 32), x.1 = q ∧ j < 2 ∧ S.wordAt x j b = i := by
  have hnumel : S.config.packetNumel = 64 := by
    rw [S.packetNumel, if_pos h256]
  rw [hnumel] at hi
  refine ⟨(q, ⟨i / 64, Nat.div_lt_of_lt_mul (by omega)⟩), i % 64 / 32, ⟨i % 32, Nat.mod_lt _ (by decide)⟩, rfl, by omega, ?_⟩
  unfold RdmaSession.wordAt
  rw [hnumel]
  show i / 64 * 64 + (32 * (i % 64 / 32) + i % 32) = i
  omega

/-- A completed message holds the sums of the messages with its number. -/
theorem Carries.word (h : s.Carries wrs x t) (h256 : S.packetSize = .MTU_256) (hwritten : s.written w x = true) {j : ℕ}
    (hj : j < 2) (b : Fin 32) (hpos : 0 < (s.currentWr x.1 w).no) :
    (s.threads w).buffers x.1 (S.wordAt x j b) =
      htonl (∑ v, htonl ((wrs v x.1 (s.currentWr x.1 w).no).original (S.wordAt x j b))) := by
  have hslices := (h.receives w).words h256 hwritten
  have hread : (S.slices x ((s.threads w).buffers x.1))[j]? =
      some fun b => htonl ((s.threads w).buffers x.1 (S.wordAt x j b)) := by
    unfold RdmaSession.slices
    rw [if_pos h256, List.getElem?_map, List.getElem?_range hj]
    rfl
  have hsum : (S.slices x ((s.threads w).buffers x.1))[j]? =
      some ((S.dataJob wrs x).sum Finset.univ ((s.currentWr x.1 w).no - 1) j) := by
    rw [hslices]
    match j, hj with
    | 0, _ => rfl
    | 1, _ => rfl
  rw [hread, Option.some.injEq] at hsum
  have hword : htonl ((s.threads w).buffers x.1 (S.wordAt x j b)) =
      ∑ v, htonl ((wrs v x.1 ((s.currentWr x.1 w).no - 1 + 1)).original (S.wordAt x j b)) := congrFun hsum b
  rw [Nat.sub_add_cancel hpos] at hword
  rw [← hword, htonl_htonl]

/-- The exponent of a response is the greatest one of the messages with its number. -/
theorem Carries.exponent (h : s.Carries wrs (S.lastPlace q) t) (hr : (machine ops).Reachable s)
    (h256 : S.packetSize = .MTU_256) {r : Response n} (hmem : r ∈ s.completions (q, w)) :
    IsGreatest (Set.range fun v => extraInfo (wrs v q (r.phase + 1)).immData) (extraInfo (completion q r).immData) := by
  have hresp : r ∈ t.responses := by
    rw [h.restores.responses]
    exact ((FromSlot.of_reachable hr q).completions w r hmem).1
  have hok := (Inv.of_reachable h.reachable).responses r hresp
  have he0 := hok.e0 fun _ => isLast_lastPlace q
  have hall : r.counted = Finset.univ := hok.counted (.inl h256)
  rw [hall, Finset.coe_univ, Set.image_univ] at he0
  have hsent (v : Fin n) : (S.dataJob wrs (S.lastPlace q)).e0 v r.phase = extraInfo (wrs v q (r.phase + 1)).immData := by
    show (S.requestMd v (S.lastPlace q) (wrs v q (r.phase + 1))).e0 = _
    unfold RdmaSession.requestMd
    dsimp only
    rw [if_pos (isLast_lastPlace q), htonl_extraInfo]
    rfl
  have hgot : extraInfo (completion q r).immData = r.wire.md.e0 := by
    show Int8.ofBitVec ((htonl (responseImmediate r.wire.md)).extractLsb' 16 8) = _
    rw [← htonl_extraInfo, htonl_htonl, e0_responseImmediate, Int8.ofBitVec_toBitVec]
  rw [hgot]
  simp only [hsent] at he0
  exact he0

/-- All workers have posted a message that is completed. -/
theorem exists_posts (h : (machine ops).Reach (fun s e => s.inTime e = true) s) {r : Response n}
    (hmem : r ∈ s.completions (q, w)) :
    ∃ post : Fin n → Post, ∀ v, post v ∈ (s.threads v).posts q ∧ (post v).wr.no = (s.currentWr q w).no := by
  have hr := h.reachable
  obtain ⟨hno, -⟩ := (Completed.of_reach h q w).current r hmem
  obtain ⟨t, hlast⟩ := Carries.of_reach h (agrees_requests hr) (S.lastPlace q)
  have hI := Inv.of_reachable hlast.reachable
  have hresp : r ∈ t.responses := by
    rw [hlast.restores.responses]
    exact ((FromSlot.of_reachable hr q).completions w r hmem).1
  have hposted (v : Fin n) : ∃ p ∈ (s.threads v).posts q, p.wr.no = (s.currentWr q w).no := by
    have hnum : (s.threads v).Numbered q := .of_reachable (threads_reachable hr v) q
    have hsent := hI.sent_of_complete (hI.responses r hresp).complete v
    rw [hlast.restores.sent, (Tracks.of_reachable hr (S.lastPlace q)).sent v] at hsent
    rw [← hno]
    exact exists_post hnum.count (hsent.trans_le (newCount_take_le _ _))
  choose post hpost using hposted
  exact ⟨post, hpost⟩

theorem requests_eq (hr : (machine ops).Reachable s) {p : Post} (hp : p ∈ (s.threads u).posts q) :
    s.requests u q p.wr.no = p.wr := agrees_requests hr u q p hp

/-- A message that is completed holds the sums of the messages with its number. -/
theorem completed_word (h256 : S.packetSize = .MTU_256) (h : (machine ops).Reach (fun s e => s.inTime e = true) s)
    {r : Response n} (hmem : r ∈ s.completions (q, w)) {post : Fin n → Post}
    (hpost : ∀ v, post v ∈ (s.threads v).posts q ∧ (post v).wr.no = (s.currentWr q w).no) {i : ℕ}
    (hi : i < S.config.numPktsPerMsg * S.config.packetNumel) :
    (s.threads w).buffers q i = htonl (∑ v, htonl ((post v).wr.original i)) := by
  obtain ⟨hno, hwritten⟩ := (Completed.of_reach h q w).current r hmem
  obtain ⟨x, j, b, rfl, hj, rfl⟩ := exists_wordAt h256 q hi
  obtain ⟨t, hx⟩ := Carries.of_reach h (agrees_requests h.reachable) x
  have hreq (v : Fin n) : s.requests v x.1 (s.currentWr x.1 w).no = (post v).wr := by
    rw [← (hpost v).2, requests_eq h.reachable (hpost v).1]
  have hword := hx.word h256 (hwritten x rfl) hj b (by omega)
  simp only [hreq] at hword
  exact hword

end RdmaState

end SwitchML.Aggregation
