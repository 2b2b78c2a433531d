/-
What can still reach an RDMA worker on a queue pair, with the id the worker will
find in it: the requests it has not sent, its packets, the packet of any worker
whose response goes to all, the responses, and the completions it has not polled.
No step adds to what is under way, but for a message that is posted, and a packet
that completes the message the worker waits for.
-/
import SwitchML.Aggregation.RdmaFlights

namespace SwitchML.Aggregation

open P4 Tna Phases Controller Client

variable {n : ℕ} {S : RdmaSession n} {K : Type} {ops : FloatOps K} {s s' : RdmaState S K} {w : Fin n} {x : S.Place}
  {q : S.config.Qpn}

/-! ## The id -/

/-- The id in the other byte order is told by the first half. -/
theorem shortMsgId_htonl (v : BitVec 32) :
    shortMsgId (htonl v) = (v.extractLsb' 16 16).extractLsb' 0 8 ++ (v.extractLsb' 16 16).extractLsb' 8 8 := by
  apply BitVec.eq_of_getLsbD_eq
  intro i hi
  simp only [shortMsgId, htonl, BitVec.getLsbD_extractLsb', BitVec.getLsbD_append]
  by_cases h8 : i < 8
  · have h16 : 8 + i < 16 := by omega
    have h24 : 16 + (8 + i) = 24 + i := by omega
    simp [h8, hi, h16, h24]
  · have h16 : i - 8 < 8 := by omega
    have hlt : i - 8 < 16 := by omega
    simp [h8, h16, hi, hlt]

theorem msgId_responseImmediate (md : SwitchmlMd) : (responseImmediate md).extractLsb' 16 16 = md.msgId := by
  apply BitVec.eq_of_getLsbD_eq
  intro i hi
  have h1 : ¬16 + i < 8 := by omega
  have h2 : ¬16 + i - 8 < 8 := by omega
  have h3 : 16 + i - 8 - 8 = i := by omega
  simp only [responseImmediate, BitVec.getLsbD_extractLsb', BitVec.getLsbD_append]
  rw [if_neg h1, if_neg h2, h3, decide_eq_true hi, Bool.true_and]

/-- The id is told by what a packet keeps from pass to pass. -/
theorem shortIdOf_congr {md md' : SwitchmlMd} (h : md.msgId = md'.msgId) : shortIdOf md = shortIdOf md' := by
  rw [shortIdOf, shortIdOf, shortMsgId_htonl, shortMsgId_htonl, msgId_responseImmediate, msgId_responseImmediate, h]

/-- The worker finds the id that it sent. -/
theorem shortIdOf_requestMd (hx : S.isLast x = true) (wr : SendWr) :
    shortIdOf (S.requestMd w x wr) = shortMsgId wr.immData := by
  have hmsgId : (S.requestMd w x wr).msgId = (htonl wr.immData).extractLsb' 16 16 := by
    unfold RdmaSession.requestMd
    rw [if_pos hx]
  rw [shortIdOf, shortMsgId_htonl, msgId_responseImmediate, hmsgId, ← shortMsgId_htonl, htonl_htonl]

/-! ## What is under way -/

/-- The place of a message's last packet, which is the one with the immediate. -/
def RdmaSession.lastPlace (S : RdmaSession n) (q : S.config.Qpn) : S.Place :=
  (q, ⟨S.config.numPktsPerMsg - 1, Nat.sub_lt S.config.numPktsPerMsg_pos Nat.one_pos⟩)

theorem isLast_lastPlace (q : S.config.Qpn) : S.isLast (S.lastPlace q) = true :=
  decide_eq_true (Nat.sub_add_cancel S.config.numPktsPerMsg_pos)

theorem eq_lastPlace (h : S.isLast x = true) : x = S.lastPlace x.1 := by
  have hx := of_decide_eq_true h
  refine Prod.ext rfl (Fin.ext ?_)
  show x.2.val = S.config.numPktsPerMsg - 1
  omega

namespace RdmaState

/-- Something of the `no`-th message is under way to worker `w`, with the id `id`. -/
inductive UnderWay (s : RdmaState S K) (q : S.config.Qpn) (w : Fin n) : BitVec 16 → ℕ → Prop
  | posted (p : Post) : p ∈ ((s.threads w).posts q).drop (s.emitted w (S.lastPlace q)) →
      UnderWay s q w (shortMsgId p.wr.immData) p.wr.no
  | packet (t : PacketType) (f : Flight n) : f ∈ (s.slots (S.lastPlace q)).flight (w, t) →
      UnderWay s q w (shortIdOf f.wire.md) (f.phase + 1)
  | candidate (v : Fin n) (t : PacketType) (f : Flight n) : t.isConsume = false →
      f ∈ (s.slots (S.lastPlace q)).flight (v, t) → f.wire.md.mapResult = 0 →
      UnderWay s q w (shortIdOf f.wire.md) (f.phase + 1)
  | response (r : Response n) : r ∈ s.inbox (S.lastPlace q, w) → UnderWay s q w (shortIdOf r.wire.md) (r.phase + 1)
  | completion (r : Response n) : r ∈ s.completions (q, w) → UnderWay s q w (shortIdOf r.wire.md) (r.phase + 1)

/-- The message that the worker posted last on the queue pair. -/
def currentWr (s : RdmaState S K) (q : S.config.Qpn) (w : Fin n) : SendWr := (s.threads w).sendWrs q

/-- Nothing under way has the id of the message posted last, but what is of this message. -/
def OnlyCurrent (s : RdmaState S K) (q : S.config.Qpn) (w : Fin n) : Prop :=
  ∀ no, s.UnderWay q w (shortMsgId (s.currentWr q w).immData) no → no = (s.currentWr q w).no

/-- What was under way is still all, but for what is of the message posted last. -/
def Dwindles (s s' : RdmaState S K) (q : S.config.Qpn) (w : Fin n) : Prop :=
  ∀ id no, s'.UnderWay q w id no → s.UnderWay q w id no ∨ no = (s.currentWr q w).no

theorem OnlyCurrent.of_dwindles (h : s.OnlyCurrent q w) (hd : s.Dwindles s' q w)
    (hwr : s'.currentWr q w = s.currentWr q w) : s'.OnlyCurrent q w := by
  intro no hno
  rw [hwr] at hno ⊢
  rcases hd _ _ hno with hold | heq
  · exact h no hold
  · exact heq

/-! ## The steps -/

/-- Steps that add nothing in the switch. -/
theorem Dwindles.of_subset
    (hflight : ∀ key, ∀ f ∈ (s'.slots (S.lastPlace q)).flight key, f ∈ (s.slots (S.lastPlace q)).flight key)
    (hemitted : s'.emitted w (S.lastPlace q) = s.emitted w (S.lastPlace q))
    (hposts : (s'.threads w).posts q = (s.threads w).posts q ∨
      (s'.threads w).posts q = (s.threads w).posts q ++ [{ wr := s.currentWr q w, isRetransmission := true }])
    (hinbox : ∀ r ∈ s'.inbox (S.lastPlace q, w), r ∈ s.inbox (S.lastPlace q, w))
    (hcompletions : ∀ r ∈ s'.completions (q, w), r ∈ s.completions (q, w) ∨ r ∈ s.inbox (S.lastPlace q, w)) :
    s.Dwindles s' q w := by
  intro id no h
  cases h with
  | posted p hp =>
    rw [hemitted] at hp
    rcases hposts with heq | heq
    · rw [heq] at hp
      exact .inl (.posted p hp)
    · rw [heq, List.drop_append] at hp
      rcases List.mem_append.mp hp with hp | hp
      · exact .inl (.posted p hp)
      · rw [List.mem_singleton.mp (List.mem_of_mem_drop hp)]
        exact .inr rfl
  | packet t f hf => exact .inl (.packet t f (hflight _ f hf))
  | candidate v t f ht hf hmap => exact .inl (.candidate v t f ht (hflight _ f hf) hmap)
  | response r hr => exact .inl (.response r (hinbox r hr))
  | completion r hr =>
    rcases hcompletions r hr with hr | hr
    · exact .inl (.completion r hr)
    · exact .inl (.response r hr)

/-- A packet is sent. -/
theorem Dwindles.emit {v : Fin n} {y : S.Place} {p : Post} (hp : ((s.threads v).posts y.1)[s.emitted v y]? = some p)
    (hpos : 0 < p.wr.no) : s.Dwindles (s.emit v y p) q w := by
  by_cases hy : S.lastPlace q = y
  · subst hy
    have hslot : (s.emit v (S.lastPlace q) p).slots (S.lastPlace q) = _ := Function.update_self ..
    have hmem : p ∈ ((s.threads v).posts q).drop (s.emitted v (S.lastPlace q)) :=
      List.mem_of_getElem? (i := 0) (by rw [List.getElem?_drop]; exact hp)
    intro id no h
    refine .inl ?_
    cases h with
    | posted p' hp' =>
      refine .posted p' ?_
      have hle : s.emitted w (S.lastPlace q) ≤ (s.emit v (S.lastPlace q) p).emitted w (S.lastPlace q) := by
        show _ ≤ Function.update s.emitted v _ w (S.lastPlace q)
        by_cases hw : w = v
        · subst hw
          rw [Function.update_self, Function.update_self]
          exact Nat.le_succ _
        · rw [Function.update_of_ne hw]
      exact (List.drop_sublist_drop_left _ hle).subset hp'
    | packet t f hf =>
      rw [hslot] at hf
      rcases Queues.mem_put.mp hf with hf | ⟨hkey, rfl⟩
      · exact .packet t f hf
      · simp only [Prod.mk.injEq] at hkey
        obtain ⟨rfl, -⟩ := hkey
        have hid : shortIdOf (S.requestMd w (S.lastPlace q) p.wr) = shortMsgId p.wr.immData :=
          shortIdOf_requestMd (isLast_lastPlace q) p.wr
        have hposted := UnderWay.posted p hmem
        rw [← hid, ← Nat.sub_add_cancel hpos] at hposted
        exact hposted
    | candidate u t f ht hf hmap =>
      rw [hslot] at hf
      rcases Queues.mem_put.mp hf with hf | ⟨hkey, rfl⟩
      · exact .candidate u t f ht hf hmap
      · simp only [Prod.mk.injEq] at hkey
        rw [hkey.2] at ht
        cases ht
    | response r hr => exact .response r hr
    | completion r hr => exact .completion r hr
  · have hslot : (s.emit v y p).slots (S.lastPlace q) = s.slots (S.lastPlace q) := Function.update_of_ne hy ..
    refine .of_subset (fun key f hf => ?_) ?_ (.inl rfl) (fun _ => id) fun _ hr => .inl hr
    · rw [hslot] at hf
      exact hf
    show Function.update s.emitted v _ w (S.lastPlace q) = _
    by_cases hw : w = v
    · subst hw
      rw [Function.update_self, Function.update_of_ne hy]
    · rw [Function.update_of_ne hw]

/-- A step of the slot. What is new to the last pipe completes the message that
the worker waits for, as all before are complete and it has sent no later one. -/
theorem Dwindles.stepSlot {y : S.Place} {e : Event n} {t s₀ : State n} (ht : s.Tracks y) (he : e.ofSwitch = true)
    (hn : (S.job y).next (s.slots y) e = some t) (hI : Inv (S.job (S.lastPlace q)) s₀)
    (hblanks : Blanks (S.job (S.lastPlace q)).slot (s.slots (S.lastPlace q)) s₀)
    (hacc : ∀ k, k + 1 < (s.currentWr q w).no → (s₀.accepted w k).isSome = true)
    (hsent : (s.slots (S.lastPlace q)).sent w ≤ (s.currentWr q w).no) : s.Dwindles (s.stepSlot y t) q w := by
  by_cases hy : S.lastPlace q = y
  · subst hy
    have hslot : (s.stepSlot (S.lastPlace q) t).slots (S.lastPlace q) = t := Function.update_self ..
    have hinbox : (s.stepSlot (S.lastPlace q) t).inbox (S.lastPlace q, w) = s.inbox (S.lastPlace q, w) ++
        (t.responses.drop (s.slots (S.lastPlace q)).responses.length).filter (·.goesTo w) := if_pos rfl
    cases e with
    | pass u ty i inp =>
      obtain ⟨s₀', hn₀, hblanks'⟩ := hblanks.pass hI hn
      have hI' := hI.step hn₀
      obtain ⟨f, regs', o, hf, rfl, hwent⟩ := next_pass (ht.flight u ty) hn
      have hmem := List.mem_of_getElem? hf
      intro id no h
      cases h with
      | posted p hp => exact .inl (.posted p hp)
      | packet ty' g hg =>
        rw [hslot] at hg
        rcases mem_land_takeOff hg with hg | ⟨port, wire, ho, hkey, rfl⟩
        · exact .inl (.packet ty' g hg)
        · simp only [Prod.mk.injEq] at hkey
          obtain ⟨rfl, -⟩ := hkey
          rw [show shortIdOf _ = shortIdOf f.wire.md from shortIdOf_congr (hwent.recirculated port wire ho).msgId]
          exact .inl (.packet ty f hmem)
      | candidate v ty' g hharvest hg hmap =>
        rw [hslot] at hg
        have hold := hg
        rcases mem_land_takeOff hg with hg | ⟨port, wire, ho, hkey, rfl⟩
        · exact .inl (.candidate v ty' g hharvest hg hmap)
        · simp only [Prod.mk.injEq] at hkey
          obtain ⟨rfl, rfl⟩ := hkey
          have hgo := hwent.recirculated port wire ho
          cases hty : ty.isConsume with
          | false =>
            rw [show shortIdOf _ = shortIdOf f.wire.md from shortIdOf_congr hgo.msgId]
            exact .inl (.candidate v ty f hty hmem ((hgo.harvest hty).symm.trans hmap))
          | true =>
            obtain ⟨p, rfl⟩ := exists_of_isConsume hty
            refine .inr ?_
            have hmem' := List.mem_map_of_mem (f := Flight.blank) hold
            rw [← hblanks'.flight] at hmem'
            have hok := hI'.harvest v _ hharvest _ hmem'
            have hsent' := hI'.sent_of_complete (hok.complete (.inl hmap)) w
            rw [hblanks'.sent] at hsent'
            have hle : f.phase < (s.currentWr q w).no := by
              refine lt_of_lt_of_le hsent' (le_trans (le_of_eq ?_) hsent)
              cases o <;> rfl
            have hnot : ¬AllComplete (S.job (S.lastPlace q)) s₀ f.blank.phase := by
              have hmem₀ := List.mem_map_of_mem (f := Flight.blank) hmem
              rw [← hblanks.flight] at hmem₀
              have hnovel : (f.blank.after v (consumeType p) (s₀.seen (pipeOf f.blank.port))).novel = true := by
                rw [hblanks.seen]
                exact (hok.last hmap).2
              exact hI.not_complete hmem₀ hnovel
            have hge : ¬f.phase + 1 < (s.currentWr q w).no := fun hlt =>
              hnot (hI.complete_of_accepted (hacc f.phase hlt))
            show f.phase + 1 = _
            omega
      | response r hr =>
        rw [hinbox, responses_land_takeOff, List.drop_left] at hr
        rcases List.mem_append.mp hr with hr | hr
        · exact .inl (.response r hr)
        · obtain ⟨hr, hgoes⟩ := List.mem_filter.mp hr
          cases o with
          | gone => cases hr
          | recirculate port wire => cases hr
          | response broadcast wire =>
            obtain rfl := List.mem_singleton.mp hr
            have hans := hwent.response broadcast wire rfl
            rw [show shortIdOf _ = shortIdOf f.wire.md from shortIdOf_congr hans.msgId]
            cases broadcast with
            | true => exact .inl (.candidate u ty f hans.harvest hmem (hans.candidate rfl))
            | false =>
              obtain rfl : u = w := of_decide_eq_true hgoes
              exact .inl (.packet ty f hmem)
      | completion r hr => exact .inl (.completion r hr)
    | lose u ty i =>
      simp only [Session.next, Option.map_eq_some_iff] at hn
      obtain ⟨f, -, rfl⟩ := hn
      rw [List.drop_length, List.filter_nil, List.append_nil] at hinbox
      refine .of_subset (fun key g hg => ?_) rfl (.inl rfl) (fun r hr => hinbox ▸ hr) fun _ hr => .inl hr
      rw [hslot] at hg
      exact Queues.mem_of_mem_take hg
    | other p ig =>
      simp only [Session.next, Option.ite_none_left_eq_some, Option.some.injEq] at hn
      obtain ⟨-, rfl⟩ := hn
      rw [List.drop_length, List.filter_nil, List.append_nil] at hinbox
      refine .of_subset (fun key g hg => ?_) rfl (.inl rfl) (fun r hr => hinbox ▸ hr) fun _ hr => .inl hr
      rw [hslot] at hg
      exact hg
    | _ => cases he
  · have hslot : (s.stepSlot y t).slots (S.lastPlace q) = s.slots (S.lastPlace q) := Function.update_of_ne hy ..
    have hinbox : (s.stepSlot y t).inbox (S.lastPlace q, w) = s.inbox (S.lastPlace q, w) := if_neg hy
    refine .of_subset (fun key g hg => ?_) rfl (.inl rfl) (fun r hr => hinbox ▸ hr) fun _ hr => .inl hr
    rw [hslot] at hg
    exact hg

end RdmaState

end SwitchML.Aggregation
