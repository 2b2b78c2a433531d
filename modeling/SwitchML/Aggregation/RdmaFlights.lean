/-
The packets between the RDMA workers, in any run: what is on its way in a slot is
what the job of the slot would have there, but for the data, the ids and the
exponents (`Tracks`).
-/
import SwitchML.Aggregation.RdmaSystem

namespace SwitchML.Aggregation

open P4 Tna Phases Controller Client

variable {n : ℕ} {S : RdmaSession n} {K : Type} {ops : FloatOps K} {s s' : RdmaState S K} {w : Fin n} {x : S.Place}

/-! ## The packets of a request -/

theorem slotOf_eq {idx idx' : PoolIndex} (h : idx.toNat / 2 = idx'.toNat / 2) : slotOf idx = slotOf idx' := by
  apply BitVec.eq_of_toNat_eq
  rw [slotOf, slotOf, BitVec.extractLsb'_toNat, BitVec.extractLsb'_toNat, Nat.shiftRight_eq_div_pow,
    Nat.shiftRight_eq_div_pow, pow_one, h]

theorem setBit_eq (idx : PoolIndex) : setBit idx = decide (idx.toNat % 2 = 1) := by
  rw [setBit, BitVec.getLsbD, Nat.testBit_zero]

theorem messageRkey_eq (c : RdmaConfig) (qpn no : ℕ) : c.messageRkey qpn no = c.rkey qpn (decide (no % 2 = 0)) := by
  unfold RdmaConfig.messageRkey RdmaConfig.rkey
  by_cases h : no % 2 = 0
  · rw [if_pos h, if_pos (decide_eq_true h)]
  · rw [if_neg h, if_neg (by rw [decide_eq_false h]; exact Bool.false_ne_true)]

/-- The messages of a queue pair alternate between the sets of its slots. -/
theorem advance_messageRkey (x : S.Place) (k : ℕ) :
    advance (S.config.messageRkey x.1 (k + 1)) x.2 = (S.job x).poolIndex k := by
  have htoNat (b : Bool) := advance_rkey b x.2.isLt (S.fits x.1)
  have hinit : S.config.initialRkey x.1 = S.config.rkey x.1 true := rfl
  rw [messageRkey_eq, poolIndex_ext_iff, Session.slotOf_poolIndex, Session.setBit_poolIndex]
  constructor
  · show _ = slotOf (advance (S.config.initialRkey x.1) x.2)
    rw [hinit]
    refine slotOf_eq ?_
    rw [htoNat, htoNat, ← Nat.mul_assoc]
    have hlt := (decide ((k + 1) % 2 = 0)).toNat_lt
    rw [Bool.toNat_true]
    omega
  · have heven : (S.config.globalIndex x.1 * (S.config.numPktsPerMsg * 2) + 2 * x.2.val) % 2 = 0 := by
      rw [← Nat.mul_assoc]
      omega
    rw [setBit_eq, htoNat, ← Nat.add_assoc, Nat.add_mod, heven]
    show _ = xor false (k % 2 == 1)
    rcases Nat.mod_two_eq_zero_or_one k with h | h
    · rw [decide_eq_false (by omega : ¬(k + 1) % 2 = 0), h]
      rfl
    · rw [decide_eq_true (by omega : (k + 1) % 2 = 0), h]
      rfl

/-- Without the data, a packet of a request is the job's packet of its phase. -/
theorem request_blank {wr : SendWr} {copy : ℕ} {words : ℕ → Word} (hrkey : wr.rkey = S.config.messageRkey x.1 wr.no)
    (hpos : 0 < wr.no) : (S.request w x wr copy words).blank = (S.job x).launch w (wr.no - 1) copy := by
  obtain ⟨k, hk⟩ : ∃ k, wr.no = k + 1 := ⟨wr.no - 1, by omega⟩
  have hidx : advance wr.rkey x.2 = (S.job x).poolIndex (wr.no - 1) := by
    rw [hrkey, hk, advance_messageRkey]
    rfl
  have hpayload : (S.slices x words).map (fun _ => blankData) =
      (List.range (2 * (S.job x).pipes)).map fun _ => blankData := by
    have hpipes : 2 * (S.job x).pipes = if S.packetSize = .MTU_256 then 2 else 8 := by
      show 2 * (if S.packetSize = .MTU_256 then 1 else 4) = _
      split <;> rfl
    rw [hpipes, RdmaSession.slices, List.map_map]
    rfl
  unfold Flight.blank Session.launch RdmaSession.request blankWire Session.packet
  dsimp only
  rw [hpayload]
  unfold RdmaSession.requestMd Session.packetMd blankMd
  dsimp only
  rw [hidx]
  rfl

/-! ## What the steps do -/

namespace RdmaState

/-- The steps of the system, with the state each leads to. -/
inductive Step (ops : FloatOps K) (s : RdmaState S K) : RdmaEvent S → RdmaState S K → Prop
  | threaded (w : Fin n) (e : RdmaWorkerThread.Event S.config) (t : RdmaWorkerThread S.config K) : e.isOwn = true →
      (s.threads w).next ops e = some t → Step ops s (.thread w e) (s.setThread w t)
  | emitted (w : Fin n) (x : S.Place) (p : Post) : ((s.threads w).posts x.1)[s.emitted w x]? = some p →
      Step ops s (.emit w x) (s.emit w x p)
  | slotted (x : S.Place) (e : Event n) (t : State n) : e.ofSwitch = true →
      (S.job x).next (s.slots x) e = some t → Step ops s (.slot x e) (s.stepSlot x t)
  | lost (x : S.Place) (w : Fin n) (i : ℕ) :
      Step ops s (.lose x w i) { s with inbox := s.inbox.take (x, w) i }
  | delivered (x : S.Place) (w : Fin n) (i : ℕ) (r : Response n) : (s.inbox (x, w))[i]? = some r →
      Step ops s (.deliver x w i) (s.deliver x w i r)
  | polled (q : S.config.Qpn) (w : Fin n) (r : Response n) (t : RdmaWorkerThread S.config K) :
      (s.completions (q, w))[0]? = some r → (s.threads w).next ops (.complete (completion q r)) = some t →
      Step ops s (.poll q w) { s.setThread w t with completions := s.completions.take (q, w) 0 }

theorem step {e : RdmaEvent S} (hn : s.next ops e = some s') : Step ops s e s' := by
  cases e with
  | thread w e =>
    simp only [next, Option.ite_none_right_eq_some, Option.map_eq_some_iff] at hn
    obtain ⟨he, t, ht, rfl⟩ := hn
    exact .threaded w e t he ht
  | emit w x =>
    simp only [next, Option.map_eq_some_iff] at hn
    obtain ⟨p, hp, rfl⟩ := hn
    exact .emitted w x p hp
  | slot x e =>
    simp only [next, Option.ite_none_right_eq_some, Option.map_eq_some_iff] at hn
    obtain ⟨he, t, ht, rfl⟩ := hn
    exact .slotted x e t he ht
  | lose x w i =>
    simp only [next, Option.map_eq_some_iff] at hn
    obtain ⟨r, -, rfl⟩ := hn
    exact .lost x w i
  | deliver x w i =>
    simp only [next, Option.map_eq_some_iff] at hn
    obtain ⟨r, hr, rfl⟩ := hn
    exact .delivered x w i r hr
  | poll q w =>
    simp only [next, Option.bind_eq_some_iff, Option.map_eq_some_iff] at hn
    obtain ⟨r, hr, t, ht, rfl⟩ := hn
    exact .polled q w r t hr ht

/-- A thread takes its own steps, and the network card writes to its buffers. -/
theorem threads_next {e : RdmaEvent S} (hn : s.next ops e = some s') (v : Fin n) :
    s'.threads v = s.threads v ∨ ∃ e', (s.threads v).next ops e' = some (s'.threads v) := by
  have hupdate (w : Fin n) (t : RdmaWorkerThread S.config K) (e' : RdmaWorkerThread.Event S.config)
      (ht : (s.threads w).next ops e' = some t) :
      Function.update s.threads w t v = s.threads v ∨
        ∃ e', (s.threads v).next ops e' = some (Function.update s.threads w t v) := by
    by_cases hv : v = w
    · subst hv
      rw [Function.update_self]
      exact .inr ⟨e', ht⟩
    · exact .inl (Function.update_of_ne hv ..)
  cases RdmaState.step hn with
  | threaded w e t he ht => exact hupdate w t e ht
  | emitted w x p hp => exact .inl rfl
  | slotted x e t he ht => exact .inl rfl
  | lost x w i => exact .inl rfl
  | delivered x w i r hr => exact hupdate w _ (.write x.1 _) rfl
  | polled q w r t hr ht => exact hupdate w t _ ht

theorem threads_reachable (h : (machine ops).Reachable s) (w : Fin n) :
    (RdmaWorkerThread.machine ops).Reachable (s.threads w) := by
  induction h with
  | init hs =>
    obtain ⟨memory, buffers, rfl⟩ := hs
    exact .init ⟨memory w, buffers w, rfl⟩
  | step _ _ hn ih =>
    rcases threads_next hn w with heq | ⟨e', hn'⟩
    · rw [heq]
      exact ih
    · exact ih.step hn'

/-- The requests of a queue pair are posted one after the other. -/
theorem posts_append (h : (machine ops).Reachable s) {e : RdmaEvent S} (hn : s.next ops e = some s') (v : Fin n)
    (q : S.config.Qpn) : ∃ new, (s'.threads v).posts q = (s.threads v).posts q ++ new := by
  rcases threads_next hn v with heq | ⟨e', hn'⟩
  · exact ⟨[], by rw [heq, List.append_nil]⟩
  · exact (RdmaWorkerThread.Bookkeeping.of_reachable (threads_reachable h v)).posts_append hn' q

/-! ## Every run -/

/-- At a place: what was sent, and where it is. -/
structure Tracks (s : RdmaState S K) (x : S.Place) : Prop where
  emitted : ∀ w, s.emitted w x ≤ ((s.threads w).posts x.1).length
  sent : ∀ w, (s.slots x).sent w = newCount (((s.threads w).posts x.1).take (s.emitted w x))
  flight : ∀ w t, ∀ f ∈ (s.slots x).flight (w, t), AtPass (S.job x) w t f.blank

theorem Tracks.congr (h : s.Tracks x) (hslots : s'.slots x = s.slots x) (hemitted : s'.emitted = s.emitted)
    (hposts : ∀ w, ∃ new, (s'.threads w).posts x.1 = (s.threads w).posts x.1 ++ new) : s'.Tracks x where
  emitted w := by
    obtain ⟨new, hnew⟩ := hposts w
    rw [hemitted, hnew, List.length_append]
    exact Nat.le_add_right_of_le (h.emitted w)
  sent w := by
    obtain ⟨new, hnew⟩ := hposts w
    rw [hslots, hemitted, hnew, List.take_append_of_le_length (h.emitted w)]
    exact h.sent w
  flight := by
    rw [hslots]
    exact h.flight

/-- A packet is sent. -/
theorem Tracks.emit (h : s.Tracks x) {y : S.Place} {p : Post} (hp : ((s.threads w).posts y.1)[s.emitted w y]? = some p)
    (hnum : (s.threads w).Numbered y.1) : (s.emit w y p).Tracks x := by
  have hmem := List.mem_of_getElem? hp
  by_cases hx : x = y
  · subst hx
    have hemitted (v : Fin n) : (s.emit w x p).emitted v x = if v = w then s.emitted w x + 1 else s.emitted v x := by
      show Function.update s.emitted w _ v x = _
      by_cases hv : v = w
      · subst hv
        rw [Function.update_self, Function.update_self, if_pos rfl]
      · rw [Function.update_of_ne hv, if_neg hv]
    have hslot : (s.emit w x p).slots x = _ := Function.update_self ..
    refine ⟨fun v => ?_, fun v => ?_, fun v t f hf => ?_⟩
    · rw [hemitted]
      split
      · rename_i hv
        subst hv
        exact (List.getElem?_eq_some_iff.mp hp).1
      · exact h.emitted v
    · rw [hslot, hemitted]
      show Function.update (s.slots x).sent w p.wr.no v = _
      by_cases hv : v = w
      · subst hv
        rw [Function.update_self, if_pos rfl]
        exact hnum.count _ p hp
      · rw [Function.update_of_ne hv, if_neg hv]
        exact h.sent v
    · rw [hslot] at hf
      rcases Queues.mem_put.mp hf with hf | ⟨hkey, rfl⟩
      · exact h.flight v t f hf
      · simp only [Prod.mk.injEq] at hkey
        obtain ⟨rfl, rfl⟩ := hkey
        rw [request_blank (hnum.rkeys p hmem) (hnum.pos p hmem)]
        exact .of_consume (launch_atConsume _ _ _)
  · have hslot : (s.emit w y p).slots x = s.slots x := Function.update_of_ne hx ..
    have hemitted (v : Fin n) : (s.emit w y p).emitted v x = s.emitted v x := by
      show Function.update s.emitted w _ v x = _
      by_cases hv : v = w
      · subst hv
        rw [Function.update_self, Function.update_of_ne hx]
      · rw [Function.update_of_ne hv]
    refine ⟨fun v => ?_, fun v => ?_, ?_⟩
    · rw [hemitted]
      exact h.emitted v
    · rw [hslot, hemitted]
      exact h.sent v
    · rw [hslot]
      exact h.flight

/-- A step of the slot. -/
theorem Tracks.stepSlot (h : s.Tracks x) {y : S.Place} {e : Event n} {t : State n} (he : e.ofSwitch = true)
    (hn : (S.job y).next (s.slots y) e = some t) : (s.stepSlot y t).Tracks x := by
  by_cases hx : x = y
  · subst hx
    have hslot : (s.stepSlot x t).slots x = t := Function.update_self ..
    refine ⟨h.emitted, fun v => ?_, fun v ty' g hg => ?_⟩
    · rw [hslot, (workers_next he hn).1]
      exact h.sent v
    rw [hslot] at hg
    cases e with
    | pass w ty i inp =>
      obtain ⟨f, regs', o, hf, rfl, hwent⟩ := next_pass (h.flight w ty) hn
      rcases mem_land_takeOff hg with hg | ⟨port, wire, ho, hkey, rfl⟩
      · exact h.flight v ty' g hg
      · simp only [Prod.mk.injEq] at hkey
        obtain ⟨rfl, rfl⟩ := hkey
        exact (hwent.recirculated port wire ho).place.congr rfl rfl rfl
    | lose w ty i =>
      simp only [Session.next, Option.map_eq_some_iff] at hn
      obtain ⟨f, -, rfl⟩ := hn
      exact h.flight v ty' g (Queues.mem_of_mem_take hg)
    | other p ig =>
      simp only [Session.next, Option.ite_none_left_eq_some, Option.some.injEq] at hn
      obtain ⟨-, rfl⟩ := hn
      exact h.flight v ty' g hg
    | _ => cases he
  · exact h.congr (Function.update_of_ne hx ..) rfl fun w => ⟨[], (List.append_nil _).symm⟩

theorem Tracks.step (h : s.Tracks x) (hr : (machine ops).Reachable s) {e : RdmaEvent S} (hn : s.next ops e = some s') :
    s'.Tracks x := by
  have hposts (v : Fin n) := posts_append hr hn v x.1
  cases RdmaState.step hn with
  | threaded w e t he ht => exact h.congr rfl rfl hposts
  | emitted w y p hp => exact h.emit hp (.of_reachable (threads_reachable hr w) y.1)
  | slotted y e t he ht => exact h.stepSlot he ht
  | lost y w i => exact h.congr rfl rfl hposts
  | delivered y w i r hr => exact h.congr rfl rfl hposts
  | polled q w r t hr ht => exact h.congr rfl rfl hposts

theorem Tracks.of_reachable (h : (machine ops).Reachable s) (x : S.Place) : s.Tracks x := by
  induction h with
  | init hs =>
    obtain ⟨memory, buffers, rfl⟩ := hs
    exact ⟨fun _ => le_rfl, fun _ => rfl, fun _ _ _ hf => by cases hf⟩
  | step hr _ hn ih => exact ih.step hr hn

end RdmaState

end SwitchML.Aggregation
