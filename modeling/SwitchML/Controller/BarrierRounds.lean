/-
The controller's barrier. An operation counts its arrivals up and, once it is
complete, its departures down, while the next operation already counts
arrivals: a client is at most one operation ahead of another, and one that is
ahead waits for the operation that is not complete. So at most the last
complete operation and the current one have entries that are used.
-/
import SwitchML.Controller.GRPCServer
import SwitchML.Lib.Rounds

namespace SwitchML.Controller

namespace BarrierRun

variable {n : ℕ}

/-- The clients that wait for an operation. -/
def waiters (s : BarrierRun n) (op : ℕ) : Finset (Fin n) :=
  Finset.univ.filter fun c => (s.waits c).map Prod.fst = some op

structure Inv (s : BarrierRun n) : Prop where
  near : ∀ c, s.started c = s.barrier.opId ∨ s.started c = s.barrier.opId + 1
  idle : ∀ c, s.waits c = none → s.started c = s.barrier.opId ∧ s.returned c = s.started c
  busy : ∀ c op event, s.waits c = some (op, event) →
    event = op ∧ s.started c = op + 1 ∧ s.returned c = op
  isSet : s.barrier.isSet = List.replicate s.barrier.opId true ++ [false]
  ctr : s.barrier.ctrs s.barrier.opId = some ((aheadOf s.started s.barrier.opId).card : ℤ)
  event : s.barrier.events s.barrier.opId = some s.barrier.opId
  open_ : (aheadOf s.started s.barrier.opId).card < n
  prev : ∀ op, op + 1 = s.barrier.opId → (s.waiters op).card ≠ 0 →
    s.barrier.ctrs op = some ((s.waiters op).card : ℤ) ∧ (s.barrier.events op).isSome
  released : ∀ op < s.barrier.opId, s.released op + (s.waiters op).card = n
  unreleased : ∀ op, s.barrier.opId ≤ op → s.released op = 0
  fault : s.fault = none

variable {s : BarrierRun n} {c : Fin n}

theorem mem_waiters {op : ℕ} {v : Fin n} : v ∈ s.waiters op ↔ ∃ event, s.waits v = some (op, event) := by
  simp only [waiters, Finset.mem_filter, Finset.mem_univ, true_and, Option.map_eq_some_iff, Prod.exists]
  constructor
  · rintro ⟨a, b, h, rfl⟩
    exact ⟨b, h⟩
  · rintro ⟨b, h⟩
    exact ⟨op, b, h, rfl⟩

/-- Who waits for the current operation is ahead of it. -/
theorem Inv.waiters_eq (h : Inv s) : s.waiters s.barrier.opId = aheadOf s.started s.barrier.opId := by
  ext v
  rw [mem_waiters, Rounds.mem_aheadOf]
  constructor
  · rintro ⟨event, hv⟩
    have h1 := (h.busy v _ event hv).2.1
    omega
  · intro hv
    cases hw : s.waits v with
    | none =>
      have h1 := (h.idle v hw).1
      omega
    | some w =>
      obtain ⟨op, event⟩ := w
      have h1 := (h.busy v op event hw).2.1
      have h2 : op = s.barrier.opId := by rcases h.near v with h3 | h3 <;> omega
      exact ⟨event, by rw [h2]⟩

theorem waiters_of_others {s' : BarrierRun n} {op : ℕ} (hw : ∀ v ≠ c, s'.waits v = s.waits v)
    (hc : (s.waits c).map Prod.fst ≠ some op) (hc' : (s'.waits c).map Prod.fst ≠ some op) :
    s'.waiters op = s.waiters op := by
  ext v
  simp only [waiters, Finset.mem_filter, Finset.mem_univ, true_and]
  by_cases hv : v = c
  · rw [hv]
    exact ⟨fun h => absurd h hc', fun h => absurd h hc⟩
  · rw [hw v hv]

theorem waiters_erase {s' : BarrierRun n} {op : ℕ} (hw : ∀ v ≠ c, s'.waits v = s.waits v)
    (hc : s'.waits c = none) : s'.waiters op = (s.waiters op).erase c := by
  ext v
  simp only [waiters, Finset.mem_filter, Finset.mem_univ, true_and, Finset.mem_erase]
  by_cases hv : v = c
  · simp [hv, hc]
  · rw [hw v hv]
    simp [hv]

/-! ## A call begins -/

theorem Inv.start_eq (h : Inv s) : s.barrier.start n =
    if ((aheadOf s.started s.barrier.opId).card : ℤ) + 1 < n then
      .ok ({ s.barrier with
        ctrs := Function.update s.barrier.ctrs s.barrier.opId
          (some ((aheadOf s.started s.barrier.opId).card + 1 : ℤ)) }, some (s.barrier.opId, s.barrier.opId))
    else
      .ok ({
        opId := s.barrier.opId + 1
        ctrs := Function.update (Function.update s.barrier.ctrs s.barrier.opId
          (some ((aheadOf s.started s.barrier.opId).card : ℤ))) (s.barrier.opId + 1) (some 0)
        events := Function.update s.barrier.events (s.barrier.opId + 1) (some (s.barrier.opId + 1))
        isSet := List.replicate (s.barrier.opId + 1) true ++ [false] }, none) := by
  have hset : s.barrier.isSet.set s.barrier.opId true ++ [false] =
      List.replicate (s.barrier.opId + 1) true ++ [false] := by
    rw [h.isSet, List.set_append_right _ _ (by simp), List.length_replicate, Nat.sub_self, List.set_cons_zero,
      List.replicate_succ']
  have hlen : s.barrier.isSet.length = s.barrier.opId + 1 := by rw [h.isSet]; simp
  simp only [Barrier.start, getItem_some h.ctr, getItem_some h.event, bind, Except.bind]
  split
  · rfl
  · rw [hset, hlen, Int.add_sub_cancel, Function.update_idem]

/-- The call waits for the others. -/
theorem Inv.call_waits (h : Inv s) (hc : s.waits c = none)
    (hlt : ((aheadOf s.started s.barrier.opId).card : ℤ) + 1 < n) : Inv (s.call c) := by
  have hcall : s.call c =
      { s with
        barrier := { s.barrier with
          ctrs := Function.update s.barrier.ctrs s.barrier.opId
            (some ((aheadOf s.started s.barrier.opId).card + 1 : ℤ)) }
        waits := Function.update s.waits c (some (s.barrier.opId, s.barrier.opId))
        started := Function.update s.started c (s.started c + 1) } := by
    unfold call
    rw [h.start_eq, if_pos hlt]
  obtain ⟨hst, hret⟩ := h.idle c hc
  have hcard : (aheadOf (Function.update s.started c (s.barrier.opId + 1)) s.barrier.opId).card =
      (aheadOf s.started s.barrier.opId).card + 1 := by
    rw [Rounds.aheadOf_update, Finset.card_insert_of_notMem (by simp [hst])]
  have hwaiters : ∀ op ≠ s.barrier.opId, (s.call c).waiters op = s.waiters op := by
    intro op hop
    rw [hcall]
    refine waiters_of_others (fun v hv => Function.update_of_ne hv ..) (by simp [hc]) ?_
    simp only [Function.update_self, Option.map_some, ne_eq, Option.some.injEq]
    exact Ne.symm hop
  rw [hcall] at hwaiters ⊢
  refine ⟨fun v => ?_, fun v hv => ?_, fun v op event hv => ?_, h.isSet, ?_, h.event, ?_, fun op hop hne => ?_,
    fun op hop => ?_, h.unreleased, h.fault⟩
  · by_cases hvc : v = c
    · simp [hvc, hst]
    · show Function.update s.started c (s.started c + 1) v = _ ∨ Function.update s.started c (s.started c + 1) v = _
      rw [Function.update_of_ne hvc]
      exact h.near v
  · by_cases hvc : v = c
    · rw [hvc] at hv
      simp at hv
    · simp only [Function.update_of_ne hvc] at hv ⊢
      exact h.idle v hv
  · by_cases hvc : v = c
    · subst hvc
      simp only [Function.update_self, Option.some.injEq, Prod.mk.injEq] at hv ⊢
      obtain ⟨rfl, rfl⟩ := hv
      exact ⟨rfl, by rw [hst], by rw [hret, hst]⟩
    · simp only [Function.update_of_ne hvc] at hv ⊢
      exact h.busy v op event hv
  · show Function.update s.barrier.ctrs s.barrier.opId _ s.barrier.opId = _
    rw [Function.update_self, hst, hcard]
    push_cast
    rfl
  · show (aheadOf (Function.update s.started c (s.started c + 1)) s.barrier.opId).card < n
    rw [hst, hcard]
    omega
  · have hne' : op ≠ s.barrier.opId := by
      change op + 1 = s.barrier.opId at hop
      omega
    rw [hwaiters op hne'] at hne ⊢
    show Function.update s.barrier.ctrs s.barrier.opId _ op = _ ∧ _
    rw [Function.update_of_ne hne']
    exact h.prev op hop hne
  · have hne' : op ≠ s.barrier.opId := Nat.ne_of_lt hop
    rw [hwaiters op hne']
    exact h.released op hop

/-- The barrier once the operation is complete. -/
def completed (b : Barrier) (ctr : ℤ) : Barrier where
  opId := b.opId + 1
  ctrs := Function.update (Function.update b.ctrs b.opId (some ctr)) (b.opId + 1) (some 0)
  events := Function.update b.events (b.opId + 1) (some (b.opId + 1))
  isSet := List.replicate (b.opId + 1) true ++ [false]

theorem Inv.call_eq_completed (h : Inv s) (hge : ¬((aheadOf s.started s.barrier.opId).card : ℤ) + 1 < n) :
    s.call c =
      { s.release c s.barrier.opId with
        barrier := completed s.barrier (aheadOf s.started s.barrier.opId).card
        started := Function.update s.started c (s.started c + 1) } := by
  unfold call
  rw [h.start_eq, if_neg hge]
  rfl

/-- Where one call is missing, all other clients are ahead. -/
theorem Inv.others_ahead (h : Inv s) (hc : s.waits c = none)
    (hge : ¬((aheadOf s.started s.barrier.opId).card : ℤ) + 1 < n) {v : Fin n} (hv : v ≠ c) :
    s.started v = s.barrier.opId + 1 := by
  have hst := (h.idle c hc).1
  have hlt := h.open_
  have hcard : (insert c (aheadOf s.started s.barrier.opId)).card = Fintype.card (Fin n) := by
    rw [Finset.card_insert_of_notMem (by simp [hst]), Fintype.card_fin]
    omega
  have hmem : v ∈ insert c (aheadOf s.started s.barrier.opId) := by
    rw [(Finset.card_eq_iff_eq_univ _).mp hcard]
    exact Finset.mem_univ v
  have hahead : s.barrier.opId < s.started v := by simpa [hv] using hmem
  rcases h.near v with h1 | h1 <;> omega

/-- After the call all clients have begun the operation, and no other. -/
theorem Inv.started_completed (h : Inv s) (hc : s.waits c = none)
    (hge : ¬((aheadOf s.started s.barrier.opId).card : ℤ) + 1 < n) (v : Fin n) :
    Function.update s.started c (s.started c + 1) v = s.barrier.opId + 1 := by
  by_cases hv : v = c
  · rw [hv, Function.update_self, (h.idle c hc).1]
  · rw [Function.update_of_ne hv, h.others_ahead hc hge hv]

/-- The clients without a call have returned from the operation, the others wait for it. -/
theorem Inv.returned_completed (h : Inv s) (hc : s.waits c = none)
    (hge : ¬((aheadOf s.started s.barrier.opId).card : ℤ) + 1 < n) {v : Fin n}
    (hv : Function.update s.waits c none v = none) :
    Function.update s.returned c (s.returned c + 1) v = s.barrier.opId + 1 := by
  obtain ⟨hst, hret⟩ := h.idle c hc
  by_cases hvc : v = c
  · rw [hvc, Function.update_self, hret, hst]
  · rw [Function.update_of_ne hvc] at hv
    have h1 := (h.idle v hv).1
    have h2 := h.others_ahead hc hge hvc
    omega

/-- The call completes the operation. -/
theorem Inv.call_completes (h : Inv s) (hc : s.waits c = none)
    (hge : ¬((aheadOf s.started s.barrier.opId).card : ℤ) + 1 < n) : Inv (s.call c) := by
  have hstarted := h.started_completed hc hge
  have hcard : (aheadOf s.started s.barrier.opId).card + 1 = n := by
    have h1 := h.open_
    omega
  have hnone : aheadOf (Function.update s.started c (s.started c + 1)) (s.barrier.opId + 1) = ∅ := by
    ext v
    simp [hstarted v]
  have hwaiters (op : ℕ) : (s.call c).waiters op = s.waiters op := by
    rw [h.call_eq_completed hge]
    refine (waiters_erase (s := s) (fun v hv => Function.update_of_ne hv ..) (Function.update_self ..)).trans ?_
    refine Finset.erase_eq_of_notMem fun hmem => ?_
    obtain ⟨event, hw⟩ := mem_waiters.mp hmem
    rw [hc] at hw
    cases hw
  rw [h.call_eq_completed hge] at hwaiters ⊢
  refine ⟨fun v => .inl (hstarted v), fun v hv => ⟨hstarted v, (h.returned_completed hc hge hv).trans (hstarted v).symm⟩,
    fun v op event hv => ?_, rfl, ?_, Function.update_self .., ?_, fun op hop hne => ?_, fun op hop => ?_,
    fun op hop => ?_, h.fault⟩
  · change Function.update s.waits c none v = some (op, event) at hv
    by_cases hvc : v = c
    · rw [hvc, Function.update_self] at hv
      cases hv
    · rw [Function.update_of_ne hvc] at hv
      obtain ⟨h1, h2, h3⟩ := h.busy v op event hv
      exact ⟨h1, (Function.update_of_ne hvc ..).trans h2, (Function.update_of_ne hvc ..).trans h3⟩
  · refine (Function.update_self ..).trans ?_
    show some (0 : ℤ) = some ((aheadOf (Function.update s.started c (s.started c + 1)) (s.barrier.opId + 1)).card : ℤ)
    rw [hnone]
    rfl
  · show (aheadOf (Function.update s.started c (s.started c + 1)) (s.barrier.opId + 1)).card < n
    rw [hnone, Finset.card_empty]
    omega
  · obtain rfl : op = s.barrier.opId := Nat.succ_injective hop
    rw [hwaiters, h.waiters_eq]
    constructor
    · refine (Function.update_of_ne (by omega) ..).trans ?_
      exact Function.update_self ..
    · show (Function.update s.barrier.events (s.barrier.opId + 1) _ s.barrier.opId).isSome = true
      rw [Function.update_of_ne (by omega), h.event]
      rfl
  · rw [hwaiters]
    change op < s.barrier.opId + 1 at hop
    show Function.update s.released s.barrier.opId (s.released s.barrier.opId + 1) op + _ = n
    by_cases hop' : op = s.barrier.opId
    · subst hop'
      rw [Function.update_self, h.unreleased _ le_rfl, h.waiters_eq]
      omega
    · rw [Function.update_of_ne hop']
      exact h.released op (by omega)
  · change s.barrier.opId + 1 ≤ op at hop
    exact (Function.update_of_ne (by omega) ..).trans (h.unreleased op (by omega))

/-! ## A call goes on -/

/-- The handler takes the client off the operation's counter, and the last one deletes
the entries of the operation. -/
theorem Inv.barrier_resume (h : Inv s) {op : ℕ} (hop : op + 1 = s.barrier.opId) (hmem : c ∈ s.waiters op) :
    ∃ ctrs events, s.barrier.resume op = .ok { s.barrier with ctrs, events } ∧
      (∀ op' ≠ op, ctrs op' = s.barrier.ctrs op') ∧ (∀ op' ≠ op, events op' = s.barrier.events op') ∧
      (((s.waiters op).erase c).card ≠ 0 →
        ctrs op = some (((s.waiters op).erase c).card : ℤ) ∧ (events op).isSome = true) := by
  have hpos : (s.waiters op).card ≠ 0 := Finset.card_ne_zero_of_mem hmem
  have hcard : ((s.waiters op).erase c).card + 1 = (s.waiters op).card := Finset.card_erase_add_one hmem
  obtain ⟨hctr, hev⟩ := h.prev op hop hpos
  obtain ⟨ev, hev⟩ := Option.isSome_iff_exists.mp hev
  have hupd : Function.update s.barrier.ctrs op (some (((s.waiters op).card : ℤ) - 1)) op =
      some (((s.waiters op).card : ℤ) - 1) := Function.update_self ..
  simp only [Barrier.resume, getItem_some hctr, bind, Except.bind]
  by_cases hz : ((s.waiters op).card : ℤ) - 1 = 0
  · rw [if_pos hz]
    simp only [delItem, getItem_some hupd, getItem_some hev, bind, Except.bind]
    refine ⟨_, _, rfl, fun op' hne => ?_, fun op' hne => Function.update_of_ne hne .., fun hne => by omega⟩
    rw [Function.update_of_ne hne, Function.update_of_ne hne]
  · rw [if_neg hz]
    refine ⟨_, s.barrier.events, rfl, fun op' hne => Function.update_of_ne hne .., fun _ _ => rfl, fun _ => ⟨?_, ?_⟩⟩
    · rw [Function.update_self]
      congr 1
      omega
    · rw [hev]
      rfl

theorem Inv.resume (h : Inv s) {op event : ℕ} (hc : s.waits c = some (op, event))
    (hset : s.barrier.isSet[event]? = some true) : Inv (s.resume c op) := by
  obtain ⟨rfl, hst, hret⟩ := h.busy c op event hc
  -- its operation is the last complete one
  have hlt : event < s.barrier.opId := by
    rw [h.isSet] at hset
    by_contra hge
    rw [List.getElem?_append_right (by simp; omega), List.length_replicate] at hset
    cases hk : event - s.barrier.opId with
    | zero => simp [hk] at hset
    | succ k => simp [hk] at hset
  have hop : event + 1 = s.barrier.opId := by rcases h.near c with h1 | h1 <;> omega
  have hmem : c ∈ s.waiters event := mem_waiters.mpr ⟨event, hc⟩
  have hcard : ((s.waiters event).erase c).card + 1 = (s.waiters event).card := Finset.card_erase_add_one hmem
  obtain ⟨ctrs, events, hres, hctrs, hevents, hleft⟩ := h.barrier_resume hop hmem
  have hresume : s.resume c event = { s.release c event with barrier := { s.barrier with ctrs, events } } := by
    unfold BarrierRun.resume
    rw [hres]
  have hwaiters : ∀ op, (s.resume c event).waiters op = (s.waiters op).erase c := by
    intro op
    rw [hresume]
    exact waiters_erase (fun v hv => Function.update_of_ne hv ..) (Function.update_self ..)
  have hother : ∀ op ≠ event, (s.waiters op).erase c = s.waiters op := by
    intro op hne
    refine Finset.erase_eq_of_notMem fun hm => ?_
    obtain ⟨ev', hw⟩ := mem_waiters.mp hm
    rw [hc] at hw
    simp only [Option.some.injEq, Prod.mk.injEq] at hw
    exact hne hw.1.symm
  rw [hresume] at hwaiters ⊢
  refine ⟨h.near, fun v hv => ?_, fun v op ev' hv => ?_, h.isSet, ?_, ?_, h.open_, fun op' hop' hne => ?_,
    fun op' hop' => ?_, fun op' hop' => ?_, h.fault⟩
  · change Function.update s.waits c none v = none at hv
    show s.started v = s.barrier.opId ∧ Function.update s.returned c (s.returned c + 1) v = s.started v
    by_cases hvc : v = c
    · rw [hvc, Function.update_self]
      omega
    · rw [Function.update_of_ne hvc] at hv ⊢
      exact h.idle v hv
  · change Function.update s.waits c none v = some (op, ev') at hv
    show ev' = op ∧ s.started v = op + 1 ∧ Function.update s.returned c (s.returned c + 1) v = op
    by_cases hvc : v = c
    · rw [hvc, Function.update_self] at hv; cases hv
    · rw [Function.update_of_ne hvc] at hv ⊢
      exact h.busy v op ev' hv
  · exact (hctrs s.barrier.opId (by omega)).trans h.ctr
  · exact (hevents s.barrier.opId (by omega)).trans h.event
  · obtain rfl : op' = event := by
      change op' + 1 = s.barrier.opId at hop'
      omega
    rw [hwaiters] at hne ⊢
    exact hleft hne
  · rw [hwaiters]
    show Function.update s.released event (s.released event + 1) op' + _ = n
    by_cases hoe : op' = event
    · subst hoe
      have h1 := h.released op' hlt
      rw [Function.update_self]
      omega
    · rw [Function.update_of_ne hoe, hother op' hoe]
      exact h.released op' hop'
  · show Function.update s.released event (s.released event + 1) op' = 0
    change s.barrier.opId ≤ op' at hop'
    rw [Function.update_of_ne (by omega)]
    exact h.unreleased op' hop'

/-! ## Every reachable state -/

theorem Inv.init (hn : 0 < n) : Inv (new n) := by
  have h1 : aheadOf (fun _ : Fin n => 0) 0 = ∅ := by ext v; simp
  refine ⟨fun c => .inl rfl, fun c _ => ⟨rfl, rfl⟩, fun c op event hc => (by cases hc), rfl, ?_, rfl, ?_,
    fun op hop => (by cases hop), fun op hop => (by cases hop), fun op _ => rfl, rfl⟩
  · show some (0 : ℤ) = some ((aheadOf (fun _ : Fin n => 0) 0).card : ℤ)
    rw [h1]
    rfl
  · show (aheadOf (fun _ : Fin n => 0) 0).card < n
    rw [h1]
    exact hn

theorem Inv.step {e : Event n} {s' : BarrierRun n} (h : Inv s) (hn : (machine n).next s e = some s') : Inv s' := by
  simp only [machine, next] at hn
  split at hn
  · cases hn
  cases e with
  | call c =>
    simp only [Option.ite_none_right_eq_some, Option.some.injEq] at hn
    obtain ⟨hc, rfl⟩ := hn
    by_cases hlt : ((aheadOf s.started s.barrier.opId).card : ℤ) + 1 < n
    · exact h.call_waits hc hlt
    · exact h.call_completes hc hlt
  | resume c =>
    simp only at hn
    split at hn
    · rename_i op event hc
      simp only [Option.ite_none_right_eq_some, Option.some.injEq] at hn
      obtain ⟨hset, rfl⟩ := hn
      exact h.resume hc hset
    · cases hn

theorem Inv.of_reachable (hn : 0 < n) (h : (machine n).Reachable s) : Inv s := by
  refine h.invariant (fun s hs => ?_) fun s e s' hI hn => hI.step hn
  rw [show s = new n from hs]
  exact Inv.init hn

/-- The calls that wait for a complete operation can go on. -/
theorem Inv.can_resume (h : Inv s) {op event : ℕ} (hc : s.waits c = some (op, event)) (hop : op < s.barrier.opId) :
    s.barrier.isSet[event]? = some true := by
  obtain ⟨rfl, -, -⟩ := h.busy c op event hc
  rw [h.isSet, List.getElem?_append_left (by simpa using hop)]
  simp [hop]

/-- An operation that all clients have begun is complete. -/
theorem Inv.complete_of_started (h : Inv s) {op : ℕ} (hall : ∀ c, op < s.started c) : op < s.barrier.opId := by
  by_contra hge
  have hahead : aheadOf s.started s.barrier.opId = Finset.univ := by
    ext v
    have h1 := hall v
    simp only [Rounds.mem_aheadOf, Finset.mem_univ, iff_true]
    omega
  have hopen := h.open_
  rw [hahead, Finset.card_univ, Fintype.card_fin] at hopen
  omega

/-- A call that waits for a complete operation can return from it. -/
theorem Inv.returns (h : Inv s) {op : ℕ} (hop : op < s.barrier.opId) (hc : c ∈ s.waiters op) :
    ∃ s', next s (.resume c) = some s' ∧ s'.fault = none ∧ s'.returned c = op + 1 ∧ s'.waits c = none := by
  obtain ⟨event, hw⟩ := mem_waiters.mp hc
  have hset := h.can_resume hw hop
  have hn : next s (.resume c) = some (s.resume c op) := by simp [next, h.fault, hw, hset]
  obtain ⟨-, hst, hret⟩ := h.busy c op event hw
  have hI := h.resume hw hset
  have hnone : (s.resume c op).waits c = none := by
    have hfault := hI.fault
    unfold BarrierRun.resume at hfault ⊢
    split at hfault
    · cases hfault
    · exact Function.update_self ..
  have hstarted : (s.resume c op).started = s.started := by
    unfold BarrierRun.resume
    split <;> rfl
  refine ⟨_, hn, hI.fault, ?_, hnone⟩
  rw [(hI.idle c hnone).2, hstarted, hst]

/-- No handler fails, no call returns before all clients have begun theirs of this
number, and once they have, their operation is complete: it has released `n` calls
less those that wait for it, each of which can return. -/
theorem barrier_contract (hn : 0 < n) (h : (machine n).Reachable s) :
    s.fault = none ∧ (∀ c c', s.returned c ≤ s.started c') ∧
    (∀ op, (∀ c, op < s.started c) → op < s.barrier.opId) ∧
    (∀ op < s.barrier.opId, s.released op + (s.waiters op).card = n ∧ ∀ c ∈ s.waiters op,
      ∃ s', next s (.resume c) = some s' ∧ s'.fault = none ∧ s'.returned c = op + 1 ∧ s'.waits c = none) ∧
    ∀ op, s.barrier.opId ≤ op → s.released op = 0 := by
  have hI := Inv.of_reachable hn h
  refine ⟨hI.fault, fun c c' => ?_, fun op => hI.complete_of_started,
    fun op hop => ⟨hI.released op hop, fun c hc => hI.returns hop hc⟩, hI.unreleased⟩
  have h1 : s.returned c ≤ s.barrier.opId := by
    cases hw : s.waits c with
    | none =>
      have h2 := hI.idle c hw
      omega
    | some w =>
      have h2 := hI.busy c w.1 w.2 hw
      rcases hI.near c with h3 | h3 <;> omega
  rcases hI.near c' with h3 | h3 <;> omega

/-- Three clients go through an operation, the last one of which has begun the second
operation before the others have left the first. -/
theorem barrier_contract_three : ∃ s, (machine 3).Reachable s ∧ s.started 2 = 2 ∧ s.returned 0 = 0 ∧ s.fault = none ∧
    s.released 0 + (s.waiters 0).card = 3 ∧ ∃ s', next s (.resume 0) = some s' ∧ s'.returned 0 = 1 := by
  obtain ⟨s, hr, h1, h2, h3, h4⟩ : ∃ s, (machine 3).run (new 3) [.call 0, .call 1, .call 2, .call 2] = some s ∧
      s.started 2 = 2 ∧ s.returned 0 = 0 ∧ (∀ c, 0 < s.started c) ∧ s.waits 0 = some (0, 0) := by
    refine ⟨_, rfl, ?_⟩
    decide +kernel
  have hreach : (machine 3).Reachable s := Machine.Reachable.run (.init rfl) hr
  obtain ⟨hf, -, hcomplete, hrel, -⟩ := barrier_contract (by decide) hreach
  obtain ⟨hcount, hresume⟩ := hrel 0 (hcomplete 0 h3)
  obtain ⟨s', hn, -, hret, -⟩ := hresume 0 (mem_waiters.mpr ⟨0, h4⟩)
  exact ⟨s, hreach, h1, h2, hf, hcount, s', hn, hret⟩

end BarrierRun

end SwitchML.Controller
