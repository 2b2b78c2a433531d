/-
The invariant of the system around one slot.

The packets of a worker stay in the order they were sent (`Before`), so what a
packet finds in a pipe ahead of it is bounded by its own phase (`ahead`). With
the rule that a phase is begun after a response for the one before, this puts
each arrival in the situation `Arrives` that keeps the pipe's invariant.
-/
import SwitchML.Aggregation.Pass

namespace SwitchML.Aggregation

open P4 Tna Phases Controller

variable {n : ℕ}

/-- `f` was sent before `g`; the copies behind a packet of the same phase find
every pipe has seen one. -/
def Before (f g : Flight n) : Prop :=
  f.phase < g.phase ∨ f.phase = g.phase ∧ f.copy < g.copy ∧ g.novel = false

/-- The queues a worker's packets go through on their way to the consume
passes, the furthest one first. -/
def consumeLine (w : Fin n) : List (Fin n × PacketType) :=
  [(w, .CONSUME3), (w, .CONSUME2), (w, .CONSUME1), (w, .CONSUME0)]

/-- Where all packets of a phase carry exponents. -/
def Job.LastPhase (J : Job n) (k : ℕ) : Prop := ∀ w, J.isLast w k = true

/-- A packet on its way to the consume pass of pipe `p`. -/
structure ConsumeOK (J : Job n) (s : State n) (w : Fin n) (p : Fin 4) (f : Flight n) : Prop where
  place : AtConsume J w p f
  sent : f.phase < s.sent w
  copies : f.phase + 1 = s.sent w → f.copy < s.copies w
  /-- the pipes behind it have seen the phase -/
  passed : ∀ q < p, f.phase < s.seen q w
  /-- the pipes ahead have not seen a later one -/
  ahead : ∀ q, p ≤ q → s.seen q w ≤ f.phase + 1
  /-- a packet that is new in one pipe, or the original, is new in all pipes ahead -/
  new : f.novel = true ∨ f.copy = 0 → ∀ q, p ≤ q → s.seen q w ≤ f.phase
  /-- repeated packets get past pipe 0 only when the phase is complete there -/
  counted : 0 < p → f.novel = false → f.counted = Finset.univ
  e0 : 0 < p → J.LastPhase f.phase → IsGreatest ((J.e0 · f.phase) '' f.counted) f.wire.md.e0

/-- All pipes the job uses have seen all packets of phase `k`. -/
def AllComplete (J : Job n) (s : State n) (k : ℕ) : Prop := ∀ q : Fin 4, q.val < J.pipes → Complete (s.seen q) k

/-- A packet that is going to be answered, unless it is lost: the broadcast
candidate of its phase, or a request for a result that is there. -/
def Answers (md : SwitchmlMd) : Prop := md.mapResult = 0 ∨ md.firstLastFlag = Flag.FIRST

/-- A packet on its way to harvest pass `t`. -/
structure HarvestOK (J : Job n) (s : State n) (w : Fin n) (t : PacketType) (f : Flight n) : Prop where
  place : AtHarvest J w t f
  sent : f.phase < s.sent w
  /-- only the packet that completed the phase is LAST and new -/
  last : f.wire.md.mapResult = 0 → f.wire.md.firstLastFlag = Flag.LAST ∧ f.novel = true
  complete : Answers f.wire.md → AllComplete J s f.phase
  counted : Answers f.wire.md → J.packetSize = .MTU_256 ∨ f.wire.md.mapResult ≠ 0 → f.counted = Finset.univ
  e0 : J.LastPhase f.phase → IsGreatest ((J.e0 · f.phase) '' f.counted) f.wire.md.e0
  /-- a 256 byte packet carries the second half already -/
  payload : J.packetSize = .MTU_256 → Answers f.wire.md → f.wire.payload = [J.sum Finset.univ f.phase 1]

/-- No worker has begun the second phase after `k` in pipe 0, so its cells are still those of `k`. -/
def StillHeld (s : State n) (k : ℕ) : Prop := ∀ v, s.seen 0 v ≤ k + 2

structure ResponseOK (J : Job n) (s : State n) (r : Response n) : Prop where
  complete : AllComplete J s r.phase
  values : J.packetSize = .MTU_256 → StillHeld s r.phase →
    r.wire.payload = [J.sum Finset.univ r.phase 0, J.sum Finset.univ r.phase 1]
  e0 : J.LastPhase r.phase → IsGreatest ((J.e0 · r.phase) '' r.counted) r.wire.md.e0
  e1 : J.LastPhase r.phase → StillHeld s r.phase → IsGreatest (Set.range (J.e1 · r.phase)) r.wire.md.e1
  counted : J.packetSize = .MTU_256 ∨ r.broadcast = false → r.counted = Finset.univ

/-- What a worker has accepted for phase `k`. -/
structure AcceptedOK (J : Job n) (s : State n) (w : Fin n) (k : ℕ) (r : Response n) : Prop where
  mem : r ∈ s.responses
  phase : r.phase = k
  addressed : r.broadcast = true ∨ r.worker = w
  sent : k < s.sent w
  values : J.packetSize = .MTU_256 →
    r.wire.payload = [J.sum Finset.univ k 0, J.sum Finset.univ k 1]
  e1 : J.LastPhase k → IsGreatest (Set.range (J.e1 · k)) r.wire.md.e1

structure Inv (J : Job n) (s : State n) : Prop where
  pipe : ∀ p, PipeOK J p (s.seen p) (Cells.of (s.regs p) J.slot)
  consume : ∀ w p, ∀ f ∈ s.flight (w, consumeType p), ConsumeOK J s w p f
  harvest : ∀ w t, t.isConsume = false → ∀ f ∈ s.flight (w, t), HarvestOK J s w t f
  order : ∀ w, (s.flight.line (consumeLine w)).Pairwise Before
  copies_pos : ∀ w, 0 < s.sent w → 0 < s.copies w
  seen_le : ∀ p w, s.seen p w ≤ s.sent w
  /-- a pipe sees a packet after the pipes before it -/
  seen_anti : ∀ p q, p ≤ q → ∀ w, s.seen q w ≤ s.seen p w
  answered : ∀ w k, k + 1 < s.sent w → ∃ r, s.accepted w k = some r
  accepted : ∀ w k r, s.accepted w k = some r → AcceptedOK J s w k r
  responses : ∀ r ∈ s.responses, ResponseOK J s r

variable {J : Job n} {s s' : State n}

theorem Inv.init (J : Job n) : Inv J (State.init n) where
  pipe p := by
    have hzero : Cells.of ((State.init n).regs p) J.slot = Cells.zero := Cells.of_zero _
    rw [hzero]
    exact PipeOK.zero J p
  consume _ _ f hf := by cases hf
  harvest _ _ _ f hf := by cases hf
  order _ := List.Pairwise.nil
  copies_pos _ h := by cases h
  seen_le _ _ := Nat.le_refl _
  seen_anti _ _ _ _ := Nat.le_refl _
  answered _ _ h := by cases h
  accepted _ _ _ h := by cases h
  responses _ h := by cases h

/-! ## Arrivals -/

/-- A phase is begun after all pipes are complete for the one before. -/
theorem Inv.le_seen (h : Inv J s) {w : Fin n} {k : ℕ} (hk : k < s.sent w) {p : Fin 4} (hp : p.val < J.pipes)
    (v : Fin n) : k ≤ s.seen p v := by
  cases k with
  | zero => exact Nat.zero_le _
  | succ k =>
    obtain ⟨r, hr⟩ := h.answered w k hk
    have hok := h.accepted w k r hr
    have hc := (h.responses r hok.mem).complete p hp v
    rw [hok.phase] at hc
    exact hc

theorem Inv.arrives (h : Inv J s) {w : Fin n} {p : Fin 4} {f : Flight n} (hf : ConsumeOK J s w p f) :
    Arrives (s.seen p) w f.phase where
  worker := by
    have h1 := h.le_seen hf.sent hf.place.lt w
    have h2 := hf.ahead p (le_refl p)
    omega
  others := h.le_seen hf.sent hf.place.lt

/-- A worker that waits for phase `k` keeps the cells of that phase as they are. -/
theorem Inv.stillHeld (h : Inv J s) {w : Fin n} {k : ℕ} (hw : s.sent w ≤ k + 1) : StillHeld s k := by
  intro v
  have h1 := (h.pipe 0).spread v w
  have h2 := h.seen_le 0 w
  omega

/-! ## What later steps leave alone -/

theorem AllComplete.mono (hseen : ∀ q v, s.seen q v ≤ s'.seen q v) {k : ℕ} (h : AllComplete J s k) :
    AllComplete J s' k :=
  fun q hq v => lt_of_lt_of_le (h q hq v) (hseen q v)

theorem StillHeld.anti (hseen : ∀ q v, s.seen q v ≤ s'.seen q v) {k : ℕ} (h : StillHeld s' k) : StillHeld s k :=
  fun v => (hseen 0 v).trans (h v)

variable {w : Fin n} {p : Fin 4} {t : PacketType} {f : Flight n} {r : Response n}

theorem ConsumeOK.congr (h : ConsumeOK J s w p f) (hseen : s'.seen = s.seen) (hsent : f.phase < s'.sent w)
    (hcopies : f.phase + 1 = s'.sent w → f.copy < s'.copies w) : ConsumeOK J s' w p f :=
  { h with
    sent := hsent
    copies := hcopies
    passed := by rw [hseen]; exact h.passed
    ahead := by rw [hseen]; exact h.ahead
    new := by rw [hseen]; exact h.new }

theorem HarvestOK.mono (h : HarvestOK J s w t f) (hseen : ∀ q v, s.seen q v ≤ s'.seen q v)
    (hsent : s.sent w ≤ s'.sent w) : HarvestOK J s' w t f :=
  { h with
    sent := lt_of_lt_of_le h.sent hsent
    complete := fun ha => (h.complete ha).mono hseen }

theorem ResponseOK.mono (h : ResponseOK J s r) (hseen : ∀ q v, s.seen q v ≤ s'.seen q v) : ResponseOK J s' r :=
  { h with
    complete := h.complete.mono hseen
    values := fun h256 hheld => h.values h256 (hheld.anti hseen)
    e1 := fun hl hheld => h.e1 hl (hheld.anti hseen) }

theorem AcceptedOK.mono {k : ℕ} (h : AcceptedOK J s w k r) (hmem : r ∈ s'.responses)
    (hsent : s.sent w ≤ s'.sent w) : AcceptedOK J s' w k r :=
  { h with mem := hmem, sent := lt_of_lt_of_le h.sent hsent }

/-! ## Steps of the workers and of the network -/

/-- A worker puts the next copy of its current phase at the end of its line. -/
theorem Inv.order_launch (h : Inv J s) {k copy : ℕ} (hk : s.sent w ≤ k + 1)
    (hcopy : k + 1 = s.sent w → s.copies w ≤ copy) (v : Fin n) :
    ((s.flight.put (w, .CONSUME0) (J.launch w k copy)).line (consumeLine v)).Pairwise Before := by
  by_cases hv : v = w
  · subst hv
    have hcons : consumeLine v = [(v, .CONSUME3), (v, .CONSUME2), (v, .CONSUME1)] ++ [(v, .CONSUME0)] := rfl
    rw [hcons, Queues.line_put_last (by simp), List.pairwise_append]
    refine ⟨h.order v, List.pairwise_singleton _ _, fun f hf g hg => ?_⟩
    rw [List.mem_singleton.mp hg]
    obtain ⟨key, hkey, hf⟩ := Queues.mem_line.mp hf
    have hok : ∃ p, ConsumeOK J s v p f := by
      simp only [List.mem_append, List.mem_cons, List.not_mem_nil, or_false] at hkey
      rcases hkey with (rfl | rfl | rfl) | rfl
      · exact ⟨3, h.consume v 3 f hf⟩
      · exact ⟨2, h.consume v 2 f hf⟩
      · exact ⟨1, h.consume v 1 f hf⟩
      · exact ⟨0, h.consume v 0 f hf⟩
    obtain ⟨p, hok⟩ := hok
    have hsent := hok.sent
    show f.phase < k ∨ f.phase = k ∧ f.copy < copy ∧ false = false
    by_cases hlt : f.phase < k
    · exact Or.inl hlt
    · have heq : f.phase = k := by omega
      have hcopies := hok.copies (by omega)
      have := hcopy (by omega)
      exact Or.inr ⟨heq, by omega, rfl⟩
  · have hline : (s.flight.put (w, .CONSUME0) (J.launch w k copy)).line (consumeLine v) =
        s.flight.line (consumeLine v) := by
      refine Queues.line_congr fun key hkey => Queues.put_of_ne ?_
      rintro rfl
      simp [consumeLine, Ne.symm hv] at hkey
    rw [hline]
    exact h.order v

/-- The packet of the current phase is as its worker's line expects it. -/
theorem Inv.launch_ok (h : Inv J s) {k copy : ℕ} (hseen : s'.seen = s.seen) (hk : s'.sent w = k + 1)
    (hsent : s.sent w ≤ k + 1) (hnew : copy = 0 → s.sent w ≤ k) (hcopy : copy < s'.copies w) :
    ConsumeOK J s' w 0 (J.launch w k copy) where
  place := launch_atConsume w k copy
  sent := by
    show k < s'.sent w
    omega
  copies _ := hcopy
  passed q hq := absurd hq (Fin.not_lt_zero q)
  ahead q _ := by
    rw [hseen]
    exact (h.seen_le q w).trans hsent
  new hc q _ := by
    rw [hseen]
    rcases hc with hc | hc
    · cases hc
    · exact (h.seen_le q w).trans (hnew hc)
  counted hp := absurd hp (Fin.not_lt_zero 0)
  e0 hp := absurd hp (Fin.not_lt_zero 0)

theorem Inv.send (h : Inv J s) (hn : J.next s (.send w) = some s') : Inv J s' := by
  simp only [Session.next] at hn
  split at hn
  · rename_i hready
    simp only [Option.some.injEq] at hn
    subst hn
    have hsent : ∀ v, s.sent v ≤ Function.update s.sent w (s.sent w + 1) v := by
      intro v
      by_cases hv : v = w
      · rw [hv, Function.update_self]; omega
      · rw [Function.update_of_ne hv]
    refine
      { pipe := h.pipe
        consume := ?_
        harvest := ?_
        order := fun v => h.order_launch (Nat.le_succ _) (by omega) v
        copies_pos := ?_
        seen_le := fun p v => (h.seen_le p v).trans (hsent v)
        seen_anti := h.seen_anti
        answered := ?_
        accepted := fun v k r hr => (h.accepted v k r hr).mono (h.accepted v k r hr).mem (hsent v)
        responses := fun r hr => (h.responses r hr).mono fun _ _ => Nat.le_refl _ }
    · intro v p f hf
      rcases Queues.mem_put.mp hf with hf | ⟨hkey, rfl⟩
      · have hok := h.consume v p f hf
        refine hok.congr rfl (lt_of_lt_of_le hok.sent (hsent v)) fun heq => ?_
        by_cases hv : v = w
        · have := hok.sent
          simp only [hv, Function.update_self] at heq this
          omega
        · simp only [Function.update_of_ne hv] at heq ⊢
          exact hok.copies heq
      · simp only [Prod.mk.injEq] at hkey
        obtain ⟨rfl, hp⟩ := hkey
        rw [consumeType_eq_CONSUME0.mp hp]
        exact h.launch_ok rfl (Function.update_self ..) (Nat.le_succ _) (fun _ => Nat.le_refl _)
          (by simp only [Function.update_self]; omega)
    · intro v t ht f hf
      rcases Queues.mem_put.mp hf with hf | ⟨hkey, rfl⟩
      · exact (h.harvest v t ht f hf).mono (fun _ _ => Nat.le_refl _) (hsent v)
      · simp only [Prod.mk.injEq] at hkey
        rw [hkey.2] at ht
        cases ht
    · intro v hpos
      by_cases hv : v = w
      · simp only [hv, Function.update_self]; omega
      · simp only [Function.update_of_ne hv] at hpos ⊢
        exact h.copies_pos v hpos
    · intro v k hk
      by_cases hv : v = w
      · subst hv
        simp only [Function.update_self] at hk
        rcases Nat.lt_or_eq_of_le (Nat.le_of_lt_succ hk) with hlt | heq
        · exact h.answered v k hlt
        · rcases hready with h0 | hsome
          · omega
          · rw [← heq, Nat.add_sub_cancel] at hsome
            exact Option.isSome_iff_exists.mp hsome
      · simp only [Function.update_of_ne hv] at hk
        exact h.answered v k hk
  · cases hn

theorem Inv.resend (h : Inv J s) (hn : J.next s (.resend w) = some s') : Inv J s' := by
  simp only [Session.next] at hn
  split at hn
  · rename_i hpos
    simp only [Option.some.injEq] at hn
    subst hn
    have hcopies : ∀ v, s.copies v ≤ Function.update s.copies w (s.copies w + 1) v := by
      intro v
      by_cases hv : v = w
      · rw [hv, Function.update_self]; omega
      · rw [Function.update_of_ne hv]
    refine
      { h with
        consume := ?_
        harvest := ?_
        order := fun v => h.order_launch (by omega) (fun _ => Nat.le_refl _) v
        copies_pos := fun v hv => lt_of_lt_of_le (h.copies_pos v hv) (hcopies v)
        accepted := fun v k r hr => (h.accepted v k r hr).mono (h.accepted v k r hr).mem (Nat.le_refl _)
        responses := fun r hr => (h.responses r hr).mono fun _ _ => Nat.le_refl _ }
    · intro v p f hf
      rcases Queues.mem_put.mp hf with hf | ⟨hkey, rfl⟩
      · have hok := h.consume v p f hf
        exact hok.congr rfl hok.sent fun heq => lt_of_lt_of_le (hok.copies heq) (hcopies v)
      · simp only [Prod.mk.injEq] at hkey
        obtain ⟨rfl, hp⟩ := hkey
        rw [consumeType_eq_CONSUME0.mp hp]
        have hcopy := h.copies_pos v hpos
        refine h.launch_ok rfl ?_ (by omega) (fun h0 => ?_) ?_
        · show s.sent v = s.sent v - 1 + 1
          omega
        · omega
        · simp only [Function.update_self]; omega
    · intro v t ht f hf
      rcases Queues.mem_put.mp hf with hf | ⟨hkey, rfl⟩
      · exact (h.harvest v t ht f hf).mono (fun _ _ => Nat.le_refl _) (Nat.le_refl _)
      · simp only [Prod.mk.injEq] at hkey
        rw [hkey.2] at ht
        cases ht
  · cases hn

theorem Inv.lose {i : ℕ} (h : Inv J s) (hn : J.next s (.lose w t i) = some s') : Inv J s' := by
  simp only [Session.next, Option.map_eq_some_iff] at hn
  obtain ⟨f, -, rfl⟩ := hn
  refine
    { h with
      consume := fun v p g hg => ?_
      harvest := fun v t' ht g hg => ?_
      order := fun v => (h.order v).sublist (Queues.line_take_sublist _)
      accepted := fun v k r hr => (h.accepted v k r hr).mono (h.accepted v k r hr).mem (Nat.le_refl _)
      responses := fun r hr => (h.responses r hr).mono fun _ _ => Nat.le_refl _ }
  · have hok := h.consume v p g (Queues.mem_of_mem_take hg)
    exact hok.congr rfl hok.sent hok.copies
  · exact (h.harvest v t' ht g (Queues.mem_of_mem_take hg)).mono (fun _ _ => Nat.le_refl _) (Nat.le_refl _)

/-- What a worker accepts for a phase it waits for is right: the cells were still held when it was made. -/
theorem Inv.accept {i : ℕ} (h : Inv J s) (hn : J.next s (.accept w i) = some s') : Inv J s' := by
  simp only [Session.next, Option.bind_eq_some_iff] at hn
  obtain ⟨r, hr, hn⟩ := hn
  split at hn
  · rename_i hcond
    obtain ⟨haddr, hphase, hnone⟩ := hcond
    simp only [Option.some.injEq] at hn
    subst hn
    have hmem : r ∈ s.responses := List.mem_of_getElem? hr
    have hheld : StillHeld s r.phase := h.stillHeld (w := w) (by omega)
    have hresp := h.responses r hmem
    have haccept : ∀ v k, (Function.update s.accepted w (Function.update (s.accepted w) r.phase (some r)) v k) =
        if v = w ∧ k = r.phase then some r else s.accepted v k := by
      intro v k
      by_cases hv : v = w
      · subst hv
        rw [Function.update_self, Function.update_apply]
        simp only [true_and]
      · rw [Function.update_of_ne hv, if_neg fun hc => hv hc.1]
    refine
      { h with
        consume := fun v p g hg => (h.consume v p g hg).congr rfl (h.consume v p g hg).sent (h.consume v p g hg).copies
        harvest := fun v t' ht g hg => (h.harvest v t' ht g hg).mono (fun _ _ => Nat.le_refl _) (Nat.le_refl _)
        answered := fun v k hk => ?_
        accepted := fun v k r' hr' => ?_
        responses := fun r hr => (h.responses r hr).mono fun _ _ => Nat.le_refl _ }
    · simp only [haccept]
      split
      · exact ⟨r, rfl⟩
      · exact h.answered v k hk
    · simp only [haccept] at hr'
      split at hr'
      · rename_i hvk
        obtain ⟨rfl, rfl⟩ := hvk
        simp only [Option.some.injEq] at hr'
        subst hr'
        exact
          { mem := hmem
            phase := rfl
            addressed := haddr
            sent := by
              show r.phase < s.sent v
              omega
            values := fun h256 => hresp.values h256 hheld
            e1 := fun hl => hresp.e1 hl hheld }
      · exact (h.accepted v k r' hr').mono (h.accepted v k r' hr').mem (Nat.le_refl _)
  · cases hn

theorem Inv.other {ig : Ig} (h : Inv J s) (hn : J.next s (.other p ig) = some s') : Inv J s' := by
  simp only [Session.next] at hn
  split at hn
  · cases hn
  · rename_i hslot
    simp only [Option.some.injEq] at hn
    subst hn
    refine
      { h with
        pipe := fun q => ?_
        consume := fun v p g hg => (h.consume v p g hg).congr rfl (h.consume v p g hg).sent (h.consume v p g hg).copies
        harvest := fun v t' ht g hg => (h.harvest v t' ht g hg).mono (fun _ _ => Nat.le_refl _) (Nat.le_refl _)
        accepted := fun v k r hr => (h.accepted v k r hr).mono (h.accepted v k r hr).mem (Nat.le_refl _)
        responses := fun r hr => (h.responses r hr).mono fun _ _ => Nat.le_refl _ }
    by_cases hq : q = p
    · subst hq
      simp only [Function.update_self]
      rw [process_cells_other (Ne.symm hslot)]
      exact h.pipe q
    · simp only [Function.update_of_ne hq]
      exact h.pipe q

end SwitchML.Aggregation
