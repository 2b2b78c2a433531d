/-
Harvest passes keep the invariant, and with them every step.

A harvest pass changes no register. The response the last one makes is right as
long as the cells of its phase are still held when it is made.
-/
import SwitchML.Aggregation.ConsumeStep

namespace SwitchML.Aggregation

open P4 Tna Phases Controller

variable {n : ℕ} {J : Job n} {s s' : State n} {w : Fin n} {p : Fin 4} {t : PacketType} {f : Flight n}

theorem State.takeOff_harvest (s : State n) {i : ℕ} (ht : t.isConsume = false) :
    s.takeOff w t i f (s.regs (pipeOf f.port)) = { s with flight := s.flight.take (w, t) i } := by
  unfold State.takeOff
  rw [if_neg (by rw [ht]; exact Bool.false_ne_true), Function.update_eq_self]

theorem Flight.after_harvest (f : Flight n) (ht : t.isConsume = false) (seen : Fin n → ℕ) :
    f.after w t seen = f := by
  unfold Flight.after
  rw [ht, if_neg (by rintro rfl; cases ht)]
  simp

theorem Inv.next_harvest {i : ℕ} {inp : PassInputs} (h : Inv J s) (ht : t.isConsume = false)
    (hn : J.next s (.pass w t i inp) = some s') :
    ∃ f, (s.flight (w, t))[i]? = some f ∧ HarvestOK J s w t f ∧
      s' = ({ s with flight := s.flight.take (w, t) i } : State n).land w t f
        (J.harvestOutcome (Cells.of (s.regs (pipeOf f.port)) J.slot) t f) := by
  simp only [Session.next] at hn
  split at hn
  · simp only [Option.bind_eq_some_iff, Option.map_eq_some_iff] at hn
    obtain ⟨f, hhead, ig, hig, rfl⟩ := hn
    have hok := h.harvest w t ht f (List.mem_of_getElem? hhead)
    rw [hok.place.enter, Option.some.injEq] at hig
    subst hig
    refine ⟨f, hhead, hok, ?_⟩
    unfold State.passed
    rw [hok.place.outcome_process, hok.place.process, s.takeOff_harvest ht, f.after_harvest ht]
  · cases hn

theorem Inv.takeOff_harvest {i : ℕ} (h : Inv J s) : Inv J { s with flight := s.flight.take (w, t) i } :=
  { h with
    consume := fun v p g hg => by
      have hok := h.consume v p g (Queues.mem_of_mem_take hg)
      exact hok.congr rfl hok.sent hok.copies
    harvest := fun v t' ht g hg =>
      (h.harvest v t' ht g (Queues.mem_of_mem_take hg)).mono (fun _ _ => Nat.le_refl _) (Nat.le_refl _)
    order := fun v => (h.order v).sublist (Queues.line_take_sublist _)
    accepted := fun v k r hr => (h.accepted v k r hr).mono (h.accepted v k r hr).mem (Nat.le_refl _)
    responses := fun r hr => (h.responses r hr).mono fun _ _ => Nat.le_refl _ }

theorem HarvestOK.takeOff (h : HarvestOK J s w t f) (key : Fin n × PacketType) (i : ℕ) :
    HarvestOK J { s with flight := s.flight.take key i } w t f :=
  h.mono (fun _ _ => Nat.le_refl _) (Nat.le_refl _)

theorem isHarvest_nextHarvest (t : PacketType) : isHarvest (nextHarvest t) = true := by
  cases t <;> rfl

/-- What goes on to the next harvest pass. -/
theorem HarvestOK.forward (hf : HarvestOK J s w t f) (h7 : t ≠ .HARVEST7) (c : Cells) (payload : List DataH) :
    HarvestOK J s w (nextHarvest t)
      { f with
        port := harvestPort (nextHarvest t)
        wire := ⟨{ J.harvestedMd c f with packetType := nextHarvest t }, f.wire.rdmaAddr, payload⟩ } :=
  { place :=
      { isHarvest := isHarvest_nextHarvest t
        size := fun h256 => absurd (hf.place.size h256) h7
        type := rfl
        fixed := hf.place.fixed
        port := rfl }
    sent := hf.sent
    last := hf.last
    complete := hf.complete
    counted := hf.counted
    e0 := hf.e0
    payload := fun h256 => absurd (hf.place.size h256) h7 }

/-- The cells of a complete phase that are still held are the phase's results. -/
theorem held_of_complete (J : Job n) {k : ℕ} (hc : Complete (s.seen 0) k) (hheld : StillHeld s k) :
    Current (s.seen 0) k ∧ (through (s.seen 0) k) = Finset.univ ∧ (through (s.seen 0) k).Nonempty := by
  have huniv := through_eq_univ.mpr hc
  refine ⟨⟨fun v => ?_, hheld⟩, huniv, ?_⟩
  · have := hc v
    omega
  · rw [huniv]
    exact ⟨⟨0, J.pos⟩, Finset.mem_univ _⟩

theorem Inv.held_values (h : Inv J s) {k : ℕ} (hc : Complete (s.seen 0) k) (hheld : StillHeld s k) (i : Fin 32) :
    ((Cells.of (s.regs 0) J.slot).values (J.set k) i).first = J.sum Finset.univ k 0 i := by
  obtain ⟨hcur, huniv, hne⟩ := held_of_complete J hc hheld
  have hval := (h.pipe 0).values i k hcur hne
  rw [huniv] at hval
  exact hval.1

theorem Inv.held_e1 (h : Inv J s) {k : ℕ} (hc : Complete (s.seen 0) k) (hheld : StillHeld s k)
    (hl : J.LastPhase k) :
    IsGreatest (Set.range (J.e1 · k)) ((Cells.of (s.regs 0) J.slot).exponents (J.set k)).second := by
  obtain ⟨hcur, huniv, hne⟩ := held_of_complete J hc hheld
  have hexp := ((h.pipe 0).exponents rfl k hcur hne hl).2
  rw [huniv, Finset.coe_univ, Set.image_univ] at hexp
  exact hexp

/-- The response made from a packet in its last pass. -/
theorem HarvestOK.respond {i : ℕ} (h : Inv J s) (hf : HarvestOK J s w .HARVEST7 f) (ha : Answers f.wire.md)
    (broadcast : Bool) (ty : PacketType) (hb : broadcast = false → f.wire.md.mapResult ≠ 0) :
    ResponseOK J { s with flight := s.flight.take (w, t) i }
      ⟨broadcast, w, f.phase,
        ⟨{ J.harvestedMd (Cells.of (s.regs (pipeOf f.port)) J.slot) f with packetType := ty }, f.wire.rdmaAddr,
          harvestHalf .HARVEST7 ((Cells.of (s.regs (pipeOf f.port)) J.slot).values (J.set f.phase)) ::
            f.wire.payload⟩,
        f.counted⟩ := by
  have hpipe : pipeOf f.port = 0 := by
    rw [hf.place.port]
    rfl
  have hc : Complete (s.seen 0) f.phase := hf.complete ha 0 J.pipes_pos
  rw [hpipe]
  exact
    { complete := hf.complete ha
      values := fun h256 hheld => by
        have hfirst : harvestHalf .HARVEST7 ((Cells.of (s.regs 0) J.slot).values (J.set f.phase)) =
            J.sum Finset.univ f.phase 0 := by
          funext j
          exact h.held_values hc hheld j
        show harvestHalf .HARVEST7 _ :: f.wire.payload = _
        rw [hfirst, hf.payload h256 ha]
      e0 := hf.e0
      e1 := fun hl hheld => by
        have hlast : f.wire.md.lastPacket = true := (lastPacket_of_fixed hf.place.fixed).trans (hl w)
        have hmd : (J.harvestedMd (Cells.of (s.regs 0) J.slot) f).e1 =
            ((Cells.of (s.regs 0) J.slot).exponents (J.set f.phase)).second := if_pos ⟨hlast, hf.place.type⟩
        show IsGreatest _ (J.harvestedMd (Cells.of (s.regs 0) J.slot) f).e1
        rw [hmd]
        exact h.held_e1 hc hheld hl
      counted := fun hcase => hf.counted ha (hcase.imp_right hb) }

theorem Inv.respond {r : Response n} (h : Inv J s) (hr : ResponseOK J s r) :
    Inv J { s with responses := s.responses ++ [r] } :=
  { h with
    consume := fun v p g hg => (h.consume v p g hg).congr rfl (h.consume v p g hg).sent (h.consume v p g hg).copies
    harvest := fun v t' ht g hg => (h.harvest v t' ht g hg).mono (fun _ _ => Nat.le_refl _) (Nat.le_refl _)
    accepted := fun v k r hr =>
      (h.accepted v k r hr).mono (List.mem_append_left _ (h.accepted v k r hr).mem) (Nat.le_refl _)
    responses := fun r' hr' => by
      rcases List.mem_append.mp hr' with hr' | hr'
      · exact (h.responses r' hr').mono fun _ _ => Nat.le_refl _
      · rw [List.mem_singleton.mp hr']
        exact hr.mono fun _ _ => Nat.le_refl _ }

theorem Inv.pass_harvest {i : ℕ} {inp : PassInputs} (h : Inv J s) (ht : t.isConsume = false)
    (hn : J.next s (.pass w t i inp) = some s') : Inv J s' := by
  obtain ⟨f, -, hf, rfl⟩ := h.next_harvest ht hn
  have hoff : Inv J { s with flight := s.flight.take (w, t) i } := h.takeOff_harvest
  unfold Job.harvestOutcome
  by_cases h7 : t = .HARVEST7
  · subst h7
    simp only [ne_eq, not_true_eq_false, if_false]
    split
    · rename_i hb
      exact hoff.respond (hf.respond h (Or.inl hb.2) true .BROADCAST fun hc => by cases hc)
    · split
      · rename_i hr
        exact hoff.respond (hf.respond h (Or.inr hr.1) false .RETRANSMIT fun _ => hr.2)
      · exact hoff
  · rw [if_pos h7]
    have hfw := (hf.takeOff (w, t) i).forward h7 (Cells.of (s.regs (pipeOf f.port)) J.slot)
      (harvestHalf t ((Cells.of (s.regs (pipeOf f.port)) J.slot).values (J.set f.phase)) :: f.wire.payload)
    have hnot := not_isConsume_of_isHarvest (isHarvest_nextHarvest t)
    refine hoff.put (fun q hq => ?_) (fun _ => hfw) fun v => ?_
    · have hq' : nextHarvest t = consumeType q := hq
      rw [hq', isConsume_consumeType] at hnot
      cases hnot
    · rw [line_put_harvest hnot]
      exact hoff.order v

/-! ## Every step -/

theorem Inv.pass {i : ℕ} {inp : PassInputs} (h : Inv J s) (hn : J.next s (.pass w t i inp) = some s') :
    Inv J s' := by
  cases ht : t.isConsume with
  | true =>
    obtain ⟨p, rfl⟩ := exists_of_isConsume ht
    exact h.pass_consume hn
  | false => exact h.pass_harvest ht hn

theorem Inv.step {e : Event n} (h : Inv J s) (hn : J.next s e = some s') : Inv J s' := by
  cases e with
  | send w => exact h.send hn
  | resend w => exact h.resend hn
  | pass w t i inp => exact h.pass hn
  | lose w t i => exact h.lose hn
  | accept w i => exact h.accept hn
  | other p ig => exact h.other hn

theorem Inv.of_reachable (h : J.machine.Reachable s) : Inv J s :=
  h.invariant (fun _ hs => hs ▸ Inv.init J) fun _ _ _ hI hn => hI.step hn

end SwitchML.Aggregation
