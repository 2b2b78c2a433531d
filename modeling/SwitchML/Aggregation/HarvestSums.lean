/-
The results of 1024 byte packets, over whole runs.

What a packet reads in its harvest passes are the sums of its phase as long as
the cells of this phase are held, and they are held while a worker waits for the
result. So what a worker accepts are sums of its phase, in the order in which
the passes read them; the pass that should read the fifth one is in pipe 3, and
reads the seventh.
-/
import SwitchML.Aggregation.ExactlyOnce

namespace SwitchML.Aggregation

open P4 Tna Phases Controller

variable {n : ℕ} {J : Job n} {s s' : State n} {w : Fin n} {p : Fin 4} {t : PacketType} {f g : Flight n} {k : ℕ}

/-! ## The order of the passes -/

/-- The slice that a harvest pass puts in front. -/
def harvestSlice (t : PacketType) : ℕ := 2 * (pipeOf (harvestPort t)).val + if t.readsFirst then 0 else 1

/-- The slices in a packet of 1024 bytes on its way to a harvest pass. -/
def slicesBefore : PacketType → List ℕ
  | .HARVEST1 => [7]
  | .HARVEST2 => [6, 7]
  | .HARVEST3 => [5, 6, 7]
  | .HARVEST4 => [6, 5, 6, 7]
  | .HARVEST5 => [3, 6, 5, 6, 7]
  | .HARVEST6 => [2, 3, 6, 5, 6, 7]
  | _ => [1, 2, 3, 6, 5, 6, 7]

/-- The slices of a result. -/
def resultSlices : List ℕ := [0, 1, 2, 3, 6, 5, 6, 7]

theorem slicesBefore_nextHarvest (hh : isHarvest t = true) (h7 : t ≠ .HARVEST7) :
    slicesBefore (nextHarvest t) = harvestSlice t :: slicesBefore t := by
  cases t with
  | HARVEST1 | HARVEST2 | HARVEST3 | HARVEST4 | HARVEST5 | HARVEST6 => rfl
  | HARVEST7 => exact absurd rfl h7
  | _ => cases hh

/-! ## What the packets hold -/

structure HoldsSums (J : Job n) (s : State n) : Prop where
  flight : ∀ w t, t.isConsume = false → ∀ f ∈ s.flight (w, t), Answers f.wire.md → StillHeld s f.phase →
    f.wire.payload = (slicesBefore t).map (J.sum Finset.univ f.phase)
  responses : ∀ r ∈ s.responses, StillHeld s r.phase →
    r.wire.payload = resultSlices.map (J.sum Finset.univ r.phase)
  accepted : ∀ w k r, s.accepted w k = some r → r.wire.payload = resultSlices.map (J.sum Finset.univ k)

theorem HoldsSums.init (J : Job n) : HoldsSums J (State.init n) where
  flight _ _ _ f hf := by cases hf
  responses _ hr := by cases hr
  accepted _ _ _ hr := by cases hr

/-- Nothing new on its way to harvest, no new response, and the pipes have seen more. -/
theorem HoldsSums.mono (h : HoldsSums J s)
    (hflight : ∀ w t, t.isConsume = false → ∀ f ∈ s'.flight (w, t), f ∈ s.flight (w, t))
    (hseen : ∀ q v, s.seen q v ≤ s'.seen q v) (hresp : s'.responses = s.responses)
    (hacc : s'.accepted = s.accepted) : HoldsSums J s' where
  flight w t ht f hf ha hheld := h.flight w t ht f (hflight w t ht f hf) ha (hheld.anti hseen)
  responses r hr hheld := h.responses r (hresp ▸ hr) (hheld.anti hseen)
  accepted w k r hr := h.accepted w k r (hacc ▸ hr)

/-- The packets on their way to harvest, where one is put on its way to another pass. -/
theorem mem_put_harvest {Q : Queues (Fin n × PacketType) (Flight n)} {v : Fin n} {t' : PacketType}
    (ht : t.isConsume = true) (ht' : t'.isConsume = false) (h : f ∈ Q.put (w, t) g (v, t')) : f ∈ Q (v, t') := by
  rcases Queues.mem_put.mp h with hf | ⟨hkey, -⟩
  · exact hf
  · simp only [Prod.mk.injEq] at hkey
    rw [← hkey.2, ht'] at ht
    cases ht

/-- A packet that is sent on to a harvest pass. -/
theorem HoldsSums.put (h : HoldsSums J s) {cs : List ℕ}
    (hg : Answers g.wire.md → StillHeld s g.phase → g.wire.payload = (slicesBefore t).map (J.sum Finset.univ g.phase)) :
    HoldsSums J { s with flight := s.flight.put (w, t) g, candidates := cs } where
  flight v t' ht' f hf ha hheld := by
    rcases Queues.mem_put.mp hf with hf | ⟨hkey, rfl⟩
    · exact h.flight v t' ht' f hf ha hheld
    · simp only [Prod.mk.injEq] at hkey
      rw [hkey.2]
      exact hg ha hheld
  responses := h.responses
  accepted := h.accepted

theorem HoldsSums.respond (h : HoldsSums J s) {r : Response n}
    (hr : StillHeld s r.phase → r.wire.payload = resultSlices.map (J.sum Finset.univ r.phase)) :
    HoldsSums J { s with responses := s.responses ++ [r] } where
  flight := h.flight
  responses r' hr' hheld := by
    rcases List.mem_append.mp hr' with hr' | hr'
    · exact h.responses r' hr' hheld
    · rw [List.mem_singleton.mp hr'] at hheld ⊢
      exact hr hheld
  accepted := h.accepted

/-! ## Each step -/

theorem HoldsSums.takeOff_consume (h : HoldsSums J s) (hf : ConsumeOK J s w p f) (regs : Regs) :
    HoldsSums J (s.takeOff w (consumeType p) 0 f regs) :=
  h.mono (fun _ _ _ _ hg => Queues.mem_of_mem_take hg) (hf.le_takeOff regs) rfl rfl

theorem HoldsSums.takeOff_harvest (h : HoldsSums J s) (w : Fin n) (t : PacketType) (i : ℕ) :
    HoldsSums J { s with flight := s.flight.take (w, t) i } :=
  h.mono (fun _ _ _ _ hg => Queues.mem_of_mem_take hg) (fun _ _ => Nat.le_refl _) rfl rfl

/-- A consume pass puts the last slice into a packet that goes into harvest. -/
theorem HoldsSums.pass_consume {i : ℕ} {inp : PassInputs} (h : HoldsSums J s) (hI : Inv J s)
    (h1024 : J.packetSize = .MTU_1024) (hn : J.next s (.pass w (consumeType p) i inp) = some s') :
    HoldsSums J s' := by
  obtain ⟨f, regs', md, d1, -, -, hf, hread, hd1, -, rfl⟩ := hI.next_consume hn
  have hoff := h.takeOff_consume hf regs'
  have hpipes : J.pipes = 4 := by
    unfold Session.pipes
    rw [h1024]
    rfl
  have hfirst : J.firstHarvest = .HARVEST1 := by
    unfold Job.firstHarvest
    rw [h1024]
    rfl
  unfold Job.consumeOutcome
  split
  · split
    · exact hoff
    · exact hoff.mono (fun _ _ ht _ hg => mem_put_harvest (isConsume_consumeType _) ht hg) (fun _ _ => Nat.le_refl _)
        rfl rfl
  · rename_i hlast
    split
    · rename_i hgo
      have hharvest := hf.toHarvest hI hread hlast hd1 hgo
      rw [hfirst] at hharvest ⊢
      refine hoff.put fun ha _ => ?_
      have hp : p.val = 3 := by omega
      -- the packet is answered only if this pipe has seen all packets of the phase
      have hcomplete : Complete (visit (s.seen p) w f.phase) f.phase := by
        have hc : Complete ((s.takeOff w (consumeType p) 0 f regs').seen p) f.phase :=
          hharvest.complete ha p (by omega)
        unfold State.takeOff at hc
        simpa only [isConsume_consumeType, if_true, hf.place.pipeOf_port, Function.update_self] using hc
      show [d1] = [J.sum Finset.univ f.phase 7]
      rw [hd1 hcomplete, hp]
    · exact hoff

/-- What a harvest pass reads of a phase that is held. -/
theorem harvestHalf_eq (hI : Inv J s) (hf : HarvestOK J s w t f) (h1024 : J.packetSize = .MTU_1024)
    (ha : Answers f.wire.md) (hheld : StillHeld s f.phase) :
    harvestHalf t ((Cells.of (s.regs (pipeOf f.port)) J.slot).values (J.set f.phase)) =
      J.sum Finset.univ f.phase (harvestSlice t) := by
  have hpipes : J.pipes = 4 := by
    unfold Session.pipes
    rw [h1024]
    rfl
  have hc := hf.complete ha (pipeOf f.port) (by rw [hpipes]; exact (pipeOf f.port).isLt)
  have hseen : ∀ v, s.seen (pipeOf f.port) v ≤ f.phase + 2 := fun v =>
    (hI.seen_anti 0 _ (Fin.zero_le _) v).trans (hheld v)
  have hval := hI.holdsValues hc hseen
  rw [hf.place.port] at hval ⊢
  unfold harvestHalf harvestSlice
  cases t.readsFirst with
  | true => exact funext fun i => (hval i).1
  | false => exact funext fun i => (hval i).2

theorem HoldsSums.pass_harvest {i : ℕ} {inp : PassInputs} (h : HoldsSums J s) (hI : Inv J s)
    (h1024 : J.packetSize = .MTU_1024) (ht : t.isConsume = false) (hn : J.next s (.pass w t i inp) = some s') :
    HoldsSums J s' := by
  obtain ⟨f, hat, hf, rfl⟩ := hI.next_harvest ht hn
  have hoff := h.takeOff_harvest w t i
  have hpayload (ha : Answers f.wire.md) (hheld : StillHeld s f.phase) :
      harvestHalf t ((Cells.of (s.regs (pipeOf f.port)) J.slot).values (J.set f.phase)) :: f.wire.payload =
        (harvestSlice t :: slicesBefore t).map (J.sum Finset.univ f.phase) := by
    rw [harvestHalf_eq hI hf h1024 ha hheld, h.flight w t ht f (List.mem_of_getElem? hat) ha hheld, List.map_cons]
  unfold Job.harvestOutcome
  by_cases h7 : t = .HARVEST7
  · subst h7
    simp only [ne_eq, not_true_eq_false, if_false]
    split
    · rename_i hb
      exact hoff.respond (hpayload (.inl hb.2))
    · split
      · rename_i hr
        exact hoff.respond (hpayload (.inr hr.1))
      · exact hoff
  · rw [if_pos h7]
    refine hoff.put fun ha hheld => ?_
    rw [slicesBefore_nextHarvest hf.place.isHarvest h7]
    exact hpayload ha hheld

/-- The phase a worker waits for is held. -/
theorem HoldsSums.accept {i : ℕ} (h : HoldsSums J s) (hI : Inv J s) (hn : J.next s (.accept w i) = some s') :
    HoldsSums J s' := by
  simp only [Session.next, Option.bind_eq_some_iff, Option.ite_none_right_eq_some, Option.some.injEq] at hn
  obtain ⟨r, hr, ⟨-, hphase, -⟩, rfl⟩ := hn
  have hheld : StillHeld s r.phase := hI.stillHeld (w := w) (by omega)
  refine ⟨h.flight, h.responses, fun v k r' hr' => ?_⟩
  change Function.update s.accepted w (Function.update (s.accepted w) r.phase (some r)) v k = some r' at hr'
  by_cases hv : v = w
  · subst hv
    rw [Function.update_self, Function.update_apply] at hr'
    split at hr'
    · rename_i hk
      cases hr'
      rw [hk]
      exact h.responses r (List.mem_of_getElem? hr) hheld
    · exact h.accepted v k r' hr'
  · rw [Function.update_of_ne hv] at hr'
    exact h.accepted v k r' hr'

theorem HoldsSums.step {e : Event n} (h : HoldsSums J s) (hI : Inv J s) (h1024 : J.packetSize = .MTU_1024)
    (hn : J.next s e = some s') : HoldsSums J s' := by
  cases e with
  | send w =>
    simp only [Session.next, Option.ite_none_right_eq_some, Option.some.injEq] at hn
    obtain ⟨-, rfl⟩ := hn
    exact h.mono (fun _ _ ht _ hg => mem_put_harvest rfl ht hg) (fun _ _ => Nat.le_refl _) rfl rfl
  | resend w =>
    simp only [Session.next, Option.ite_none_right_eq_some, Option.some.injEq] at hn
    obtain ⟨-, rfl⟩ := hn
    exact h.mono (fun _ _ ht _ hg => mem_put_harvest rfl ht hg) (fun _ _ => Nat.le_refl _) rfl rfl
  | pass w t i inp =>
    cases ht : t.isConsume with
    | true =>
      obtain ⟨p, rfl⟩ := exists_of_isConsume ht
      exact h.pass_consume hI h1024 hn
    | false => exact h.pass_harvest hI h1024 ht hn
  | lose w t i =>
    simp only [Session.next, Option.map_eq_some_iff] at hn
    obtain ⟨f, -, rfl⟩ := hn
    exact h.mono (fun _ _ _ _ hg => Queues.mem_of_mem_take hg) (fun _ _ => Nat.le_refl _) rfl rfl
  | accept w i => exact h.accept hI hn
  | other p ig =>
    simp only [Session.next, Option.ite_none_left_eq_some, Option.some.injEq] at hn
    obtain ⟨-, rfl⟩ := hn
    exact h.mono (fun _ _ _ _ hg => hg) (fun _ _ => Nat.le_refl _) rfl rfl

theorem HoldsSums.of_reachable (h1024 : J.packetSize = .MTU_1024) (h : J.machine.Reachable s) : HoldsSums J s :=
  h.invariant_of (fun _ hs => Inv.of_reachable hs) (fun _ hs => hs ▸ HoldsSums.init J)
    fun _ _ _ hI h hn => h.step hI h1024 hn

/-! ## Results -/

/-- In 1024 byte mode, for every interleaving: what a worker accepts for a phase
has seven of the eight sums of exactly one contribution of each worker, in their
order. In place of the fifth it has the seventh again, and so is the result
exactly if the two are the same. -/
theorem accepted_1024 (h1024 : J.packetSize = .MTU_1024) (h : J.machine.Reachable s) {r : Response n}
    (hr : s.accepted w k = some r) :
    (r.wire.payload = [J.sum Finset.univ k 0, J.sum Finset.univ k 1, J.sum Finset.univ k 2, J.sum Finset.univ k 3,
      J.sum Finset.univ k 6, J.sum Finset.univ k 5, J.sum Finset.univ k 6, J.sum Finset.univ k 7]) ∧
      (r.wire.payload = (List.range 8).map (J.sum Finset.univ k) ↔
        J.sum Finset.univ k 4 = J.sum Finset.univ k 6) := by
  have hpay : r.wire.payload = resultSlices.map (J.sum Finset.univ k) :=
    (HoldsSums.of_reachable h1024 h).accepted w k r hr
  refine ⟨hpay, ?_⟩
  rw [hpay]
  constructor
  · intro heq
    have h4 := congrArg (fun l => l[4]?) heq
    exact (Option.some.inj h4).symm
  · intro heq
    show [_, _, _, _, _, _, _, _] = [_, _, _, _, J.sum Finset.univ k 4, _, _, _]
    rw [heq]

/-- Two workers' packets through all four pipes, and the acceptance of the result by worker 1. -/
def pairHarvestRun (inp : PassInputs) : List (Event 2) :=
  pairConsumeRun inp ++ [.pass 0 .HARVEST1 0 inp, .pass 0 .HARVEST2 0 inp, .pass 0 .HARVEST3 0 inp,
    .pass 0 .HARVEST4 0 inp, .pass 0 .HARVEST5 0 inp, .pass 0 .HARVEST6 0 inp, .pass 0 .HARVEST7 0 inp, .accept 1 0]

theorem accepted_1024_pair : ∃ (s : State 2) (r : Response 2), s.accepted 1 0 = some r ∧
    r.wire.payload ≠ (List.range 8).map ((Job.pair .MTU_1024 (Or.inr rfl)).sum Finset.univ 0) := by
  have hrun : (((Job.pair .MTU_1024 (Or.inr rfl)).machine.run (State.init 2) (pairHarvestRun PassInputs.quiet)).bind
      (·.accepted 1 0)).isSome = true := by decide +kernel
  obtain ⟨r, hr⟩ := Option.isSome_iff_exists.mp hrun
  obtain ⟨s, hs, hacc⟩ := Option.bind_eq_some_iff.mp hr
  have hreach : (Job.pair .MTU_1024 (Or.inr rfl)).machine.Reachable s := Machine.Reachable.run (.init rfl) hs
  refine ⟨s, r, hacc, fun heq => ?_⟩
  have hsums := (accepted_1024 rfl hreach hacc).2.mp heq
  exact absurd (congrFun hsums 0) (by decide +kernel)

end SwitchML.Aggregation
