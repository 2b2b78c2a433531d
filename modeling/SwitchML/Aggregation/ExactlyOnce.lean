/-
Aggregation is exactly-once, in one pipe (256 byte packets) and across the four
pipes (1024 byte packets).
-/
import SwitchML.Aggregation.Counting
import SwitchML.Aggregation.Harvest

namespace SwitchML.Aggregation

open P4 Tna Phases Controller

variable {n : ℕ} {J : Job n} {s s' : State n} {w : Fin n} {p : Fin 4} {f g : Flight n}

/-! ## One pipe -/

/-- What a worker accepts for a phase of 256 byte packets is the phase's result. -/
theorem Inv.accepted_256 (h : Inv J s) (h256 : J.packetSize = .MTU_256) {k : ℕ} {r : Response n}
    (hr : s.accepted w k = some r) :
    r.wire.payload = [J.sum Finset.univ k 0, J.sum Finset.univ k 1] ∧
      (J.LastPhase k →
        IsGreatest (Set.range (J.e0 · k)) r.wire.md.e0 ∧ IsGreatest (Set.range (J.e1 · k)) r.wire.md.e1) := by
  have hok := h.accepted w k r hr
  have hresp := h.responses r hok.mem
  refine ⟨hok.values h256, fun hl => ⟨?_, hok.e1 hl⟩⟩
  rw [← hok.phase] at hl ⊢
  have he0 := hresp.e0 hl
  rw [hresp.counted (Or.inl h256), Finset.coe_univ, Set.image_univ] at he0
  exact he0

/-- In 256 byte mode, for every interleaving: what a worker accepts first for a
phase has the sums of exactly one contribution of each worker, and the greatest
exponents where the packets carry exponents; no response is made before all
workers have contributed; and a phase is broadcast at most once. -/
theorem exactlyOnce_256 (J : Job n) (h256 : J.packetSize = .MTU_256) {s : State n} (h : J.machine.Reachable s) :
    (∀ w k r, s.accepted w k = some r →
      r.wire.payload = [J.sum Finset.univ k 0, J.sum Finset.univ k 1] ∧
        (J.LastPhase k →
          IsGreatest (Set.range (J.e0 · k)) r.wire.md.e0 ∧ IsGreatest (Set.range (J.e1 · k)) r.wire.md.e1)) ∧
      (∀ r ∈ s.responses, Complete (s.seen 0) r.phase) ∧
      ∀ k, s.responses.countP (Response.isBroadcast k) ≤ 1 := by
  have hI := Inv.of_reachable h
  refine ⟨fun w k r hr => hI.accepted_256 h256 hr, fun r hr => ?_, (Counted.of_reachable h).broadcast_le_one⟩
  exact (hI.responses r hr).complete 0 J.pipes_pos

/-- The first phase of a job of two workers, up to the first acceptance. -/
def pairRun (inp : PassInputs) : List (Event 2) :=
  [.send 0, .send 1, .pass 0 .CONSUME0 0 inp, .pass 1 .CONSUME0 0 inp, .pass 1 .HARVEST7 0 inp, .accept 0 0]

theorem exactlyOnce_256_pair :
    (((Job.pair .MTU_256 (Or.inl rfl)).machine.run (State.init 2) (pairRun PassInputs.quiet)).bind
      (·.accepted 0 0)).map (·.wire.payload) =
      some [(Job.pair .MTU_256 (Or.inl rfl)).sum Finset.univ 0 0,
        (Job.pair .MTU_256 (Or.inl rfl)).sum Finset.univ 0 1] := by
  have hrun : (((Job.pair .MTU_256 (Or.inl rfl)).machine.run (State.init 2) (pairRun PassInputs.quiet)).bind
      (·.accepted 0 0)).isSome = true := by decide +kernel
  obtain ⟨r, hr⟩ := Option.isSome_iff_exists.mp hrun
  obtain ⟨s, hs, hacc⟩ := Option.bind_eq_some_iff.mp hr
  have hreach : (Job.pair .MTU_256 (Or.inl rfl)).machine.Reachable s := Machine.Reachable.run (.init rfl) hs
  rw [hr, Option.map_some]
  exact congrArg some ((exactlyOnce_256 _ rfl hreach).1 0 0 r hacc).1

/-! ## Four pipes -/

/-- From the moment a pipe has seen all packets of a phase until it sees one of
the second phase after, its cells hold the phase's sums. -/
theorem Inv.holdsValues (h : Inv J s) {k : ℕ} (hc : Complete (s.seen p) k) (hheld : ∀ v, s.seen p v ≤ k + 2)
    (i : Fin 32) : J.HoldsValues p i k Finset.univ ((Cells.of (s.regs p) J.slot).values (J.set k) i) := by
  have huniv := through_eq_univ.mpr hc
  have hcur : Current (s.seen p) k := ⟨fun v => by have := hc v; omega, hheld⟩
  have hval := (h.pipe p).values i k hcur
  rw [huniv] at hval
  exact hval ⟨⟨0, J.pos⟩, Finset.mem_univ _⟩

/-- A copy that changes a pipe's sums finds that the original was lost before the pipe. -/
theorem Inv.lostBefore (h : Inv J s) (ho : Originals J s) {i : ℕ} {inp : PassInputs}
    (hn : J.next s (.pass w (consumeType p) i inp) = some s') (hat : (s.flight (w, consumeType p))[i]? = some f)
    (hcopy : 0 < f.copy)
    (hchange : (Cells.of (s'.regs p) J.slot).values ≠ (Cells.of (s.regs p) J.slot).values) :
    LostBefore s w f.phase p := by
  obtain ⟨f', regs', md, d1, rfl, hhead, hf, -, -, hkeep, rfl⟩ := h.next_consume hn
  rw [hhead, Option.some.injEq] at hat
  subst hat
  have hregs : (((s.takeOff w (consumeType p) 0 f' regs').land w (consumeType p)
      (f'.after w (consumeType p) (s.seen p)) (J.consumeOutcome w p f' md d1)).regs p) = regs' := by
    have hland : ∀ o, ((s.takeOff w (consumeType p) 0 f' regs').land w (consumeType p)
        (f'.after w (consumeType p) (s.seen p)) o).regs = (s.takeOff w (consumeType p) 0 f' regs').regs := by
      intro o
      cases o <;> rfl
    rw [hland]
    simp only [State.takeOff, hf.place.pipeOf_port, Function.update_self]
  rw [hregs] at hchange
  have hnew : s.seen p w = f'.phase := (h.arrives hf).worker.resolve_right fun hw => hchange (hkeep hw)
  rcases ho w f'.phase hf.sent p hf.place.lt with hseen | ⟨q, hq, g, hg, hphase, hcopy0⟩ | hlost
  · omega
  · -- an original still on its way would stand behind a packet sent after it
    by_cases hgf : g = f'
    · subst hgf
      omega
    · have hstay : g ∈ s.flight.take (w, consumeType p) 0 (w, consumeType q) := by
        rcases Queues.mem_take_or (w, consumeType p) 0 hg with hstay | ⟨hkey, htaken⟩
        · exact hstay
        · rw [hhead, Option.some.injEq] at htaken
          exact absurd htaken.symm hgf
      rcases h.before_of_head hhead hq hstay with hb | ⟨-, hb, -⟩ <;> omega
  · exact hlost

/-- In 1024 byte mode, for every interleaving: each pipe holds the sums of
exactly one contribution of each worker while it is to hold the phase's result;
a phase has one broadcast candidate, made when all pipes are complete; and a
retransmitted packet changes a pipe's sums only if the original was lost before
that pipe. -/
theorem exactlyOnce_1024 (J : Job n) (h1024 : J.packetSize = .MTU_1024) {s : State n} (h : J.machine.Reachable s) :
    (∀ p k, Complete (s.seen p) k → (∀ v, s.seen p v ≤ k + 2) →
      ∀ i, J.HoldsValues p i k Finset.univ ((Cells.of (s.regs p) J.slot).values (J.set k) i)) ∧
      (∀ k, s.candidates.count k = if ∀ p, Complete (s.seen p) k then 1 else 0) ∧
      ∀ w p i inp f s', J.next s (.pass w (consumeType p) i inp) = some s' →
        (s.flight (w, consumeType p))[i]? = some f → 0 < f.copy →
        (Cells.of (s'.regs p) J.slot).values ≠ (Cells.of (s.regs p) J.slot).values → LostBefore s w f.phase p := by
  have hI := Inv.of_reachable h
  have hpipes : J.pipes = 4 := by
    unfold Session.pipes
    rw [h1024]
    rfl
  refine ⟨fun p k => hI.holdsValues, fun k => ?_, fun w p i inp f s' hn hat hcopy hchange => ?_⟩
  · have hall : (∀ p, Complete (s.seen p) k) ↔ Complete (s.seen J.lastPipe) k := by
      rw [← hI.allComplete]
      exact ⟨fun hc p _ => hc p, fun hc p => hc p (by rw [hpipes]; exact p.isLt)⟩
    simp only [hall]
    exact (Counted.of_reachable h).candidates k
  · exact hI.lostBefore (Originals.of_reachable h) hn hat hcopy hchange

/-- The consume passes of both workers' packets, the second one in front of the first from pipe 1 on. -/
def pairConsumeRun (inp : PassInputs) : List (Event 2) :=
  [.send 0, .send 1, .pass 0 .CONSUME0 0 inp, .pass 1 .CONSUME0 0 inp, .pass 1 .CONSUME1 0 inp,
    .pass 1 .CONSUME2 0 inp, .pass 1 .CONSUME3 0 inp, .pass 0 .CONSUME1 0 inp, .pass 0 .CONSUME2 0 inp,
    .pass 0 .CONSUME3 0 inp]

theorem exactlyOnce_1024_pair :
    ((Job.pair .MTU_1024 (Or.inr rfl)).machine.run (State.init 2) (pairConsumeRun PassInputs.quiet)).map
      (·.candidates.count 0) = some 1 := by
  have hrun : (((Job.pair .MTU_1024 (Or.inr rfl)).machine.run (State.init 2)
      (pairConsumeRun PassInputs.quiet)).map fun s => decide (∀ p, Complete (s.seen p) 0)) = some true := by
    decide +kernel
  obtain ⟨s, hs, hcomplete⟩ := Option.map_eq_some_iff.mp hrun
  have hreach : (Job.pair .MTU_1024 (Or.inr rfl)).machine.Reachable s := Machine.Reachable.run (.init rfl) hs
  rw [hs, Option.map_some, (exactlyOnce_1024 _ rfl hreach).2.1 0, if_pos (of_decide_eq_true hcomplete)]

end SwitchML.Aggregation
