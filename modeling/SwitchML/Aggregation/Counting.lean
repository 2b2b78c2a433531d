/-
Each phase has one broadcast candidate, and each original packet is somewhere.

A broadcast candidate leaves the last pipe when that pipe has seen the phase of
every worker, and no sooner. From then on the candidate is on its way through
harvest, or answered, or lost, and never two of these (`Counted`). An original
packet has been seen by a pipe, or is before it, or was lost before it
(`Originals`).
-/
import SwitchML.Aggregation.HarvestStep
import Mathlib.Data.Fintype.Prod

namespace SwitchML.Aggregation

open P4 Tna Phases Controller

variable {n : ℕ} {J : Job n} {s s' : State n} {w : Fin n} {p : Fin 4} {t : PacketType} {f g : Flight n}

/-! ## The last pipe -/

/-- The pipe the last consume pass is made in. -/
def Job.lastPipe (J : Job n) : Fin 4 := ⟨J.pipes - 1, by have := J.pipes_pos; have := J.pipes_le; omega⟩

theorem Job.eq_lastPipe (hp : p.val < J.pipes) (hlast : ¬ p.val + 1 < J.pipes) : p = J.lastPipe := by
  refine Fin.ext ?_
  show p.val = J.pipes - 1
  omega

theorem Job.ne_lastPipe (hlast : p.val + 1 < J.pipes) : J.lastPipe ≠ p := by
  rintro rfl
  have hval : J.lastPipe.val = J.pipes - 1 := rfl
  omega

theorem Job.le_lastPipe (hp : p.val < J.pipes) : p ≤ J.lastPipe := by
  refine Fin.le_def.mpr ?_
  show p.val ≤ J.pipes - 1
  omega

/-- What the last pipe has seen, all pipes have seen. -/
theorem Inv.allComplete (h : Inv J s) {k : ℕ} : AllComplete J s k ↔ Complete (s.seen J.lastPipe) k := by
  constructor
  · intro hall
    refine hall J.lastPipe ?_
    have := J.pipes_pos
    show J.pipes - 1 < J.pipes
    omega
  · intro hlast q hq v
    exact lt_of_lt_of_le (hlast v) (h.seen_anti q J.lastPipe (Job.le_lastPipe hq) v)

/-! ## Broadcast candidates -/

/-- A broadcast candidate of phase `k` on its way through harvest. -/
def pending (k : ℕ) (f : Flight n) : Bool :=
  !f.wire.md.packetType.isConsume && isCandidate f.wire.md && decide (f.phase = k)

def Response.isBroadcast (k : ℕ) (r : Response n) : Bool := r.broadcast && decide (r.phase = k)

structure Counted (J : Job n) (s : State n) : Prop where
  candidates : ∀ k, s.candidates.count k = if Complete (s.seen J.lastPipe) k then 1 else 0
  whereabouts : ∀ k, s.responses.countP (Response.isBroadcast k) + s.flight.total (pending k) +
    s.lost.countP (pending k ·.2) = s.candidates.count k

theorem isCandidate_iff {md : SwitchmlMd} : isCandidate md = true ↔ md.firstLastFlag = Flag.LAST ∧ md.mapResult = 0 := by
  simp [isCandidate]

theorem pending_consume (hf : AtConsume J w p f) (k : ℕ) : pending k f = false := by
  unfold pending
  rw [hf.type, isConsume_consumeType]
  rfl

theorem pending_harvest (hf : AtHarvest J w t f) (k : ℕ) :
    pending k f = (isCandidate f.wire.md && decide (f.phase = k)) := by
  unfold pending
  rw [hf.type, not_isConsume_of_isHarvest hf.isHarvest]
  rfl

theorem Counted.init (J : Job n) : Counted J (State.init n) where
  candidates k := by
    have hnot : ¬ Complete ((State.init n).seen J.lastPipe) k := fun hc => Nat.not_lt_zero k (hc ⟨0, J.pos⟩)
    rw [if_neg hnot]
    rfl
  whereabouts k := by
    simp [State.init, Queues.total]

/-- What neither the candidates nor the last pipe notice. -/
theorem Counted.congr (h : Counted J s) (hcand : s'.candidates = s.candidates) (hseen : s'.seen = s.seen)
    (hresp : s'.responses = s.responses) (hlost : s'.lost = s.lost)
    (htotal : ∀ k, s'.flight.total (pending k) = s.flight.total (pending k)) : Counted J s' where
  candidates k := by
    rw [hcand, hseen]
    exact h.candidates k
  whereabouts k := by
    rw [hcand, hresp, hlost, htotal]
    exact h.whereabouts k

theorem Counted.put_launch (h : Counted J s) (k copy : ℕ) (sent copies : Fin n → ℕ) :
    Counted J { s with
      sent := sent, copies := copies, flight := s.flight.put (w, .CONSUME0) (J.launch w k copy) } := by
  refine h.congr rfl rfl rfl rfl fun j => ?_
  rw [Queues.total_put, pending_consume (launch_atConsume w k copy)]
  rfl

theorem Counted.lose {i : ℕ} (h : Counted J s) (hn : J.next s (.lose w t i) = some s') : Counted J s' := by
  simp only [Session.next, Option.map_eq_some_iff] at hn
  obtain ⟨f, hf, rfl⟩ := hn
  refine { candidates := h.candidates, whereabouts := fun k => ?_ }
  have htake := Queues.total_take (p := pending k) hf
  have hwhere := h.whereabouts k
  simp only [List.countP_cons]
  omega

/-! ## Consume passes and the candidates -/

/-- A consume pass of the last pipe completes a phase exactly if it makes a candidate. -/
theorem ConsumeRead.candidate {seen : Fin n → ℕ} {c' : Cells} {md : SwitchmlMd}
    (hread : ConsumeRead J seen p w f c' md) (ha : Arrives seen w f.phase) (k : ℕ) :
    (if Complete (visit seen w f.phase) k then 1 else 0) =
      (if Complete seen k then 1 else 0) + if isCandidate md = true ∧ f.phase = k then 1 else 0 := by
  rcases ha.worker with hw | hw
  · have hcand : isCandidate md = true ↔ Complete (visit seen w f.phase) f.phase := by
      rw [isCandidate_iff, ← hread.last hw]
      exact and_iff_left (hread.map.mpr hw)
    by_cases hk : f.phase = k
    · subst hk
      have hnot : ¬ Complete seen f.phase := fun hc => by
        have := hc w
        omega
      rw [if_neg hnot, Nat.zero_add]
      by_cases hc : Complete (visit seen w f.phase) f.phase
      · rw [if_pos hc, if_pos ⟨hcand.mpr hc, rfl⟩]
      · rw [if_neg hc, if_neg fun h => hc (hcand.mp h.1)]
    · have hother : Complete (visit seen w f.phase) k ↔ Complete seen k := by
        rw [← through_eq_univ, ← through_eq_univ, through_visit_of_ne hw (Ne.symm hk)]
      have hnot : ¬ (isCandidate md = true ∧ f.phase = k) := fun hc => hk hc.2
      rw [if_neg hnot, Nat.add_zero]
      simp only [hother]
  · have hnot : ¬ (isCandidate md = true ∧ f.phase = k) := by
      rw [isCandidate_iff]
      intro hc
      have := hread.map.mp hc.1.2
      omega
    rw [visit_eq_self hw, if_neg hnot, Nat.add_zero]

/-- The first half of a consume pass takes no candidate. -/
theorem total_takeOff (hf : ConsumeOK J s w p f) (hhead : (s.flight (w, consumeType p))[0]? = some f)
    (k : ℕ) : (s.flight.take (w, consumeType p) 0).total (pending k) = s.flight.total (pending k) := by
  have htake := Queues.total_take (p := pending k) hhead
  rwa [pending_consume hf.place k, if_neg Bool.false_ne_true, Nat.add_zero] at htake

/-- A packet that goes on to a harvest pass is pending if it is a candidate. -/
theorem total_put_harvest {Q : Queues (Fin n × PacketType) (Flight n)} (hg : AtHarvest J w t g) (k : ℕ) :
    (Q.put (w, t) g).total (pending k) =
      Q.total (pending k) + if isCandidate g.wire.md = true ∧ g.phase = k then 1 else 0 := by
  rw [Queues.total_put, pending_harvest hg]
  simp only [Bool.and_eq_true, decide_eq_true_eq]

theorem Counted.pass_consume {i : ℕ} {inp : PassInputs} (hc : Counted J s) (h : Inv J s)
    (hn : J.next s (.pass w (consumeType p) i inp) = some s') : Counted J s' := by
  obtain ⟨f, regs', md, d1, -, hhead, hf, hread, hd1, -, rfl⟩ := h.next_consume hn
  have htotal := total_takeOff hf hhead
  by_cases hp : p.val + 1 < J.pipes
  · -- the last pipe has not seen this pass, and the packet is no candidate yet
    have hseen : (s.takeOff w (consumeType p) 0 f regs').seen J.lastPipe = s.seen J.lastPipe := by
      funext v
      rw [hf.takeOff_seen, if_neg fun hq => Job.ne_lastPipe hp hq.1]
    have hoff : Counted J (s.takeOff w (consumeType p) 0 f regs') :=
      { candidates := fun k => by
          simp only [hseen]
          exact hc.candidates k
        whereabouts := fun k => by
          have hwhere := hc.whereabouts k
          have := htotal k
          simp only [State.takeOff]
          omega }
    unfold Job.consumeOutcome
    rw [if_pos hp]
    split
    · exact hoff
    · rename_i hgo
      have hfw := hf.forward h hread hp fun hp0 => Decidable.not_not.mp fun hc => hgo ⟨hp0, hc⟩
      simp only [State.land, isConsume_consumeType, Bool.not_true, Bool.and_false, Bool.false_and, Bool.false_eq_true,
        if_false]
      refine { candidates := hoff.candidates, whereabouts := fun k => ?_ }
      have hwhere := hoff.whereabouts k
      rw [Queues.total_put, pending_consume hfw.place k]
      exact hwhere
  · have hlast := Job.eq_lastPipe hf.place.lt hp
    subst hlast
    have hseen : (s.takeOff w (consumeType J.lastPipe) 0 f regs').seen J.lastPipe =
        visit (s.seen J.lastPipe) w f.phase := by
      simp only [State.takeOff, isConsume_consumeType, if_true, hf.place.pipeOf_port, Function.update_self]
    have hcount := hread.candidate (h.arrives hf)
    unfold Job.consumeOutcome
    rw [if_neg hp]
    split
    · rename_i hgo
      have hharvest := hf.toHarvest h hread hp hd1 hgo
      have hnot := not_isConsume_of_isHarvest hharvest.place.isHarvest
      have hcand : ∀ k, (if isCandidate md then f.phase :: s.candidates else s.candidates).count k =
          s.candidates.count k + if isCandidate md = true ∧ f.phase = k then 1 else 0 := by
        intro k
        by_cases hmd : isCandidate md = true
        · rw [if_pos hmd, List.count_cons]
          simp [hmd]
        · simp [hmd]
      simp only [State.land, isConsume_consumeType, hnot, Bool.not_false, Bool.and_self, Bool.true_and]
      refine { candidates := fun k => ?_, whereabouts := fun k => ?_ }
      · simp only [hseen]
        rw [hcount k, ← hc.candidates k]
        exact hcand k
      · have hwhere := hc.whereabouts k
        have htake := htotal k
        have hsum : s.responses.countP (Response.isBroadcast k) +
            ((s.flight.take (w, consumeType J.lastPipe) 0).total (pending k) +
              if isCandidate md = true ∧ f.phase = k then 1 else 0) + s.lost.countP (pending k ·.2) =
            s.candidates.count k + if isCandidate md = true ∧ f.phase = k then 1 else 0 := by
          omega
        exact (congrArg (s.responses.countP (Response.isBroadcast k) + · + s.lost.countP (pending k ·.2))
          (total_put_harvest hharvest.place k)).trans (hsum.trans (hcand k).symm)
    · rename_i hgo
      have hnot : ∀ k, ¬ (isCandidate md = true ∧ f.phase = k) := fun k hk =>
        hgo (Or.inl (isCandidate_iff.mp hk.1).1)
      refine { candidates := fun k => ?_, whereabouts := fun k => ?_ }
      · simp only [State.land, hseen]
        rw [hcount k, if_neg (hnot k), Nat.add_zero]
        exact hc.candidates k
      · have hwhere := hc.whereabouts k
        have := htotal k
        simp only [State.land, State.takeOff]
        omega

/-! ## Harvest passes -/

theorem Counted.pass_harvest {i : ℕ} {inp : PassInputs} (hc : Counted J s) (h : Inv J s) (ht : t.isConsume = false)
    (hn : J.next s (.pass w t i inp) = some s') : Counted J s' := by
  obtain ⟨f, hat, hf, rfl⟩ := h.next_harvest ht hn
  have htake : ∀ k, (s.flight.take (w, t) i).total (pending k) +
      (if isCandidate f.wire.md = true ∧ f.phase = k then 1 else 0) = s.flight.total (pending k) := by
    intro k
    have hold := Queues.total_take (p := pending k) hat
    rw [pending_harvest hf.place] at hold
    simpa only [Bool.and_eq_true, decide_eq_true_eq] using hold
  unfold Job.harvestOutcome
  by_cases h7 : t = .HARVEST7
  · subst h7
    simp only [ne_eq, not_true_eq_false, if_false]
    by_cases hcand : isCandidate f.wire.md = true
    · have hb : (J.harvestedMd (Cells.of (s.regs (pipeOf f.port)) J.slot) f).firstLastFlag = Flag.LAST ∧
          (J.harvestedMd (Cells.of (s.regs (pipeOf f.port)) J.slot) f).mapResult = 0 :=
        isCandidate_iff.mp hcand
      rw [if_pos hb]
      refine { candidates := hc.candidates, whereabouts := fun k => ?_ }
      have hwhere := hc.whereabouts k
      have htk := htake k
      simp only [State.land, List.countP_append, List.countP_singleton, Response.isBroadcast, Bool.true_and,
        decide_eq_true_eq]
      simp only [hcand, true_and] at htk
      omega
    · have hnb : ¬ ((J.harvestedMd (Cells.of (s.regs (pipeOf f.port)) J.slot) f).firstLastFlag = Flag.LAST ∧
          (J.harvestedMd (Cells.of (s.regs (pipeOf f.port)) J.slot) f).mapResult = 0) :=
        fun hb => hcand (isCandidate_iff.mpr hb)
      rw [if_neg hnb]
      have htk : ∀ k, (s.flight.take (w, .HARVEST7) i).total (pending k) = s.flight.total (pending k) := by
        intro k
        have := htake k
        rwa [if_neg fun hk => hcand hk.1, Nat.add_zero] at this
      split
      · refine { candidates := hc.candidates, whereabouts := fun k => ?_ }
        have hwhere := hc.whereabouts k
        have := htk k
        simp only [State.land, List.countP_append, List.countP_singleton, Response.isBroadcast, Bool.false_and,
          Bool.false_eq_true, if_false]
        omega
      · exact hc.congr rfl rfl rfl rfl htk
  · rw [if_pos h7]
    have hfw := hf.forward h7 (Cells.of (s.regs (pipeOf f.port)) J.slot)
      (harvestHalf t ((Cells.of (s.regs (pipeOf f.port)) J.slot).values (J.set f.phase)) :: f.wire.payload)
    simp only [State.land, ht, Bool.false_and, Bool.false_eq_true, if_false]
    exact hc.congr rfl rfl rfl rfl fun k => (total_put_harvest hfw.place k).trans (htake k)

theorem Counted.step {e : Event n} (hc : Counted J s) (h : Inv J s) (hn : J.next s e = some s') : Counted J s' := by
  cases e with
  | send w =>
    simp only [Session.next] at hn
    split at hn
    · simp only [Option.some.injEq] at hn
      subst hn
      exact hc.put_launch ..
    · cases hn
  | resend w =>
    simp only [Session.next] at hn
    split at hn
    · simp only [Option.some.injEq] at hn
      subst hn
      exact hc.put_launch ..
    · cases hn
  | pass w t i inp =>
    cases ht : t.isConsume with
    | true =>
      obtain ⟨p, rfl⟩ := exists_of_isConsume ht
      exact hc.pass_consume h hn
    | false => exact hc.pass_harvest h ht hn
  | lose w t i => exact hc.lose hn
  | accept w i =>
    simp only [Session.next, Option.bind_eq_some_iff] at hn
    obtain ⟨r, -, hn⟩ := hn
    split at hn
    · simp only [Option.some.injEq] at hn
      subst hn
      exact hc.congr rfl rfl rfl rfl fun _ => rfl
    · cases hn
  | other p ig =>
    simp only [Session.next] at hn
    split at hn
    · cases hn
    · simp only [Option.some.injEq] at hn
      subst hn
      exact hc.congr rfl rfl rfl rfl fun _ => rfl

theorem Counted.of_reachable (h : J.machine.Reachable s) : Counted J s :=
  h.invariant_of (fun _ hr => Inv.of_reachable hr) (fun _ hs => hs ▸ Counted.init J)
    fun _ _ _ hI hc hn => hc.step hI hn

/-- A phase is broadcast at most once. -/
theorem Counted.broadcast_le_one (h : Counted J s) (k : ℕ) : s.responses.countP (Response.isBroadcast k) ≤ 1 := by
  have h1 := h.candidates k
  have h2 := h.whereabouts k
  split at h1 <;> omega

/-! ## Original packets -/

/-- The original packet of phase `k` is on its way to the consume pass of pipe `p` or of one before it. -/
def OnItsWay (s : State n) (w : Fin n) (k : ℕ) (p : Fin 4) : Prop :=
  ∃ q ≤ p, ∃ g ∈ s.flight (w, consumeType q), g.phase = k ∧ g.copy = 0

/-- The original packet of phase `k` was lost on that way. -/
def LostBefore (s : State n) (w : Fin n) (k : ℕ) (p : Fin 4) : Prop :=
  ∃ q ≤ p, ∃ g, (w, g) ∈ s.lost ∧ g.wire.md.packetType = consumeType q ∧ g.phase = k ∧ g.copy = 0

def Originals (J : Job n) (s : State n) : Prop :=
  ∀ w k, k < s.sent w → ∀ p : Fin 4, p.val < J.pipes → k < s.seen p w ∨ OnItsWay s w k p ∨ LostBefore s w k p

theorem land_seen {o : Outcome} : (s.land w t f o).seen = s.seen := by
  cases o <;> rfl

theorem land_lost {o : Outcome} : (s.land w t f o).lost = s.lost := by
  cases o <;> rfl

theorem land_sent {o : Outcome} : (s.land w t f o).sent = s.sent := by
  cases o <;> rfl

theorem mem_land {o : Outcome} {key : Fin n × PacketType} (h : g ∈ s.flight key) :
    g ∈ (s.land w t f o).flight key := by
  cases o with
  | gone => exact h
  | response b wire => exact h
  | recirculate port wire => exact Queues.mem_put.mpr (Or.inl h)

/-- What takes no original off its way keeps them where they are. -/
theorem Originals.mono (h : Originals J s) (hsent : ∀ v k, k < s'.sent v → k < s.sent v)
    (hseen : ∀ q v, s.seen q v ≤ s'.seen q v)
    (hflight : ∀ v q, ∀ g ∈ s.flight (v, consumeType q), g ∈ s'.flight (v, consumeType q))
    (hlost : ∀ x ∈ s.lost, x ∈ s'.lost) : Originals J s' := by
  intro v k hk p hp
  rcases h v k (hsent v k hk) p hp with hin | ⟨q, hq, g, hg, hgk⟩ | ⟨q, hq, g, hg, hgk⟩
  · exact Or.inl (lt_of_lt_of_le hin (hseen p v))
  · exact Or.inr (Or.inl ⟨q, hq, g, hflight v q g hg, hgk⟩)
  · exact Or.inr (Or.inr ⟨q, hq, g, hlost _ hg, hgk⟩)

theorem Originals.send (h : Originals J s) (hn : J.next s (.send w) = some s') : Originals J s' := by
  simp only [Session.next] at hn
  split at hn
  · simp only [Option.some.injEq] at hn
    subst hn
    intro v k hk p hp
    by_cases hnew : v = w ∧ k = s.sent w
    · obtain ⟨rfl, rfl⟩ := hnew
      refine Or.inr (Or.inl ⟨0, Fin.zero_le p, J.launch v (s.sent v) 0, ?_, rfl, rfl⟩)
      exact Queues.mem_put.mpr (Or.inr ⟨rfl, rfl⟩)
    · have hold : k < s.sent v := by
        by_cases hv : v = w
        · subst hv
          simp only [Function.update_self] at hk
          have hne : k ≠ s.sent v := fun hc => hnew ⟨rfl, hc⟩
          omega
        · simp only [Function.update_of_ne hv] at hk
          exact hk
      rcases h v k hold p hp with hin | ⟨q, hq, g, hg, hgk⟩ | hlost
      · exact Or.inl hin
      · exact Or.inr (Or.inl ⟨q, hq, g, Queues.mem_put.mpr (Or.inl hg), hgk⟩)
      · exact Or.inr (Or.inr hlost)
  · cases hn

theorem Originals.lose {i : ℕ} (h : Originals J s) (hI : Inv J s) (hn : J.next s (.lose w t i) = some s') :
    Originals J s' := by
  simp only [Session.next, Option.map_eq_some_iff] at hn
  obtain ⟨f, hat, rfl⟩ := hn
  intro v k hk p hp
  rcases h v k hk p hp with hin | ⟨q, hq, g, hg, hgk⟩ | ⟨q, hq, g, hg, hgk⟩
  · exact Or.inl hin
  · rcases Queues.mem_take_or (w, t) i hg with hstay | ⟨hkey, htaken⟩
    · exact Or.inr (Or.inl ⟨q, hq, g, hstay, hgk⟩)
    · simp only [Prod.mk.injEq] at hkey
      obtain ⟨rfl, rfl⟩ := hkey
      rw [hat, Option.some.injEq] at htaken
      subst htaken
      exact Or.inr (Or.inr ⟨q, hq, f, List.mem_cons_self .., (hI.consume v q f hg).place.type, hgk⟩)
  · exact Or.inr (Or.inr ⟨q, hq, g, List.mem_cons_of_mem _ hg, hgk⟩)

theorem Originals.pass_consume {i : ℕ} {inp : PassInputs} (h : Originals J s) (hI : Inv J s)
    (hn : J.next s (.pass w (consumeType p) i inp) = some s') : Originals J s' := by
  obtain ⟨f, regs', md, d1, -, hhead, hf, hread, -, -, rfl⟩ := hI.next_consume hn
  intro v k hk q hq
  rw [land_sent] at hk
  rcases h v k hk q hq with hin | ⟨q', hq', g, hg, hgk⟩ | hlost
  · refine Or.inl ?_
    rw [land_seen]
    exact lt_of_lt_of_le hin (hf.le_takeOff regs' q v)
  · rcases Queues.mem_take_or (w, consumeType p) 0 hg with hstay | ⟨hkey, htaken⟩
    · exact Or.inr (Or.inl ⟨q', hq', g, mem_land hstay, hgk⟩)
    · simp only [Prod.mk.injEq] at hkey
      obtain ⟨rfl, hqp⟩ := hkey
      obtain rfl := consumeType_injective hqp
      rw [hhead, Option.some.injEq] at htaken
      subst htaken
      obtain ⟨rfl, hcopy⟩ := hgk
      by_cases hpq : q' = q
      · subst hpq
        refine Or.inl ?_
        rw [land_seen, hf.takeOff_seen, if_pos ⟨rfl, rfl⟩]
        exact Nat.lt_succ_self _
      · -- the original is new in this pipe, so it goes on to the next one
        have hlt : q'.val < q.val := Fin.lt_def.mp (lt_of_le_of_ne hq' hpq)
        have hfirst : s.seen q' v = f.phase := by
          have h1 := hf.new (Or.inr hcopy) q' (le_refl q')
          rcases (hI.arrives hf).worker with h2 | h2 <;> omega
        have hmap := hread.map.mpr hfirst
        have hnext : q' + 1 ≤ q := by
          refine Fin.le_def.mpr ?_
          rw [Fin.val_add]
          show (q'.val + 1) % 4 ≤ q.val
          omega
        refine Or.inr (Or.inl ⟨q' + 1, hnext, { f.after v (consumeType q') (s.seen q') with
          port := loopPort (q' + 1) (J.id v)
          wire := ⟨{ md with packetType := consumeType (q' + 1) }, f.wire.rdmaAddr,
            J.slicesFrom v f.phase (2 * q' + 2)⟩ }, ?_, rfl, hcopy⟩)
        unfold Job.consumeOutcome
        rw [if_pos (by omega), if_neg fun hc => hc.2 (Or.inl hmap)]
        exact Queues.mem_put.mpr (Or.inr ⟨rfl, rfl⟩)
  · refine Or.inr (Or.inr ?_)
    unfold LostBefore
    rw [land_lost]
    exact hlost

theorem Originals.step {e : Event n} (h : Originals J s) (hI : Inv J s) (hn : J.next s e = some s') :
    Originals J s' := by
  cases e with
  | send w => exact h.send hn
  | resend w =>
    simp only [Session.next] at hn
    split at hn
    · simp only [Option.some.injEq] at hn
      subst hn
      exact h.mono (fun _ _ hk => hk) (fun _ _ => Nat.le_refl _)
        (fun _ _ _ hg => Queues.mem_put.mpr (Or.inl hg)) fun _ hx => hx
    · cases hn
  | pass w t i inp =>
    cases ht : t.isConsume with
    | true =>
      obtain ⟨p, rfl⟩ := exists_of_isConsume ht
      exact h.pass_consume hI hn
    | false =>
      obtain ⟨f, -, -, rfl⟩ := hI.next_harvest ht hn
      refine h.mono (fun v k hk => ?_) (fun q v => ?_) (fun v q g hg => mem_land ?_) fun x hx => ?_
      · rwa [land_sent] at hk
      · rw [land_seen]
      · have hkey : (v, consumeType q) ≠ (w, t) := by
          intro hkey
          simp only [Prod.mk.injEq] at hkey
          rw [← hkey.2, isConsume_consumeType] at ht
          cases ht
        show g ∈ s.flight.take (w, t) i (v, consumeType q)
        rwa [Queues.take_of_ne hkey]
      · rwa [land_lost]
  | lose w t i => exact h.lose hI hn
  | accept w i =>
    simp only [Session.next, Option.bind_eq_some_iff] at hn
    obtain ⟨r, -, hn⟩ := hn
    split at hn
    · simp only [Option.some.injEq] at hn
      subst hn
      exact h
    · cases hn
  | other p ig =>
    simp only [Session.next] at hn
    split at hn
    · cases hn
    · simp only [Option.some.injEq] at hn
      subst hn
      exact h

theorem Originals.of_reachable (h : J.machine.Reachable s) : Originals J s :=
  h.invariant_of (fun _ hr => Inv.of_reachable hr) (fun _ hs => hs ▸ fun _ _ hk => absurd hk (Nat.not_lt_zero _))
    fun _ _ _ hI ho hn => ho.step hI hn

end SwitchML.Aggregation
