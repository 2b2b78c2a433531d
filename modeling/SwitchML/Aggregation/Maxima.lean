/-
The exponents of 1024 byte packets.

`e0` is read in pipe 0, and the packet that is broadcast is chosen in pipe 3. It
carries the greatest `e0` if the packet with it was counted in pipe 0 before
(`CompletedByLatest`). `e1` is read in the last harvest pass, from cells that
are still held: until the broadcast candidate is answered or lost, its worker
gets no answer, as the answers to its other copies are behind (`MaximaOK`).
-/
import SwitchML.Aggregation.ExactlyOnce

namespace SwitchML.Aggregation

open P4 Tna Phases Controller

variable {n : ℕ} {J : Job n} {s s' : State n} {w : Fin n} {p : Fin 4} {t : PacketType} {f g : Flight n}

/-- One of the workers counted has the greatest `e0` of all. -/
def Job.HasGreatest (J : Job n) (k : ℕ) (counted : Finset (Fin n)) : Prop :=
  ∃ v ∈ counted, ∀ u, J.e0 u k ≤ J.e0 v k

instance (J : Job n) (k : ℕ) (counted : Finset (Fin n)) : Decidable (J.HasGreatest k counted) :=
  inferInstanceAs (Decidable (∃ v ∈ counted, ∀ u, J.e0 u k ≤ J.e0 v k))

/-- Packets of one worker keep their order in the harvest passes, too. -/
def KeepsOrder (_ : State n) : Event n → Prop
  | .pass _ _ i _ => i = 0
  | _ => True

instance (s : State n) : (e : Event n) → Decidable (KeepsOrder s e)
  | .pass _ _ i _ => inferInstanceAs (Decidable (i = 0))
  | .send _ | .resend _ | .lose _ _ _ | .accept _ _ | .other _ _ => isTrue trivial

/-- When a packet completes a phase in the last pipe, one with the greatest `e0`
had been counted in pipe 0 before it left. -/
def CompletedByLatest (J : Job n) (s : State n) : Event n → Prop
  | .pass w t _ _ => t = .CONSUME3 → ∀ f ∈ (s.flight (w, .CONSUME3))[0]?, s.seen 3 w = f.phase →
      Complete (visit (s.seen 3) w f.phase) f.phase → J.HasGreatest f.phase f.counted
  | _ => True

instance (J : Job n) (s : State n) : (e : Event n) → Decidable (CompletedByLatest J s e)
  | .pass w t _ _ => inferInstanceAs (Decidable (t = .CONSUME3 → ∀ f ∈ (s.flight (w, .CONSUME3))[0]?,
      s.seen 3 w = f.phase → Complete (visit (s.seen 3) w f.phase) f.phase → J.HasGreatest f.phase f.counted))
  | .send _ | .resend _ | .lose _ _ _ | .accept _ _ | .other _ _ => isTrue trivial

/-- The queues of a worker's packets on their way through harvest, the furthest one first. -/
def harvestLine (w : Fin n) : List (Fin n × PacketType) :=
  [(w, .HARVEST7), (w, .HARVEST6), (w, .HARVEST5), (w, .HARVEST4), (w, .HARVEST3), (w, .HARVEST2), (w, .HARVEST1)]

/-- A candidate has no packet of its phase in front that will be answered. -/
def Leads (a b : Flight n) : Prop :=
  isCandidate b.wire.md = true → Answers a.wire.md → a.phase ≠ b.phase

structure MaximaOK (J : Job n) (s : State n) : Prop where
  greatest : ∀ w t, t.isConsume = false → ∀ f ∈ s.flight (w, t), isCandidate f.wire.md = true →
    J.HasGreatest f.phase f.counted
  order : ∀ w, (s.flight.line (harvestLine w)).Pairwise Leads
  /-- while a candidate is on its way its worker has got no answer -/
  waiting : ∀ r ∈ s.responses, r.broadcast = false → ∀ t, t.isConsume = false → ∀ f ∈ s.flight (r.worker, t),
    isCandidate f.wire.md = true → f.phase ≠ r.phase
  broadcast : ∀ r ∈ s.responses, r.broadcast = true →
    IsGreatest (Set.range (J.e0 · r.phase)) r.wire.md.e0 ∧ IsGreatest (Set.range (J.e1 · r.phase)) r.wire.md.e1

theorem Job.HasGreatest.isGreatest {k : ℕ} {counted : Finset (Fin n)} {e : Exponent} (h : J.HasGreatest k counted)
    (he : IsGreatest ((J.e0 · k) '' counted) e) : IsGreatest (Set.range (J.e0 · k)) e := by
  obtain ⟨v, hv, hmax⟩ := h
  obtain ⟨⟨u, hu, rfl⟩, hub⟩ := he
  refine ⟨⟨u, rfl⟩, ?_⟩
  rintro _ ⟨x, rfl⟩
  exact (hmax x).trans (hub ⟨v, hv, rfl⟩)

theorem mem_harvestLine {key : Fin n × PacketType} (h : key ∈ harvestLine w) : key.1 = w ∧ key.2.isConsume = false := by
  simp only [harvestLine, List.mem_cons, List.not_mem_nil, or_false] at h
  rcases h with rfl | rfl | rfl | rfl | rfl | rfl | rfl <;> exact ⟨rfl, rfl⟩

theorem harvest_mem_line (h : isHarvest t = true) : (w, t) ∈ harvestLine w := by
  cases t <;> simp [isHarvest, harvestLine] at h ⊢

/-! ## Steps that leave the harvest passes alone -/

theorem MaximaOK.init (J : Job n) : MaximaOK J (State.init n) where
  greatest _ _ _ f hf := by cases hf
  order _ := List.Pairwise.nil
  waiting _ hr := by cases hr
  broadcast _ hr := by cases hr

theorem MaximaOK.congr (h : MaximaOK J s) (hresp : s'.responses = s.responses)
    (hflight : ∀ v t, t.isConsume = false → List.Sublist (s'.flight (v, t)) (s.flight (v, t))) : MaximaOK J s' where
  greatest v t ht f hf := h.greatest v t ht f ((hflight v t ht).subset hf)
  order v := by
    refine (h.order v).sublist (Queues.line_sublist fun key hkey => ?_)
    obtain ⟨hv, ht⟩ := mem_harvestLine hkey
    exact hflight key.1 key.2 ht
  waiting r hr hb t ht f hf := h.waiting r (hresp ▸ hr) hb t ht f ((hflight r.worker t ht).subset hf)
  broadcast r hr := h.broadcast r (hresp ▸ hr)

/-- What is put on its way to a consume pass is not in a harvest queue. -/
theorem put_consume_sublist {Q : Queues (Fin n × PacketType) (Flight n)} (ht : t.isConsume = false) (v : Fin n) :
    List.Sublist (Q.put (w, consumeType p) f (v, t)) (Q (v, t)) := by
  have hne : (v, t) ≠ (w, consumeType p) := by
    intro hkey
    simp only [Prod.mk.injEq] at hkey
    rw [hkey.2, isConsume_consumeType] at ht
    cases ht
  rw [Queues.put_of_ne hne]

/-! ## Into harvest -/

/-- Nothing of a phase has been or is going to be answered. -/
def Unanswered (s : State n) (k : ℕ) : Prop :=
  (∀ v t, t.isConsume = false → ∀ g ∈ s.flight (v, t), Answers g.wire.md → g.phase ≠ k) ∧
    ∀ r ∈ s.responses, r.phase ≠ k

/-- Nothing is answered before all pipes are complete. -/
theorem Inv.unanswered (h : Inv J s) {k : ℕ} (hk : ¬ AllComplete J s k) : Unanswered s k :=
  ⟨fun v t ht g hg hans heq => hk (heq ▸ (h.harvest v t ht g hg).complete hans),
    fun r hr heq => hk (heq ▸ (h.responses r hr).complete)⟩

/-- A packet enters harvest behind all packets of its worker there. -/
theorem MaximaOK.enter (h : MaximaOK J s) {cs : List ℕ}
    (hnew : isCandidate f.wire.md = true → J.HasGreatest f.phase f.counted ∧ Unanswered s f.phase) :
    MaximaOK J { s with flight := s.flight.put (w, .HARVEST1) f, candidates := cs } where
  greatest v t ht g hg hc := by
    rcases Queues.mem_put.mp hg with hg | ⟨-, rfl⟩
    · exact h.greatest v t ht g hg hc
    · exact (hnew hc).1
  order v := by
    by_cases hv : v = w
    · subst hv
      have hline : harvestLine v = [(v, .HARVEST7), (v, .HARVEST6), (v, .HARVEST5), (v, .HARVEST4), (v, .HARVEST3),
          (v, .HARVEST2)] ++ [(v, .HARVEST1)] := rfl
      rw [hline, Queues.line_put_last (by simp), List.pairwise_append]
      refine ⟨hline ▸ h.order v, List.pairwise_singleton _ _, fun a ha b hb hc hans => ?_⟩
      rw [List.mem_singleton.mp hb] at hc ⊢
      obtain ⟨key, hkey, ha⟩ := Queues.mem_line.mp ha
      obtain ⟨-, ht⟩ := mem_harvestLine (hline ▸ hkey)
      exact (hnew hc).2.1 key.1 key.2 ht a ha hans
    · have hline : (s.flight.put (w, .HARVEST1) f).line (harvestLine v) = s.flight.line (harvestLine v) := by
        refine Queues.line_congr fun key hkey => Queues.put_of_ne fun hk => hv ?_
        rw [← (mem_harvestLine hkey).1, hk]
      rw [hline]
      exact h.order v
  waiting r hr hb t ht g hg hc := by
    rcases Queues.mem_put.mp hg with hg | ⟨-, rfl⟩
    · exact h.waiting r hr hb t ht g hg hc
    · exact ((hnew hc).2.2 r hr).symm
  broadcast := h.broadcast

/-! ## Through harvest -/

theorem harvestLine_split (w : Fin n) (ht : isHarvest t = true) (h7 : t ≠ .HARVEST7) :
    ∃ pre post, harvestLine w = pre ++ (w, nextHarvest t) :: (w, t) :: post ∧
      (pre ++ (w, nextHarvest t) :: (w, t) :: post).Nodup := by
  cases t with
  | HARVEST1 => exact ⟨[(w, .HARVEST7), (w, .HARVEST6), (w, .HARVEST5), (w, .HARVEST4), (w, .HARVEST3)], [], rfl, by simp [nextHarvest]⟩
  | HARVEST2 => exact ⟨[(w, .HARVEST7), (w, .HARVEST6), (w, .HARVEST5), (w, .HARVEST4)], [(w, .HARVEST1)], rfl, by simp [nextHarvest]⟩
  | HARVEST3 => exact ⟨[(w, .HARVEST7), (w, .HARVEST6), (w, .HARVEST5)], [(w, .HARVEST2), (w, .HARVEST1)], rfl, by simp [nextHarvest]⟩
  | HARVEST4 => exact ⟨[(w, .HARVEST7), (w, .HARVEST6)], [(w, .HARVEST3), (w, .HARVEST2), (w, .HARVEST1)], rfl, by simp [nextHarvest]⟩
  | HARVEST5 =>
    exact ⟨[(w, .HARVEST7)], [(w, .HARVEST4), (w, .HARVEST3), (w, .HARVEST2), (w, .HARVEST1)], rfl, by simp [nextHarvest]⟩
  | HARVEST6 =>
    exact ⟨[], [(w, .HARVEST5), (w, .HARVEST4), (w, .HARVEST3), (w, .HARVEST2), (w, .HARVEST1)], rfl, by simp [nextHarvest]⟩
  | HARVEST7 => exact absurd rfl h7
  | _ => cases ht

/-- A packet that goes on to the next harvest pass keeps its place. -/
theorem MaximaOK.forward (h : MaximaOK J s) (ht : isHarvest t = true) (h7 : t ≠ .HARVEST7)
    (hhead : (s.flight (w, t))[0]? = some f) (hphase : g.phase = f.phase) (hcounted : g.counted = f.counted)
    (hcand : isCandidate g.wire.md = isCandidate f.wire.md) (hans : Answers g.wire.md ↔ Answers f.wire.md) {cs : List ℕ} :
    MaximaOK J { s with flight := (s.flight.take (w, t) 0).put (w, nextHarvest t) g, candidates := cs } := by
  have hf : f ∈ s.flight (w, t) := List.mem_of_getElem? hhead
  have hnot := not_isConsume_of_isHarvest ht
  refine { greatest := fun v t' ht' b hb hc => ?_, order := fun v => ?_, waiting := fun r hr hbr t' ht' b hb hc => ?_,
           broadcast := h.broadcast }
  · rcases Queues.mem_put.mp hb with hb | ⟨-, rfl⟩
    · exact h.greatest v t' ht' b (Queues.mem_of_mem_take hb) hc
    · rw [hphase, hcounted]
      exact h.greatest w t hnot f hf (hcand ▸ hc)
  · by_cases hv : v = w
    · subst hv
      obtain ⟨pre, post, hline, hnd⟩ := harvestLine_split v ht h7
      obtain ⟨l, r, hold, hnew, -⟩ := Queues.line_move (b := g) hnd hhead
      have horder := h.order v
      rw [hline, hold, List.pairwise_append, List.pairwise_cons] at horder
      obtain ⟨hpl, ⟨hfr, hpr⟩, hlr⟩ := horder
      rw [hline, hnew, List.pairwise_append, List.pairwise_cons]
      refine ⟨hpl, ⟨fun c hc hcc hca => ?_, hpr⟩, fun c hc b hb => ?_⟩
      · rw [hphase]
        exact hfr c hc hcc (hans.mp hca)
      · rcases List.mem_cons.mp hb with rfl | hb
        · intro hbc hca
          rw [hphase]
          exact hlr c hc f (List.mem_cons_self ..) (hcand ▸ hbc) hca
        · exact hlr c hc b (List.mem_cons_of_mem _ hb)
    · have hline : ((s.flight.take (w, t) 0).put (w, nextHarvest t) g).line (harvestLine v) =
          s.flight.line (harvestLine v) := by
        have hne : ∀ key ∈ harvestLine v, ∀ t, key ≠ (w, t) := fun key hkey t hk => hv (by
          rw [← (mem_harvestLine hkey).1, hk])
        exact Queues.line_congr fun key hkey => by
          rw [Queues.put_of_ne (hne key hkey _), Queues.take_of_ne (hne key hkey _)]
      rw [hline]
      exact h.order v
  · rcases Queues.mem_put.mp hb with hb | ⟨hkey, rfl⟩
    · exact h.waiting r hr hbr t' ht' b (Queues.mem_of_mem_take hb) hc
    · simp only [Prod.mk.injEq] at hkey
      rw [hphase]
      exact h.waiting r hr hbr t hnot f (hkey.1 ▸ hf) (hcand ▸ hc)

/-- As long as the candidate is on its way its worker has got no answer, so the cells are held. -/
theorem MaximaOK.stillHeld (h : MaximaOK J s) (hI : Inv J s) (hC : Counted J s) (ht : t.isConsume = false)
    (hf : f ∈ s.flight (w, t)) (hcand : isCandidate f.wire.md = true) : StillHeld s f.phase := by
  refine hI.stillHeld (w := w) (Nat.not_lt.mp fun hlt => ?_)
  obtain ⟨r, hr⟩ := hI.answered w f.phase hlt
  have hok := hI.accepted w f.phase r hr
  by_cases hb : r.broadcast = true
  · -- it was broadcast already, and a phase has one candidate
    have hpending : pending f.phase f = true := by
      rw [pending_harvest (hI.harvest w t ht f hf).place, hcand, decide_eq_true rfl]
      rfl
    have h1 := Queues.le_total (p := pending f.phase) hf hpending
    have h2 : 0 < s.responses.countP (Response.isBroadcast f.phase) :=
      List.countP_pos_iff.mpr ⟨r, hok.mem, by simp [Response.isBroadcast, hb, hok.phase]⟩
    have h3 := hC.whereabouts f.phase
    have h4 := hC.candidates f.phase
    split at h4 <;> omega
  · have hw : r.worker = w := hok.addressed.resolve_left hb
    have hbf : r.broadcast = false := by
      cases hrb : r.broadcast with
      | true => exact absurd hrb hb
      | false => rfl
    exact h.waiting r hok.mem hbf t ht f (hw ▸ hf) hcand hok.phase.symm

/-- The answer to the packet in front. -/
theorem MaximaOK.respond (h : MaximaOK J s) (hI : Inv J s) (hhead : (s.flight (w, .HARVEST7))[0]? = some f)
    {r : Response n} (hphase : r.phase = f.phase) (hworker : r.worker = w) (hans : Answers f.wire.md)
    (hbroadcast : r.broadcast = true →
      IsGreatest (Set.range (J.e0 · r.phase)) r.wire.md.e0 ∧ IsGreatest (Set.range (J.e1 · r.phase)) r.wire.md.e1) :
    MaximaOK J { s with flight := s.flight.take (w, .HARVEST7) 0, responses := s.responses ++ [r] } where
  greatest v t ht b hb := h.greatest v t ht b (Queues.mem_of_mem_take hb)
  order v := (h.order v).sublist (Queues.line_take_sublist _)
  waiting r' hr' hb t ht b hmem hc := by
    rcases List.mem_append.mp hr' with hr' | hr'
    · exact h.waiting r' hr' hb t ht b (Queues.mem_of_mem_take hmem) hc
    · rw [List.mem_singleton.mp hr'] at hmem ⊢
      rw [hworker] at hmem
      rw [hphase]
      have horder : (s.flight.line ([] ++ (w, .HARVEST7) :: [(w, .HARVEST6), (w, .HARVEST5), (w, .HARVEST4),
          (w, .HARVEST3), (w, .HARVEST2), (w, .HARVEST1)])).Pairwise Leads := h.order w
      obtain ⟨hown, hbehind⟩ := Queues.rel_of_head horder hhead
      have hharvest := (hI.harvest w t ht b (Queues.mem_of_mem_take hmem)).place.isHarvest
      by_cases ht7 : t = .HARVEST7
      · subst ht7
        have hmem : b ∈ s.flight.take (w, .HARVEST7) 0 (w, .HARVEST7) := hmem
        rw [Queues.take_self] at hmem
        exact (hown b hmem hc hans).symm
      · have hpost : (w, t) ∈ [(w, .HARVEST6), (w, .HARVEST5), (w, .HARVEST4), (w, .HARVEST3), (w, .HARVEST2),
            (w, PacketType.HARVEST1)] := by
          rcases List.mem_cons.mp (harvest_mem_line (w := w) hharvest) with heq | hin
          · simp only [Prod.mk.injEq] at heq
            exact absurd heq.2 ht7
          · exact hin
        exact (hbehind _ hpost b (Queues.mem_of_mem_take hmem) hc hans).symm
  broadcast r' hr' := by
    rcases List.mem_append.mp hr' with hr' | hr'
    · exact h.broadcast r' hr'
    · rw [List.mem_singleton.mp hr']
      exact hbroadcast

/-! ## Every step -/

theorem MaximaOK.pass_consume {i : ℕ} {inp : PassInputs} (h : MaximaOK J s) (hI : Inv J s)
    (h1024 : J.packetSize = .MTU_1024) (hn : J.next s (.pass w (consumeType p) i inp) = some s')
    (hlatest : CompletedByLatest J s (.pass w (consumeType p) i inp)) : MaximaOK J s' := by
  obtain ⟨f, regs', md, d1, -, hhead, hf, hread, hd1, -, rfl⟩ := hI.next_consume hn
  have hpipes : J.pipes = 4 := by
    unfold Session.pipes
    rw [h1024]
    rfl
  have hoff : MaximaOK J (s.takeOff w (consumeType p) 0 f regs') :=
    h.congr rfl fun v t _ => Queues.take_sublist _
  have hIoff := hI.takeOff_consume hf hhead hread
  unfold Job.consumeOutcome
  split
  · split
    · exact hoff
    · exact hoff.congr rfl fun v t ht => put_consume_sublist ht v
  · rename_i hp
    obtain rfl : p = 3 := Fin.ext (by have := p.isLt; rw [hpipes] at hp; show p.val = 3; omega)
    split
    · have hfirst : J.firstHarvest = .HARVEST1 := by
        unfold Job.firstHarvest
        rw [h1024]
        rfl
      rw [hfirst]
      refine hoff.enter fun hc => ?_
      obtain ⟨hflag, hmap⟩ := isCandidate_iff.mp hc
      have hseen := hread.map.mp hmap
      have hun : Unanswered s f.phase := hI.unanswered fun hall => by
        have := hall 3 (by rw [hpipes]; decide) w
        omega
      refine ⟨?_, fun v t ht g hg => hun.1 v t ht g (Queues.mem_of_mem_take hg), hun.2⟩
      have hgreatest := hlatest rfl f hhead hseen ((hread.last hseen).mp hflag)
      exact hgreatest
    · exact hoff

theorem MaximaOK.pass_harvest {inp : PassInputs} (h : MaximaOK J s) (hI : Inv J s) (hC : Counted J s)
    (hl : ∀ k, J.LastPhase k) (ht : t.isConsume = false) (hn : J.next s (.pass w t 0 inp) = some s') :
    MaximaOK J s' := by
  have hI' := hI.step hn
  obtain ⟨f, hhead, hf, rfl⟩ := hI.next_harvest ht hn
  have hmem := List.mem_of_getElem? hhead
  have hharvest := hf.place.isHarvest
  generalize Cells.of (s.regs (pipeOf f.port)) J.slot = c at hI' ⊢
  unfold Job.harvestOutcome at hI' ⊢
  by_cases h7 : t = .HARVEST7
  · subst h7
    simp only [ne_eq, not_true_eq_false, if_false] at hI' ⊢
    split
    · rename_i hb
      rw [if_pos hb] at hI'
      have hcand : isCandidate f.wire.md = true := isCandidate_iff.mpr hb
      have hresp := hI'.responses _ (List.mem_append_right _ (List.mem_singleton.mpr rfl))
      exact h.respond hI hhead rfl rfl (Or.inl hb.2) fun _ =>
        ⟨(h.greatest w .HARVEST7 ht f hmem hcand).isGreatest (hresp.e0 (hl _)),
          hresp.e1 (hl _) (h.stillHeld hI hC ht hmem hcand)⟩
    · split
      · rename_i hr
        exact h.respond hI hhead rfl rfl (Or.inr hr.1) fun hc => by cases hc
      · exact h.congr rfl fun v t _ => Queues.take_sublist _
  · rw [if_pos h7]
    simp only [State.land]
    refine h.forward hharvest h7 hhead ?_ ?_ ?_ ?_
    · rfl
    · rfl
    · rfl
    · exact Iff.rfl

theorem MaximaOK.step {e : Event n} (h : MaximaOK J s) (hI : Inv J s) (hC : Counted J s)
    (h1024 : J.packetSize = .MTU_1024) (hl : ∀ k, J.LastPhase k) (horder : KeepsOrder s e)
    (hlatest : CompletedByLatest J s e) (hn : J.next s e = some s') : MaximaOK J s' := by
  cases e with
  | send w =>
    simp only [Session.next] at hn
    split at hn
    · simp only [Option.some.injEq] at hn
      subst hn
      exact h.congr rfl fun v t ht => put_consume_sublist (p := 0) ht v
    · cases hn
  | resend w =>
    simp only [Session.next] at hn
    split at hn
    · simp only [Option.some.injEq] at hn
      subst hn
      exact h.congr rfl fun v t ht => put_consume_sublist (p := 0) ht v
    · cases hn
  | pass w t i inp =>
    obtain rfl : i = 0 := horder
    cases ht : t.isConsume with
    | true =>
      obtain ⟨p, rfl⟩ := exists_of_isConsume ht
      exact h.pass_consume hI h1024 hn hlatest
    | false => exact h.pass_harvest hI hC hl ht hn
  | lose w t i =>
    simp only [Session.next, Option.map_eq_some_iff] at hn
    obtain ⟨f, -, rfl⟩ := hn
    exact h.congr rfl fun v t _ => Queues.take_sublist _
  | accept w i =>
    simp only [Session.next, Option.bind_eq_some_iff] at hn
    obtain ⟨r, -, hn⟩ := hn
    split at hn
    · simp only [Option.some.injEq] at hn
      subst hn
      exact h.congr rfl fun _ _ _ => List.Sublist.refl _
    · cases hn
  | other p ig =>
    simp only [Session.next] at hn
    split at hn
    · cases hn
    · simp only [Option.some.injEq] at hn
      subst hn
      exact h.congr rfl fun _ _ _ => List.Sublist.refl _

theorem MaximaOK.of_reach (h1024 : J.packetSize = .MTU_1024) (hl : ∀ k, J.LastPhase k)
    (h : J.machine.Reach (fun s e => KeepsOrder s e ∧ CompletedByLatest J s e) s) : MaximaOK J s :=
  h.invariant_of (fun _ hr => And.intro (Inv.of_reachable hr.reachable) (Counted.of_reachable hr.reachable))
    (fun _ hs => hs ▸ MaximaOK.init J)
    fun _ _ _ hI hm hok hn => hm.step hI.1 hI.2 h1024 hl hok.1 hok.2 hn

/-- What a broadcast, and a response a worker accepts, has to carry. -/
def GreatestExponents (J : Job n) (k : ℕ) (r : Response n) : Prop :=
  IsGreatest (Set.range (J.e0 · k)) r.wire.md.e0 ∧ IsGreatest (Set.range (J.e1 · k)) r.wire.md.e1

/-- In runs that complete each phase by a packet that left pipe 0 after one with
the greatest `e0` was counted there, broadcasts and accepted responses carry the
greatest exponents of all workers. -/
theorem greatestExponents_1024 (J : Job n) (h1024 : J.packetSize = .MTU_1024) (hl : ∀ k, J.LastPhase k) {s : State n}
    (h : J.machine.Reach (fun s e => KeepsOrder s e ∧ CompletedByLatest J s e) s) :
    (∀ r ∈ s.responses, r.broadcast = true → GreatestExponents J r.phase r) ∧
      ∀ w k r, s.accepted w k = some r → GreatestExponents J k r := by
  have hI := Inv.of_reachable h.reachable
  have hm := MaximaOK.of_reach h1024 hl h
  refine ⟨hm.broadcast, fun w k r hr => ?_⟩
  have hok := hI.accepted w k r hr
  cases hb : r.broadcast with
  | true =>
    rw [← hok.phase]
    exact hm.broadcast r hok.mem hb
  | false =>
    refine ⟨?_, hok.e1 (hl k)⟩
    have hresp := hI.responses r hok.mem
    have he0 := hresp.e0 (hl _)
    rw [hresp.counted (Or.inr hb), Finset.coe_univ, Set.image_univ, hok.phase] at he0
    exact he0

/-! ## Two workers -/

/-- The harvest passes of a worker's packet. -/
def harvestRun (w : Fin n) (inp : PassInputs) : List (Event n) :=
  [.HARVEST1, .HARVEST2, .HARVEST3, .HARVEST4, .HARVEST5, .HARVEST6, .HARVEST7].map fun t => .pass w t 0 inp

/-- The packet with the smaller `e0` leaves pipe 0 first and completes pipe 3
last: it is broadcast without the greater one. -/
theorem greatestExponents_1024_overtaken :
    ¬ ∀ (n : ℕ) (J : Job n), J.packetSize = .MTU_1024 → (∀ k, J.LastPhase k) → ∀ s, J.machine.Reach KeepsOrder s →
      (∀ r ∈ s.responses, r.broadcast = true → GreatestExponents J r.phase r) ∧
        ∀ w k r, s.accepted w k = some r → GreatestExponents J k r := by
  intro h
  have hrun : ((Job.pair .MTU_1024 (Or.inr rfl)).machine.runWhile KeepsOrder (State.init 2)
      (pairConsumeRun PassInputs.quiet ++ harvestRun 0 PassInputs.quiet)).map (·.responses.map fun r =>
        (r.broadcast, r.phase, r.wire.md.e0)) = some [(true, 0, 3)] := by decide +kernel
  obtain ⟨s, hs, hresp⟩ := Option.map_eq_some_iff.mp hrun
  have hreach : (Job.pair .MTU_1024 (Or.inr rfl)).machine.Reach KeepsOrder s := Machine.Reach.runWhile (.init rfl) hs
  obtain ⟨r, hr⟩ : ∃ r, s.responses = [r] := by
    cases hs : s.responses with
    | nil => simp [hs] at hresp
    | cons r rest => cases rest with
      | nil => exact ⟨r, rfl⟩
      | cons _ _ => simp [hs] at hresp
  simp only [hr, List.map_cons, List.map_nil, List.cons.injEq, Prod.mk.injEq, and_true] at hresp
  obtain ⟨hb, hphase, he0⟩ := hresp
  have hbad := ((h 2 _ rfl (fun _ _ => rfl) s hreach).1 r (by rw [hr]; exact List.mem_singleton.mpr rfl) hb).1
  rw [he0] at hbad
  have hle : (5 : Exponent) ≤ 3 := hbad.2 ⟨(1 : Fin 2), rfl⟩
  exact absurd hle (by decide)

/-- The other way round it carries the greatest exponents. -/
theorem greatestExponents_1024_latest :
    ∃ s, (Job.pair .MTU_1024 (Or.inr rfl)).machine.runWhile
        (fun s e => KeepsOrder s e ∧ CompletedByLatest (Job.pair .MTU_1024 (Or.inr rfl)) s e) (State.init 2)
        ([.send 1, .send 0, .pass 1 .CONSUME0 0 PassInputs.quiet, .pass 0 .CONSUME0 0 PassInputs.quiet] ++
          (pairConsumeRun PassInputs.quiet).drop 4 ++ harvestRun 0 PassInputs.quiet) = some s ∧
      s.responses ≠ [] ∧ ∀ r ∈ s.responses, r.broadcast = true → GreatestExponents (Job.pair .MTU_1024 (Or.inr rfl)) r.phase r := by
  have hrun : ((Job.pair .MTU_1024 (Or.inr rfl)).machine.runWhile
      (fun s e => KeepsOrder s e ∧ CompletedByLatest (Job.pair .MTU_1024 (Or.inr rfl)) s e) (State.init 2)
      ([.send 1, .send 0, .pass 1 .CONSUME0 0 PassInputs.quiet, .pass 0 .CONSUME0 0 PassInputs.quiet] ++
        (pairConsumeRun PassInputs.quiet).drop 4 ++ harvestRun 0 PassInputs.quiet)).map
        (·.responses.length) = some 1 := by decide +kernel
  obtain ⟨s, hs, hlen⟩ := Option.map_eq_some_iff.mp hrun
  have hne : s.responses ≠ [] := by
    intro hnil
    rw [hnil] at hlen
    cases hlen
  exact ⟨s, hs, hne, (greatestExponents_1024 _ rfl (fun _ _ => rfl) (Machine.Reach.runWhile (.init rfl) hs)).1⟩

end SwitchML.Aggregation
