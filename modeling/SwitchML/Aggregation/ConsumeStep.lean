/-
Consume passes keep the invariant.

The packet is the head of its queue, so all that is behind it was sent later;
its pipe's cells and the flags it reads are told by `PipeOK.consume`. It goes on
to the next pipe, from the last pipe into harvest, or no further.
-/
import SwitchML.Aggregation.Invariant

namespace SwitchML.Aggregation

open P4 Tna Phases Controller

variable {n : ℕ} {J : Job n} {s s' : State n} {w : Fin n} {p : Fin 4} {t : PacketType} {f : Flight n}

/-! ## What the pass reads -/

/-- What the consume pass of a packet reads, and the cells it leaves. -/
structure ConsumeRead (J : Job n) (seen : Fin n → ℕ) (p : Fin 4) (w : Fin n) (f : Flight n) (c' : Cells)
    (md : SwitchmlMd) : Prop where
  fixed : fixedMd md = fixedMd (J.packetMd w f.phase)
  map : md.mapResult = 0 ↔ seen w = f.phase
  last : seen w = f.phase → (md.firstLastFlag = Flag.LAST ↔ Complete (visit seen w f.phase) f.phase)
  first : seen w = f.phase + 1 → (md.firstLastFlag = Flag.FIRST ↔ Complete seen f.phase)
  pipe : PipeOK J p (visit seen w f.phase) c'
  e0 : J.LastPhase f.phase →
    if p = 0 then IsGreatest ((J.e0 · f.phase) '' through (visit seen w f.phase) f.phase) md.e0
    else md.e0 = f.wire.md.e0
  e1 : md.e1 = J.e1 w f.phase

theorem AtConsume.read (hf : AtConsume J w p f) (inp : PassInputs) {seen : Fin n → ℕ} {c : Cells}
    (hpipe : PipeOK J p seen c) (ha : Arrives seen w f.phase) :
    ConsumeRead J seen p w f
      (c.consume (J.bit w) (J.entered w p inp f).md (J.contribution w f.phase (2 * p))
        (J.contribution w f.phase (2 * p + 1)))
      (J.consumedMd c w p f (J.entered w p inp f).md) := by
  have hidx : (J.entered w p inp f).md.poolIndex = J.poolIndex f.phase := hf.entered_poolIndex
  have hfix : fixedMd (J.entered w p inp f).md = fixedMd (J.packetMd w f.phase) := hf.entered_fixed
  have hn := numWorkers_of_fixed hfix
  have hlast := lastPacket_of_fixed hfix
  have htype : (J.entered w p inp f).md.packetType = consumeType p := hf.entered_type
  have he0 : (J.entered w p inp f).md.e0 = f.wire.md.e0 := by
    unfold Job.entered
    split <;> rfl
  have he1 : (J.entered w p inp f).md.e1 = J.e1 w f.phase := by
    rw [← hf.e1]
    unfold Job.entered
    split <;> rfl
  have hpipe' := hpipe.consume ha hidx hn rfl rfl fun hp =>
    ⟨by rw [htype, hp]; rfl, hlast, he0.trans (hf.e0 hp), he1⟩
  exact
    { fixed := hfix
      map := hpipe.mapResult_eq_zero ha hidx
      last := hpipe.flag_last ha hidx hn
      first := hpipe.flag_first ha hidx hn
      pipe := hpipe'
      e0 := by
        intro hl
        rw [J.consumedMd_e0, hlast, htype, hidx, J.setBit_poolIndex]
        by_cases hp : p = 0
        · rw [if_pos hp, if_pos ⟨hl w, consumeType_eq_CONSUME0.mpr hp⟩]
          have hcur := hpipe'.current (w := w) (k := f.phase) ⟨Or.inr visit_self, fun v => ?_⟩
          · refine ((hpipe'.exponents hp) f.phase hcur ⟨w, ?_⟩ hl).1
            rw [mem_through, visit_self]
            omega
          · exact (ha.others v).trans (le_visit (by rcases ha.worker with h | h <;> omega) v)
        · rw [if_neg hp, if_neg fun hc => hp (consumeType_eq_CONSUME0.mp hc.2)]
          exact he0
      e1 := he1 }

/-- A consume pass that is made is made by the head of its queue, and goes by
what it reads. -/
theorem Inv.next_consume {i : ℕ} {inp : PassInputs} (h : Inv J s)
    (hn : J.next s (.pass w (consumeType p) i inp) = some s') :
    ∃ f regs' md d1, i = 0 ∧ (s.flight (w, consumeType p))[0]? = some f ∧ ConsumeOK J s w p f ∧
      ConsumeRead J (s.seen p) p w f (Cells.of regs' J.slot) md ∧
      (Complete (visit (s.seen p) w f.phase) f.phase → d1 = J.sum Finset.univ f.phase (2 * p + 1)) ∧
      (s.seen p w = f.phase + 1 → (Cells.of regs' J.slot).values = (Cells.of (s.regs p) J.slot).values) ∧
      s' = (s.takeOff w (consumeType p) 0 f regs').land w (consumeType p)
        (f.after w (consumeType p) (s.seen p)) (J.consumeOutcome w p f md d1) := by
  simp only [Session.next] at hn
  split at hn
  · rename_i hmay
    simp only [Session.mayPass, isConsume_consumeType, Bool.not_true, Bool.false_or, Bool.and_eq_true,
      decide_eq_true_eq, consumeType_eq_CONSUME0, Bool.not_eq_true', Bool.and_eq_false_imp,
      decide_eq_false_iff_not] at hmay
    obtain ⟨rfl, hsim⟩ := hmay
    simp only [Option.bind_eq_some_iff, Option.map_eq_some_iff] at hn
    obtain ⟨f, hhead, ig, hig, rfl⟩ := hn
    have hok := h.consume w p f (List.mem_of_getElem? hhead)
    rw [hok.place.enter, Option.some.injEq] at hig
    subst hig
    have hread := hok.place.read inp (h.pipe p) (h.arrives hok)
    refine ⟨f, (Ingress.process J.tables (s.regs p) (J.entered w p inp f)).1,
      J.consumedMd (Cells.of (s.regs p) J.slot) w p f (J.entered w p inp f).md,
      fun i => (((Cells.of (s.regs p) J.slot).consume (J.bit w) (J.entered w p inp f).md
        (J.contribution w f.phase (2 * p)) (J.contribution w f.phase (2 * p + 1))).values (J.set f.phase) i).second,
      rfl, hhead, hok, ?_, ?_, ?_, ?_⟩
    · rw [hok.place.process hsim, Cells.of_store_self]
      exact hread
    · intro hcomplete
      have harrive := h.arrives hok
      have hcur := hread.pipe.current (w := w) (k := f.phase) ⟨Or.inr visit_self, fun v =>
        (harrive.others v).trans (le_visit (by rcases harrive.worker with h | h <;> omega) v)⟩
      funext i
      have hval := hread.pipe.values i f.phase hcur ⟨w, by rw [mem_through, visit_self]; omega⟩
      rw [through_eq_univ.mpr hcomplete] at hval
      exact hval.2
    · intro hrepeated
      rw [hok.place.process hsim, Cells.of_store_self]
      exact (h.pipe p).consume_values_repeated (h.arrives hok) hok.place.entered_poolIndex hrepeated
    · unfold State.passed
      rw [hok.place.pipeOf_port, hok.place.outcome_process hsim]
  · cases hn

/-! ## The first half -/

/-- The history and the queues after the first half of a consume pass. -/
theorem ConsumeOK.takeOff_seen (hf : ConsumeOK J s w p f) (regs' : Regs) (q : Fin 4) (v : Fin n) :
    (s.takeOff w (consumeType p) 0 f regs').seen q v =
      if q = p ∧ v = w then f.phase + 1 else s.seen q v := by
  unfold State.takeOff
  simp only [isConsume_consumeType, if_true, hf.place.pipeOf_port]
  by_cases hq : q = p
  · subst hq
    rw [Function.update_self]
    by_cases hv : v = w
    · rw [hv, visit_self, if_pos ⟨rfl, rfl⟩]
    · rw [visit_of_ne hv, if_neg fun hc => hv hc.2]
  · rw [Function.update_of_ne hq, if_neg fun hc => hq hc.1]

theorem ConsumeOK.le_takeOff (hf : ConsumeOK J s w p f) (regs' : Regs) (q : Fin 4) (v : Fin n) :
    s.seen q v ≤ (s.takeOff w (consumeType p) 0 f regs').seen q v := by
  rw [hf.takeOff_seen]
  split
  · rename_i hc
    rw [hc.1, hc.2]
    exact hf.ahead p (le_refl p)
  · exact Nat.le_refl _

theorem consumeLine_split (w : Fin n) (p : Fin 4) :
    ∃ pre post, consumeLine w = pre ++ (w, consumeType p) :: post ∧ ∀ q < p, (w, consumeType q) ∈ post := by
  match p with
  | 0 => exact ⟨[(w, .CONSUME3), (w, .CONSUME2), (w, .CONSUME1)], [], rfl, fun q hq => absurd hq (Fin.not_lt_zero q)⟩
  | 1 =>
    refine ⟨[(w, .CONSUME3), (w, .CONSUME2)], [(w, .CONSUME0)], rfl, fun q hq => ?_⟩
    obtain rfl : q = 0 := by omega
    simp [consumeType]
  | 2 =>
    refine ⟨[(w, .CONSUME3)], [(w, .CONSUME1), (w, .CONSUME0)], rfl, fun q hq => ?_⟩
    obtain rfl | rfl : q = 0 ∨ q = 1 := by omega
    all_goals simp [consumeType]
  | 3 =>
    refine ⟨[], [(w, .CONSUME2), (w, .CONSUME1), (w, .CONSUME0)], rfl, fun q hq => ?_⟩
    obtain rfl | rfl | rfl : q = 0 ∨ q = 1 ∨ q = 2 := by omega
    all_goals simp [consumeType]

/-- The packet a consume pass takes was sent before all that are still on their way to that pass. -/
theorem Inv.before_of_head (h : Inv J s) (hhead : (s.flight (w, consumeType p))[0]? = some f) {q : Fin 4}
    {g : Flight n} (hq : q ≤ p) (hg : g ∈ s.flight.take (w, consumeType p) 0 (w, consumeType q)) : Before f g := by
  obtain ⟨pre, post, hline, hpost⟩ := consumeLine_split w p
  have horder := h.order w
  rw [hline] at horder
  obtain ⟨hown, hbehind⟩ := Queues.rel_of_head horder hhead
  by_cases hqp : q = p
  · subst hqp
    rw [Queues.take_self] at hg
    exact hown g hg
  · exact hbehind _ (hpost q (lt_of_le_of_ne hq hqp)) g (Queues.mem_of_mem_take hg)

theorem Inv.takeOff_consume (h : Inv J s) (hf : ConsumeOK J s w p f) {regs' : Regs} {md : SwitchmlMd}
    (hhead : (s.flight (w, consumeType p))[0]? = some f)
    (hread : ConsumeRead J (s.seen p) p w f (Cells.of regs' J.slot) md) :
    Inv J (s.takeOff w (consumeType p) 0 f regs') := by
  have hseen := hf.takeOff_seen regs'
  have hle := hf.le_takeOff regs'
  exact
    { h with
      pipe := fun q => by
        unfold State.takeOff
        simp only [isConsume_consumeType, if_true, hf.place.pipeOf_port]
        by_cases hq : q = p
        · subst hq
          rw [Function.update_self, Function.update_self]
          exact hread.pipe
        · rw [Function.update_of_ne hq, Function.update_of_ne hq]
          exact h.pipe q
      consume := fun v q g hg => by
        have hok := h.consume v q g (Queues.mem_of_mem_take hg)
        refine
          { hok with
            passed := fun q' hq' => lt_of_lt_of_le (hok.passed q' hq') (hle q' v)
            ahead := fun q' hq' => ?_
            new := fun hnew q' hq' => ?_ }
        · rw [hseen]
          split
          · rename_i hc
            obtain ⟨rfl, rfl⟩ := hc
            rcases h.before_of_head hhead hq' hg with hb | hb <;> omega
          · exact hok.ahead q' hq'
        · rw [hseen]
          split
          · rename_i hc
            obtain ⟨rfl, rfl⟩ := hc
            rcases h.before_of_head hhead hq' hg with hb | ⟨-, hcopy, hnovel⟩
            · omega
            · rcases hnew with hn | hn
              · rw [hnovel] at hn
                cases hn
              · omega
          · exact hok.new hnew q' hq'
      harvest := fun v t ht g hg => (h.harvest v t ht g (Queues.mem_of_mem_take hg)).mono hle (Nat.le_refl _)
      order := fun v => (h.order v).sublist (Queues.line_take_sublist _)
      seen_le := fun q v => by
        rw [hseen]
        split
        · rename_i hc
          rw [hc.2]
          exact hf.sent
        · exact h.seen_le q v
      seen_anti := fun q q' hqq v => by
        have hanti := h.seen_anti q q' hqq v
        rw [hseen q v, hseen q' v]
        by_cases hv : v = w
        · subst hv
          by_cases hq : q = p
          · have hp := hf.ahead q' (hq ▸ hqq)
            rw [if_pos (show q = p ∧ v = v from ⟨hq, rfl⟩)]
            split <;> omega
          · rw [if_neg (show ¬ (q = p ∧ v = v) from fun hc => hq hc.1)]
            split
            · rename_i hc
              exact hf.passed q (lt_of_le_of_ne (hc.1 ▸ hqq) hq)
            · exact hanti
        · rw [if_neg fun hc => hv hc.2, if_neg fun hc => hv hc.2]
          exact hanti
      accepted := fun v k r hr => (h.accepted v k r hr).mono (h.accepted v k r hr).mem (Nat.le_refl _)
      responses := fun r hr => (h.responses r hr).mono hle }

/-! ## The second half -/

/-- A packet is put on its way to another pass. -/
theorem Inv.put {g : Flight n} {cs : List ℕ} (h : Inv J s)
    (hconsume : ∀ q, t = consumeType q → ConsumeOK J s w q g) (hharvest : t.isConsume = false → HarvestOK J s w t g)
    (horder : ∀ v, ((s.flight.put (w, t) g).line (consumeLine v)).Pairwise Before) :
    Inv J { s with flight := s.flight.put (w, t) g, candidates := cs } :=
  { h with
    consume := fun v q f hf => by
      rcases Queues.mem_put.mp hf with hf | ⟨hkey, rfl⟩
      · have hok := h.consume v q f hf
        exact hok.congr rfl hok.sent hok.copies
      · simp only [Prod.mk.injEq] at hkey
        obtain ⟨rfl, hkey⟩ := hkey
        have hok := hconsume q hkey.symm
        exact hok.congr rfl hok.sent hok.copies
    harvest := fun v t' ht f hf => by
      rcases Queues.mem_put.mp hf with hf | ⟨hkey, rfl⟩
      · exact (h.harvest v t' ht f hf).mono (fun _ _ => Nat.le_refl _) (Nat.le_refl _)
      · simp only [Prod.mk.injEq] at hkey
        obtain ⟨rfl, rfl⟩ := hkey
        exact (hharvest ht).mono (fun _ _ => Nat.le_refl _) (Nat.le_refl _)
    order := horder
    accepted := fun v k r hr => (h.accepted v k r hr).mono (h.accepted v k r hr).mem (Nat.le_refl _)
    responses := fun r hr => (h.responses r hr).mono fun _ _ => Nat.le_refl _ }

/-- The consume passes' lines have no packets on their way to harvest. -/
theorem line_put_harvest {g : Flight n} {Q : Queues (Fin n × PacketType) (Flight n)} (ht : t.isConsume = false)
    (v : Fin n) : (Q.put (w, t) g).line (consumeLine v) = Q.line (consumeLine v) := by
  refine Queues.line_congr fun key hkey => Queues.put_of_ne ?_
  rintro rfl
  simp only [consumeLine, List.mem_cons, Prod.mk.injEq, List.not_mem_nil, or_false] at hkey
  rcases hkey with h | h | h | h <;> (rw [h.2] at ht; cases ht)

/-- A packet that goes on to the next pipe keeps its place in the line. -/
theorem Inv.order_forward (h : Inv J s) (hf : ConsumeOK J s w p f)
    (hhead : (s.flight (w, consumeType p))[0]? = some f) (hp : p.val < 3) (port : PortId) (wire : Wire)
    (seen : Fin n → ℕ) (hseen : seen = s.seen p) (v : Fin n) :
    (((s.flight.take (w, consumeType p) 0).put (w, consumeType (p + 1))
      { f.after w (consumeType p) seen with port := port, wire := wire }).line (consumeLine v)).Pairwise Before := by
  by_cases hv : v = w
  · subst hv
    obtain ⟨pre, post, hline, hpre, hnd⟩ : ∃ pre post, consumeLine v =
        pre ++ (v, consumeType (p + 1)) :: (v, consumeType p) :: post ∧
        (∀ k ∈ pre ++ [(v, consumeType (p + 1))], ∃ q, p < q ∧ k = (v, consumeType q)) ∧
        (pre ++ (v, consumeType (p + 1)) :: (v, consumeType p) :: post).Nodup := by
      match p, hp with
      | 0, _ =>
        refine ⟨[(v, .CONSUME3), (v, .CONSUME2)], [], rfl, fun k hk => ?_, by simp [consumeType]⟩
        simp only [List.mem_append, List.mem_cons, List.not_mem_nil, or_false] at hk
        rcases hk with (rfl | rfl) | rfl
        exacts [⟨3, by decide, rfl⟩, ⟨2, by decide, rfl⟩, ⟨1, by decide, rfl⟩]
      | 1, _ =>
        refine ⟨[(v, .CONSUME3)], [(v, .CONSUME0)], rfl, fun k hk => ?_, by simp [consumeType]⟩
        simp only [List.mem_append, List.mem_cons, List.not_mem_nil, or_false] at hk
        rcases hk with rfl | rfl
        exacts [⟨3, by decide, rfl⟩, ⟨2, by decide, rfl⟩]
      | 2, _ =>
        refine ⟨[], [(v, .CONSUME1), (v, .CONSUME0)], rfl, fun k hk => ?_, by simp [consumeType]⟩
        simp only [List.nil_append, List.mem_cons, List.not_mem_nil, or_false] at hk
        exact ⟨3, by decide, hk⟩
    obtain ⟨l, r, hold, hnew, hl⟩ := Queues.line_move (b := { f.after v (consumeType p) seen with
      port := port, wire := wire }) hnd hhead
    have horder := h.order v
    rw [hline, hold, List.pairwise_append, List.pairwise_cons] at horder
    obtain ⟨hpl, ⟨hfr, hpr⟩, hlr⟩ := horder
    rw [hline, hnew, List.pairwise_append, List.pairwise_cons]
    refine ⟨hpl, ⟨fun c hc => hfr c hc, hpr⟩, fun c hc b hb => ?_⟩
    rcases List.mem_cons.mp hb with rfl | hb
    · rcases hlr c hc f (List.mem_cons_self ..) with hlt | ⟨heq, hcopy, hnovel⟩
      · exact Or.inl hlt
      · -- pipe `p` has seen `c`, so it does not take `f` for new
        obtain ⟨k, hk, hmem⟩ := hl c hc
        obtain ⟨q, hq, rfl⟩ := hpre k hk
        have hpass := (h.consume v q c hmem).passed p hq
        refine Or.inr ⟨heq, hcopy, ?_⟩
        have hne : ¬ seen v = f.phase := by rw [hseen]; omega
        simp only [Flight.after, hnovel, hne, decide_false, Bool.and_false, Bool.or_false]
    · exact hlr c hc b (List.mem_cons_of_mem _ hb)
  · have hline : ((s.flight.take (w, consumeType p) 0).put (w, consumeType (p + 1))
        { f.after w (consumeType p) seen with port := port, wire := wire }).line (consumeLine v) =
        s.flight.line (consumeLine v) := by
      have hne : ∀ q, ∀ key ∈ consumeLine v, key ≠ (w, consumeType q) := by
        rintro q key hkey rfl
        simp only [consumeLine, List.mem_cons, Prod.mk.injEq, List.not_mem_nil, or_false] at hkey
        rcases hkey with hk | hk | hk | hk <;> exact hv hk.1.symm
      exact Queues.line_congr fun key hkey => by
        rw [Queues.put_of_ne (hne _ key hkey), Queues.take_of_ne (hne _ key hkey)]
    rw [hline]
    exact h.order v

/-- The history of a packet after the consume pass of pipe `p`. -/
theorem after_counted (seen : Fin n → ℕ) :
    (f.after w (consumeType p) seen).counted =
      if p = 0 then through (visit seen w f.phase) f.phase else f.counted := by
  unfold Flight.after
  by_cases hp : p = 0
  · rw [if_pos hp, if_pos (consumeType_eq_CONSUME0.mpr hp)]
  · rw [if_neg hp, if_neg fun hc => hp (consumeType_eq_CONSUME0.mp hc)]

theorem after_novel (seen : Fin n → ℕ) :
    (f.after w (consumeType p) seen).novel = true ↔ f.novel = true ∨ seen w = f.phase := by
  unfold Flight.after
  simp

theorem ConsumeRead.after_e0 {c' : Cells} {md : SwitchmlMd} (hf : ConsumeOK J s w p f)
    (hread : ConsumeRead J (s.seen p) p w f c' md) (hl : J.LastPhase f.phase) :
    IsGreatest ((J.e0 · f.phase) '' (f.after w (consumeType p) (s.seen p)).counted) md.e0 := by
  have he0 := hread.e0 hl
  rw [after_counted]
  by_cases hp : p = 0
  · rw [if_pos hp] at he0 ⊢
    exact he0
  · rw [if_neg hp] at he0 ⊢
    rw [he0]
    exact hf.e0 (Fin.pos_of_ne_zero hp) hl

/-- What goes on to the next pipe. -/
theorem ConsumeOK.forward (h : Inv J s) (hf : ConsumeOK J s w p f) {regs' : Regs} {md : SwitchmlMd}
    (hread : ConsumeRead J (s.seen p) p w f (Cells.of regs' J.slot) md) (hp : p.val + 1 < J.pipes)
    (hgo : p = 0 → md.mapResult = 0 ∨ md.firstLastFlag = Flag.FIRST) :
    ConsumeOK J (s.takeOff w (consumeType p) 0 f regs') w (p + 1)
      { f.after w (consumeType p) (s.seen p) with
        port := loopPort (p + 1) (J.id w)
        wire := ⟨{ md with packetType := consumeType (p + 1) }, f.wire.rdmaAddr, J.slicesFrom w f.phase (2 * p + 2)⟩ } := by
  have hle := J.pipes_le
  have hval : (p + 1).val = p.val + 1 := by
    rw [Fin.val_add]
    show (p.val + 1) % 4 = p.val + 1
    omega
  have hne : p + 1 ≠ 0 := by
    intro h0
    rw [h0] at hval
    cases hval
  have hseen := hf.takeOff_seen regs'
  -- beyond this pipe nothing has been seen yet
  have hbeyond : ∀ q, p + 1 ≤ q → (s.takeOff w (consumeType p) 0 f regs').seen q w = s.seen q w := by
    intro q hq
    rw [hseen, if_neg]
    rintro ⟨rfl, -⟩
    have := Fin.le_def.mp hq
    omega
  have hpq : ∀ q, p + 1 ≤ q → p ≤ q := by
    intro q hq
    have := Fin.le_def.mp hq
    exact Fin.le_def.mpr (by omega)
  exact
    { place :=
        { type := rfl
          fixed := hread.fixed
          payload := by
            show J.slicesFrom w f.phase (2 * p + 2) = J.slicesFrom w f.phase (2 * (p + 1).val)
            rw [hval]
            rfl
          lt := by omega
          port := by rw [if_neg hne]
          e0 := fun h0 => absurd h0 hne
          e1 := hread.e1 }
      sent := hf.sent
      copies := hf.copies
      passed := fun q hq => by
        rw [hseen]
        split
        · exact Nat.lt_succ_self _
        · rename_i hc
          have hqp : q ≠ p := fun h => hc ⟨h, rfl⟩
          refine hf.passed q (Fin.lt_def.mpr ?_)
          have h1 := Fin.lt_def.mp hq
          have h2 : q.val ≠ p.val := fun h => hqp (Fin.ext h)
          omega
      ahead := fun q hq => by
        rw [hbeyond q hq]
        exact hf.ahead q (hpq q hq)
      new := fun hnew q hq => by
        rw [hbeyond q hq]
        rcases hnew with hnovel | hcopy
        · rcases (after_novel _).mp hnovel with hnovel | hfirst
          · exact hf.new (Or.inl hnovel) q (hpq q hq)
          · exact (h.seen_anti p q (hpq q hq) w).trans (le_of_eq hfirst)
        · exact hf.new (Or.inr hcopy) q (hpq q hq)
      counted := fun _ hnovel => by
        have hold : ¬ (f.novel = true ∨ s.seen p w = f.phase) := by
          rw [← after_novel (w := w) (p := p)]
          exact Bool.eq_false_iff.mp hnovel
        rw [not_or] at hold
        show (f.after w (consumeType p) (s.seen p)).counted = Finset.univ
        rw [after_counted]
        by_cases hp0 : p = 0
        · -- a repeated packet left pipe 0 because the phase was complete there
          rw [if_pos hp0]
          have harrive := (h.arrives hf).worker.resolve_left hold.2
          have hflag := (hgo hp0).resolve_left fun hm => hold.2 (hread.map.mp hm)
          rw [visit_eq_self harrive]
          exact through_eq_univ.mpr ((hread.first harrive).mp hflag)
        · rw [if_neg hp0]
          exact hf.counted (Fin.pos_of_ne_zero hp0) (Bool.eq_false_iff.mpr hold.1)
      e0 := fun _ hl => by
        have he0 := hread.after_e0 hf hl
        exact he0 }

/-- What goes from the last pipe into harvest. -/
theorem ConsumeOK.toHarvest (h : Inv J s) (hf : ConsumeOK J s w p f) {regs' : Regs} {md : SwitchmlMd} {d1 : DataH}
    (hread : ConsumeRead J (s.seen p) p w f (Cells.of regs' J.slot) md) (hp : ¬ p.val + 1 < J.pipes)
    (hd1 : Complete (visit (s.seen p) w f.phase) f.phase → d1 = J.sum Finset.univ f.phase (2 * p + 1))
    (hgo : md.firstLastFlag = Flag.LAST ∨ md.mapResult ≠ 0 ∧ md.firstLastFlag = Flag.FIRST) :
    HarvestOK J (s.takeOff w (consumeType p) 0 f regs') w J.firstHarvest
      { f.after w (consumeType p) (s.seen p) with
        port := harvestPort J.firstHarvest
        wire := ⟨{ md with packetType := J.firstHarvest }, f.wire.rdmaAddr, [d1]⟩ } := by
  have hlt := hf.place.lt
  have hseen := hf.takeOff_seen regs'
  have harrive := (h.arrives hf).worker
  have hlast : md.mapResult = 0 → md.firstLastFlag = Flag.LAST := fun hm => hgo.resolve_right fun hc => hc.1 hm
  have hcomplete : Answers md → Complete (visit (s.seen p) w f.phase) f.phase := by
    rintro (hm | hflag)
    · exact (hread.last (hread.map.mp hm)).mp (hlast hm)
    · have hm : md.mapResult ≠ 0 := by
        intro hm
        rw [hlast hm] at hflag
        exact Flag.last_ne_first hflag
      have hw := harrive.resolve_left fun hw => hm (hread.map.mpr hw)
      rw [visit_eq_self hw]
      exact (hread.first hw).mp hflag
  exact
    { place :=
        { isHarvest := by
            unfold Job.firstHarvest
            split <;> rfl
          size := fun h256 => if_pos h256
          type := rfl
          fixed := hread.fixed
          port := rfl }
      sent := hf.sent
      last := fun hm => ⟨hlast hm, (after_novel _).mpr (Or.inr (hread.map.mp hm))⟩
      complete := fun ha q hq v => by
        -- the last pipe has seen the phase of every worker, so the pipes before it have
        have hv := hcomplete ha v
        have hqp : q ≤ p := Fin.le_def.mpr (by omega)
        have hanti := h.seen_anti q p hqp v
        show f.phase < (s.takeOff w (consumeType p) 0 f regs').seen q v
        rw [hseen]
        by_cases hvw : v = w
        · subst hvw
          by_cases hq : q = p
          · rw [if_pos ⟨hq, rfl⟩]
            exact Nat.lt_succ_self _
          · rw [if_neg fun hc => hq hc.1]
            exact hf.passed q (lt_of_le_of_ne hqp hq)
        · rw [if_neg fun hc => hvw hc.2]
          rw [visit_of_ne hvw] at hv
          omega
      counted := fun ha hcase => by
        show (f.after w (consumeType p) (s.seen p)).counted = Finset.univ
        rw [after_counted]
        by_cases hp0 : p = 0
        · rw [if_pos hp0]
          exact through_eq_univ.mpr (hcomplete ha)
        · rw [if_neg hp0]
          have hm : md.mapResult ≠ 0 := by
            rcases hcase with h256 | hm
            · unfold Session.pipes at hlt
              rw [if_pos h256] at hlt
              exact absurd (Fin.ext (by omega : p.val = (0 : Fin 4).val)) hp0
            · exact hm
          -- a repeated packet was repeated in all pipes
          have hw := harrive.resolve_left fun hw => hm (hread.map.mpr hw)
          refine hf.counted (Fin.pos_of_ne_zero hp0) (Bool.eq_false_iff.mpr fun hnovel => ?_)
          have := hf.new (Or.inl hnovel) p (le_refl p)
          omega
      e0 := fun hl => by
        have he0 := hread.after_e0 hf hl
        exact he0
      payload := fun h256 ha => by
        have hp0 : p.val = 0 := by
          unfold Session.pipes at hlt
          rw [if_pos h256] at hlt
          omega
        show [d1] = [J.sum Finset.univ f.phase 1]
        rw [hd1 (hcomplete ha), hp0] }

theorem Inv.pass_consume {i : ℕ} {inp : PassInputs} (h : Inv J s)
    (hn : J.next s (.pass w (consumeType p) i inp) = some s') : Inv J s' := by
  obtain ⟨f, regs', md, d1, -, hhead, hf, hread, hd1, -, rfl⟩ := h.next_consume hn
  have hoff := h.takeOff_consume hf hhead hread
  have hle := J.pipes_le
  unfold Job.consumeOutcome
  split
  · rename_i hp
    split
    · exact hoff
    · rename_i hgo
      have hgo' : p = 0 → md.mapResult = 0 ∨ md.firstLastFlag = Flag.FIRST :=
        fun hp0 => Decidable.not_not.mp fun hc => hgo ⟨hp0, hc⟩
      have hfw := hf.forward h hread hp hgo'
      refine hoff.put (fun q hq => ?_) (fun hc => ?_) fun v => ?_
      · rw [← consumeType_injective hq]
        exact hfw
      · rw [isConsume_consumeType] at hc
        cases hc
      · exact h.order_forward hf hhead (by omega) _ _ _ rfl v
  · rename_i hp
    split
    · rename_i hgo
      have hharvest := hf.toHarvest h hread hp hd1 hgo
      have hnot := not_isConsume_of_isHarvest hharvest.place.isHarvest
      refine hoff.put (fun q hq => ?_) (fun _ => hharvest) fun v => ?_
      · have hq' : J.firstHarvest = consumeType q := hq
        rw [hq', isConsume_consumeType] at hnot
        cases hnot
      · rw [line_put_harvest hnot]
        exact hoff.order v
    · exact hoff

end SwitchML.Aggregation
