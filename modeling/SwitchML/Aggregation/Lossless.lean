/-
One slot without loss: every worker of a session sends its packet once, and all
that happens then is that packets make their passes, in any order, beside the
traffic of other slots.

A session completes the slot if on no such run a new packet is dropped or
stuck, and at the end of each there is one broadcast. It does exactly if the
entries of `next_step` support each worker's packets.
-/
import SwitchML.Aggregation.Counting

namespace SwitchML.Aggregation

open P4 Tna Phases Controller

variable {n : ℕ} {J : Job n} {S : Session n} {s s' : State n} {w : Fin n} {p : Fin 4} {t : PacketType} {f : Flight n}
  {inp : PassInputs} {regs : Regs}

/-! ## Runs without loss -/

/-- A worker sends once, and packets pass. -/
def OnlyPasses (s : State n) : Event n → Prop
  | .send w => s.sent w = 0
  | .pass .. => True
  | .other .. => True
  | _ => False

/-- All packets were sent, and none is on its way any more. -/
def Finished (s : State n) : Prop := (∀ w, s.sent w = 1) ∧ ∀ key, s.flight key = []

/-- The event is a pass in which `next_step` drops a packet its pipe has not
seen before: `drop` alone makes the type IGNORE. -/
def Session.DropsNovel (S : Session n) (s : State n) : Event n → Prop
  | .pass w t i inp => Session.mayPass t i inp = true ∧ ∃ f ig, (s.flight (w, t))[i]? = some f ∧ S.enter w inp f = some ig ∧
      (Ingress.process S.tables (s.regs (pipeOf f.port)) ig).2.md.packetType = .IGNORE ∧
      (Ingress.process S.tables (s.regs (pipeOf f.port)) ig).2.md.mapResult = 0
  | _ => False

structure Session.Completes (S : Session n) : Prop where
  keeps : ∀ s, S.machine.Reach OnlyPasses s → ∀ e, ¬ S.DropsNovel s e
  goesOn : ∀ s, S.machine.Reach OnlyPasses s → ∀ w t, s.flight (w, t) ≠ [] →
    ∃ inp, (S.next s (.pass w t 0 inp)).isSome
  broadcasts : ∀ s, S.machine.Reach OnlyPasses s → Finished s → s.responses.countP (Response.isBroadcast 0) = 1

/-- On such runs nothing is lost. -/
theorem lost_of_onlyPasses (h : S.machine.Reach OnlyPasses s) : s.lost = [] := by
  refine h.invariant (I := fun s => s.lost = []) (fun s hs => hs ▸ rfl) fun s e s' hI hok hn => ?_
  cases e with
  | send w =>
    simp only [Session.machine, Session.next] at hn
    split at hn
    · simp only [Option.some.injEq] at hn
      exact hn ▸ hI
    · cases hn
  | pass w t i inp =>
    simp only [Session.machine, Session.next] at hn
    split at hn
    · simp only [Option.bind_eq_some_iff, Option.map_eq_some_iff] at hn
      obtain ⟨f, -, ig, -, rfl⟩ := hn
      exact (congrArg (· = []) land_lost).mpr hI
    · cases hn
  | other p ig =>
    simp only [Session.machine, Session.next] at hn
    split at hn
    · cases hn
    · simp only [Option.some.injEq] at hn
      exact hn ▸ hI
  | resend w => exact hok.elim
  | lose w t i => exact hok.elim
  | accept w i => exact hok.elim

/-! ## What the selected step leaves of the metadata -/

variable {entries : List NextStepEntry} {ig : Ig}

theorem apply_packetType (h : ig.md.packetType.isSwitchML = true) :
    (NextStepSelector.apply entries ig).md.packetType = .IGNORE ↔ nextStep entries ig.md = .drop := by
  unfold NextStepSelector.apply
  cases nextStep entries ig.md with
  | drop => exact iff_of_true rfl rfl
  | finishConsume =>
    refine iff_of_false (fun hi => ?_) (by simp)
    have hi' : ig.md.packetType = .IGNORE := hi
    rw [hi'] at h
    cases h
  | _ => exact iff_of_false (fun hi => by cases hi) (by simp)

theorem apply_mapResult : (NextStepSelector.apply entries ig).md.mapResult = ig.md.mapResult := by
  unfold NextStepSelector.apply
  cases nextStep entries ig.md <;> rfl

/-! ## Supported sessions -/

/-- In a consume pass the entries drop no packet that is new. -/
theorem AtConsume.nextStep_ne_drop {md : SwitchmlMd} (h : AtConsume J w p f)
    (hfix : fixedMd md = fixedMd (J.packetMd w f.phase)) (ht : md.packetType = consumeType p) (hm : md.mapResult = 0) :
    nextStep J.tables.nextStep md ≠ .drop := by
  have hlt := h.lt
  have hle := J.pipes_le
  have hsize := packetSize_of_fixed hfix
  have htab : J.tables.nextStep = addDefaultEntries J.foldedPipe := rfl
  by_cases hp : p.val + 1 < J.pipes
  · obtain ⟨h1024, hfold, h16⟩ := J.folded_of_pipes (by omega) w
    rw [htab, hfold, nextStep_forward (by omega) (hsize.trans h1024) h16 (workerId_of_fixed hfix) ht,
      if_neg fun hc => hc.2 (Or.inl hm)]
    unfold forwardStep
    split <;> exact fun hc => by cases hc
  · by_cases h256 : J.packetSize = .MTU_256
    · obtain rfl : p = 0 := by
        unfold Session.pipes at hlt
        rw [if_pos h256] at hlt
        exact Fin.ext (by omega)
      rw [htab, nextStep_256_CONSUME0 (hsize.trans h256) ht, if_pos hm]
      split <;> exact fun hc => by cases hc
    · obtain ⟨h1024, hfold, -⟩ := (J.supported w).resolve_left h256
      obtain rfl : p = 3 := by
        unfold Session.pipes at hp
        rw [if_neg h256] at hp
        exact Fin.ext (by omega)
      rw [htab, hfold, nextStep_1024_CONSUME3 (hsize.trans h1024) ht, if_pos hm]
      split <;> exact fun hc => by cases hc

/-- Nor in a harvest pass, where a new packet is a broadcast candidate. -/
theorem AtHarvest.nextStep_ne_drop {md : SwitchmlMd} (h : AtHarvest J w t f)
    (hfix : fixedMd md = fixedMd (J.packetMd w f.phase)) (ht : md.packetType = t) (hm : md.mapResult = 0)
    (hl : md.firstLastFlag = Flag.LAST) : nextStep J.tables.nextStep md ≠ .drop := by
  have hsize := packetSize_of_fixed hfix
  have htab : J.tables.nextStep = addDefaultEntries J.foldedPipe := rfl
  by_cases h7 : t = .HARVEST7
  · have hsizes : md.packetSize = .MTU_256 ∨ md.packetSize = .MTU_1024 := by
      rw [hsize]
      exact (J.supported w).imp id fun hs => hs.1
    rw [htab, nextStep_HARVEST7 hsizes (ht.trans h7), if_pos ⟨hl, hm⟩]
    exact fun hc => by cases hc
  · obtain ⟨h1024, hfold, -⟩ := (J.supported w).resolve_left fun h256 => h7 (h.size h256)
    rw [htab, hfold, nextStep_1024_harvest (hsize.trans h1024)
      (by rw [ht]; exact isSwitchML_of_isHarvest h.isHarvest)
      (by rw [ht]; exact not_isConsume_of_isHarvest h.isHarvest) (by rw [ht]; exact h7)]
    unfold harvestStep
    split <;> exact fun hc => by cases hc

theorem Inv.not_dropsNovel (h : Inv J s) (e : Event n) : ¬ J.DropsNovel s e := by
  cases e with
  | pass w t i inp =>
    rintro ⟨hmay, f, ig, hat, hig, hignore, hmap⟩
    cases ht : t.isConsume with
    | true =>
      obtain ⟨p, rfl⟩ := exists_of_isConsume ht
      have hf := (h.consume w p f (List.mem_of_getElem? hat)).place
      rw [hf.enter, Option.some.injEq] at hig
      subst hig
      simp only [Session.mayPass, isConsume_consumeType, Bool.not_true, Bool.false_or, Bool.and_eq_true,
        decide_eq_true_eq, consumeType_eq_CONSUME0, Bool.not_eq_true', Bool.and_eq_false_imp,
        decide_eq_false_iff_not] at hmay
      rw [hf.process hmay.2] at hignore hmap
      have htype : (AtConsume.consumed J (Cells.of (s.regs (pipeOf f.port)) J.slot) w p inp f).md.packetType =
          consumeType p := hf.entered_type
      have hsml := isSwitchML_of_isConsume (isConsume_consumeType p)
      rw [← htype] at hsml
      have hdrop := (apply_packetType hsml).mp hignore
      have hzero : (AtConsume.consumed J (Cells.of (s.regs (pipeOf f.port)) J.slot) w p inp f).md.mapResult = 0 :=
        apply_mapResult.symm.trans hmap
      revert hdrop
      exact hf.nextStep_ne_drop hf.entered_fixed htype hzero
    | false =>
      have hok := h.harvest w t ht f (List.mem_of_getElem? hat)
      have hf := hok.place
      rw [hf.enter, Option.some.injEq] at hig
      subst hig
      rw [hf.process] at hignore hmap
      have htype : (harvested J (Cells.of (s.regs (pipeOf f.port)) J.slot) t inp f).md.packetType = t := hf.type
      have hsml := isSwitchML_of_isHarvest hf.isHarvest
      rw [← htype] at hsml
      have hzero : f.wire.md.mapResult = 0 := apply_mapResult.symm.trans hmap
      exact hf.nextStep_ne_drop hf.fixed htype hzero (hok.last hzero).1 ((apply_packetType hsml).mp hignore)
  | _ => exact id

theorem Inv.goesOn (h : Inv J s) (hne : s.flight (w, t) ≠ []) : ∃ inp, (J.next s (.pass w t 0 inp)).isSome := by
  refine ⟨PassInputs.quiet, ?_⟩
  obtain ⟨f, rest, hflight⟩ := List.exists_cons_of_ne_nil hne
  have hat : (s.flight (w, t))[0]? = some f := by rw [hflight]; rfl
  have hmay : Session.mayPass t 0 PassInputs.quiet = true := by cases t <;> rfl
  have henter : (J.enter w PassInputs.quiet f).isSome := by
    cases ht : t.isConsume with
    | true =>
      obtain ⟨p, rfl⟩ := exists_of_isConsume ht
      rw [(h.consume w p f (List.mem_of_getElem? hat)).place.enter]
      rfl
    | false =>
      rw [(h.harvest w t ht f (List.mem_of_getElem? hat)).place.enter]
      rfl
  simp only [Session.next, if_pos hmay, hat, Option.bind_some, Option.isSome_map, henter]

theorem Job.broadcasts (J : Job n) (h : J.machine.Reach OnlyPasses s) (hfin : Finished s) :
    s.responses.countP (Response.isBroadcast 0) = 1 := by
  have hreach := h.reachable
  have hlost := lost_of_onlyPasses h
  have hcounted := Counted.of_reachable hreach
  have hcomplete : Complete (s.seen J.lastPipe) 0 := by
    intro w
    have hsent : 0 < s.sent w := by
      rw [hfin.1 w]
      exact Nat.one_pos
    have hpipe : J.lastPipe.val < J.pipes := Nat.sub_lt J.pipes_pos Nat.one_pos
    rcases Originals.of_reachable hreach w 0 hsent J.lastPipe hpipe with hseen | ⟨q, -, g, hg, -⟩ | ⟨q, -, g, hg, -⟩
    · exact hseen
    · rw [hfin.2] at hg
      cases hg
    · rw [hlost] at hg
      cases hg
  have hwhere := hcounted.whereabouts 0
  have htotal : s.flight.total (pending 0) = 0 := by
    unfold Queues.total
    exact Finset.sum_eq_zero fun key _ => by rw [hfin.2 key]; rfl
  rw [htotal, hlost, hcounted.candidates 0, if_pos hcomplete] at hwhere
  exact hwhere

theorem Job.completes (J : Job n) : J.Completes where
  keeps _ h e := (Inv.of_reachable h.reachable).not_dropsNovel e
  goesOn _ h _ _ hne := (Inv.of_reachable h.reachable).goesOn hne
  broadcasts _ h hfin := J.broadcasts h hfin

/-! ## Other sessions -/

namespace Session

/-- A worker's packet in its first pass. -/
def launched (S : Session n) (w : Fin n) (k : ℕ) (inp : PassInputs) : Ig :=
  { Ig.ofWire inp.portMetadata (S.port w) (S.packet w k) with
    hdr := { d0 := some (S.contribution w k 0), d1 := some (S.contribution w k 1) }
    workerBitmap := S.bit w
    md := { S.packetMd w k with simulateEgressDrop := inp.simulateEgressDrop }
    rest := ((List.range (2 * S.pipes)).map (S.contribution w k)).drop 2 }

theorem enter_launch (S : Session n) (w : Fin n) (k copy : ℕ) (inp : PassInputs) :
    S.enter w inp (S.launch w k copy) = some (S.launched w k inp) := by
  have hpay : (S.packet w k).payload = S.contribution w k 0 :: S.contribution w k 1 ::
      ((List.range (2 * S.pipes)).map (S.contribution w k)).drop 2 := by
    unfold packet pipes
    split <;> rfl
  have hparse : parseRecirculate inp.u0 inp.u1 (Ig.ofWire inp.portMetadata (S.port w) (S.packet w k)) =
      some { Ig.ofWire inp.portMetadata (S.port w) (S.packet w k) with
        hdr := { d0 := some (S.contribution w k 0), d1 := some (S.contribution w k 1) }
        rest := ((List.range (2 * S.pipes)).map (S.contribution w k)).drop 2 } := by
    show parseConsume _ = _
    unfold parseConsume Ig.ofWire
    simp only [hpay]
  unfold enter launch
  rw [hparse]
  rfl

theorem launched_consumes (S : Session n) (w : Fin n) :
    Consumes (S.launched w 0 PassInputs.quiet) (S.contribution w 0 0) (S.contribution w 0 1) where
  isConsume := rfl
  dropCtl := rfl
  notSimulated _ := by
    show (0 : DropProbability) ≠ 0xffff
    decide
  d0 := rfl
  d1 := rfl

/-- The entries drop the packets they do not support. -/
theorem nextStep_unsupported {md : SwitchmlMd} (hnot : ¬ Supported S.packetSize S.foldedPipe (S.id w))
    (hsize : md.packetSize = S.packetSize) (hid : md.workerId = BitVec.ofNat 16 (S.id w))
    (ht : md.packetType = .CONSUME0) : nextStep S.tables.nextStep md = .drop := by
  have htab : S.tables.nextStep = addDefaultEntries S.foldedPipe := rfl
  rw [htab]
  cases hs : S.packetSize with
  | MTU_128 => exact nextStep_128 (hsize.trans hs)
  | MTU_256 => exact absurd (Or.inl hs) hnot
  | MTU_512 => exact nextStep_512 (hsize.trans hs)
  | MTU_1024 =>
    cases hfold : S.foldedPipe with
    | false => exact nextStep_1024_unfolded (hsize.trans hs) (by rw [ht]; exact fun hc => by cases hc)
    | true =>
      refine nextStep_1024_CONSUME0_unlisted (hsize.trans hs) ht ?_
      have h16 : ¬ (S.id w).val < 16 := fun h16 => hnot (Or.inr ⟨hs, hfold, h16⟩)
      rw [hid, BitVec.toNat_ofNat]
      omega

/-- A worker the entries do not support sends, and its packet is dropped in the first pass. -/
theorem not_completes (hnot : ¬ Supported S.packetSize S.foldedPipe (S.id w)) : ¬ S.Completes := by
  intro hc
  have hsend : S.next (State.init n) (.send w) = some
      { State.init n with
        sent := Function.update (State.init n).sent w 1
        copies := Function.update (State.init n).copies w 1
        flight := (State.init n).flight.put (w, .CONSUME0) (S.launch w 0 0) } := by
    simp [next, State.init]
  have hok : OnlyPasses (State.init n) (.send w) := rfl
  have hreach : S.machine.Reach OnlyPasses _ := .step (.init rfl) hok hsend
  refine hc.keeps _ hreach (.pass w .CONSUME0 0 PassInputs.quiet)
    ⟨by rfl, S.launch w 0 0, S.launched w 0 PassInputs.quiet, ?_, S.enter_launch w 0 0 _, ?_, ?_⟩
  · simp [State.init, Queues.put]
  · rw [process_consume (S.launched_consumes w)]
    refine (apply_packetType ?_).mpr ?_
    · rfl
    · exact S.nextStep_unsupported hnot rfl rfl rfl
  · rw [process_consume (S.launched_consumes w), apply_mapResult]
    simp [State.init, Cells.readMd, Cells.zero]

theorem completes_iff (S : Session n) :
    S.Completes ↔ 0 < n ∧ ∀ w, Supported S.packetSize S.foldedPipe (S.id w) := by
  constructor
  · intro hc
    refine ⟨Nat.pos_of_ne_zero ?_, fun w => by_contra fun hnot => S.not_completes hnot hc⟩
    rintro rfl
    have hone := hc.broadcasts (State.init 0) (.init rfl) ⟨fun w => w.elim0, fun _ => rfl⟩
    cases hone
  · rintro ⟨hpos, hsup⟩
    exact Job.completes { S with pos := hpos, supported := hsup }

end Session

end SwitchML.Aggregation
