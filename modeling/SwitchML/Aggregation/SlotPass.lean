/-
A packet in a pass, whatever data it carries: where it goes is told by the packet
without the data, and so is what becomes of the slot (`Blanks.pass`).
-/
import SwitchML.Aggregation.Blank
import SwitchML.Aggregation.HarvestStep

namespace SwitchML.Aggregation

open P4 Tna Phases Controller

variable {n : ℕ} {J : Job n} {s s' s₀ : State n} {w : Fin n} {t : PacketType} {f : Flight n} {inp : PassInputs}
  {ig : Ig} {regs regs₀ : Regs} {d0 d1 : DataH}

/-- What happens to the packets in the switch, and on the way to it. -/
def Event.ofSwitch : Event n → Bool
  | .pass .. | .lose .. | .other .. => true
  | _ => false

/-! ## Where a packet goes -/

/-- A packet on its way to a pass. -/
structure AtPass (J : Job n) (w : Fin n) (t : PacketType) (f : Flight n) : Prop where
  consume : ∀ p, t = consumeType p → AtConsume J w p f
  harvest : t.isConsume = false → AtHarvest J w t f

theorem Inv.atPass (h : Inv J s) (hf : f ∈ s.flight (w, t)) : AtPass J w t f where
  consume p ht := by
    subst ht
    exact (h.consume w p f hf).place
  harvest ht := (h.harvest w t ht f hf).place

theorem AtPass.of_consume {p : Fin 4} (h : AtConsume J w p f) : AtPass J w (consumeType p) f where
  consume q hq := consumeType_injective hq ▸ h
  harvest ht := by
    rw [isConsume_consumeType] at ht
    cases ht

theorem AtPass.of_harvest (h : AtHarvest J w t f) : AtPass J w t f where
  consume q hq := by
    have hnot := not_isConsume_of_isHarvest h.isHarvest
    rw [hq, isConsume_consumeType] at hnot
    cases hnot
  harvest _ := h

/-- It is the packet's phase, port and contents that count. -/
theorem AtPass.congr {g : Flight n} (h : AtPass J w t f) (hphase : g.phase = f.phase) (hport : g.port = f.port)
    (hwire : g.wire = f.wire) : AtPass J w t g := by
  cases f
  cases g
  dsimp only at hphase hport hwire
  subst hphase hport hwire
  refine ⟨fun p ht => ?_, fun ht => ?_⟩
  · have hplace := h.consume p ht
    exact ⟨hplace.type, hplace.fixed, hplace.payload, hplace.lt, hplace.port, hplace.e0, hplace.e1⟩
  · have hplace := h.harvest ht
    exact ⟨hplace.isHarvest, hplace.size, hplace.type, hplace.fixed, hplace.port⟩

/-- The packet that the pass of pipe `p` sends on to the next pipe. -/
theorem AtConsume.forward {p : Fin 4} (h : AtConsume J w p f) (hp : p.val + 1 < J.pipes) (c : Cells) (inp : PassInputs) :
    AtConsume J w (p + 1)
      { f with
        port := loopPort (p + 1) (J.id w)
        wire := ⟨{ J.consumedMd c w p f (J.entered w p inp f).md with packetType := consumeType (p + 1) },
          f.wire.rdmaAddr, J.slicesFrom w f.phase (2 * p + 2)⟩ } := by
  have hle := J.pipes_le
  have hval : (p + 1).val = p.val + 1 := by
    rw [Fin.val_add]
    show (p.val + 1) % 4 = p.val + 1
    omega
  have hne : p + 1 ≠ 0 := by
    intro h0
    rw [h0] at hval
    cases hval
  exact
    { type := rfl
      fixed := h.entered_fixed
      payload := by
        show J.slicesFrom w f.phase (2 * p + 2) = J.slicesFrom w f.phase (2 * (p + 1).val)
        rw [hval]
        rfl
      lt := by omega
      port := by rw [if_neg hne]
      e0 := fun h0 => absurd h0 hne
      e1 := by
        rw [← h.e1]
        show (J.entered w p inp f).md.e1 = _
        unfold Job.entered
        split <;> rfl }

/-- The one that the last pipe sends into harvest. -/
theorem AtConsume.toHarvest {p : Fin 4} (h : AtConsume J w p f) (c : Cells) (inp : PassInputs) (d1 : DataH) :
    AtHarvest J w J.firstHarvest
      { f with
        port := harvestPort J.firstHarvest
        wire := ⟨{ J.consumedMd c w p f (J.entered w p inp f).md with packetType := J.firstHarvest },
          f.wire.rdmaAddr, [d1]⟩ } where
  isHarvest := by
    unfold Job.firstHarvest
    split <;> rfl
  size h256 := if_pos h256
  type := rfl
  fixed := h.entered_fixed
  port := rfl

theorem AtHarvest.forward (h : AtHarvest J w t f) (h7 : t ≠ .HARVEST7) (c : Cells) (payload : List DataH) :
    AtHarvest J w (nextHarvest t)
      { f with
        port := harvestPort (nextHarvest t)
        wire := ⟨{ J.harvestedMd c f with packetType := nextHarvest t }, f.wire.rdmaAddr, payload⟩ } where
  isHarvest := isHarvest_nextHarvest t
  size h256 := absurd (h.size h256) h7
  type := rfl
  fixed := h.fixed
  port := rfl

/-- Where a consume pass sends a packet. -/
theorem AtConsume.recirculated {p : Fin 4} (h : AtConsume J w p f) (c : Cells) {d1 : DataH} {port : PortId} {wire : Wire}
    (ho : J.consumeOutcome w p f (J.consumedMd c w p f (J.entered w p inp f).md) d1 = .recirculate port wire) :
    AtPass J w wire.md.packetType { f with port := port, wire := wire } ∧
      ∀ q, wire.md.packetType = consumeType q → q.val = p.val + 1 := by
  have hle := J.pipes_le
  unfold Job.consumeOutcome at ho
  split at ho
  · rename_i hp
    split at ho
    · cases ho
    · simp only [Outcome.recirculate.injEq] at ho
      obtain ⟨rfl, rfl⟩ := ho
      refine ⟨.of_consume (h.forward hp c inp), fun q hq => ?_⟩
      rw [← consumeType_injective hq, Fin.val_add]
      show (p.val + 1) % 4 = p.val + 1
      omega
  · split at ho
    · simp only [Outcome.recirculate.injEq] at ho
      obtain ⟨rfl, rfl⟩ := ho
      have hplace := h.toHarvest c inp d1
      refine ⟨.of_harvest hplace, fun q hq => ?_⟩
      have hnot := not_isConsume_of_isHarvest hplace.isHarvest
      rw [show J.firstHarvest = consumeType q from hq, isConsume_consumeType] at hnot
      cases hnot
    · cases ho

theorem AtHarvest.recirculated (h : AtHarvest J w t f) (c : Cells) {port : PortId} {wire : Wire}
    (ho : J.harvestOutcome c t f = .recirculate port wire) :
    AtPass J w wire.md.packetType { f with port := port, wire := wire } ∧ wire.md.packetType.isConsume = false ∧
      wire.md.mapResult = f.wire.md.mapResult := by
  unfold Job.harvestOutcome at ho
  dsimp only at ho
  split at ho
  · rename_i h7
    simp only [Outcome.recirculate.injEq] at ho
    obtain ⟨rfl, rfl⟩ := ho
    exact ⟨.of_harvest (h.forward h7 c _), not_isConsume_of_isHarvest (isHarvest_nextHarvest t), rfl⟩
  · split at ho
    · cases ho
    · split at ho <;> cases ho

/-- No consume pass answers. -/
theorem consumeOutcome_ne_response {p : Fin 4} {md : SwitchmlMd} {broadcast : Bool} {wire : Wire} :
    J.consumeOutcome w p f md d1 ≠ .response broadcast wire := by
  unfold Job.consumeOutcome
  split
  · split <;> exact fun ho => by cases ho
  · split <;> exact fun ho => by cases ho

/-- Only a new packet is answered to all. -/
theorem AtHarvest.response (h : AtHarvest J w t f) (c : Cells) {broadcast : Bool} {wire : Wire}
    (ho : J.harvestOutcome c t f = .response broadcast wire) :
    wire.md.poolIndex = J.poolIndex f.phase ∧ (broadcast = true → f.wire.md.mapResult = 0) := by
  have hidx : f.wire.md.poolIndex = J.poolIndex f.phase := poolIndex_of_fixed h.fixed
  unfold Job.harvestOutcome at ho
  dsimp only at ho
  split at ho
  · cases ho
  · split at ho
    · rename_i hlast
      simp only [Outcome.response.injEq] at ho
      obtain ⟨rfl, rfl⟩ := ho
      exact ⟨hidx, fun _ => hlast.2⟩
    · split at ho
      · simp only [Outcome.response.injEq] at ho
        obtain ⟨rfl, rfl⟩ := ho
        exact ⟨hidx, fun hb => by cases hb⟩
      · cases ho

/-! ## A packet in a pass -/

/-- A packet in pass `t`, before the first control. -/
inductive Entered (J : Job n) (w : Fin n) (f : Flight n) (inp : PassInputs) (ig : Ig) : PacketType → Prop
  | consume (p : Fin 4) (d0 d1 : DataH) : AtConsume J w p f.blank →
      (p = 0 → inp.portMetadata.ingressDropProbability ≠ 0xffff) → Consumes ig d0 d1 →
      J.entered w p inp.blank f.blank = blankIg ig → Entered J w f inp ig (consumeType p)
  | harvest (t : PacketType) (d0 d1 : DataH) : AtHarvest J w t f.blank → ig.dropCtl = false → ig.hdr.d0 = some d0 →
      ig.hdr.d1 = some d1 → harvestEntered inp.blank f.blank = blankIg ig → Entered J w f inp ig t

theorem AtPass.entered {i : ℕ} (hat : AtPass J w t f.blank) (hmay : Session.mayPass t i inp = true)
    (hig : J.enter w inp f = some ig) : Entered J w f inp ig t := by
  have henter := enter_blank J.toSession w inp f
  rw [hig, Option.map_some] at henter
  cases ht : t.isConsume with
  | true =>
    obtain ⟨p, rfl⟩ := exists_of_isConsume ht
    have hplace := hat.consume p rfl
    rw [hplace.enter, Option.some.injEq] at henter
    simp only [Session.mayPass, isConsume_consumeType, Bool.not_true, Bool.false_or, Bool.and_eq_true,
      decide_eq_true_eq, consumeType_eq_CONSUME0, Bool.not_eq_true', Bool.and_eq_false_imp,
      decide_eq_false_iff_not] at hmay
    have hcons : Consumes (J.entered w p inp.blank f.blank) _ _ := hplace.consumes hmay.2
    rw [henter] at hcons
    obtain ⟨d0, d1, hcons⟩ := consumes_of_blank hcons
    exact .consume p d0 d1 hplace hmay.2 hcons henter
  | false =>
    have hplace := hat.harvest ht
    rw [hplace.enter, Option.some.injEq] at henter
    have hctl : ig.dropCtl = false := by
      rw [show ig.dropCtl = (blankIg ig).dropCtl from rfl, ← henter]
      rfl
    have hhdr : (blankIg ig).hdr.d0 = some blankData ∧ (blankIg ig).hdr.d1 = some blankData := by
      rw [← henter]
      exact ⟨rfl, rfl⟩
    obtain ⟨d0, h0, -⟩ := Option.map_eq_some_iff.mp hhdr.1
    obtain ⟨d1, h1, -⟩ := Option.map_eq_some_iff.mp hhdr.2
    exact .harvest t d0 d1 hplace hctl h0 h1 henter

namespace Entered

variable (h : Entered J w f inp ig t)
include h

theorem slot : slotOf ig.md.poolIndex = J.slot := by
  rw [show ig.md.poolIndex = (blankIg ig).md.poolIndex from rfl]
  cases h with
  | consume p d0 d1 hplace _ _ heq =>
    rw [← heq, hplace.entered_poolIndex, J.slotOf_poolIndex]
  | harvest _ d0 d1 hplace _ _ _ heq =>
    have hidx : f.blank.wire.md.poolIndex = J.poolIndex f.blank.phase := poolIndex_of_fixed hplace.fixed
    rw [← heq]
    exact (congrArg slotOf hidx).trans (J.slotOf_poolIndex _)

theorem harvest_type (hc : t.isConsume = false) :
    ig.md.packetType.isSwitchML = true ∧ ig.md.packetType.isConsume = false := by
  cases h with
  | consume p =>
    rw [isConsume_consumeType] at hc
    cases hc
  | harvest _ d0 d1 hplace _ _ _ heq =>
    have htype : ig.md.packetType = t := by
      rw [← hplace.type, show ig.md.packetType = (blankIg ig).md.packetType from rfl, ← heq]
      rfl
    rw [htype]
    exact ⟨isSwitchML_of_isHarvest hplace.isHarvest, hc⟩

/-- It would make the pass without data too. -/
theorem samePass (hcells : Cells.of regs₀ J.slot = (Cells.of regs J.slot).blank) :
    SamePass J.tables J.slot regs regs₀ ig := by
  have hslot := h.slot
  rw [← hslot] at hcells ⊢
  have htypes := h.harvest_type
  cases h with
  | consume p d0 d1 _ _ hcons => exact samePass_consume hcons hcells
  | harvest _ d0 d1 hplace hctl h0 h1 =>
    have htype := htypes (not_isConsume_of_isHarvest hplace.isHarvest)
    exact samePass_harvest htype.1 htype.2 hctl h0 h1 hcells

theorem selects : Selects J.tables regs ig := by
  have htypes := h.harvest_type
  cases h with
  | consume p d0 d1 _ _ hcons => exact hcons.selects
  | harvest _ d0 d1 hplace hctl h0 h1 =>
    have htype := htypes (not_isConsume_of_isHarvest hplace.isHarvest)
    unfold Selects
    rw [process_harvest htype.1 htype.2 hctl h0 h1]
    exact ⟨_, rfl, rfl, rfl⟩

/-- Where it goes from the pass. -/
theorem recirculated {port : PortId} {wire : Wire}
    (ho : outcome (Ingress.process J.tables regs ig).2 = .recirculate port wire) :
    AtPass J w wire.md.packetType (Flight.blank { f with port := port, wire := wire }) ∧
      (∀ q, wire.md.packetType = consumeType q → ∃ p, t = consumeType p ∧ q.val = p.val + 1) ∧
      (t.isConsume = false → wire.md.mapResult = f.wire.md.mapResult) := by
  have hsame : SamePass J.tables J.slot regs ((Cells.of regs J.slot).blank.store regs J.slot) ig :=
    h.samePass (Cells.of_store_self _ regs J.slot)
  have hgo := hsame.2
  rw [ho] at hgo
  cases h with
  | consume p d0 d1 hplace hd hcons heq =>
    have hd' : p = 0 → inp.blank.portMetadata.ingressDropProbability ≠ 0xffff := hd
    rw [← heq, hplace.outcome_process hd'] at hgo
    obtain ⟨hat, hnext⟩ := hplace.recirculated _ hgo
    refine ⟨hat, fun q hq => ⟨p, rfl, hnext q hq⟩, fun ht => ?_⟩
    rw [isConsume_consumeType] at ht
    cases ht
  | harvest _ d0 d1 hplace hctl h0 h1 heq =>
    rw [← heq, hplace.outcome_process] at hgo
    obtain ⟨hat, hnot, hmap⟩ := hplace.recirculated _ hgo
    refine ⟨hat, fun q hq => ?_, fun _ => hmap⟩
    rw [show (blankWire wire).md.packetType = consumeType q from hq, isConsume_consumeType] at hnot
    cases hnot

theorem response {broadcast : Bool} {wire : Wire}
    (ho : outcome (Ingress.process J.tables regs ig).2 = .response broadcast wire) :
    t.isConsume = false ∧ wire.md.poolIndex = J.poolIndex f.phase ∧
      (broadcast = true → f.wire.md.mapResult = 0) := by
  have hsame : SamePass J.tables J.slot regs ((Cells.of regs J.slot).blank.store regs J.slot) ig :=
    h.samePass (Cells.of_store_self _ regs J.slot)
  have hgo := hsame.2
  rw [ho] at hgo
  cases h with
  | consume p d0 d1 hplace hd hcons heq =>
    have hd' : p = 0 → inp.blank.portMetadata.ingressDropProbability ≠ 0xffff := hd
    rw [← heq, hplace.outcome_process hd'] at hgo
    exact absurd hgo consumeOutcome_ne_response
  | harvest _ d0 d1 hplace hctl h0 h1 heq =>
    rw [← heq, hplace.outcome_process] at hgo
    have hblank : J.harvestOutcome _ t f.blank = .response broadcast (blankWire wire) := hgo
    obtain ⟨hidx, hcand⟩ := hplace.response _ hblank
    exact ⟨not_isConsume_of_isHarvest hplace.isHarvest, hidx, hcand⟩

end Entered

/-! ## The slot after a pass -/

/-- A packet that was sent on to another pass. -/
structure SentOn (J : Job n) (w : Fin n) (t : PacketType) (f : Flight n) (port : PortId) (wire : Wire) : Prop where
  place : AtPass J w wire.md.packetType (Flight.blank { f with port := port, wire := wire })
  msgId : wire.md.msgId = f.wire.md.msgId
  consume : ∀ q, wire.md.packetType = consumeType q →
    ∃ p, t = consumeType p ∧ q.val = p.val + 1 ∧ wire.payload = f.wire.payload.drop 2
  harvest : t.isConsume = false → wire.md.mapResult = f.wire.md.mapResult

/-- A packet that was made a response. -/
structure Answered (J : Job n) (t : PacketType) (f : Flight n) (broadcast : Bool) (wire : Wire) : Prop where
  msgId : wire.md.msgId = f.wire.md.msgId
  poolIndex : wire.md.poolIndex = J.poolIndex f.phase
  harvest : t.isConsume = false
  candidate : broadcast = true → f.wire.md.mapResult = 0

/-- What becomes of a packet in a pass. -/
structure Went (J : Job n) (w : Fin n) (t : PacketType) (f : Flight n) (o : Outcome) : Prop where
  recirculated : ∀ port wire, o = .recirculate port wire → SentOn J w t f port wire
  response : ∀ broadcast wire, o = .response broadcast wire → Answered J t f broadcast wire

theorem next_pass {i : ℕ} (hat : ∀ f ∈ s.flight (w, t), AtPass J w t f.blank)
    (hn : J.next s (.pass w t i inp) = some s') :
    ∃ f regs' o, (s.flight (w, t))[i]? = some f ∧
      s' = (s.takeOff w t i f regs').land w t (f.after w t (s.seen (pipeOf f.port))) o ∧ Went J w t f o := by
  simp only [Session.next] at hn
  split at hn
  · rename_i hmay
    simp only [Option.bind_eq_some_iff, Option.map_eq_some_iff] at hn
    obtain ⟨f, hf, ig, hig, rfl⟩ := hn
    have hplace := hat f (List.mem_of_getElem? hf)
    have hent := hplace.entered hmay hig
    refine ⟨f, _, _, hf, rfl, fun port wire ho => ?_, fun broadcast wire ho => ?_⟩
    · obtain ⟨hmsgId, hrest⟩ := hent.selects.recirculated ho
      obtain ⟨hnext, hstep, hmap⟩ := hent.recirculated ho
      refine ⟨hnext, hmsgId.trans (enter_keeps hig).1, fun q hq => ?_, hmap⟩
      obtain ⟨p, rfl, hval⟩ := hstep q hq
      have htype : f.wire.md.packetType = consumeType p := (hplace.consume p rfl).type
      refine ⟨p, rfl, hval, ?_⟩
      rw [hrest (by rw [hq]; exact isConsume_consumeType q)]
      exact (enter_keeps hig).2 (by rw [htype]; exact isConsume_consumeType p)
    · obtain ⟨hharvest, hidx, hcand⟩ := hent.response ho
      exact ⟨(hent.selects.response ho).trans (enter_keeps hig).1, hidx, hharvest, hcand⟩
  · cases hn

/-- The packets on their way after a pass. -/
theorem mem_land_takeOff {i : ℕ} {regs' : Regs} {f f' g : Flight n} {o : Outcome} {key : Fin n × PacketType}
    (hg : g ∈ ((s.takeOff w t i f regs').land w t f' o).flight key) :
    g ∈ s.flight key ∨ ∃ port wire, o = .recirculate port wire ∧ key = (w, wire.md.packetType) ∧
      g = { f' with port := port, wire := wire } := by
  cases o with
  | gone => exact .inl (Queues.mem_of_mem_take hg)
  | response broadcast wire => exact .inl (Queues.mem_of_mem_take hg)
  | recirculate port wire =>
    rcases Queues.mem_put.mp hg with hg | ⟨hkey, rfl⟩
    · exact .inl (Queues.mem_of_mem_take hg)
    · exact .inr ⟨port, wire, rfl, hkey, rfl⟩

/-- The response made in a pass. -/
def newResponses (w : Fin n) (f : Flight n) : Outcome → List (Response n)
  | .response broadcast wire => [⟨broadcast, w, f.phase, wire, f.counted⟩]
  | _ => []

theorem responses_land_takeOff {i : ℕ} {regs' : Regs} {f f' : Flight n} (o : Outcome) :
    ((s.takeOff w t i f regs').land w t f' o).responses = s.responses ++ newResponses w f' o := by
  cases o with
  | gone => exact (List.append_nil _).symm
  | response broadcast wire => rfl
  | recirculate port wire => exact (List.append_nil _).symm

/-- A packet that is new in some pipe finds its phase incomplete. -/
theorem Inv.not_complete {p : Fin 4} (h : Inv J s) (hf : f ∈ s.flight (w, consumeType p))
    (hnovel : (f.after w (consumeType p) (s.seen (pipeOf f.port))).novel = true) : ¬AllComplete J s f.phase := by
  have hok := h.consume w p f hf
  rw [hok.place.pipeOf_port, after_novel] at hnovel
  have hseen : s.seen p w ≤ f.phase := by
    rcases hnovel with hnovel | heq
    · exact hok.new (.inl hnovel) p le_rfl
    · exact heq.le
  intro hc
  exact absurd (hc p hok.place.lt w) (Nat.not_lt_of_le hseen)

/-- What a worker has accepted a response for is complete. -/
theorem Inv.complete_of_accepted {k : ℕ} (h : Inv J s) (hacc : (s.accepted w k).isSome = true) : AllComplete J s k := by
  obtain ⟨r, hr⟩ := Option.isSome_iff_exists.mp hacc
  have hok := h.accepted w k r hr
  rw [← hok.phase]
  exact (h.responses r hok.mem).complete

/-- What is complete was sent by all. -/
theorem Inv.sent_of_complete {k : ℕ} (h : Inv J s) (hc : AllComplete J s k) (v : Fin n) : k < s.sent v :=
  (hc 0 J.pipes_pos v).trans_le (h.seen_le 0 v)

/-- The responses after a step in the switch. -/
theorem responses_next {e : Event n} (hat : ∀ w t, ∀ f ∈ s.flight (w, t), AtPass J w t f.blank) (he : e.ofSwitch = true)
    (hn : J.next s e = some s') : ∃ new, s'.responses = s.responses ++ new ∧
      ∀ r ∈ new, r.wire.md.poolIndex = J.poolIndex r.phase := by
  cases e with
  | pass w t i inp =>
    obtain ⟨f, regs', o, -, rfl, hwent⟩ := next_pass (hat w t) hn
    refine ⟨_, responses_land_takeOff o, fun r hr => ?_⟩
    cases o with
    | gone => cases hr
    | recirculate port wire => cases hr
    | response broadcast wire =>
      obtain rfl := List.mem_singleton.mp hr
      exact (hwent.response broadcast wire rfl).poolIndex
  | lose w t i =>
    simp only [Session.next, Option.map_eq_some_iff] at hn
    obtain ⟨f, -, rfl⟩ := hn
    exact ⟨[], (List.append_nil _).symm, fun _ hr => by cases hr⟩
  | other p ig =>
    simp only [Session.next, Option.ite_none_left_eq_some, Option.some.injEq] at hn
    obtain ⟨-, rfl⟩ := hn
    exact ⟨[], (List.append_nil _).symm, fun _ hr => by cases hr⟩
  | _ => cases he

/-- The workers have nothing to do with it. -/
theorem workers_next {e : Event n} (he : e.ofSwitch = true) (hn : J.next s e = some s') :
    s'.sent = s.sent ∧ s'.copies = s.copies ∧ s'.accepted = s.accepted := by
  cases e with
  | pass w t i inp =>
    simp only [Session.next, Option.ite_none_right_eq_some, Option.bind_eq_some_iff, Option.map_eq_some_iff] at hn
    obtain ⟨-, f, -, ig, -, rfl⟩ := hn
    unfold State.passed
    cases outcome (Ingress.process J.tables (s.regs (pipeOf f.port)) ig).2 <;> exact ⟨rfl, rfl, rfl⟩
  | lose w t i =>
    simp only [Session.next, Option.map_eq_some_iff] at hn
    obtain ⟨f, -, rfl⟩ := hn
    exact ⟨rfl, rfl, rfl⟩
  | other p ig =>
    simp only [Session.next, Option.ite_none_left_eq_some, Option.some.injEq] at hn
    obtain ⟨-, rfl⟩ := hn
    exact ⟨rfl, rfl, rfl⟩
  | _ => cases he

/-! ## The slot without the data -/

/-- The slot in `s` and the one in `s₀` are the same but for the data, and for
what the workers have accepted. -/
structure Blanks (slot : BitVec 14) (s s₀ : State n) : Prop where
  cells : ∀ p, Cells.of (s₀.regs p) slot = (Cells.of (s.regs p) slot).blank
  flight : ∀ key, s₀.flight key = (s.flight key).map Flight.blank
  sent : s₀.sent = s.sent
  copies : s₀.copies = s.copies
  seen : s₀.seen = s.seen
  responses : s₀.responses = s.responses.map Response.blank

theorem Blanks.init (slot : BitVec 14) : Blanks slot (State.init n) (State.init n) where
  cells p := by
    have hzero : Cells.of ((State.init n).regs p) slot = Cells.zero := Cells.of_zero slot
    rw [hzero]
    rfl
  flight _ := rfl
  sent := rfl
  copies := rfl
  seen := rfl
  responses := rfl

theorem map_take {Q Q₀ : Queues (Fin n × PacketType) (Flight n)} (h : ∀ key, Q₀ key = (Q key).map Flight.blank)
    (key : Fin n × PacketType) (i : ℕ) (key' : Fin n × PacketType) :
    Q₀.take key i key' = (Q.take key i key').map Flight.blank := by
  by_cases hk : key' = key
  · subst hk
    rw [Queues.take_self, Queues.take_self, h, List.eraseIdx_map]
  · rw [Queues.take_of_ne hk, Queues.take_of_ne hk, h]

theorem map_put {Q Q₀ : Queues (Fin n × PacketType) (Flight n)} (h : ∀ key, Q₀ key = (Q key).map Flight.blank)
    (key : Fin n × PacketType) (f : Flight n) (key' : Fin n × PacketType) :
    Q₀.put key f.blank key' = (Q.put key f key').map Flight.blank := by
  by_cases hk : key' = key
  · subst hk
    rw [Queues.put_self, Queues.put_self, h, List.map_append, List.map_singleton]
  · rw [Queues.put_of_ne hk, Queues.put_of_ne hk, h]

/-- What becomes of a packet after a pass. -/
theorem Blanks.land {slot : BitVec 14} (h : Blanks slot s s₀) (w : Fin n) (t : PacketType) (f : Flight n) (o : Outcome) :
    Blanks slot (s.land w t f o) (s₀.land w t f.blank (blankOutcome o)) := by
  cases o with
  | gone => exact h
  | response broadcast wire =>
    refine { h with responses := ?_ }
    show s₀.responses ++ [_] = (s.responses ++ [_]).map Response.blank
    rw [h.responses, List.map_append]
    rfl
  | recirculate port wire =>
    exact { h with flight := map_put h.flight (w, wire.md.packetType) { f with port := port, wire := wire } }

/-- A pass of the slot without data. -/
theorem Blanks.pass {i : ℕ} (h : Blanks J.slot s s₀) (hI : Inv J s₀) (hn : J.next s (.pass w t i inp) = some s') :
    ∃ s₀', J.next s₀ (.pass w t i inp.blank) = some s₀' ∧ Blanks J.slot s' s₀' := by
  simp only [Session.next] at hn
  split at hn
  · rename_i hmay
    simp only [Option.bind_eq_some_iff, Option.map_eq_some_iff] at hn
    obtain ⟨f, hat, ig, hig, rfl⟩ := hn
    have hat₀ : (s₀.flight (w, t))[i]? = some f.blank := by
      rw [h.flight, List.getElem?_map, hat]
      rfl
    have henter : J.enter w inp.blank f.blank = some (blankIg ig) := by
      rw [enter_blank, hig]
      rfl
    have hsame := ((hI.atPass (List.mem_of_getElem? hat₀)).entered hmay hig).samePass (h.cells (pipeOf f.port))
    refine ⟨s₀.passed w t i f.blank (Ingress.process J.tables (s₀.regs (pipeOf f.port)) (blankIg ig)), ?_, ?_⟩
    · simp only [Session.next]
      rw [if_pos (show Session.mayPass t i inp.blank = true from hmay), hat₀, Option.bind_some, henter]
      rfl
    · unfold State.passed
      rw [hsame.2]
      have hafter : f.blank.after w t (s₀.seen (pipeOf f.blank.port)) =
          (f.after w t (s.seen (pipeOf f.port))).blank := by
        rw [h.seen]
        rfl
      rw [hafter]
      have htake : Blanks J.slot (s.takeOff w t i f (Ingress.process J.tables (s.regs (pipeOf f.port)) ig).1)
          (s₀.takeOff w t i f.blank (Ingress.process J.tables (s₀.regs (pipeOf f.port)) (blankIg ig)).1) := by
        refine ⟨fun p => ?_, map_take h.flight (w, t) i, h.sent, h.copies, ?_, h.responses⟩
        · show Cells.of (Function.update s₀.regs (pipeOf f.port) _ p) J.slot =
            (Cells.of (Function.update s.regs (pipeOf f.port) _ p) J.slot).blank
          by_cases hp : p = pipeOf f.port
          · subst hp
            rw [Function.update_self, Function.update_self]
            exact hsame.1
          · rw [Function.update_of_ne hp, Function.update_of_ne hp]
            exact h.cells p
        · unfold State.takeOff
          rw [h.seen]
          rfl
      exact htake.land w t _ _
  · cases hn

/-- A worker puts a packet on its way. -/
theorem Blanks.put {slot : BitVec 14} (h : Blanks slot s s₀) (w : Fin n) (f : Flight n) (sent copies : Fin n → ℕ) :
    Blanks slot { s with sent := sent, copies := copies, flight := s.flight.put (w, .CONSUME0) f }
      { s₀ with sent := sent, copies := copies, flight := s₀.flight.put (w, .CONSUME0) f.blank } :=
  { h with
    flight := map_put h.flight (w, .CONSUME0) f
    sent := rfl
    copies := rfl }

/-- A packet is lost. -/
theorem Blanks.lose {i : ℕ} (h : Blanks J.slot s s₀) (hn : J.next s (.lose w t i) = some s') :
    ∃ s₀', J.next s₀ (.lose w t i) = some s₀' ∧ Blanks J.slot s' s₀' := by
  simp only [Session.next, Option.map_eq_some_iff] at hn
  obtain ⟨f, hat, rfl⟩ := hn
  have hat₀ : (s₀.flight (w, t))[i]? = some f.blank := by
    rw [h.flight, List.getElem?_map, hat]
    rfl
  refine ⟨{ s₀ with flight := s₀.flight.take (w, t) i, lost := (w, f.blank) :: s₀.lost }, ?_,
    { h with flight := map_take h.flight (w, t) i }⟩
  simp only [Session.next]
  rw [hat₀]
  rfl

/-- Traffic of other slots leaves the slot without data as it is. -/
theorem Blanks.other {p : Fin 4} (h : Blanks J.slot s s₀) (hn : J.next s (.other p ig) = some s') :
    Blanks J.slot s' s₀ := by
  simp only [Session.next] at hn
  split at hn
  · cases hn
  · rename_i hslot
    simp only [Option.some.injEq] at hn
    subst hn
    refine { h with cells := fun q => ?_ }
    show _ = (Cells.of (Function.update s.regs _ _ q) J.slot).blank
    by_cases hq : q = p
    · subst hq
      rw [Function.update_self, process_cells_other (Ne.symm hslot)]
      exact h.cells q
    · rw [Function.update_of_ne hq]
      exact h.cells q

/-- A step in the switch, and the one of the slot without data. -/
theorem Blanks.next {e : Event n} (h : Blanks J.slot s s₀) (hr : J.machine.Reachable s₀) (he : e.ofSwitch = true)
    (hn : J.next s e = some s') :
    ∃ s₀', J.machine.Reachable s₀' ∧ Blanks J.slot s' s₀' ∧ s₀'.accepted = s₀.accepted := by
  cases e with
  | pass w t i inp =>
    obtain ⟨s₀', hn₀, hblanks⟩ := h.pass (.of_reachable hr) hn
    exact ⟨s₀', hr.step (e := .pass w t i inp.blank) hn₀, hblanks, (workers_next rfl hn₀).2.2⟩
  | lose w t i =>
    obtain ⟨s₀', hn₀, hblanks⟩ := h.lose hn
    exact ⟨s₀', hr.step (e := .lose w t i) hn₀, hblanks, (workers_next rfl hn₀).2.2⟩
  | other p ig => exact ⟨s₀, hr, h.other hn, rfl⟩
  | _ => cases he

end SwitchML.Aggregation
