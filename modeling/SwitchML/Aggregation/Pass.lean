/-
What a pass makes of a packet on its way: the packet a pass finds
(`AtConsume`, `AtHarvest`), the registers it leaves, and where the packet goes
(`consumeOutcome`, `harvestOutcome`), read off the tables.
-/
import SwitchML.Aggregation.System

namespace SwitchML.Aggregation

open P4 Tna Phases Controller

/-- The metadata no pass changes. -/
def fixedMd (md : SwitchmlMd) : SwitchmlMd :=
  { md with
    packetType := .IGNORE, firstLastFlag := 0, mapResult := 0, workerBitmapBefore := 0, simulateEgressDrop := false
    e0 := 0, e1 := 0 }

theorem packetSize_of_fixed {md md' : SwitchmlMd} (h : fixedMd md = fixedMd md') : md.packetSize = md'.packetSize :=
  congrArg (·.packetSize) h

theorem workerId_of_fixed {md md' : SwitchmlMd} (h : fixedMd md = fixedMd md') : md.workerId = md'.workerId :=
  congrArg (·.workerId) h

theorem poolIndex_of_fixed {md md' : SwitchmlMd} (h : fixedMd md = fixedMd md') : md.poolIndex = md'.poolIndex :=
  congrArg (·.poolIndex) h

theorem numWorkers_of_fixed {md md' : SwitchmlMd} (h : fixedMd md = fixedMd md') : md.numWorkers = md'.numWorkers :=
  congrArg (·.numWorkers) h

theorem lastPacket_of_fixed {md md' : SwitchmlMd} (h : fixedMd md = fixedMd md') : md.lastPacket = md'.lastPacket :=
  congrArg (·.lastPacket) h

/-- The consume pass of a pipe. -/
def consumeType (p : Fin 4) : PacketType :=
  match p with
  | 0 => .CONSUME0
  | 1 => .CONSUME1
  | 2 => .CONSUME2
  | 3 => .CONSUME3

@[simp] theorem isConsume_consumeType : ∀ p, (consumeType p).isConsume = true := by decide

theorem consumeType_injective : Function.Injective consumeType := by decide

theorem consumeType_eq_CONSUME0 {p : Fin 4} : consumeType p = .CONSUME0 ↔ p = 0 :=
  consumeType_injective.eq_iff (b := 0)

theorem exists_of_isConsume {t : PacketType} (h : t.isConsume = true) : ∃ p, t = consumeType p := by
  cases t <;> simp only [PacketType.isConsume, Bool.false_eq_true] at h
  · exact ⟨0, rfl⟩
  · exact ⟨1, rfl⟩
  · exact ⟨2, rfl⟩
  · exact ⟨3, rfl⟩

/-- The loopback port of pipe `p` that a worker's packets pass through. -/
def loopPort (p : Fin 4) (id : ℕ) : PortId := BitVec.ofNat 9 (128 * p.val + 4 * id)

theorem loopPort_one (id : ℕ) : consumePort id = loopPort 1 id := by
  unfold consumePort loopPort
  rw [Nat.mul_comm id]
  rfl

theorem samePort_loopPort : ∀ (p : Fin 4) (q : Fin 4) (id : Fin 16),
    NextStepSelector.samePort (BitVec.ofNat 2 q.val) (loopPort p id) = loopPort q id := by
  decide

theorem parsesRecirculate_loopPort : ∀ (p : Fin 4) (id : Fin 16), 0 < p.val →
    parsesRecirculate (loopPort p id) = true := by
  decide

theorem pipeOf_loopPort : ∀ (p : Fin 4) (id : Fin 16), pipeOf (loopPort p id) = p := by
  decide

/-- The port a harvest pass receives its packets on. -/
def harvestPort : PacketType → PortId
  | .HARVEST1 => port 1
  | .HARVEST2 => port 2
  | .HARVEST3 => port 3
  | .HARVEST4 => port 4
  | .HARVEST5 => port 5
  | .HARVEST6 => port 6
  | _ => port 7

theorem parsesRecirculate_harvestPort (t : PacketType) : parsesRecirculate (harvestPort t) = true := by
  cases t <;> decide

/-- The harvest passes in their order. -/
def nextHarvest : PacketType → PacketType
  | .HARVEST1 => .HARVEST2
  | .HARVEST2 => .HARVEST3
  | .HARVEST3 => .HARVEST4
  | .HARVEST4 => .HARVEST5
  | .HARVEST5 => .HARVEST6
  | _ => .HARVEST7

/-- The seven harvest passes a packet can be on its way to. -/
def isHarvest : PacketType → Bool
  | .HARVEST1 | .HARVEST2 | .HARVEST3 | .HARVEST4 | .HARVEST5 | .HARVEST6 | .HARVEST7 => true
  | _ => false

namespace Job

variable {n : ℕ} (J : Job n)

theorem pipes_pos : 0 < J.pipes := by
  unfold Session.pipes
  split <;> omega

theorem pipes_le : J.pipes ≤ 4 := by
  unfold Session.pipes
  split <;> omega

/-- With more than one pipe the packets have 1024 bytes. -/
theorem folded_of_pipes (h : 1 < J.pipes) (w : Fin n) :
    J.packetSize = .MTU_1024 ∧ J.foldedPipe = true ∧ (J.id w).val < 16 := by
  rcases J.supported w with hs | hs
  · unfold Session.pipes at h
    rw [if_pos hs] at h
    omega
  · exact hs

/-- The slices a packet still carries when it reaches pipe `p`. -/
def slicesFrom (w : Fin n) (k : ℕ) (i : ℕ) : List DataH :=
  ((List.range (2 * J.pipes)).drop i).map (J.contribution w k)

theorem slicesFrom_zero (w : Fin n) (k : ℕ) : J.slicesFrom w k 0 = (J.packet w k).payload := by
  unfold slicesFrom Session.packet
  rw [List.drop_zero]

theorem slicesFrom_cons {w : Fin n} {k i : ℕ} (h : i < 2 * J.pipes) :
    J.slicesFrom w k i = J.contribution w k i :: J.slicesFrom w k (i + 1) := by
  unfold slicesFrom
  rw [List.drop_eq_getElem_cons (by rw [List.length_range]; exact h), List.map_cons, List.getElem_range]

theorem slicesFrom_eq_nil {w : Fin n} {k i : ℕ} (h : 2 * J.pipes ≤ i) : J.slicesFrom w k i = [] := by
  unfold slicesFrom
  rw [List.drop_eq_nil_of_le (by rw [List.length_range]; exact h), List.map_nil]

end Job

variable {n : ℕ} {J : Job n} {w : Fin n} {p : Fin 4} {f : Flight n} {inp : PassInputs} {regs : Regs}

/-! ## Consume passes -/

/-- A packet on its way to the consume pass of pipe `p`. -/
structure AtConsume (J : Job n) (w : Fin n) (p : Fin 4) (f : Flight n) : Prop where
  type : f.wire.md.packetType = consumeType p
  fixed : fixedMd f.wire.md = fixedMd (J.packetMd w f.phase)
  payload : f.wire.payload = J.slicesFrom w f.phase (2 * p)
  lt : p.val < J.pipes
  port : f.port = if p = 0 then J.port w else loopPort p (J.id w)
  e0 : p = 0 → f.wire.md.e0 = J.e0 w f.phase
  e1 : f.wire.md.e1 = J.e1 w f.phase

/-- The packet in the pass, before the first control. -/
def Job.entered (J : Job n) (w : Fin n) (p : Fin 4) (inp : PassInputs) (f : Flight n) : Ig :=
  { Ig.ofWire inp.portMetadata f.port f.wire with
    hdr := { d0 := some (J.contribution w f.phase (2 * p)), d1 := some (J.contribution w f.phase (2 * p + 1)) }
    workerBitmap := J.bit w
    md := if p = 0 then { f.wire.md with simulateEgressDrop := inp.simulateEgressDrop } else f.wire.md
    rest := J.slicesFrom w f.phase (2 * p + 2) }

theorem launch_atConsume (w : Fin n) (k copy : ℕ) : AtConsume J w 0 (J.launch w k copy) where
  type := rfl
  fixed := rfl
  payload := (J.slicesFrom_zero w k).symm
  lt := J.pipes_pos
  port := rfl
  e0 _ := rfl
  e1 := rfl

namespace AtConsume

theorem pipeOf_port (h : AtConsume J w p f) : pipeOf f.port = p := by
  rw [h.port]
  split
  · rename_i hp
    rw [J.pipeOf_port, hp]
  · rename_i hp
    have hp' : 0 < p.val := Nat.pos_of_ne_zero fun h0 => hp (Fin.ext h0)
    have hid := (J.folded_of_pipes (by have := h.lt; omega) w).2.2
    exact pipeOf_loopPort p ⟨_, hid⟩

theorem enter (h : AtConsume J w p f) : J.enter w inp f = some (J.entered w p inp f) := by
  have hlt := h.lt
  have hpay : f.wire.payload = J.contribution w f.phase (2 * p) :: J.contribution w f.phase (2 * p + 1) ::
      J.slicesFrom w f.phase (2 * p + 2) := by
    rw [h.payload, J.slicesFrom_cons (by omega), J.slicesFrom_cons (by omega)]
  have hcons : f.wire.md.packetType.isConsume = true := by
    rw [h.type]; exact isConsume_consumeType p
  have hparse : parseRecirculate inp.u0 inp.u1 (Ig.ofWire inp.portMetadata f.port f.wire) =
      some { Ig.ofWire inp.portMetadata f.port f.wire with
        hdr := { d0 := some (J.contribution w f.phase (2 * p)), d1 := some (J.contribution w f.phase (2 * p + 1)) }
        rest := J.slicesFrom w f.phase (2 * p + 2) } := by
    unfold parseRecirculate
    rw [if_pos (show (Ig.ofWire inp.portMetadata f.port f.wire).md.packetType.isConsume = true from hcons)]
    unfold parseConsume Ig.ofWire
    simp only [hpay]
  unfold Session.enter Job.entered
  rw [hparse, Option.map_some]
  by_cases hp : p = 0
  · have ht : f.wire.md.packetType = .CONSUME0 := by rw [h.type, hp]; rfl
    rw [if_pos (by exact ht), if_pos hp]
    rfl
  · have ht : f.wire.md.packetType ≠ .CONSUME0 := by
      rw [h.type]
      exact fun h0 => hp (consumeType_eq_CONSUME0.mp h0)
    have hid : f.wire.md.workerId = BitVec.ofNat 16 (J.id w) := workerId_of_fixed h.fixed
    rw [if_neg (by exact ht), if_neg hp]
    unfold Ingress.rebuild
    rw [if_pos (by exact hcons), reconstructWorkerBitmap_of (J.id w).isLt (by exact hid)]
    rfl

theorem consumes (h : AtConsume J w p f)
    (hd : p = 0 → inp.portMetadata.ingressDropProbability ≠ 0xffff) :
    Consumes (J.entered w p inp f) (J.contribution w f.phase (2 * p)) (J.contribution w f.phase (2 * p + 1)) where
  isConsume := by
    unfold Job.entered
    split <;> simp [h.type]
  dropCtl := rfl
  notSimulated ht := by
    refine hd (consumeType_eq_CONSUME0.mp ?_)
    rw [← h.type, ← ht]
    unfold Job.entered
    split <;> rfl
  d0 := rfl
  d1 := rfl

end AtConsume

/-- The first harvest pass, for both sizes. -/
def Job.firstHarvest (J : Job n) : PacketType := if J.packetSize = .MTU_256 then .HARVEST7 else .HARVEST1

/-- The metadata after a consume pass. -/
def Job.consumedMd (J : Job n) (c : Cells) (w : Fin n) (p : Fin 4) (f : Flight n) (md : SwitchmlMd) : SwitchmlMd :=
  let c' := c.consume (J.bit w) md (J.contribution w f.phase (2 * p)) (J.contribution w f.phase (2 * p + 1))
  { c.readMd (J.bit w) md with e0 :=
      if md.lastPacket ∧ md.packetType = .CONSUME0 then (c'.exponents (setBit md.poolIndex)).first else md.e0 }

theorem Job.consumedMd_e0 (J : Job n) (c : Cells) (w : Fin n) (p : Fin 4) (f : Flight n) (md : SwitchmlMd) :
    (J.consumedMd c w p f md).e0 =
      if md.lastPacket = true ∧ md.packetType = .CONSUME0 then
        ((c.consume (J.bit w) md (J.contribution w f.phase (2 * p))
          (J.contribution w f.phase (2 * p + 1))).exponents (setBit md.poolIndex)).first
      else md.e0 := rfl

/-- Where a packet goes from a consume pass that left the metadata `md` and the
second sums `d1`: on to the next pipe, or from the last one into harvest. -/
def Job.consumeOutcome (J : Job n) (w : Fin n) (p : Fin 4) (f : Flight n) (md : SwitchmlMd) (d1 : DataH) : Outcome :=
  if p.val + 1 < J.pipes then
    if p = 0 ∧ ¬ (md.mapResult = 0 ∨ md.firstLastFlag = Flag.FIRST) then .gone
    else
      .recirculate (loopPort (p + 1) (J.id w))
        ⟨{ md with packetType := consumeType (p + 1) }, f.wire.rdmaAddr, J.slicesFrom w f.phase (2 * p + 2)⟩
  else if md.firstLastFlag = Flag.LAST ∨ md.mapResult ≠ 0 ∧ md.firstLastFlag = Flag.FIRST then
    .recirculate (harvestPort J.firstHarvest) ⟨{ md with packetType := J.firstHarvest }, f.wire.rdmaAddr, [d1]⟩
  else .gone

theorem exec_consume_gone {step : NextStep} {ig : Ig} (hs : step = .finishConsume ∨ step = .drop) :
    outcome (NextStepSelector.exec step ig) = .gone := by
  rcases hs with rfl | rfl
  · exact NextStepSelector.outcome_finishConsume
  · exact NextStepSelector.outcome_drop

/-- The next step of the last consume pass. -/
theorem exec_lastConsume {ig : Ig} {step : NextStep} {t : PacketType} (hv : ig.mdValid = true)
    (hstep : ∀ ig, NextStepSelector.exec step ig =
      NextStepSelector.recirculateForHarvest t (harvestPort t) (NextStepSelector.dropD0 ig)) :
    outcome (NextStepSelector.exec
      (if ig.md.firstLastFlag = Flag.LAST then step
        else if ig.md.mapResult = 0 then .finishConsume
        else if ig.md.firstLastFlag = Flag.FIRST then step else .drop) ig) =
      if ig.md.firstLastFlag = Flag.LAST ∨ ig.md.mapResult ≠ 0 ∧ ig.md.firstLastFlag = Flag.FIRST then
        .recirculate (harvestPort t) ⟨{ ig.md with packetType := t }, ig.rdmaAddr, ig.hdr.d1.toList ++ ig.rest⟩
      else .gone := by
  have hgo : outcome (NextStepSelector.exec step ig) =
      .recirculate (harvestPort t) ⟨{ ig.md with packetType := t }, ig.rdmaAddr, ig.hdr.d1.toList ++ ig.rest⟩ := by
    rw [hstep, NextStepSelector.recirculateForHarvest,
      NextStepSelector.outcome_recirculate (show (NextStepSelector.dropD0 ig).mdValid = true from hv)
        (parsesRecirculate_harvestPort t)]
    rfl
  by_cases hl : ig.md.firstLastFlag = Flag.LAST
  · rw [if_pos hl, if_pos (Or.inl hl), hgo]
  · rw [if_neg hl]
    by_cases hm : ig.md.mapResult = 0
    · rw [if_pos hm, if_neg (by rintro (h | ⟨h, -⟩); exacts [hl h, h hm])]
      exact exec_consume_gone (Or.inl rfl)
    · rw [if_neg hm]
      by_cases hf : ig.md.firstLastFlag = Flag.FIRST
      · rw [if_pos hf, if_pos (Or.inr ⟨hm, hf⟩), hgo]
      · rw [if_neg hf, if_neg (by rintro (h | ⟨-, h⟩); exacts [hl h, hf h])]
        exact exec_consume_gone (Or.inr rfl)

/-- How a packet goes on from pipe `p` to the next one. -/
def forwardStep (p : Fin 4) (id : ℕ) : NextStep :=
  match p with
  | 0 => .recirculateForCONSUME1 (consumePort id)
  | 1 => .recirculateForCONSUME2SamePortNextPipe
  | _ => .recirculateForCONSUME3SamePortNextPipe

theorem nextStep_forward {md : SwitchmlMd} {id : Fin 32} (hp : p.val < 3) (hsize : md.packetSize = .MTU_1024)
    (h16 : id.val < 16) (hid : md.workerId = BitVec.ofNat 16 id) (htype : md.packetType = consumeType p) :
    nextStep (addDefaultEntries true) md =
      if p = 0 ∧ ¬ (md.mapResult = 0 ∨ md.firstLastFlag = Flag.FIRST) then .drop else forwardStep p id := by
  match p, hp with
  | 0, _ =>
    rw [nextStep_1024_CONSUME0 h16 hsize htype hid]
    by_cases h : md.mapResult = 0 ∨ md.firstLastFlag = Flag.FIRST
    · rw [if_pos h, if_neg fun hn => hn.2 h]
      rfl
    · rw [if_neg h, if_pos ⟨rfl, h⟩]
  | 1, _ =>
    rw [nextStep_1024_CONSUME1 hsize htype, if_neg fun hn => absurd hn.1 (by decide)]
    rfl
  | 2, _ =>
    rw [nextStep_1024_CONSUME2 hsize htype, if_neg fun hn => absurd hn.1 (by decide)]
    rfl

theorem exec_forward {ig : Ig} {id : ℕ} (hp : p.val < 3) (h16 : id < 16) (hv : ig.mdValid = true)
    (hport : 0 < p.val → ig.ingressPort = loopPort p id) :
    outcome (NextStepSelector.exec (forwardStep p id) ig) =
      .recirculate (loopPort (p + 1) id)
        ⟨{ ig.md with packetType := consumeType (p + 1) }, ig.rdmaAddr, ig.rest⟩ := by
  have hdrop : (NextStepSelector.dropD1 (NextStepSelector.dropD0 ig)).mdValid = true := hv
  have hgo : ∀ t, outcome (NextStepSelector.recirculateForConsume t (loopPort (p + 1) id) ig) =
      .recirculate (loopPort (p + 1) id) ⟨{ ig.md with packetType := t }, ig.rdmaAddr, ig.rest⟩ := by
    intro t
    have hpos : 0 < (p + 1).val := by rw [Fin.val_add]; omega
    rw [NextStepSelector.recirculateForConsume,
      NextStepSelector.outcome_recirculate hdrop (parsesRecirculate_loopPort (p + 1) ⟨id, h16⟩ hpos)]
    rfl
  rw [← hgo]
  match p, hp, hport with
  | 0, _, _ =>
    show outcome (NextStepSelector.recirculateForConsume .CONSUME1 (consumePort id) ig) = _
    rw [loopPort_one]
    rfl
  | 1, _, hport =>
    show outcome (NextStepSelector.recirculateForConsume .CONSUME2 (NextStepSelector.samePort 2 ig.ingressPort) ig) = _
    rw [hport (by decide)]
    exact congrArg (fun q => outcome (NextStepSelector.recirculateForConsume .CONSUME2 q ig))
      (samePort_loopPort 1 2 ⟨id, h16⟩)
  | 2, _, hport =>
    show outcome (NextStepSelector.recirculateForConsume .CONSUME3 (NextStepSelector.samePort 3 ig.ingressPort) ig) = _
    rw [hport (by decide)]
    exact congrArg (fun q => outcome (NextStepSelector.recirculateForConsume .CONSUME3 q ig))
      (samePort_loopPort 2 3 ⟨id, h16⟩)

namespace AtConsume

/-- The packet in a consume pass just before the next step is selected. -/
def consumed (J : Job n) (c : Cells) (w : Fin n) (p : Fin 4) (inp : PassInputs) (f : Flight n) : Ig :=
  let ig := J.entered w p inp f
  let c' := c.consume (J.bit w) ig.md (J.contribution w f.phase (2 * p)) (J.contribution w f.phase (2 * p + 1))
  { ig with
    md := J.consumedMd c w p f ig.md
    hdr := { ig.hdr with
      d0 := some (J.contribution w f.phase (2 * p))
      d1 := some fun i => (c'.values (J.set f.phase) i).second } }

variable (h : AtConsume J w p f)
include h

theorem entered_poolIndex : (J.entered w p inp f).md.poolIndex = J.poolIndex f.phase := by
  have hidx : f.wire.md.poolIndex = J.poolIndex f.phase := poolIndex_of_fixed h.fixed
  unfold Job.entered
  split <;> exact hidx

theorem entered_fixed : fixedMd (J.entered w p inp f).md = fixedMd (J.packetMd w f.phase) := by
  rw [← h.fixed]
  unfold Job.entered
  split <;> rfl

theorem entered_type : (J.entered w p inp f).md.packetType = consumeType p := by
  rw [← h.type]
  unfold Job.entered
  split <;> rfl

theorem process (hd : p = 0 → inp.portMetadata.ingressDropProbability ≠ 0xffff) :
    let ig := J.entered w p inp f
    let c := Cells.of regs J.slot
    let c' := c.consume (J.bit w) ig.md (J.contribution w f.phase (2 * p)) (J.contribution w f.phase (2 * p + 1))
    Ingress.process J.tables regs ig =
      (c'.store regs J.slot, NextStepSelector.apply J.tables.nextStep (consumed J c w p inp f)) := by
  simp only
  rw [process_consume (h.consumes hd), h.entered_poolIndex, J.slotOf_poolIndex, J.setBit_poolIndex]
  simp only [consumed, Job.consumedMd, h.entered_poolIndex, J.setBit_poolIndex]
  rfl

theorem outcome_process (hd : p = 0 → inp.portMetadata.ingressDropProbability ≠ 0xffff) :
    let ig := J.entered w p inp f
    let c := Cells.of regs J.slot
    let c' := c.consume (J.bit w) ig.md (J.contribution w f.phase (2 * p)) (J.contribution w f.phase (2 * p + 1))
    outcome (Ingress.process J.tables regs ig).2 =
      J.consumeOutcome w p f (J.consumedMd c w p f ig.md) fun i => (c'.values (J.set f.phase) i).second := by
  simp only
  rw [h.process hd]
  have hlt := h.lt
  have hle := J.pipes_le
  have hfix : fixedMd (consumed J (Cells.of regs J.slot) w p inp f).md = fixedMd (J.packetMd w f.phase) :=
    h.entered_fixed
  have hsize := packetSize_of_fixed hfix
  have hid : (consumed J (Cells.of regs J.slot) w p inp f).md.workerId = BitVec.ofNat 16 (J.id w) :=
    workerId_of_fixed hfix
  have htype : (consumed J (Cells.of regs J.slot) w p inp f).md.packetType = consumeType p := h.entered_type
  have htab : J.tables.nextStep = addDefaultEntries J.foldedPipe := rfl
  unfold NextStepSelector.apply Job.consumeOutcome
  by_cases hp : p.val + 1 < J.pipes
  · rw [if_pos hp]
    obtain ⟨h1024, hfold, h16⟩ := J.folded_of_pipes (by omega) w
    rw [htab, hfold, nextStep_forward (by omega) (hsize.trans h1024) h16 hid htype]
    split
    · rename_i hgone
      rw [if_pos (by exact hgone)]
      exact exec_consume_gone (Or.inr rfl)
    · rename_i hgo
      rw [if_neg (by exact hgo), exec_forward (by omega) h16 rfl]
      · rfl
      · intro hpos
        show f.port = _
        rw [h.port, if_neg fun h0 => by rw [h0] at hpos; exact absurd hpos (by decide)]
  · have hrest : (consumed J (Cells.of regs J.slot) w p inp f).rest = [] := J.slicesFrom_eq_nil (by omega)
    rw [if_neg hp]
    by_cases h256 : J.packetSize = .MTU_256
    · obtain rfl : p = 0 := by
        unfold Session.pipes at hlt
        rw [if_pos h256] at hlt
        exact Fin.ext (by omega)
      have hfirst : J.firstHarvest = .HARVEST7 := if_pos h256
      rw [htab, nextStep_256_CONSUME0 (hsize.trans h256) htype, hfirst,
        exec_lastConsume (t := .HARVEST7) rfl fun _ => rfl, hrest]
      rfl
    · obtain ⟨h1024, hfold, -⟩ := (J.supported w).resolve_left h256
      obtain rfl : p = 3 := by
        unfold Session.pipes at hp
        rw [if_neg h256] at hp
        exact Fin.ext (by omega)
      have hfirst : J.firstHarvest = .HARVEST1 := if_neg h256
      rw [htab, hfold, nextStep_1024_CONSUME3 (hsize.trans h1024) htype, hfirst,
        exec_lastConsume (t := .HARVEST1) rfl fun _ => rfl, hrest]
      rfl

end AtConsume

/-! ## Harvest passes -/

/-- A packet on its way to a harvest pass. -/
structure AtHarvest (J : Job n) (w : Fin n) (t : PacketType) (f : Flight n) : Prop where
  isHarvest : isHarvest t = true
  size : J.packetSize = .MTU_256 → t = .HARVEST7
  type : f.wire.md.packetType = t
  fixed : fixedMd f.wire.md = fixedMd (J.packetMd w f.phase)
  port : f.port = harvestPort t

/-- The packet in the pass, before the first control. -/
def harvestEntered (inp : PassInputs) (f : Flight n) : Ig :=
  { Ig.ofWire inp.portMetadata f.port f.wire with hdr := { d0 := some inp.u0, d1 := some inp.u1 } }

/-- The half of the cells a harvest pass reads. -/
def harvestHalf (t : PacketType) (cells : Fin 32 → Pair Value) : DataH :=
  if t.readsFirst then fun i => (cells i).first else fun i => (cells i).second

/-- The metadata after a harvest pass. -/
def Job.harvestedMd (J : Job n) (c : Cells) (f : Flight n) : SwitchmlMd :=
  { f.wire.md with e1 :=
      if f.wire.md.lastPacket ∧ f.wire.md.packetType = .HARVEST7 then (c.exponents (J.set f.phase)).second
      else f.wire.md.e1 }

/-- Where a packet goes from a harvest pass over the cells `c`. -/
def Job.harvestOutcome (J : Job n) (c : Cells) (t : PacketType) (f : Flight n) : Outcome :=
  let md := J.harvestedMd c f
  let payload := harvestHalf t (c.values (J.set f.phase)) :: f.wire.payload
  if t ≠ .HARVEST7 then
    .recirculate (harvestPort (nextHarvest t)) ⟨{ md with packetType := nextHarvest t }, f.wire.rdmaAddr, payload⟩
  else if md.firstLastFlag = Flag.LAST ∧ md.mapResult = 0 then
    .response true ⟨{ md with packetType := .BROADCAST }, f.wire.rdmaAddr, payload⟩
  else if md.firstLastFlag = Flag.FIRST ∧ md.mapResult ≠ 0 then
    .response false ⟨{ md with packetType := .RETRANSMIT }, f.wire.rdmaAddr, payload⟩
  else .gone

theorem isSwitchML_of_isHarvest {t : PacketType} (h : isHarvest t = true) : t.isSwitchML = true := by
  cases t <;> simp only [isHarvest, Bool.false_eq_true] at h <;> rfl

theorem not_isConsume_of_isHarvest {t : PacketType} (h : isHarvest t = true) : t.isConsume = false := by
  cases t <;> simp only [isHarvest, Bool.false_eq_true] at h <;> rfl

/-- Each harvest step drops the half that was not read. -/
theorem exec_harvestStep {t : PacketType} {ig : Ig} {d0 d1 : DataH} (ht : isHarvest t = true) (h7 : t ≠ .HARVEST7)
    (hv : ig.mdValid = true) (h0 : ig.hdr.d0 = some d0) (h1 : ig.hdr.d1 = some d1) :
    outcome (NextStepSelector.exec (harvestStep t) ig) =
      .recirculate (harvestPort (nextHarvest t))
        ⟨{ ig.md with packetType := nextHarvest t }, ig.rdmaAddr, (if t.readsFirst then d0 else d1) :: ig.rest⟩ := by
  have hgo0 : ∀ t', outcome (NextStepSelector.recirculateForHarvest t' (harvestPort t') (NextStepSelector.dropD0 ig)) =
      .recirculate (harvestPort t') ⟨{ ig.md with packetType := t' }, ig.rdmaAddr, d1 :: ig.rest⟩ := by
    intro t'
    have hpay : (NextStepSelector.dropD0 ig).hdr.d0.toList ++ (NextStepSelector.dropD0 ig).hdr.d1.toList ++
        (NextStepSelector.dropD0 ig).rest = d1 :: ig.rest := by
      simp [NextStepSelector.dropD0, Ig.withHdr, h1]
    rw [NextStepSelector.recirculateForHarvest,
      NextStepSelector.outcome_recirculate (show (NextStepSelector.dropD0 ig).mdValid = true from hv)
        (parsesRecirculate_harvestPort t'), deparse, hpay]
    rfl
  have hgo1 : ∀ t', outcome (NextStepSelector.recirculateForHarvest t' (harvestPort t') (NextStepSelector.dropD1 ig)) =
      .recirculate (harvestPort t') ⟨{ ig.md with packetType := t' }, ig.rdmaAddr, d0 :: ig.rest⟩ := by
    intro t'
    have hpay : (NextStepSelector.dropD1 ig).hdr.d0.toList ++ (NextStepSelector.dropD1 ig).hdr.d1.toList ++
        (NextStepSelector.dropD1 ig).rest = d0 :: ig.rest := by
      simp [NextStepSelector.dropD1, Ig.withHdr, h0]
    rw [NextStepSelector.recirculateForHarvest,
      NextStepSelector.outcome_recirculate (show (NextStepSelector.dropD1 ig).mdValid = true from hv)
        (parsesRecirculate_harvestPort t'), deparse, hpay]
    rfl
  cases t <;> simp only [isHarvest, Bool.false_eq_true] at ht
  · exact hgo1 .HARVEST2
  · exact hgo0 .HARVEST3
  · exact hgo1 .HARVEST4
  · exact hgo0 .HARVEST5
  · exact hgo1 .HARVEST6
  · exact hgo0 .HARVEST7
  · exact absurd rfl h7

/-- The next step of the last harvest pass. -/
theorem exec_lastHarvest {ig : Ig} {d0 : DataH} (hv : ig.mdValid = true) (h0 : ig.hdr.d0 = some d0) :
    outcome (NextStepSelector.exec
      (if ig.md.firstLastFlag = Flag.LAST ∧ ig.md.mapResult = 0 then .broadcast
        else if ig.md.firstLastFlag = Flag.FIRST ∧ ig.md.mapResult ≠ 0 then .retransmit else .drop) ig) =
      if ig.md.firstLastFlag = Flag.LAST ∧ ig.md.mapResult = 0 then
        .response true ⟨{ ig.md with packetType := .BROADCAST }, ig.rdmaAddr, d0 :: ig.rest⟩
      else if ig.md.firstLastFlag = Flag.FIRST ∧ ig.md.mapResult ≠ 0 then
        .response false ⟨{ ig.md with packetType := .RETRANSMIT }, ig.rdmaAddr, d0 :: ig.rest⟩
      else .gone := by
  have hpay : deparse (NextStepSelector.dropD1 ig) = ⟨ig.md, ig.rdmaAddr, d0 :: ig.rest⟩ := by
    simp [deparse, NextStepSelector.dropD1, Ig.withHdr, h0]
  by_cases hb : ig.md.firstLastFlag = Flag.LAST ∧ ig.md.mapResult = 0
  · rw [if_pos hb, if_pos hb]
    show outcome (NextStepSelector.broadcast ig) = _
    rw [NextStepSelector.outcome_broadcast hv, hpay]
  · by_cases hr : ig.md.firstLastFlag = Flag.FIRST ∧ ig.md.mapResult ≠ 0
    · rw [if_neg hb, if_neg hb, if_pos hr, if_pos hr]
      show outcome (NextStepSelector.retransmit ig) = _
      rw [NextStepSelector.outcome_retransmit hv, hpay]
    · rw [if_neg hb, if_neg hb, if_neg hr, if_neg hr]
      exact NextStepSelector.outcome_drop

/-- The packet in a harvest pass just before the next step is selected. -/
def harvested (J : Job n) (c : Cells) (t : PacketType) (inp : PassInputs) (f : Flight n) : Ig :=
  { harvestEntered inp f with
    md := J.harvestedMd c f
    hdr := {
      d0 := some (if t.readsFirst then harvestHalf t (c.values (J.set f.phase)) else inp.u0)
      d1 := some (if t.readsFirst then inp.u1 else harvestHalf t (c.values (J.set f.phase))) } }

namespace AtHarvest

variable {t : PacketType} (h : AtHarvest J w t f)
include h

theorem enter : J.enter w inp f = some (harvestEntered inp f) := by
  have hcons : f.wire.md.packetType.isConsume = false := by
    rw [h.type]; exact not_isConsume_of_isHarvest h.isHarvest
  have hne : f.wire.md.packetType ≠ .CONSUME0 := by
    intro h0
    rw [h0] at hcons
    cases hcons
  unfold Session.enter parseRecirculate
  rw [if_neg (by rw [show (Ig.ofWire inp.portMetadata f.port f.wire).md.packetType.isConsume = false from hcons]
                 exact Bool.false_ne_true), Option.map_some, if_neg (by exact hne)]
  unfold Ingress.rebuild
  rw [if_neg (by rw [show (parseHarvest inp.u0 inp.u1 (Ig.ofWire inp.portMetadata f.port f.wire)).md.packetType.isConsume
                    = false from hcons]
                 exact Bool.false_ne_true)]
  rfl

theorem process :
    Ingress.process J.tables regs (harvestEntered inp f) =
      (regs, NextStepSelector.apply J.tables.nextStep (harvested J (Cells.of regs J.slot) t inp f)) := by
  have ht : (harvestEntered inp f).md.packetType = t := h.type
  have hidx : (harvestEntered inp f).md.poolIndex = J.poolIndex f.phase := poolIndex_of_fixed h.fixed
  rw [process_harvest (by rw [ht]; exact isSwitchML_of_isHarvest h.isHarvest)
    (by rw [ht]; exact not_isConsume_of_isHarvest h.isHarvest) rfl rfl rfl, hidx, J.slotOf_poolIndex,
    J.setBit_poolIndex]
  unfold harvested Job.harvestedMd harvestHalf
  rw [ht, h.type]
  cases t.readsFirst <;> rfl

theorem outcome_process :
    outcome (Ingress.process J.tables regs (harvestEntered inp f)).2 =
      J.harvestOutcome (Cells.of regs J.slot) t f := by
  rw [h.process]
  have hsize : (harvested J (Cells.of regs J.slot) t inp f).md.packetSize = J.packetSize :=
    packetSize_of_fixed h.fixed
  have ht : (harvested J (Cells.of regs J.slot) t inp f).md.packetType = t := h.type
  have htab : J.tables.nextStep = addDefaultEntries J.foldedPipe := rfl
  have hhalf : (if t.readsFirst then
        (if t.readsFirst then harvestHalf t ((Cells.of regs J.slot).values (J.set f.phase)) else inp.u0)
      else if t.readsFirst then inp.u1 else harvestHalf t ((Cells.of regs J.slot).values (J.set f.phase))) =
      harvestHalf t ((Cells.of regs J.slot).values (J.set f.phase)) := by
    cases t.readsFirst <;> rfl
  unfold NextStepSelector.apply Job.harvestOutcome
  by_cases h7 : t = .HARVEST7
  · have hsizes : (harvested J (Cells.of regs J.slot) t inp f).md.packetSize = .MTU_256 ∨
        (harvested J (Cells.of regs J.slot) t inp f).md.packetSize = .MTU_1024 := by
      rw [hsize]
      rcases J.supported w with hs | hs
      · exact Or.inl hs
      · exact Or.inr hs.1
    rw [if_neg (by rw [h7]; simp), htab, nextStep_HARVEST7 hsizes (ht.trans h7), exec_lastHarvest rfl rfl]
    subst h7
    rfl
  · obtain ⟨h1024, hfold, -⟩ := (J.supported w).resolve_left fun h256 => h7 (h.size h256)
    rw [if_pos h7, htab, hfold, nextStep_1024_harvest (hsize.trans h1024)
      (by rw [ht]; exact isSwitchML_of_isHarvest h.isHarvest)
      (by rw [ht]; exact not_isConsume_of_isHarvest h.isHarvest) (by rw [ht]; exact h7), ht,
      exec_harvestStep h.isHarvest h7 rfl rfl rfl, hhalf]
    rfl

end AtHarvest

end SwitchML.Aggregation
