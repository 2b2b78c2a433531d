/-
What the passes decide does not depend on the data. A slot whose values,
exponents and message ids are all blank goes through the same passes as one with
data, and its packets go the same ways.
-/
import SwitchML.Aggregation.System

namespace SwitchML.Aggregation

open P4 Tna Phases Controller

variable {n : ℕ}

/-! ## Without the data -/

/-- The metadata without the exponents and the message id. -/
def blankMd (md : SwitchmlMd) : SwitchmlMd := { md with e0 := 0, e1 := 0, msgId := 0 }

def blankData : DataH := fun _ => 0

def blankWire (wire : Wire) : Wire where
  md := blankMd wire.md
  rdmaAddr := wire.rdmaAddr
  payload := wire.payload.map fun _ => blankData

def Flight.blank (f : Flight n) : Flight n := { f with wire := blankWire f.wire }

def Response.blank (r : Response n) : Response n := { r with wire := blankWire r.wire }

def PassInputs.blank (inp : PassInputs) : PassInputs := { inp with u0 := blankData, u1 := blankData }

def Cells.blank (c : Cells) : Cells := { c with exponents := fun _ => ⟨0, 0⟩, values := fun _ _ => ⟨0, 0⟩ }

def blankOutcome : Outcome → Outcome
  | .gone => .gone
  | .response broadcast wire => .response broadcast (blankWire wire)
  | .recirculate port wire => .recirculate port (blankWire wire)

def blankHdr (hdr : Hdr) : Hdr :=
  { hdr with d0 := hdr.d0.map fun _ => blankData, d1 := hdr.d1.map fun _ => blankData }

def blankIg (ig : Ig) : Ig :=
  { ig with md := blankMd ig.md, hdr := blankHdr ig.hdr, rest := ig.rest.map fun _ => blankData }

/-! ## A pass without the data -/

variable {ig : Ig} {regs regs₀ : Regs} {tables : Tables} {d0 d1 : DataH}

theorem deparse_blank (ig : Ig) : deparse (blankIg ig) = blankWire (deparse ig) := by
  unfold deparse blankWire blankIg blankHdr
  cases ig.hdr.d0 <;> cases ig.hdr.d1 <;> simp

theorem outcome_blank (ig : Ig) : outcome (blankIg ig) = blankOutcome (outcome ig) := by
  have hmd : (blankIg ig).md.packetType = ig.md.packetType := rfl
  have hctl : (blankIg ig).dropCtl = ig.dropCtl := rfl
  have hvalid : (blankIg ig).mdValid = ig.mdValid := rfl
  have hbypass : (blankIg ig).bypassEgress = ig.bypassEgress := rfl
  have hport : (blankIg ig).ucastEgressPort = ig.ucastEgressPort := rfl
  unfold outcome
  rw [hmd, hctl, hvalid, hbypass, hport, deparse_blank]
  split
  · rfl
  · split
    · cases ig.ucastEgressPort with
      | none => rfl
      | some port =>
        dsimp only
        split <;> rfl
    · cases ig.md.packetType <;> rfl

theorem exec_blank (step : NextStep) (ig : Ig) :
    NextStepSelector.exec step (blankIg ig) = blankIg (NextStepSelector.exec step ig) := by
  cases step <;> rfl

theorem apply_blank (entries : List NextStepEntry) (ig : Ig) :
    NextStepSelector.apply entries (blankIg ig) = blankIg (NextStepSelector.apply entries ig) :=
  exec_blank _ ig

theorem reconstructWorkerBitmap_blank (ig : Ig) :
    reconstructWorkerBitmap (blankIg ig) = blankIg (reconstructWorkerBitmap ig) := by
  have hid : (blankIg ig).md.workerId = ig.md.workerId := rfl
  unfold reconstructWorkerBitmap
  rw [hid]
  cases lookup reconstructWorkerBitmapEntries (fun e => e.1.hits ig.md.workerId) (·.2) <;> rfl

theorem rebuild_blank (ig : Ig) : Ingress.rebuild (blankIg ig) = blankIg (Ingress.rebuild ig) := by
  have htype : (blankIg ig).md.packetType = ig.md.packetType := rfl
  unfold Ingress.rebuild
  rw [htype]
  split
  · exact reconstructWorkerBitmap_blank ig
  · rfl

theorem parseRecirculate_blank (inp : PassInputs) (ig : Ig) :
    parseRecirculate inp.blank.u0 inp.blank.u1 (blankIg ig) = (parseRecirculate inp.u0 inp.u1 ig).map blankIg := by
  have htype : (blankIg ig).md.packetType = ig.md.packetType := rfl
  unfold parseRecirculate
  rw [htype]
  split
  · have hrest : (blankIg ig).rest = ig.rest.map fun _ => blankData := rfl
    unfold parseConsume
    rw [hrest]
    match ig.rest with
    | [] => rfl
    | [_] => rfl
    | _ :: _ :: _ => rfl
  · rfl

theorem enter_blank (J : Session n) (w : Fin n) (inp : PassInputs) (f : Flight n) :
    J.enter w inp.blank f.blank = (J.enter w inp f).map blankIg := by
  have hwire : Ig.ofWire inp.blank.portMetadata f.blank.port f.blank.wire =
      blankIg (Ig.ofWire inp.portMetadata f.port f.wire) := rfl
  unfold Session.enter
  rw [hwire, parseRecirculate_blank, Option.map_map, Option.map_map]
  refine congrArg (Option.map · _) (funext fun ig => ?_)
  simp only [Function.comp]
  by_cases h : ig.md.packetType = .CONSUME0
  · rw [if_pos h, if_pos (show (blankIg ig).md.packetType = .CONSUME0 from h)]
    rfl
  · rw [if_neg h, if_neg (show (blankIg ig).md.packetType ≠ .CONSUME0 from h), rebuild_blank]

theorem Cells.readMd_blank (c : Cells) (bit : WorkerBitmap) (md : SwitchmlMd) :
    c.blank.readMd bit (blankMd md) = blankMd (c.readMd bit md) := rfl

/-- Blank cells stay blank. -/
theorem Cells.consume_blank (c : Cells) (bit : WorkerBitmap) (md : SwitchmlMd) (d0 d1 : DataH) :
    c.blank.consume bit (blankMd md) blankData blankData = (c.consume bit md d0 d1).blank := by
  have hexp : exponentsCell (blankMd (c.readMd bit md)) ⟨0, 0⟩ = ⟨0, 0⟩ := by
    unfold exponentsCell SwitchmlMd.absorb Pair.map₂
    split
    · split
      · rfl
      · split <;> rfl
    · rfl
  have hval : valuesCell (blankMd (c.readMd bit md)) blankData blankData (fun _ => ⟨0, 0⟩) = fun _ => ⟨0, 0⟩ := by
    funext i
    unfold valuesCell SwitchmlMd.absorb Pair.map₂
    split
    · rfl
    · split <;> rfl
  unfold consume
  rw [readMd_blank]
  refine Cells.mk.injEq .. |>.mpr ⟨rfl, rfl, ?_, ?_⟩
  · show Function.update (fun _ => (⟨0, 0⟩ : Pair Exponent)) _ (exponentsCell _ ⟨0, 0⟩) = _
    rw [hexp, Function.update_eq_self_iff.mpr rfl]
  · show Function.update (fun (_ : Bool) (_ : Fin 32) => (⟨0, 0⟩ : Pair Value)) _
      (valuesCell _ _ _ fun _ => ⟨0, 0⟩) = _
    rw [hval, Function.update_eq_self_iff.mpr rfl]

theorem Consumes.blank (h : Consumes ig d0 d1) : Consumes (blankIg ig) blankData blankData where
  isConsume := h.isConsume
  dropCtl := h.dropCtl
  notSimulated := h.notSimulated
  d0 := by
    show ig.hdr.d0.map _ = _
    rw [h.d0]
    rfl
  d1 := by
    show ig.hdr.d1.map _ = _
    rw [h.d1]
    rfl

/-- A pass leaves the same cells, but for the data, and the packet goes the same way. -/
def SamePass (tables : Tables) (slot : BitVec 14) (regs regs₀ : Regs) (ig : Ig) : Prop :=
  Cells.of (Ingress.process tables regs₀ (blankIg ig)).1 slot = (Cells.of (Ingress.process tables regs ig).1 slot).blank ∧
    outcome (Ingress.process tables regs₀ (blankIg ig)).2 = blankOutcome (outcome (Ingress.process tables regs ig).2)

theorem samePass_consume (h : Consumes ig d0 d1)
    (hcells : Cells.of regs₀ (slotOf ig.md.poolIndex) = (Cells.of regs (slotOf ig.md.poolIndex)).blank) :
    SamePass tables (slotOf ig.md.poolIndex) regs regs₀ ig := by
  have hbit : (blankIg ig).workerBitmap = ig.workerBitmap := rfl
  have hmd : (blankIg ig).md = blankMd ig.md := rfl
  unfold SamePass
  rw [process_consume h, process_consume h.blank]
  simp only [hbit, hmd, show (blankMd ig.md).poolIndex = ig.md.poolIndex from rfl, hcells, Cells.readMd_blank,
    fun c bit md => Cells.consume_blank c bit md d0 d1, Cells.of_store_self, true_and]
  rw [← outcome_blank, ← apply_blank]
  refine congrArg (fun ig => outcome (NextStepSelector.apply tables.nextStep ig)) ?_
  unfold blankIg
  refine Ig.mk.injEq .. |>.mpr ⟨rfl, ?_, rfl, rfl, rfl, rfl, rfl, rfl, rfl, rfl, rfl, rfl, rfl⟩
  dsimp only
  split <;> rfl

theorem samePass_harvest (hs : ig.md.packetType.isSwitchML = true) (hc : ig.md.packetType.isConsume = false)
    (hd : ig.dropCtl = false) (h0 : ig.hdr.d0 = some d0) (h1 : ig.hdr.d1 = some d1)
    (hcells : Cells.of regs₀ (slotOf ig.md.poolIndex) = (Cells.of regs (slotOf ig.md.poolIndex)).blank) :
    SamePass tables (slotOf ig.md.poolIndex) regs regs₀ ig := by
  have h0' : (blankIg ig).hdr.d0 = some blankData := by
    show ig.hdr.d0.map _ = _
    rw [h0]
    rfl
  have h1' : (blankIg ig).hdr.d1 = some blankData := by
    show ig.hdr.d1.map _ = _
    rw [h1]
    rfl
  have hblank : Ingress.process tables regs₀ (blankIg ig) = _ := process_harvest hs hc hd h0' h1'
  unfold SamePass
  rw [process_harvest hs hc hd h0 h1, hblank]
  refine ⟨hcells, ?_⟩
  rw [← outcome_blank, ← apply_blank]
  refine congrArg (fun ig => outcome (NextStepSelector.apply tables.nextStep ig)) ?_
  have hidx : (blankIg ig).md.poolIndex = ig.md.poolIndex := rfl
  simp only [hidx, hcells]
  unfold blankIg
  refine Ig.mk.injEq .. |>.mpr ⟨?_, ?_, rfl, rfl, rfl, rfl, rfl, rfl, rfl, rfl, rfl, rfl, rfl⟩
  · dsimp only
    cases hr : ig.md.packetType.readsFirst <;> simp [blankMd, blankHdr, Cells.blank, hr] <;> rfl
  · dsimp only
    unfold blankMd
    simp [Cells.blank]

theorem consumes_of_blank {e0 e1 : DataH} (h : Consumes (blankIg ig) e0 e1) : ∃ d0 d1, Consumes ig d0 d1 := by
  obtain ⟨d0, h0, -⟩ := Option.map_eq_some_iff.mp h.d0
  obtain ⟨d1, h1, -⟩ := Option.map_eq_some_iff.mp h.d1
  exact ⟨d0, d1, h.isConsume, h.dropCtl, h.notSimulated, h0, h1⟩

/-! ## What a packet keeps -/

theorem outcome_eq_recirculate {port : PortId} {wire : Wire} (ho : outcome ig = .recirculate port wire) :
    wire = deparse ig ∧ ig.dropCtl = false ∧ ig.bypassEgress = true := by
  unfold outcome at ho
  split at ho
  · cases ho
  · rename_i hctl
    simp only [Bool.or_eq_true, not_or, Bool.not_eq_true] at hctl
    split at ho
    · rename_i hbypass
      refine ⟨?_, hctl.1, hbypass⟩
      split at ho
      · split at ho
        · simp only [Outcome.recirculate.injEq] at ho
          exact ho.2.symm
        · cases ho
      · cases ho
    · split at ho <;> cases ho

theorem outcome_eq_response {broadcast : Bool} {wire : Wire} (ho : outcome ig = .response broadcast wire) :
    wire = deparse ig := by
  unfold outcome at ho
  split at ho
  · cases ho
  · split at ho
    · split at ho
      · split at ho <;> cases ho
      · cases ho
    · split at ho
      · simp only [Outcome.response.injEq] at ho
        exact ho.2.symm
      · simp only [Outcome.response.injEq] at ho
        exact ho.2.symm
      · cases ho

theorem exec_msgId (step : NextStep) (ig : Ig) : (NextStepSelector.exec step ig).md.msgId = ig.md.msgId := by
  cases step <;> rfl

/-- What goes on to a consume pass has lost the data headers. -/
theorem exec_rest {step : NextStep} {port : PortId} {wire : Wire}
    (ho : outcome (NextStepSelector.exec step ig) = .recirculate port wire)
    (hc : wire.md.packetType.isConsume = true) : wire.payload = ig.rest := by
  obtain ⟨rfl, hctl, hbypass⟩ := outcome_eq_recirculate ho
  cases step with
  | recirculateForCONSUME1 => rfl
  | recirculateForCONSUME2SamePortNextPipe => rfl
  | recirculateForCONSUME3SamePortNextPipe => rfl
  | finishConsume => cases hctl
  | drop => cases hctl
  | broadcast => cases hbypass
  | retransmit => cases hbypass
  | _ => cases hc

/-- The next step is selected for the packet with other data. -/
def Selects (tables : Tables) (regs : Regs) (ig : Ig) : Prop :=
  ∃ ig', (Ingress.process tables regs ig).2 = NextStepSelector.apply tables.nextStep ig' ∧
    ig'.md.msgId = ig.md.msgId ∧ ig'.rest = ig.rest

theorem Consumes.selects (h : Consumes ig d0 d1) : Selects tables regs ig := by
  unfold Selects
  rw [process_consume h]
  exact ⟨_, rfl, rfl, rfl⟩

theorem Selects.recirculated (h : Selects tables regs ig) {port : PortId} {wire : Wire}
    (ho : outcome (Ingress.process tables regs ig).2 = .recirculate port wire) :
    wire.md.msgId = ig.md.msgId ∧ (wire.md.packetType.isConsume = true → wire.payload = ig.rest) := by
  obtain ⟨ig', heq, hmsgId, hrest⟩ := h
  rw [heq] at ho
  obtain ⟨rfl, -⟩ := outcome_eq_recirculate ho
  refine ⟨(exec_msgId _ ig').trans hmsgId, fun hc => ?_⟩
  exact (exec_rest ho hc).trans hrest

theorem Selects.response (h : Selects tables regs ig) {broadcast : Bool} {wire : Wire}
    (ho : outcome (Ingress.process tables regs ig).2 = .response broadcast wire) : wire.md.msgId = ig.md.msgId := by
  obtain ⟨ig', heq, hmsgId, -⟩ := h
  rw [heq] at ho
  obtain rfl := outcome_eq_response ho
  exact (exec_msgId _ ig').trans hmsgId

theorem enter_keeps {J : Session n} (hig : J.enter w inp f = some ig) :
    ig.md.msgId = f.wire.md.msgId ∧ (f.wire.md.packetType.isConsume = true → ig.rest = f.wire.payload.drop 2) := by
  have hrebuild (ig : Ig) : (Ingress.rebuild ig).md = ig.md ∧ (Ingress.rebuild ig).rest = ig.rest := by
    unfold Ingress.rebuild reconstructWorkerBitmap
    split
    · split <;> exact ⟨rfl, rfl⟩
    · exact ⟨rfl, rfl⟩
  obtain ⟨ig', hparse, rfl⟩ := Option.map_eq_some_iff.mp hig
  have hparsed : ig'.md = f.wire.md ∧ (f.wire.md.packetType.isConsume = true → ig'.rest = f.wire.payload.drop 2) := by
    unfold parseRecirculate at hparse
    split at hparse
    · unfold parseConsume at hparse
      split at hparse
      · rename_i d0 d1 rest hrest
        simp only [Option.some.injEq] at hparse
        subst hparse
        refine ⟨rfl, fun _ => ?_⟩
        rw [show f.wire.payload = d0 :: d1 :: rest from hrest]
        rfl
      · cases hparse
    · rename_i hc
      simp only [Option.some.injEq] at hparse
      subst hparse
      exact ⟨rfl, fun h => absurd h hc⟩
  rw [← hparsed.1]
  split
  · exact ⟨rfl, hparsed.1 ▸ hparsed.2⟩
  · rw [(hrebuild ig').1, (hrebuild ig').2]
    exact ⟨rfl, hparsed.1 ▸ hparsed.2⟩

end SwitchML.Aggregation
