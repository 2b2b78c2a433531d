/-
The harvest chain of 1024 byte packets: seven passes that each put one half of
the cells in front of the payload, in the pipe of the port they arrive on.

The ports of the passes are the controller's. `HARVEST3` arrives on port 448,
which belongs to pipe 3, where the fourth slice is in pipe 2: the payload is
right exactly if the two pipes hold the same first half.
-/
import SwitchML.Aggregation.Pass

namespace SwitchML.Aggregation

open P4 Tna Controller

/-- A recirculated packet's pass, in the pipe its port belongs to. -/
def recirculatedPass (tables : Tables) (regs : Fin 4 → Regs) (inp : PassInputs) (port : PortId) (wire : Wire) :
    (Fin 4 → Regs) × Outcome :=
  match parseRecirculate inp.u0 inp.u1 (Ig.ofWire inp.portMetadata port wire) with
  | none => (regs, .gone)
  | some ig =>
    let r := Ingress.process tables (regs (pipeOf port)) (Ingress.rebuild ig)
    (Function.update regs (pipeOf port) r.1, outcome r.2)

/-- The passes a packet makes one after the other, as long as it is recirculated. -/
def follow (tables : Tables) : List PassInputs → (Fin 4 → Regs) × Outcome → (Fin 4 → Regs) × Outcome
  | inp :: inps, (regs, .recirculate port wire) => follow tables inps (recirculatedPass tables regs inp port wire)
  | _, r => r

/-- The half of the cells of a pool index a harvest pass reads in a pipe. -/
def readHalf (t : PacketType) (regs : Regs) (idx : PoolIndex) : DataH := harvestHalf t fun i => regs.values i idx

/-- The cells of a pool index in all pipes, in the order of the payload. -/
def slicesOf (regs : Fin 4 → Regs) (idx : PoolIndex) : List DataH :=
  (List.finRange 4).flatMap fun p => [fun i => ((regs p).values i idx).first, fun i => ((regs p).values i idx).second]

variable {tables : Tables} {regs : Fin 4 → Regs} {inp : PassInputs} {inps : List PassInputs} {port : PortId}
  {wire : Wire} {t : PacketType}

/-! ## One pass -/

/-- The packet in a harvest pass just before the next step is selected. -/
def harvestRead (regs : Regs) (inp : PassInputs) (port : PortId) (wire : Wire) : Ig :=
  let half := readHalf wire.md.packetType regs wire.md.poolIndex
  { Ig.ofWire inp.portMetadata port wire with
    md := { wire.md with e1 :=
      if wire.md.lastPacket ∧ wire.md.packetType = .HARVEST7 then (regs.exponents wire.md.poolIndex).second
      else wire.md.e1 }
    hdr := {
      d0 := some (if wire.md.packetType.readsFirst then half else inp.u0)
      d1 := some (if wire.md.packetType.readsFirst then inp.u1 else half) } }

/-- A harvest pass changes no register. -/
theorem recirculatedPass_harvest (hh : isHarvest wire.md.packetType = true) :
    recirculatedPass tables regs inp port wire =
      (regs, outcome (NextStepSelector.apply tables.nextStep (harvestRead (regs (pipeOf port)) inp port wire))) := by
  have hcons := not_isConsume_of_isHarvest hh
  have hparse : parseRecirculate inp.u0 inp.u1 (Ig.ofWire inp.portMetadata port wire) =
      some (parseHarvest inp.u0 inp.u1 (Ig.ofWire inp.portMetadata port wire)) :=
    if_neg fun hc => Bool.false_ne_true (hcons.symm.trans hc)
  have hrebuild : Ingress.rebuild (parseHarvest inp.u0 inp.u1 (Ig.ofWire inp.portMetadata port wire)) =
      parseHarvest inp.u0 inp.u1 (Ig.ofWire inp.portMetadata port wire) :=
    if_neg fun hc => Bool.false_ne_true (hcons.symm.trans hc)
  have hprocess : Ingress.process tables (regs (pipeOf port))
      (parseHarvest inp.u0 inp.u1 (Ig.ofWire inp.portMetadata port wire)) = _ :=
    process_harvest (isSwitchML_of_isHarvest hh) hcons rfl rfl rfl
  unfold recirculatedPass
  simp only [hparse, hrebuild, hprocess, Function.update_eq_self]
  refine Prod.ext rfl (congrArg (fun ig => outcome (NextStepSelector.apply tables.nextStep ig)) ?_)
  unfold harvestRead readHalf harvestHalf
  have hmd : (parseHarvest inp.u0 inp.u1 (Ig.ofWire inp.portMetadata port wire)).md = wire.md := rfl
  rw [hmd]
  simp only [Cells.of, indexOf_slotOf]
  cases wire.md.packetType.readsFirst <;> rfl

theorem harvestRead_half (regs : Regs) (inp : PassInputs) (wire : Wire) :
    (if wire.md.packetType.readsFirst then
        (if wire.md.packetType.readsFirst then readHalf wire.md.packetType regs wire.md.poolIndex else inp.u0)
      else if wire.md.packetType.readsFirst then inp.u1
      else readHalf wire.md.packetType regs wire.md.poolIndex) =
      readHalf wire.md.packetType regs wire.md.poolIndex := by
  cases wire.md.packetType.readsFirst <;> rfl

/-- All but the last harvest pass send the packet on with one more slice in front. -/
theorem recirculatedPass_next (hf : tables.nextStep = addDefaultEntries true) (hs : wire.md.packetSize = .MTU_1024)
    (ht : wire.md.packetType = t) (hh : isHarvest t = true) (h7 : t ≠ .HARVEST7) :
    recirculatedPass tables regs inp port wire =
      (regs, .recirculate (harvestPort (nextHarvest t))
        ⟨{ wire.md with packetType := nextHarvest t }, wire.rdmaAddr,
          readHalf t (regs (pipeOf port)) wire.md.poolIndex :: wire.payload⟩) := by
  subst ht
  have hcons := not_isConsume_of_isHarvest hh
  have hmd : (harvestRead (regs (pipeOf port)) inp port wire).md = wire.md := by
    unfold harvestRead
    rw [if_neg fun hc => h7 hc.2]
  rw [recirculatedPass_harvest hh]
  unfold NextStepSelector.apply
  rw [hf, nextStep_1024_harvest (by rw [hmd]; exact hs) (by rw [hmd]; exact isSwitchML_of_isHarvest hh)
    (by rw [hmd]; exact hcons) (by rw [hmd]; exact h7), hmd, exec_harvestStep hh h7 rfl rfl rfl, hmd,
    harvestRead_half]
  rfl

/-- The last pass answers with the first half in front, or not at all. -/
theorem recirculatedPass_last (hf : tables.nextStep = addDefaultEntries true) (hs : wire.md.packetSize = .MTU_1024)
    (ht : wire.md.packetType = .HARVEST7) :
    (recirculatedPass tables regs inp port wire).2 = .gone ∨
      ∃ broadcast result, (recirculatedPass tables regs inp port wire).2 = .response broadcast result ∧
        result.payload = readHalf .HARVEST7 (regs (pipeOf port)) wire.md.poolIndex :: wire.payload := by
  have hhalf : (if wire.md.packetType.readsFirst then readHalf wire.md.packetType (regs (pipeOf port)) wire.md.poolIndex
      else inp.u0) = readHalf .HARVEST7 (regs (pipeOf port)) wire.md.poolIndex := by
    rw [ht]
    rfl
  rw [recirculatedPass_harvest (by rw [ht]; rfl), ← hhalf]
  unfold NextStepSelector.apply
  rw [hf, nextStep_HARVEST7 (Or.inr (by exact hs)) (by exact ht), exec_lastHarvest rfl rfl]
  split
  · exact Or.inr ⟨true, _, rfl, rfl⟩
  · split
    · exact Or.inr ⟨false, _, rfl, rfl⟩
    · exact Or.inl rfl

/-- A worker's bitmap is all that is rebuilt. -/
theorem rebuild_eq (ig : Ig) : ∃ bitmap, Ingress.rebuild ig = { ig with workerBitmap := bitmap } := by
  unfold Ingress.rebuild reconstructWorkerBitmap
  split
  · split
    · exact ⟨_, rfl⟩
    · exact ⟨ig.workerBitmap, rfl⟩
  · exact ⟨ig.workerBitmap, rfl⟩

/-- The next step of the last consume pass, if the packet is to go on. -/
theorem outcome_CONSUME3 {ig : Ig} (hv : ig.mdValid = true) (hs : ig.md.packetSize = .MTU_1024)
    (ht : ig.md.packetType = .CONSUME3) :
    outcome (NextStepSelector.apply (addDefaultEntries true) ig) = .gone ∨
      outcome (NextStepSelector.apply (addDefaultEntries true) ig) =
        .recirculate (harvestPort .HARVEST1)
          ⟨{ ig.md with packetType := .HARVEST1 }, ig.rdmaAddr, ig.hdr.d1.toList ++ ig.rest⟩ := by
  unfold NextStepSelector.apply
  rw [nextStep_1024_CONSUME3 hs ht, exec_lastConsume (t := .HARVEST1) hv fun _ => rfl]
  split
  · exact Or.inr rfl
  · exact Or.inl rfl

/-- The last consume pass' packet as it is parsed. -/
def consumeParsed (inp : PassInputs) (port : PortId) (wire : Wire) (d0 d1 : DataH) : Ig :=
  { Ig.ofWire inp.portMetadata port wire with hdr := { d0 := some d0, d1 := some d1 }, rest := [] }

/-- The last consume pass sends the packet into harvest with its second sums, or not at all. -/
theorem recirculatedPass_CONSUME3 (hf : tables.nextStep = addDefaultEntries true) (hs : wire.md.packetSize = .MTU_1024)
    (ht : wire.md.packetType = .CONSUME3) (hp : pipeOf port = 3) (hlen : wire.payload.length = 2) :
    (recirculatedPass tables regs inp port wire).2 = .gone ∨
      ∃ wire', (recirculatedPass tables regs inp port wire).2 = .recirculate (harvestPort .HARVEST1) wire' ∧
        wire'.md.packetType = .HARVEST1 ∧ wire'.md.packetSize = .MTU_1024 ∧
        wire'.md.poolIndex = wire.md.poolIndex ∧
        wire'.payload =
          [fun i => (((recirculatedPass tables regs inp port wire).1 3).values i wire.md.poolIndex).second] := by
  obtain ⟨d0, d1, hpay⟩ : ∃ d0 d1, wire.payload = [d0, d1] := List.length_eq_two.mp hlen
  have hparse : parseRecirculate inp.u0 inp.u1 (Ig.ofWire inp.portMetadata port wire) =
      some (consumeParsed inp port wire d0 d1) := by
    unfold parseRecirculate
    rw [if_pos (by rw [show (Ig.ofWire inp.portMetadata port wire).md.packetType = .CONSUME3 from ht]; rfl)]
    unfold parseConsume Ig.ofWire
    simp only [hpay]
    rfl
  obtain ⟨bitmap, hrebuild⟩ := rebuild_eq (consumeParsed inp port wire d0 d1)
  have hcons : Consumes { consumeParsed inp port wire d0 d1 with workerBitmap := bitmap } d0 d1 :=
    { isConsume := by
        show wire.md.packetType.isConsume = true
        rw [ht]
        rfl
      dropCtl := rfl
      notSimulated := fun h0 => by
        have h0 : wire.md.packetType = .CONSUME0 := h0
        rw [ht] at h0
        cases h0
      d0 := rfl
      d1 := rfl }
  obtain ⟨regs', ig, hprocess, hv, hsize, htype, hidx, hrest, hd1⟩ : ∃ regs' ig,
      Ingress.process tables (regs 3) { consumeParsed inp port wire d0 d1 with workerBitmap := bitmap } =
        (regs', NextStepSelector.apply tables.nextStep ig) ∧
      ig.mdValid = true ∧ ig.md.packetSize = .MTU_1024 ∧ ig.md.packetType = .CONSUME3 ∧
      ig.md.poolIndex = wire.md.poolIndex ∧ ig.rest = [] ∧
      ig.hdr.d1 = some fun i => (regs'.values i wire.md.poolIndex).second := by
    refine ⟨_, _, process_consume hcons, rfl, hs, ht, rfl, rfl, congrArg some ?_⟩
    funext i
    exact (congrArg Pair.second (if_pos rfl)).symm
  unfold recirculatedPass
  rw [hparse]
  simp only [hrebuild, hp, hprocess, Function.update_self, hf]
  rcases outcome_CONSUME3 hv hsize htype with hgone | hgo
  · exact Or.inl hgone
  · refine Or.inr ⟨_, hgo, rfl, hsize, hidx, ?_⟩
    simp only [hd1, hrest, Option.toList_some, List.append_nil]

/-! ## The chain -/

variable {broadcast : Bool} {result : Wire}

/-- A packet that is answered in the end makes the pass it is sent to. -/
theorem follow_response (h : (follow tables inps (regs, .recirculate port wire)).2 = .response broadcast result) :
    ∃ inp inps', inps = inp :: inps' ∧
      (follow tables inps' (recirculatedPass tables regs inp port wire)).2 = .response broadcast result := by
  cases inps with
  | nil => cases h
  | cons inp inps' => exact ⟨inp, inps', rfl, h⟩

theorem follow_next (hf : tables.nextStep = addDefaultEntries true) (hs : wire.md.packetSize = .MTU_1024)
    (ht : wire.md.packetType = t) (hh : isHarvest t = true) (h7 : t ≠ .HARVEST7)
    (h : (follow tables inps (regs, .recirculate port wire)).2 = .response broadcast result) :
    ∃ inps', (follow tables inps' (regs, .recirculate (harvestPort (nextHarvest t))
      ⟨{ wire.md with packetType := nextHarvest t }, wire.rdmaAddr,
        readHalf t (regs (pipeOf port)) wire.md.poolIndex :: wire.payload⟩)).2 = .response broadcast result := by
  obtain ⟨inp, inps', -, hrest⟩ := follow_response h
  rw [recirculatedPass_next hf hs ht hh h7] at hrest
  exact ⟨inps', hrest⟩

theorem follow_last (hf : tables.nextStep = addDefaultEntries true) (hs : wire.md.packetSize = .MTU_1024)
    (ht : wire.md.packetType = .HARVEST7)
    (h : (follow tables inps (regs, .recirculate port wire)).2 = .response broadcast result) :
    result.payload = readHalf .HARVEST7 (regs (pipeOf port)) wire.md.poolIndex :: wire.payload := by
  obtain ⟨inp, inps', -, hrest⟩ := follow_response h
  have hlast : (recirculatedPass tables regs inp port wire).2 = .gone ∨ _ := recirculatedPass_last hf hs ht
  generalize recirculatedPass tables regs inp port wire = out at hrest hlast
  obtain ⟨regs', o⟩ := out
  rcases hlast with rfl | ⟨b, r, rfl, hpay⟩
  · cases inps' <;> cases hrest
  · cases inps' with
    | nil =>
      cases hrest
      exact hpay
    | cons _ _ =>
      cases hrest
      exact hpay

/-- What is in the packet when it is answered: the fifth slice is that of pipe 3 again. -/
theorem follow_CONSUME3 (hf : tables.nextStep = addDefaultEntries true) (hs : wire.md.packetSize = .MTU_1024)
    (ht : wire.md.packetType = .CONSUME3) (hp : pipeOf port = 3) (hlen : wire.payload.length = 2)
    (h : (follow tables (inp :: inps) (regs, .recirculate port wire)).2 = .response broadcast result) :
    let regs' := (recirculatedPass tables regs inp port wire).1
    let idx := wire.md.poolIndex
    result.payload =
      [fun i => ((regs' 0).values i idx).first, fun i => ((regs' 0).values i idx).second,
        fun i => ((regs' 1).values i idx).first, fun i => ((regs' 1).values i idx).second,
        fun i => ((regs' 3).values i idx).first, fun i => ((regs' 2).values i idx).second,
        fun i => ((regs' 3).values i idx).first, fun i => ((regs' 3).values i idx).second] := by
  intro regs' idx
  have hstart : (follow tables inps (recirculatedPass tables regs inp port wire)).2 = .response broadcast result := h
  have hconsume : (recirculatedPass tables regs inp port wire).2 = .gone ∨ _ :=
    recirculatedPass_CONSUME3 hf hs ht hp hlen
  rcases hconsume with hgone | ⟨wire1, hgo, ht1, hs1, hidx, hpay⟩
  · rw [show recirculatedPass tables regs inp port wire = (regs', .gone) from Prod.ext rfl hgone] at hstart
    cases inps <;> cases hstart
  · rw [show recirculatedPass tables regs inp port wire = (regs', .recirculate (harvestPort .HARVEST1) wire1) from
      Prod.ext rfl hgo] at hstart
    obtain ⟨_, h2⟩ := follow_next (t := .HARVEST1) hf hs1 ht1 rfl (by decide) hstart
    obtain ⟨_, h3⟩ := follow_next (t := .HARVEST2) hf (by exact hs1) rfl rfl (by decide) h2
    obtain ⟨_, h4⟩ := follow_next (t := .HARVEST3) hf (by exact hs1) rfl rfl (by decide) h3
    obtain ⟨_, h5⟩ := follow_next (t := .HARVEST4) hf (by exact hs1) rfl rfl (by decide) h4
    obtain ⟨_, h6⟩ := follow_next (t := .HARVEST5) hf (by exact hs1) rfl rfl (by decide) h5
    obtain ⟨_, h7⟩ := follow_next (t := .HARVEST6) hf (by exact hs1) rfl rfl (by decide) h6
    have hlast := follow_last hf (by exact hs1) rfl h7
    simp only [hidx, hpay] at hlast
    exact hlast

/-- The payload is the eight slices in their order exactly if pipes 2 and 3
hold the same first half when the packet is sent into harvest. -/
theorem harvested_payload_iff (hf : tables.nextStep = addDefaultEntries true) (hs : wire.md.packetSize = .MTU_1024)
    (ht : wire.md.packetType = .CONSUME3) (hp : pipeOf port = 3) (hlen : wire.payload.length = 2)
    (h : (follow tables (inp :: inps) (regs, .recirculate port wire)).2 = .response broadcast result) :
    let regs' := (recirculatedPass tables regs inp port wire).1
    let idx := wire.md.poolIndex
    result.payload = slicesOf regs' idx ↔
      ∀ i, ((regs' 2).values i idx).first = ((regs' 3).values i idx).first := by
  intro regs' idx
  rw [follow_CONSUME3 hf hs ht hp hlen h]
  constructor
  · intro heq i
    have h4 := congrArg (fun l => l[4]?) heq
    exact (congrFun (Option.some.inj h4) i).symm
  · intro heq
    have hfun : (fun i => ((regs' 2).values i idx).first) = fun i => ((regs' 3).values i idx).first := funext heq
    show _ = [_, _, _, _, fun i => ((regs' 2).values i idx).first, _, _, _]
    rw [hfun]
    rfl

/-! ## A packet of one worker -/

/-- Registers that tell the pipe: `10 p + 1` and `10 p + 2` in all value cells of pipe `p`. -/
def tellingRegs (p : Fin 4) : Regs :=
  { Regs.zero with values := fun _ _ => ⟨BitVec.ofNat 32 (10 * p + 1), BitVec.ofNat 32 (10 * p + 2)⟩ }

/-- The only packet of its phase, with pipe 3's values left. -/
def tellingWire : Wire where
  md := { (default : SwitchmlMd) with packetSize := .MTU_1024, packetType := .CONSUME3, numWorkers := 1 }
  rdmaAddr := 0
  payload := [fun _ => 31, fun _ => 32]

def foldedTables : Tables where
  receiveUdp := []
  receiveRoce := []
  nextStep := addDefaultEntries true
  arpIcmp := []
  forward := ⟨[], none⟩

/-- The first words of a response. -/
def Outcome.firstWords : Outcome → Option (List Value)
  | .response _ wire => some (wire.payload.map (· 0))
  | _ => none

theorem Outcome.exists_response {o : Outcome} {words : List Value} (h : Outcome.firstWords o = some words) :
    ∃ broadcast result, o = .response broadcast result ∧ result.payload.map (· 0) = words := by
  cases o with
  | gone => cases h
  | recirculate _ _ => cases h
  | response broadcast result =>
    simp only [Outcome.firstWords, Option.some.injEq] at h
    exact ⟨broadcast, result, rfl, h⟩

/-- The chain does not always rebuild the payload: here the fifth slice is that of pipe 3. -/
theorem harvested_payload_wrong :
    ¬ ∀ (tables : Tables) (regs : Fin 4 → Regs) (inp : PassInputs) (inps : List PassInputs) (port : PortId) (wire : Wire)
        (broadcast : Bool) (result : Wire),
        tables.nextStep = addDefaultEntries true → wire.md.packetSize = .MTU_1024 → wire.md.packetType = .CONSUME3 →
        pipeOf port = 3 → wire.payload.length = 2 →
        (follow tables (inp :: inps) (regs, .recirculate port wire)).2 = .response broadcast result →
        result.payload = slicesOf (recirculatedPass tables regs inp port wire).1 wire.md.poolIndex := by
  intro h
  have hwords : Outcome.firstWords (follow foldedTables (List.replicate 8 PassInputs.quiet)
      (tellingRegs, .recirculate 384 tellingWire)).2 = some [1, 2, 11, 12, 31, 22, 31, 32] := by decide +kernel
  have hslices : (slicesOf (recirculatedPass foldedTables tellingRegs PassInputs.quiet 384 tellingWire).1 0).map (· 0) =
      [1, 2, 11, 12, 21, 22, 31, 32] := by decide +kernel
  obtain ⟨broadcast, result, hresp, hfirst⟩ := Outcome.exists_response hwords
  have hpay := h foldedTables tellingRegs PassInputs.quiet (List.replicate 7 PassInputs.quiet) 384 tellingWire broadcast
    result rfl rfl rfl rfl rfl hresp
  rw [hpay] at hfirst
  exact absurd (hslices.symm.trans hfirst) (by decide)

/-- The same registers but for the first half of pipe 3, which is that of pipe 2. -/
def equalFirstRegs (p : Fin 4) : Regs :=
  { tellingRegs p with values := fun _ _ => ⟨BitVec.ofNat 32 (10 * min p.val 2 + 1), BitVec.ofNat 32 (10 * p + 2)⟩ }

/-- The packet whose values are in `equalFirstRegs`' pipe 3. -/
def equalFirstWire : Wire :=
  { tellingWire with payload := [fun _ => 21, fun _ => 32] }

/-- With pipe 2's first half in pipe 3, and else different values everywhere, the payload is right. -/
theorem harvested_payload_iff_telling :
    ∃ result, (follow foldedTables (List.replicate 8 PassInputs.quiet)
      (equalFirstRegs, .recirculate 384 equalFirstWire)).2 = .response true result ∧
      result.payload.map (· 0) = [1, 2, 11, 12, 21, 22, 21, 32] ∧
      result.payload = slicesOf (recirculatedPass foldedTables equalFirstRegs PassInputs.quiet 384 equalFirstWire).1 0 := by
  obtain ⟨result, hresp⟩ : ∃ result, (follow foldedTables (PassInputs.quiet :: List.replicate 7 PassInputs.quiet)
      (equalFirstRegs, .recirculate 384 equalFirstWire)).2 = .response true result := ⟨_, rfl⟩
  have hwords : Outcome.firstWords (follow foldedTables (PassInputs.quiet :: List.replicate 7 PassInputs.quiet)
      (equalFirstRegs, .recirculate 384 equalFirstWire)).2 = some [1, 2, 11, 12, 21, 22, 21, 32] := by decide +kernel
  have hequal : ∀ i,
      (((recirculatedPass foldedTables equalFirstRegs PassInputs.quiet 384 equalFirstWire).1 2).values i 0).first =
        (((recirculatedPass foldedTables equalFirstRegs PassInputs.quiet 384 equalFirstWire).1 3).values i 0).first := by
    decide +kernel
  rw [hresp] at hwords
  exact ⟨result, hresp, Option.some.inj hwords, (harvested_payload_iff rfl rfl rfl rfl rfl hresp).mpr hequal⟩

end SwitchML.Aggregation
