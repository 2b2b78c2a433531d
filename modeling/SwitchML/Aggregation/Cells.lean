/-
What a pipe's registers hold for one slot, and what an ingress pass does to it.

All register accesses of a packet go to the cells of its own slot
(`process_cells_other`). A consume pass acts on these cells as `Cells.consume`
(`process_cells_consume`), a harvest pass only reads them.
-/
import SwitchML.P4.Ingress

namespace SwitchML.Aggregation

open P4 Tna

/-- The exponents cell after a packet's pass. -/
def exponentsCell (md : SwitchmlMd) (cell : Pair Exponent) : Pair Exponent :=
  if md.lastPacket ∧ md.packetType = .CONSUME0 then md.absorb (Pair.map₂ max) cell ⟨md.e0, md.e1⟩ else cell

/-- The values cell of word `i` after a consume pass. -/
def valuesCell (md : SwitchmlMd) (d0 d1 : DataH) (cell : Fin 32 → Pair Value) (i : Fin 32) : Pair Value :=
  md.absorb (Pair.map₂ (· + ·)) (cell i) ⟨d0 i, d1 i⟩

/-- The cells of one slot, by set. -/
structure Cells where
  bitmap : Bool → WorkerBitmap
  count : Bool → NumWorkers
  exponents : Bool → Pair Exponent
  values : Bool → Fin 32 → Pair Value

namespace Cells

def of (regs : Regs) (slot : BitVec 14) : Cells where
  bitmap := (regs.workerBitmap slot).ofSet
  count set := (regs.workersCount (indexOf slot set)).first
  exponents set := regs.exponents (indexOf slot set)
  values set i := regs.values i (indexOf slot set)

theorem of_congr {regs regs' : Regs} {slot : BitVec 14} (hb : regs.workerBitmap slot = regs'.workerBitmap slot)
    (hc : ∀ set, regs.workersCount (indexOf slot set) = regs'.workersCount (indexOf slot set))
    (he : ∀ set, regs.exponents (indexOf slot set) = regs'.exponents (indexOf slot set))
    (hv : ∀ set i, regs.values i (indexOf slot set) = regs'.values i (indexOf slot set)) :
    of regs slot = of regs' slot := by
  simp only [of, hb, hc, he, hv]

/-- The registers with the cells of a slot replaced. -/
def store (c : Cells) (regs : Regs) (slot : BitVec 14) : Regs where
  workerBitmap := Function.update regs.workerBitmap slot ⟨c.bitmap false, c.bitmap true⟩
  workersCount idx :=
    if slotOf idx = slot then { regs.workersCount idx with first := c.count (setBit idx) }
    else regs.workersCount idx
  exponents idx := if slotOf idx = slot then c.exponents (setBit idx) else regs.exponents idx
  values i idx := if slotOf idx = slot then c.values (setBit idx) i else regs.values i idx

@[simp] theorem of_store_self (c : Cells) (regs : Regs) (slot : BitVec 14) : of (c.store regs slot) slot = c := by
  cases c
  simp only [of, store, Function.update_self, slotOf_indexOf, setBit_indexOf, if_true, Cells.mk.injEq, and_true]
  funext set
  cases set <;> rfl

def zero : Cells := ⟨fun _ => 0, fun _ => 0, fun _ => ⟨0, 0⟩, fun _ _ => ⟨0, 0⟩⟩

@[simp] theorem of_zero (slot : BitVec 14) : of Regs.zero slot = zero := by
  simp [of, zero, Regs.zero, Pair.ofSet, funext_iff]

/-- The metadata once the bitmap and the counter have been read. -/
def readMd (c : Cells) (bit : WorkerBitmap) (md : SwitchmlMd) : SwitchmlMd :=
  let before := c.bitmap (setBit md.poolIndex)
  { md with
    workerBitmapBefore := before
    mapResult := before &&& bit
    firstLastFlag :=
      if md.numWorkers = 1 then (if before &&& bit = 0 then 1 else 0) else c.count (setBit md.poolIndex) }

/-- The cells after a consume pass of a packet with metadata `md` and data `d0`, `d1`. -/
def consume (c : Cells) (bit : WorkerBitmap) (md : SwitchmlMd) (d0 d1 : DataH) : Cells :=
  let set := setBit md.poolIndex
  let md' := c.readMd bit md
  { bitmap := fun b => if b = set then c.bitmap b ||| bit else c.bitmap b &&& ~~~bit
    count :=
      if md'.mapResult = 0 then
        Function.update c.count set (WorkersCounter.countdown md.numWorkers (c.count set))
      else c.count
    exponents := Function.update c.exponents set (exponentsCell md' (c.exponents set))
    values := Function.update c.values set (valuesCell md' d0 d1 (c.values set)) }

end Cells

variable {tables : Tables} {regs : Regs} {ig : Ig}

/-! ## Counting -/

theorem count_consume (regs : Regs) (h : ig.md.packetType.isConsume = true)
    (hd : ig.md.packetType = .CONSUME0 → ig.portMetadata.ingressDropProbability ≠ 0xffff) :
    (Ingress.count regs ig).2 =
      { ig with md := (Cells.of regs (slotOf ig.md.poolIndex)).readMd ig.workerBitmap ig.md } := by
  unfold Ingress.count
  rw [if_pos h]
  simp only
  rw [WorkersCounter.apply_consume (by rw [UpdateAndCheckWorkerBitmap.apply_consume h hd]; exact h),
    UpdateAndCheckWorkerBitmap.apply_consume h hd]
  simp only [Cells.readMd, Cells.of, Ig.withMd, indexOf_slotOf]
  rfl

theorem count_regs (regs : Regs) (h : ig.md.packetType.isConsume = true)
    (hd : ig.md.packetType = .CONSUME0 → ig.portMetadata.ingressDropProbability ≠ 0xffff) :
    (Ingress.count regs ig).1 =
      let slot := slotOf ig.md.poolIndex
      let md := (Cells.of regs slot).readMd ig.workerBitmap ig.md
      { regs with
        workerBitmap :=
          Function.update regs.workerBitmap slot
            (recordIn (setBit ig.md.poolIndex) ig.workerBitmap (regs.workerBitmap slot))
        workersCount :=
          if md.mapResult = 0 then
            Function.update regs.workersCount ig.md.poolIndex
              { regs.workersCount ig.md.poolIndex with
                first := WorkersCounter.countdown md.numWorkers (regs.workersCount ig.md.poolIndex).first }
          else regs.workersCount } := by
  unfold Ingress.count
  rw [if_pos h]
  simp only
  rw [WorkersCounter.apply_consume (by rw [UpdateAndCheckWorkerBitmap.apply_consume h hd]; exact h),
    UpdateAndCheckWorkerBitmap.apply_consume h hd]
  rfl

/-- The drop simulator's victims are not counted. -/
theorem count_simulateDrop (h : ig.md.packetType = .CONSUME0)
    (hd : ig.portMetadata.ingressDropProbability = 0xffff) :
    Ingress.count regs ig = (regs, UpdateAndCheckWorkerBitmap.simulateDrop ig) := by
  unfold Ingress.count
  rw [if_pos (by rw [h]; rfl), UpdateAndCheckWorkerBitmap.apply_simulateDrop h hd]
  simp [WorkersCounter.apply, countAction, lookup, countWorkersEntries, UpdateAndCheckWorkerBitmap.simulateDrop,
    UpdateAndCheckWorkerBitmap.drop]

/-! ## Exponents and values -/

theorem applyExponents_regs :
    (Ingress.applyExponents regs ig).1 =
      { regs with exponents :=
          Function.update regs.exponents ig.md.poolIndex (exponentsCell ig.md (regs.exponents ig.md.poolIndex)) } := by
  unfold Ingress.applyExponents exponentsCell
  by_cases hl : ig.md.lastPacket = true
  · rw [if_pos hl]
    by_cases h0 : ig.md.packetType = .CONSUME0
    · rw [Exponents.apply_CONSUME0 h0, if_pos ⟨hl, h0⟩]
    · have hn : ¬ (ig.md.lastPacket = true ∧ ig.md.packetType = .CONSUME0) := fun h => h0 h.2
      rw [Exponents.apply_other h0]
      simp only [if_neg hn, Function.update_eq_self]
  · have hn : ¬ (ig.md.lastPacket = true ∧ ig.md.packetType = .CONSUME0) := fun h => hl h.1
    simp only [if_neg hl, if_neg hn, Function.update_eq_self]

theorem applyExponents_consume (regs : Regs) (h : ig.md.packetType.isConsume = true) :
    (Ingress.applyExponents regs ig).2 =
      ig.withMd fun md =>
        { md with e0 :=
            if md.lastPacket ∧ md.packetType = .CONSUME0 then
              (exponentsCell md (regs.exponents md.poolIndex)).first
            else md.e0 } := by
  unfold Ingress.applyExponents exponentsCell
  by_cases hl : ig.md.lastPacket = true
  · rw [if_pos hl]
    by_cases h0 : ig.md.packetType = .CONSUME0
    · rw [Exponents.apply_CONSUME0 h0]
      simp only [Ig.withMd, hl, h0, and_self, if_true]
    · have h7 : ig.md.packetType ≠ .HARVEST7 := by
        intro h7
        rw [h7] at h
        cases h
      rw [Exponents.apply_other h0, if_neg h7]
      simp only [Ig.withMd, h0, and_false, if_false]
  · have hn : ¬ (ig.md.lastPacket = true ∧ ig.md.packetType = .CONSUME0) := fun h => hl h.1
    rw [if_neg hl]
    simp only [Ig.withMd, if_neg hn]

theorem applyExponents_harvest (hc : ig.md.packetType.isConsume = false) :
    Ingress.applyExponents regs ig =
      (regs, ig.withMd fun md =>
        { md with e1 :=
            if md.lastPacket ∧ md.packetType = .HARVEST7 then (regs.exponents md.poolIndex).second else md.e1 }) := by
  have h0 : ig.md.packetType ≠ .CONSUME0 := by
    intro h0
    rw [h0] at hc
    cases hc
  unfold Ingress.applyExponents
  by_cases hl : ig.md.lastPacket = true
  · rw [if_pos hl, Exponents.apply_other h0]
    simp only [Ig.withMd, hl, true_and]
  · have hn : ¬ (ig.md.lastPacket = true ∧ ig.md.packetType = .HARVEST7) := fun h => hl h.1
    rw [if_neg hl]
    simp only [Ig.withMd, if_neg hn]

theorem applyAll_consume (regs : Regs) (ig : Ig) {d0 d1 : DataH} (h : ig.md.packetType.isConsume = true) (h0 : ig.hdr.d0 = some d0)
    (h1 : ig.hdr.d1 = some d1) :
    Processor.applyAll regs ig =
      let cell := valuesCell ig.md d0 d1 fun i => regs.values i ig.md.poolIndex
      ({ regs with values := fun i => Function.update (regs.values i) ig.md.poolIndex (cell i) },
        ig.withHdr fun hdr => { hdr with d0 := some d0, d1 := some fun i => (cell i).second }) := by
  unfold Processor.applyAll valuesCell
  simp only [h0, h1, Option.getD_some, Processor.apply_consume h, Ig.withHdr, Option.map_some]

/-- A harvest pass replaces the data header of the half it reads. -/
theorem applyAll_harvest (h : ig.md.packetType.isSwitchML = true) (hc : ig.md.packetType.isConsume = false)
    {d0 d1 : DataH} (h0 : ig.hdr.d0 = some d0) (h1 : ig.hdr.d1 = some d1) :
    Processor.applyAll regs ig =
      (regs, ig.withHdr fun hdr =>
        if ig.md.packetType.readsFirst then
          { hdr with d0 := some fun i => (regs.values i ig.md.poolIndex).first, d1 := some d1 }
        else { hdr with d0 := some d0, d1 := some fun i => (regs.values i ig.md.poolIndex).second }) := by
  unfold Processor.applyAll
  simp only [h0, h1, Option.getD_some, Processor.apply_harvest h hc, Ig.withHdr, Option.map_some]
  cases ig.md.packetType.readsFirst <;> rfl

/-! ## A pass -/

/-- Where the drop simulator takes no packet, a consume pass does all of this. -/
structure Consumes (ig : Ig) (d0 d1 : DataH) : Prop where
  isConsume : ig.md.packetType.isConsume = true
  dropCtl : ig.dropCtl = false
  notSimulated : ig.md.packetType = .CONSUME0 → ig.portMetadata.ingressDropProbability ≠ 0xffff
  d0 : ig.hdr.d0 = some d0
  d1 : ig.hdr.d1 = some d1

theorem isSwitchML_of_isConsume {t : PacketType} (h : t.isConsume = true) : t.isSwitchML = true := by
  cases t <;> first | rfl | cases h

/-- Writing one register cell, in terms of the cells of its slot. -/
theorem update_index {α : Type} (r : Register 15 α) (idx : PoolIndex) (x : α) :
    Function.update r idx x = fun i =>
      if slotOf i = slotOf idx then Function.update (fun set => r (indexOf (slotOf idx) set)) (setBit idx) x (setBit i)
      else r i := by
  funext i
  by_cases hs : slotOf i = slotOf idx
  · rw [if_pos hs, ← hs]
    by_cases hb : setBit i = setBit idx
    · rw [poolIndex_ext_iff.mpr ⟨hs, hb⟩, Function.update_self, Function.update_self]
    · rw [Function.update_of_ne (mt (congrArg setBit) hb), Function.update_of_ne hb, indexOf_slotOf]
  · rw [if_neg hs, Function.update_of_ne (mt (congrArg slotOf) hs)]

variable {d0 d1 : DataH}

/-- The registers and the packet a consume pass leaves, before the next step is taken. -/
theorem process_consume (h : Consumes ig d0 d1) :
    Ingress.process tables regs ig =
      let slot := slotOf ig.md.poolIndex
      let set := setBit ig.md.poolIndex
      let cells := Cells.of regs slot
      let cells' := cells.consume ig.workerBitmap ig.md d0 d1
      let md := cells.readMd ig.workerBitmap ig.md
      (cells'.store regs slot,
        NextStepSelector.apply tables.nextStep
          { ig with
            md := { md with e0 :=
              if md.lastPacket ∧ md.packetType = .CONSUME0 then (cells'.exponents set).first else md.e0 }
            hdr := { ig.hdr with d0 := some d0, d1 := some fun i => (cells'.values set i).second } }) := by
  have hcount := count_consume regs h.isConsume h.notSimulated
  have hregs := count_regs regs h.isConsume h.notSimulated
  have hcons : (Ingress.count regs ig).2.md.packetType.isConsume = true := by
    rw [hcount]; exact h.isConsume
  have hexp := applyExponents_consume (Ingress.count regs ig).1 hcons
  have hall := applyAll_consume (Ingress.applyExponents (Ingress.count regs ig).1 (Ingress.count regs ig).2).1
    (Ingress.applyExponents (Ingress.count regs ig).1 (Ingress.count regs ig).2).2
    (by rw [hexp]; exact hcons) (by rw [hexp, hcount]; exact h.d0) (by rw [hexp, hcount]; exact h.d1)
  unfold Ingress.process
  rw [if_neg (by rw [h.dropCtl]; exact Bool.false_ne_true)]
  simp only
  unfold Ingress.aggregate
  rw [if_pos (isSwitchML_of_isConsume hcons)]
  simp only
  rw [hall, hexp, applyExponents_regs, hcount, hregs]
  obtain ⟨slot, set, hidx⟩ : ∃ slot set, ig.md.poolIndex = indexOf slot set := ⟨_, _, (indexOf_slotOf _).symm⟩
  simp only [update_index, Cells.store, Cells.consume, Cells.readMd, Ig.withMd, Ig.withHdr, hidx, slotOf_indexOf,
    setBit_indexOf]
  clear hall hexp hcount hregs hcons
  have hback : ∀ idx, slotOf idx = slot → idx = indexOf slot (setBit idx) := by
    rintro idx rfl
    exact (indexOf_slotOf idx).symm
  refine Prod.ext ?_ ?_
  · refine Regs.mk.injEq .. |>.mpr ⟨?_, ?_, rfl, ?_⟩
    · unfold recordIn
      cases set <;> rfl
    · funext idx
      by_cases hs : slotOf idx = slot
      · rw [hback idx hs]
        by_cases hm : (Cells.of regs slot).bitmap set &&& ig.workerBitmap = 0
        · simp only [if_pos hm, slotOf_indexOf, setBit_indexOf, if_true, Function.update_apply]
          by_cases hb : setBit idx = set
          · rw [if_pos hb, if_pos hb, hb]; rfl
          · rw [if_neg hb, if_neg hb]; rfl
        · simp only [if_neg hm, slotOf_indexOf, setBit_indexOf, if_true]; rfl
      · by_cases hm : (Cells.of regs slot).bitmap set &&& ig.workerBitmap = 0
        · simp only [if_pos hm, if_neg hs]
        · simp only [if_neg hm, if_neg hs]
    · funext i idx
      by_cases hs : slotOf idx = slot
      · simp only [if_pos hs, Function.update_apply]
        by_cases hb : setBit idx = set
        · rw [if_pos hb, if_pos hb]; rfl
        · rw [if_neg hb, if_neg hb]; rfl
      · simp only [if_neg hs]
  · simp only [Function.update_self]
    rfl

/-- A harvest pass changes no register. -/
theorem process_harvest (hs : ig.md.packetType.isSwitchML = true) (hc : ig.md.packetType.isConsume = false)
    (hd : ig.dropCtl = false) (h0 : ig.hdr.d0 = some d0) (h1 : ig.hdr.d1 = some d1) :
    Ingress.process tables regs ig =
      let set := setBit ig.md.poolIndex
      let cells := Cells.of regs (slotOf ig.md.poolIndex)
      (regs,
        NextStepSelector.apply tables.nextStep
          { ig with
            md := { ig.md with e1 :=
              if ig.md.lastPacket ∧ ig.md.packetType = .HARVEST7 then (cells.exponents set).second else ig.md.e1 }
            hdr :=
              if ig.md.packetType.readsFirst then
                { ig.hdr with d0 := some fun i => (cells.values set i).first, d1 := some d1 }
              else { ig.hdr with d0 := some d0, d1 := some fun i => (cells.values set i).second } }) := by
  have hcount : Ingress.count regs ig = (regs, ig) := by
    unfold Ingress.count
    rw [if_neg (by rw [hc]; exact Bool.false_ne_true)]
  unfold Ingress.process Ingress.aggregate
  rw [if_neg (by rw [hd]; exact Bool.false_ne_true), hcount]
  simp only
  rw [if_pos hs, applyExponents_harvest hc]
  simp only
  rw [applyAll_harvest (by exact hs) (by exact hc) (by exact h0) (by exact h1)]
  simp only [Ig.withMd, Ig.withHdr, Cells.of, indexOf_slotOf]
  rfl

/-! ## Other slots -/

theorem count_poolIndex : (Ingress.count regs ig).2.md.poolIndex = ig.md.poolIndex := by
  have hb : (UpdateAndCheckWorkerBitmap.apply regs ig).2.md.poolIndex = ig.md.poolIndex := by
    unfold UpdateAndCheckWorkerBitmap.apply
    cases updateAndCheckAction ig <;> rfl
  have hw : ∀ (regs : Regs) (ig : Ig), (WorkersCounter.apply regs ig).2.md.poolIndex = ig.md.poolIndex := by
    intro regs ig
    unfold WorkersCounter.apply
    cases countAction ig.md <;> rfl
  unfold Ingress.count
  split
  · exact (hw _ _).trans hb
  · rfl

theorem applyExponents_poolIndex : (Ingress.applyExponents regs ig).2.md.poolIndex = ig.md.poolIndex := by
  unfold Ingress.applyExponents
  split <;> rfl

theorem count_cells_other {slot : BitVec 14} (hs : slot ≠ slotOf ig.md.poolIndex) :
    Cells.of (Ingress.count regs ig).1 slot = Cells.of regs slot := by
  have hne : ∀ set, indexOf slot set ≠ ig.md.poolIndex := by
    intro set h
    exact hs (by rw [← h, slotOf_indexOf])
  by_cases hc : ig.md.packetType.isConsume = true
  · by_cases hd : ig.md.packetType = .CONSUME0 ∧ ig.portMetadata.ingressDropProbability = 0xffff
    · rw [count_simulateDrop hd.1 hd.2]
    · rw [count_regs regs hc fun h0 hp => hd ⟨h0, hp⟩]
      refine Cells.of_congr (Function.update_of_ne hs _ _) (fun set => ?_) (fun _ => rfl) (fun _ _ => rfl)
      simp only
      split
      · exact Function.update_of_ne (hne set) _ _
      · rfl
  · unfold Ingress.count
    rw [if_neg hc]

/-- A packet's pass leaves the cells of every other slot alone. -/
theorem process_cells_other {slot : BitVec 14} (hs : slot ≠ slotOf ig.md.poolIndex) :
    Cells.of (Ingress.process tables regs ig).1 slot = Cells.of regs slot := by
  have hne : ∀ set, indexOf slot set ≠ ig.md.poolIndex := by
    intro set h
    exact hs (by rw [← h, slotOf_indexOf])
  unfold Ingress.process
  split
  · rfl
  · have hcount : Cells.of (Ingress.count regs ig).1 slot = Cells.of regs slot := count_cells_other hs
    rw [← hcount]
    simp only
    unfold Ingress.aggregate
    split
    · simp only [Processor.applyAll]
      refine Cells.of_congr ?_ (fun set => ?_) (fun set => ?_) (fun set i => ?_)
      · rw [applyExponents_regs]
      · rw [applyExponents_regs]
      · rw [applyExponents_regs]
        exact Function.update_of_ne (by rw [count_poolIndex]; exact hne set) _ _
      · simp only
        rw [Processor.apply_frame (by rw [applyExponents_poolIndex, count_poolIndex]; exact hne set),
          applyExponents_regs]
    · rfl

end SwitchML.Aggregation
