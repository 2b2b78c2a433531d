/-
The invariant of one pipe: the cells of the job's slot are determined by how
many phases of each worker the pipe has seen.

A pass of worker `w`'s phase `k` packet keeps it (`PipeOK.consume`), where `w`
has been through `k` or `k` phases before and nobody is behind phase `k`. What
the pass reads is told by `seen` alone: the packet is new exactly if `w` has not
been through `k`, the first one exactly if nobody has, and the flags tell
whether it completes the phase (`flag_last`) or comes after (`flag_first`).
-/
import SwitchML.Aggregation.Job

namespace SwitchML.Aggregation

open P4 Phases

variable {n : ℕ}

structure PipeOK (J : Job n) (p : Fin 4) (seen : Fin n → ℕ) (c : Cells) : Prop where
  spread : Spread seen
  /-- a worker's bit is in the set of the last phase it has been through -/
  bitmap : ∀ set i, (c.bitmap set).getLsbD i = true ↔
    ∃ w k, (J.id w).val = i ∧ seen w = k + 1 ∧ J.set k = set
  /-- the counter is the number of workers missing, and zero when none or all are -/
  count : ∀ k, Current seen k → (c.count (J.set k)).toNat = (n - (through seen k).card) % n
  values : ∀ i, CellsOK seen J.set (J.HoldsValues p i) fun set => c.values set i
  exponents : p = 0 → CellsOK seen J.set J.HoldsExponents c.exponents

/-- A packet of phase `k` arrives at a pipe that has seen its worker through
`k` or `k + 1` phases. -/
structure Arrives (seen : Fin n → ℕ) (w : Fin n) (k : ℕ) : Prop where
  worker : seen w = k ∨ seen w = k + 1
  others : ∀ v, k ≤ seen v

namespace PipeOK

variable {J : Job n} {p : Fin 4} {seen : Fin n → ℕ} {c : Cells} {w : Fin n} {k : ℕ} {md : SwitchmlMd}
  {d0 d1 : DataH}

theorem zero (J : Job n) (p : Fin 4) : PipeOK J p (fun _ => 0) Cells.zero where
  spread _ _ := Nat.zero_le _
  bitmap set i := by
    simp [Cells.zero]
  count k _ := by
    simp [Cells.zero, through]
  values i k _ hne := by
    obtain ⟨v, hv⟩ := hne
    simp at hv
  exponents _ k _ hne := by
    obtain ⟨v, hv⟩ := hne
    simp at hv

/-! ## What a pass reads -/

section Reads

variable (h : PipeOK J p seen c) (ha : Arrives seen w k) (hidx : md.poolIndex = J.poolIndex k)
include h ha

theorem current : Current seen k := by
  refine ⟨fun v => ?_, fun v => ?_⟩
  · have := ha.others v
    omega
  · have := h.spread v w
    rcases ha.worker with hw | hw <;> omega

/-- The worker's bit is set in the phase's set if this is not its first packet. -/
theorem getLsbD_own : (c.bitmap (J.set k)).getLsbD (J.id w) = true ↔ seen w = k + 1 := by
  rw [h.bitmap]
  constructor
  · rintro ⟨w', k', hid, hseen, hset⟩
    rw [J.id_injective (Fin.val_injective hid)] at hseen
    rcases ha.worker with hw | hw
    · obtain rfl : k = k' + 1 := by omega
      rw [J.set_succ] at hset
      cases hk : J.set k' <;> simp [hk] at hset
    · exact hw
  · intro hw
    exact ⟨w, k, rfl, hw, rfl⟩

include hidx

theorem mapResult_eq_zero : (c.readMd (J.bit w) md).mapResult = 0 ↔ seen w = k := by
  have hown := h.getLsbD_own ha
  have hmap : (c.readMd (J.bit w) md).mapResult = c.bitmap (J.set k) &&& J.bit w := by
    simp only [Cells.readMd, hidx, J.setBit_poolIndex]
  rw [hmap]
  constructor
  · intro h0
    have hbit : (c.bitmap (J.set k) &&& J.bit w).getLsbD (J.id w) = false := by
      rw [h0]; simp
    rw [BitVec.getLsbD_and, J.getLsbD_bit, decide_eq_true rfl, Bool.and_true] at hbit
    rcases ha.worker with hw | hw
    · exact hw
    · rw [hown.mpr hw] at hbit
      cases hbit
  · intro hw
    apply BitVec.eq_of_getLsbD_eq
    intro i _
    rw [BitVec.getLsbD_and, J.getLsbD_bit]
    by_cases hi : i = (J.id w).val
    · have hn : ¬ (c.bitmap (J.set k)).getLsbD (J.id w) = true := by
        rw [hown]; omega
      rw [hi, Bool.eq_false_iff.mpr hn]
      simp
    · rw [decide_eq_false hi]
      simp

/-- The first packet of the phase finds an empty bitmap. -/
theorem before_eq_zero (hw : seen w = k) :
    (c.readMd (J.bit w) md).workerBitmapBefore = 0 ↔ through seen k = ∅ := by
  have hbefore : (c.readMd (J.bit w) md).workerBitmapBefore = c.bitmap (J.set k) := by
    simp only [Cells.readMd, hidx, J.setBit_poolIndex]
  rw [hbefore]
  constructor
  · intro h0
    refine Finset.eq_empty_of_forall_notMem fun v hv => ?_
    rw [mem_through] at hv
    have h1 := h.spread v w
    have hset := (h.bitmap (J.set k) (J.id v)).mpr ⟨v, k, rfl, by omega, rfl⟩
    rw [h0] at hset
    simp at hset
  · intro hempty
    apply BitVec.eq_of_getLsbD_eq
    intro i _
    rw [Bool.eq_iff_iff, h.bitmap]
    simp only [BitVec.ofNat_eq_ofNat, BitVec.getLsbD_zero, Bool.false_eq_true, iff_false]
    rintro ⟨v, j, -, hv, hset⟩
    have hnot : v ∉ through seen k := by
      rw [hempty]; simp
    rw [mem_through] at hnot
    have h1 := ha.others v
    obtain rfl : k = j + 1 := by omega
    rw [J.set_succ] at hset
    cases hj : J.set j <;> simp [hj] at hset

theorem before_ne_zero (hw : seen w = k + 1) : (c.readMd (J.bit w) md).workerBitmapBefore ≠ 0 := by
  intro h0
  have hbefore : (c.readMd (J.bit w) md).workerBitmapBefore = c.bitmap (J.set k) := by
    simp only [Cells.readMd, hidx, J.setBit_poolIndex]
  have hown := (h.getLsbD_own ha).mpr hw
  rw [← hbefore, h0] at hown
  simp at hown

/-- The flag is 1 if the packet is the last one the phase waits for. -/
theorem flag_last (hn : md.numWorkers = J.numWorkers) (hw : seen w = k) :
    (c.readMd (J.bit w) md).firstLastFlag = 1 ↔ Complete (visit seen w k) k := by
  have hmap := (h.mapResult_eq_zero ha hidx).mpr hw
  have hcard : (through (visit seen w k) k).card = (through seen k).card + 1 := by
    rw [through_visit_self, Finset.card_insert_of_notMem (by rw [mem_through]; omega)]
  have hle : (through (visit seen w k) k).card ≤ n := by
    exact card_through_le.trans_eq (Fintype.card_fin n)
  rw [← card_through_eq, Fintype.card_fin, hcard]
  simp only [Cells.readMd, hn, hidx, J.setBit_poolIndex] at hmap ⊢
  by_cases h1 : n = 1
  · rw [if_pos (J.numWorkers_eq_one.mpr h1), if_pos hmap]
    simp only [true_iff]
    omega
  · rw [if_neg fun h => h1 (J.numWorkers_eq_one.mp h), ← BitVec.toNat_inj, h.count k (h.current ha)]
    have hpos := J.pos
    simp only [BitVec.ofNat_eq_ofNat, BitVec.toNat_ofNat]
    rcases Nat.eq_zero_or_pos (through seen k).card with h0 | h0
    · rw [h0, Nat.sub_zero, Nat.mod_self]; omega
    · rw [Nat.mod_eq_of_lt (by omega)]; omega

/-- For a repeated packet the flag is 0 if the phase is complete. -/
theorem flag_first (hn : md.numWorkers = J.numWorkers) (hw : seen w = k + 1) :
    (c.readMd (J.bit w) md).firstLastFlag = 0 ↔ Complete seen k := by
  have hmap : ¬ (c.readMd (J.bit w) md).mapResult = 0 := by
    rw [h.mapResult_eq_zero ha hidx]; omega
  have hpos : 0 < (through seen k).card := Finset.card_pos.mpr ⟨w, by rw [mem_through]; omega⟩
  have hle : (through seen k).card ≤ n := by
    exact card_through_le.trans_eq (Fintype.card_fin n)
  rw [← card_through_eq, Fintype.card_fin]
  simp only [Cells.readMd, hn, hidx, J.setBit_poolIndex] at hmap ⊢
  by_cases h1 : n = 1
  · rw [if_pos (J.numWorkers_eq_one.mpr h1), if_neg hmap]
    simp only [true_iff]
    omega
  · rw [if_neg fun h => h1 (J.numWorkers_eq_one.mp h), ← BitVec.toNat_inj, h.count k (h.current ha)]
    simp only [BitVec.ofNat_eq_ofNat, BitVec.toNat_ofNat]
    rcases Nat.lt_or_eq_of_le hle with hlt | heq
    · rw [Nat.mod_eq_of_lt (by omega)]; omega
    · rw [heq, Nat.sub_self]; simp

end Reads

/-! ## What a pass leaves -/

section Absorb

variable {α : Type} {Holds : ℕ → Finset (Fin n) → α → Prop} {op : α → α → α} {cell x : α}

/-- Writing, combining or keeping, a cell takes in the worker exactly once. -/
theorem absorb_holds (h : PipeOK J p seen c) (ha : Arrives seen w k) (hidx : md.poolIndex = J.poolIndex k)
    (hw : seen w = k) (hwrite : Holds k {w} x)
    (hcombine : ∀ S cell, w ∉ S → Holds k S cell → Holds k (insert w S) (op cell x))
    (hcell : (through seen k).Nonempty → Holds k (through seen k) cell) :
    Holds k (insert w (through seen k)) ((c.readMd (J.bit w) md).absorb op cell x) := by
  unfold SwitchmlMd.absorb
  by_cases hempty : through seen k = ∅
  · rw [if_pos ((h.before_eq_zero ha hidx hw).mpr hempty), hempty]
    exact hwrite
  · rw [if_neg (by rw [h.before_eq_zero ha hidx hw]; exact hempty),
      if_pos ((h.mapResult_eq_zero ha hidx).mpr hw)]
    have hnot : w ∉ through seen k := by
      rw [mem_through]; omega
    exact hcombine _ _ hnot (hcell (Finset.nonempty_iff_ne_empty.mpr hempty))

theorem absorb_repeated (h : PipeOK J p seen c) (ha : Arrives seen w k) (hidx : md.poolIndex = J.poolIndex k)
    (hw : seen w = k + 1) : (c.readMd (J.bit w) md).absorb op cell x = cell := by
  unfold SwitchmlMd.absorb
  rw [if_neg (h.before_ne_zero ha hidx hw), if_neg (by rw [h.mapResult_eq_zero ha hidx]; omega)]

end Absorb

section Leaves

variable (h : PipeOK J p seen c) (ha : Arrives seen w k) (hidx : md.poolIndex = J.poolIndex k)
include h ha hidx

theorem consume_bitmap (set : Bool) (i : ℕ) :
    ((c.consume (J.bit w) md d0 d1).bitmap set).getLsbD i = true ↔
      ∃ v j, (J.id v).val = i ∧ visit seen w k v = j + 1 ∧ J.set j = set := by
  simp only [Cells.consume, hidx, J.setBit_poolIndex]
  by_cases hi : i = (J.id w).val
  · have hv : (∃ v j, (J.id v).val = i ∧ visit seen w k v = j + 1 ∧ J.set j = set) ↔ set = J.set k := by
      constructor
      · rintro ⟨v, j, hid, hj, hset⟩
        rw [J.id_injective (Fin.val_injective (hid.trans hi)), visit_self] at hj
        obtain rfl : k = j := by omega
        exact hset.symm
      · rintro rfl
        exact ⟨w, k, hi.symm, visit_self, rfl⟩
    have hlt := (J.id w).isLt
    rw [hv, hi]
    by_cases hset : set = J.set k
    · simp [hset, J.getLsbD_bit]
    · simp [hset, J.getLsbD_bit]
  · have hv : (∃ v j, (J.id v).val = i ∧ visit seen w k v = j + 1 ∧ J.set j = set) ↔
        ∃ v j, (J.id v).val = i ∧ seen v = j + 1 ∧ J.set j = set := by
      refine exists_congr fun v => exists_congr fun j => and_congr_right fun hid => ?_
      rw [visit_of_ne (by rintro rfl; exact hi hid.symm)]
    rw [hv, ← h.bitmap]
    by_cases hset : set = J.set k
    · simp [hset, J.getLsbD_bit, hi]
    · by_cases hlt : i < 32
      · simp only [if_neg hset, BitVec.getLsbD_and, BitVec.getLsbD_not, J.getLsbD_bit, decide_eq_true hlt,
          decide_eq_false hi, Bool.not_false, Bool.and_true]
      · rw [BitVec.getLsbD_of_ge _ _ (by omega), BitVec.getLsbD_of_ge _ _ (by omega)]

theorem consume_count (hn : md.numWorkers = J.numWorkers) (j : ℕ) (hj : Current (visit seen w k) j) :
    ((c.consume (J.bit w) md d0 d1).count (J.set j)).toNat = (n - (through (visit seen w k) j).card) % n := by
  have hmap := h.mapResult_eq_zero ha hidx
  simp only [Cells.consume, hidx, J.setBit_poolIndex, hn]
  rcases ha.worker with hw | hw
  · rw [if_pos (hmap.mpr hw)]
    have hcount := h.count k (h.current ha)
    have hcard : (through (visit seen w k) k).card = (through seen k).card + 1 := by
      rw [through_visit_self, Finset.card_insert_of_notMem (by rw [mem_through]; omega)]
    have hle : (through (visit seen w k) k).card ≤ n := by
      exact card_through_le.trans_eq (Fintype.card_fin n)
    have hn32 := J.le_32
    have hpos := J.pos
    -- the counter starts over at the first packet and is decremented by the others
    have hdown : (WorkersCounter.countdown J.numWorkers (c.count (J.set k))).toNat =
        (n - (through (visit seen w k) k).card) % n := by
      unfold WorkersCounter.countdown
      have hnw := J.toNat_numWorkers
      rw [hcard]
      rcases Nat.eq_zero_or_pos (through seen k).card with h0 | h0
      · rw [h0, Nat.sub_zero, Nat.mod_self] at hcount
        rw [if_pos (BitVec.eq_of_toNat_eq hcount), BitVec.toNat_sub, hnw, h0]
        simp only [BitVec.ofNat_eq_ofNat, BitVec.toNat_ofNat]
        rw [Nat.mod_eq_of_lt (by omega : n - (0 + 1) < n)]
        omega
      · rw [Nat.mod_eq_of_lt (by omega)] at hcount
        have hne : c.count (J.set k) ≠ 0 := by
          intro h0
          rw [h0] at hcount
          simp at hcount
          omega
        rw [if_neg hne, BitVec.toNat_sub, hcount, Nat.mod_eq_of_lt (by omega : n - ((through seen k).card + 1) < n)]
        simp only [BitVec.ofNat_eq_ofNat, BitVec.toNat_ofNat]
        omega
    by_cases hjk : j = k
    · rw [hjk, Function.update_self, hdown]
    · by_cases hturn : J.set j = J.set k
      · -- all are through `k`: its counter is zero, as the one of `k + 2` should be
        obtain ⟨rfl, hcomplete⟩ := hj.of_visit J.set_succ hw hjk hturn
        rw [hturn, Function.update_self, hdown, card_through_eq.mpr hcomplete, Fintype.card_fin]
        have hnone : through (visit seen w k) (k + 2) = ∅ := by
          refine Finset.eq_empty_of_forall_notMem fun v hv => ?_
          rw [through_visit_of_ne hw hjk, mem_through] at hv
          have h1 := h.spread v w
          omega
        rw [hnone, Finset.card_empty, Nat.sub_self, Nat.sub_zero, Nat.mod_self, Nat.zero_mod]
      · rw [Function.update_of_ne hturn, through_visit_of_ne hw hjk,
          h.count j (hj.of_visit_other J.set_succ hw hturn)]
  · rw [if_neg (by rw [hmap]; omega), visit_eq_self hw]
    rw [visit_eq_self hw] at hj
    exact h.count j hj

end Leaves

/-- A consume pass of worker `w`'s phase `k` packet, with its slices for this pipe. -/
theorem consume (h : PipeOK J p seen c) (ha : Arrives seen w k) (hidx : md.poolIndex = J.poolIndex k)
    (hn : md.numWorkers = J.numWorkers) (hd0 : d0 = J.contribution w k (2 * p))
    (hd1 : d1 = J.contribution w k (2 * p + 1))
    (hexp : p = 0 → md.packetType = .CONSUME0 ∧ md.lastPacket = J.isLast w k ∧ md.e0 = J.e0 w k ∧ md.e1 = J.e1 w k) :
    PipeOK J p (visit seen w k) (c.consume (J.bit w) md d0 d1) where
  spread := by
    rcases ha.worker with hw | hw
    · exact h.spread.visit hw ha.others
    · rw [visit_eq_self hw]; exact h.spread
  bitmap := h.consume_bitmap ha hidx
  count j hj := h.consume_count ha hidx hn j hj
  values i := by
    have hcell : (fun set => (c.consume (J.bit w) md d0 d1).values set i) =
        Function.update (fun set => c.values set i) (J.set k)
          ((c.readMd (J.bit w) md).absorb (Pair.map₂ (· + ·)) (c.values (J.set k) i) ⟨d0 i, d1 i⟩) := by
      funext set
      simp only [Cells.consume, hidx, J.setBit_poolIndex, Function.update_apply]
      split <;> rfl
    rw [hcell, hd0, hd1]
    rcases ha.worker with hw | hw
    · refine (h.values i).visit J.set_succ h.spread hw ?_
      exact h.absorb_holds ha hidx hw .singleton (fun S cell hS hcell => hcell.insert hS)
        fun hne => h.values i k (h.current ha) hne
    · rw [visit_eq_self hw, h.absorb_repeated ha hidx hw, Function.update_eq_self]
      exact h.values i
  exponents hp := by
    obtain ⟨htype, hlast, he0, he1⟩ := hexp hp
    simp only [Cells.consume, hidx, J.setBit_poolIndex]
    rcases ha.worker with hw | hw
    · refine (h.exponents hp).visit J.set_succ h.spread hw ?_
      unfold exponentsCell
      by_cases hl : md.lastPacket = true
      · have hcond : (c.readMd (J.bit w) md).lastPacket = true ∧
            (c.readMd (J.bit w) md).packetType = .CONSUME0 := ⟨hl, htype⟩
        rw [if_pos hcond]
        have hmd : (⟨(c.readMd (J.bit w) md).e0, (c.readMd (J.bit w) md).e1⟩ : Pair Exponent) =
            ⟨J.e0 w k, J.e1 w k⟩ := by rw [← he0, ← he1]; rfl
        rw [hmd]
        exact h.absorb_holds ha hidx hw .singleton (fun S cell _ hcell => hcell.insert)
          fun hne => h.exponents hp k (h.current ha) hne
      · intro hall
        rw [hlast, hall w] at hl
        exact absurd rfl hl
    · have hkeep : exponentsCell (c.readMd (J.bit w) md) (c.exponents (J.set k)) = c.exponents (J.set k) := by
        unfold exponentsCell
        split
        · exact h.absorb_repeated ha hidx hw
        · rfl
      rw [visit_eq_self hw, hkeep, Function.update_eq_self]
      exact h.exponents hp

/-- A repeated packet adds nothing. -/
theorem consume_values_repeated (h : PipeOK J p seen c) (ha : Arrives seen w k) (hidx : md.poolIndex = J.poolIndex k)
    (hw : seen w = k + 1) : (c.consume (J.bit w) md d0 d1).values = c.values := by
  simp only [Cells.consume, hidx, J.setBit_poolIndex]
  have hkeep : valuesCell (c.readMd (J.bit w) md) d0 d1 (c.values (J.set k)) = c.values (J.set k) :=
    funext fun _ => h.absorb_repeated ha hidx hw
  rw [hkeep, Function.update_eq_self]

end PipeOK

end SwitchML.Aggregation
