/-
`next_step_selector.py`: the entries the controller installs in `next_step`.
The entries are listed in the order of their priorities; the 16 entries of
priority 6 and of priority 7 differ in the worker id.
-/
import SwitchML.P4.NextStepSelector

namespace SwitchML.Controller

open P4

/-- `Flag` -/
def Flag.FIRST : NumWorkers := 0
def Flag.LAST : NumWorkers := 1

/-- Special recirculation ports used for harvest passes. -/
def port : Nat → PortId
  | 1 => 452
  | 2 => 324
  | 3 => 448
  | 4 => 196
  | 5 => 192
  | 6 => 64
  | _ => 68

/-- The recirculation port of a worker: `(1 << 7) + i * 4`. -/
def consumePort (i : Nat) : PortId := BitVec.ofNat 9 ((1 <<< 7) + i * 4)

/-- 128, 256 and 512 byte packets. -/
def baseEntries : List NextStepEntry :=
  [ -- 128B packets not supported at the moment
    ⟨some .MTU_128, none, none, none, none, 0, .drop⟩,
    -- 256B packets: Pipe 0 only at the moment
    -- Last packet -> recirculate for harvest
    ⟨some .MTU_256, none, some .CONSUME0, some Flag.LAST, none, 1, .recirculateForHARVEST7 (port 7)⟩,
    -- Just consume a CONSUME packet if it is not the last and we haven't seen it before
    ⟨some .MTU_256, none, some .CONSUME0, none, some 0, 2, .finishConsume⟩,
    -- CONSUME packets that are retransmitted packets to a full slot -> recirculate for harvest
    ⟨some .MTU_256, none, some .CONSUME0, some Flag.FIRST, none, 3, .recirculateForHARVEST7 (port 7)⟩,
    -- Drop others
    ⟨some .MTU_256, none, some .CONSUME0, none, none, 4, .drop⟩,
    -- 512B packets not supported at the moment
    ⟨some .MTU_512, none, none, none, none, 5, .drop⟩ ]

/-- 1024 byte packets in pipe 0, installed when the pipe is folded. -/
def foldedConsume0Entries : List NextStepEntry :=
  -- Pipe 0, packet not seen before -> pipe 1 (load balance on worker id)
  ((List.range 16).map fun i =>
    ⟨some .MTU_1024, some (BitVec.ofNat 16 i), some .CONSUME0, none, some 0, 6,
      .recirculateForCONSUME1 (consumePort i)⟩) ++
  -- Pipe 0, retransmitted packet to a full slot -> pipe 1
  -- Run through the same path as novel packets (do not skip to harvest) to ensure ordering
  ((List.range 16).map fun i =>
    ⟨some .MTU_1024, some (BitVec.ofNat 16 i), some .CONSUME0, some Flag.FIRST, none, 7,
      .recirculateForCONSUME1 (consumePort i)⟩) ++
  [ -- Drop other CONSUME0 packets
    ⟨some .MTU_1024, none, some .CONSUME0, none, none, 8, .drop⟩ ]

/-- 1024 byte packets after pipe 0. -/
def foldedLaterEntries : List NextStepEntry :=
  [ -- Pipe 1 -> pipe 2
    ⟨some .MTU_1024, none, some .CONSUME1, none, none, 9, .recirculateForCONSUME2SamePortNextPipe⟩,
    -- Pipe 2 -> pipe 3
    ⟨some .MTU_1024, none, some .CONSUME2, none, none, 10, .recirculateForCONSUME3SamePortNextPipe⟩,
    -- For CONSUME3 packets that are the last packet, recirculate for harvest
    -- The last pass is a combined consume/harvest pass, so skip directly to HARVEST1
    ⟨some .MTU_1024, none, some .CONSUME3, some Flag.LAST, none, 11, .recirculateForHARVEST1 (port 1)⟩,
    -- Just consume any CONSUME3 packets if they're not last and we haven't seen them before
    ⟨some .MTU_1024, none, some .CONSUME3, none, some 0, 12, .finishConsume⟩,
    -- CONSUME3 packets that are retransmitted packets to a full slot -> recirculate for harvest
    ⟨some .MTU_1024, none, some .CONSUME3, some Flag.FIRST, none, 13, .recirculateForHARVEST1 (port 1)⟩,
    -- Drop others
    ⟨some .MTU_1024, none, some .CONSUME3, none, none, 14, .drop⟩,
    -- Harvesting 128B at a time
    ⟨some .MTU_1024, none, some .HARVEST0, none, none, 15, .recirculateForHARVEST1 (port 1)⟩,
    ⟨some .MTU_1024, none, some .HARVEST1, none, none, 16, .recirculateForHARVEST2 (port 2)⟩,
    ⟨some .MTU_1024, none, some .HARVEST2, none, none, 17, .recirculateForHARVEST3 (port 3)⟩,
    ⟨some .MTU_1024, none, some .HARVEST3, none, none, 18, .recirculateForHARVEST4 (port 4)⟩,
    ⟨some .MTU_1024, none, some .HARVEST4, none, none, 19, .recirculateForHARVEST5 (port 5)⟩,
    ⟨some .MTU_1024, none, some .HARVEST5, none, none, 20, .recirculateForHARVEST6 (port 6)⟩,
    ⟨some .MTU_1024, none, some .HARVEST6, none, none, 21, .recirculateForHARVEST7 (port 7)⟩ ]

def foldedEntries : List NextStepEntry := foldedConsume0Entries ++ foldedLaterEntries

/-- Harvest pass 7: final pass. -/
def finalEntries : List NextStepEntry :=
  [ -- Read final 128B and broadcast any HARVEST packets that are not
    -- retransmitted and are the last packet
    ⟨none, none, some .HARVEST7, some Flag.LAST, some 0, 22, .broadcast⟩,
    -- First packet, not a retransmission
    -- (shouldn't ever get here, because the packet would be dropped in CONSUME)
    ⟨none, none, some .HARVEST7, some Flag.FIRST, some 0, 23, .drop⟩,
    -- Retransmit any other HARVEST packets
    ⟨none, none, some .HARVEST7, some Flag.FIRST, none, 24, .retransmit⟩,
    -- Drop any other HARVEST packets
    ⟨none, none, some .HARVEST7, none, none, 25, .drop⟩ ]

/-- `add_default_entries` -/
def addDefaultEntries (foldedPipe : Bool) : List NextStepEntry :=
  baseEntries ++ (if foldedPipe then foldedEntries else []) ++ finalEntries

/-- The list is in priority order, so the first entry that matches is the one
`$MATCH_PRIORITY` selects. -/
theorem addDefaultEntries_sorted (foldedPipe : Bool) :
    (addDefaultEntries foldedPipe).Pairwise fun a b => a.priority ≤ b.priority := by
  cases foldedPipe <;> decide

@[simp] theorem Flag.first_ne_last : Flag.FIRST ≠ Flag.LAST := by decide

@[simp] theorem Flag.last_ne_first : Flag.LAST ≠ Flag.FIRST := by decide

/-! ## What the entries select -/

variable {foldedPipe : Bool} {md : SwitchmlMd}

theorem nextStep_256_CONSUME0 (hs : md.packetSize = .MTU_256) (ht : md.packetType = .CONSUME0) :
    nextStep (addDefaultEntries foldedPipe) md =
      if md.firstLastFlag = Flag.LAST then .recirculateForHARVEST7 (port 7)
      else if md.mapResult = 0 then .finishConsume
      else if md.firstLastFlag = Flag.FIRST then .recirculateForHARVEST7 (port 7)
      else .drop := by
  unfold nextStep Tna.lookup addDefaultEntries baseEntries
  rw [List.append_assoc, List.find?_append]
  by_cases hl : md.firstLastFlag = Flag.LAST <;> by_cases hm : md.mapResult = 0#32 <;>
    by_cases hf : md.firstLastFlag = Flag.FIRST <;> simp_all [NextStepEntry.hits]

/-- 128 and 512 byte packets are not supported. -/
theorem nextStep_128 (hs : md.packetSize = .MTU_128) : nextStep (addDefaultEntries foldedPipe) md = .drop := by
  simp [nextStep, Tna.lookup, addDefaultEntries, baseEntries, NextStepEntry.hits, hs]

theorem nextStep_512 (hs : md.packetSize = .MTU_512) : nextStep (addDefaultEntries foldedPipe) md = .drop := by
  simp [nextStep, Tna.lookup, addDefaultEntries, baseEntries, NextStepEntry.hits, hs]

/-- The entries for other sizes never match a 1024 byte packet. -/
theorem find?_baseEntries (hs : md.packetSize = .MTU_1024) : baseEntries.find? (·.hits md) = none := by
  simp [baseEntries, NextStepEntry.hits, hs]

theorem find?_finalEntries (h7 : md.packetType ≠ .HARVEST7) : finalEntries.find? (·.hits md) = none := by
  simp [finalEntries, NextStepEntry.hits, h7]

theorem find?_foldedLaterEntries (ht : md.packetType = .CONSUME0) :
    foldedLaterEntries.find? (·.hits md) = none := by
  simp [foldedLaterEntries, NextStepEntry.hits, ht]

theorem find?_foldedConsume0Entries (ht : md.packetType ≠ .CONSUME0) :
    foldedConsume0Entries.find? (·.hits md) = none := by
  rw [List.find?_eq_none]
  intro e he
  have htype : e.packetType = some .CONSUME0 := by
    simp only [foldedConsume0Entries, List.mem_append, List.mem_map, List.mem_singleton] at he
    obtain (⟨i, -, rfl⟩ | ⟨i, -, rfl⟩) | rfl := he <;> rfl
  simp [NextStepEntry.hits, htype, ht]

/-- Without the folded pipe no entry matches a 1024 byte packet before its last pass. -/
theorem nextStep_1024_unfolded (hs : md.packetSize = .MTU_1024) (h7 : md.packetType ≠ .HARVEST7) :
    nextStep (addDefaultEntries false) md = .drop := by
  unfold nextStep Tna.lookup addDefaultEntries
  rw [List.find?_append, List.find?_append, find?_baseEntries hs, find?_finalEntries h7]
  rfl

/-- A 1024 byte packet in pipe 0, from a worker the entries list. -/
theorem nextStep_1024_CONSUME0 {i : Nat} (hi : i < 16) (hs : md.packetSize = .MTU_1024)
    (ht : md.packetType = .CONSUME0) (hw : md.workerId = BitVec.ofNat 16 i) :
    nextStep (addDefaultEntries true) md =
      if md.mapResult = 0 ∨ md.firstLastFlag = Flag.FIRST then .recirculateForCONSUME1 (consumePort i)
      else .drop := by
  have hid : ∀ j < 16, BitVec.ofNat 16 i = BitVec.ofNat 16 j ↔ j = i := by
    intro j hj
    rw [← BitVec.toNat_inj, BitVec.toNat_ofNat, BitVec.toNat_ofNat]
    omega
  unfold nextStep Tna.lookup addDefaultEntries
  rw [List.append_assoc, List.find?_append, find?_baseEntries hs, Option.none_or, if_pos rfl, foldedEntries,
    foldedConsume0Entries, List.append_assoc, List.append_assoc, List.append_assoc, List.find?_append,
    List.find?_append, Tna.find?_map_range (c := md.mapResult = 0) hi,
    Tna.find?_map_range (c := md.firstLastFlag = Flag.FIRST) hi]
  · by_cases hm : md.mapResult = 0#32 <;> by_cases hf : md.firstLastFlag = Flag.FIRST <;>
      simp [NextStepEntry.hits, hs, ht, hm, hf]
  · intro j hj
    simp [NextStepEntry.hits, hs, ht, hw, hid j hj]
  · intro j hj
    simp [NextStepEntry.hits, hs, ht, hw, hid j hj]

/-- Workers the entries do not list are dropped in pipe 0. -/
theorem nextStep_1024_CONSUME0_unlisted (hs : md.packetSize = .MTU_1024) (ht : md.packetType = .CONSUME0)
    (hw : 16 ≤ md.workerId.toNat) : nextStep (addDefaultEntries true) md = .drop := by
  have hdrop : ∀ e ∈ addDefaultEntries true, e.hits md = true → e.action = .drop := by
    intro e he hhit
    simp only [addDefaultEntries, if_true, foldedEntries, List.mem_append] at he
    have hnone : ∀ es : List NextStepEntry, es.find? (·.hits md) = none → e ∉ es := by
      intro es hes hmem
      exact List.find?_eq_none.mp hes e hmem hhit
    rcases he with (he | he | he) | he
    · exact absurd he (hnone _ (find?_baseEntries hs))
    · simp only [foldedConsume0Entries, List.mem_append, List.mem_map, List.mem_range, List.mem_singleton] at he
      have hid : ∀ i < 16, md.workerId ≠ BitVec.ofNat 16 i := by
        intro i hi heq
        rw [heq, BitVec.toNat_ofNat] at hw
        omega
      obtain (⟨i, hi, rfl⟩ | ⟨i, hi, rfl⟩) | rfl := he
      · simp [NextStepEntry.hits, hid i hi] at hhit
      · simp [NextStepEntry.hits, hid i hi] at hhit
      · rfl
    · exact absurd he (hnone _ (find?_foldedLaterEntries ht))
    · exact absurd he (hnone _ (find?_finalEntries (by simp [ht])))
  unfold nextStep Tna.lookup
  cases hf : (addDefaultEntries true).find? (·.hits md) with
  | none => rfl
  | some e =>
    have hhit := List.find?_some hf
    exact hdrop e (List.mem_of_find?_eq_some hf) hhit

theorem nextStep_1024_later (hs : md.packetSize = .MTU_1024) (ht : md.packetType ≠ .CONSUME0)
    (h7 : md.packetType ≠ .HARVEST7) :
    nextStep (addDefaultEntries true) md =
      ((foldedLaterEntries.find? (·.hits md)).map (·.action)).getD .drop := by
  unfold nextStep Tna.lookup addDefaultEntries
  rw [if_pos rfl, foldedEntries, List.find?_append, List.find?_append, List.find?_append, find?_baseEntries hs,
    find?_foldedConsume0Entries ht, find?_finalEntries h7, Option.none_or, Option.none_or, Option.or_none]

theorem nextStep_1024_CONSUME1 (hs : md.packetSize = .MTU_1024) (ht : md.packetType = .CONSUME1) :
    nextStep (addDefaultEntries true) md = .recirculateForCONSUME2SamePortNextPipe := by
  rw [nextStep_1024_later hs (by simp [ht]) (by simp [ht])]
  simp [foldedLaterEntries, NextStepEntry.hits, hs, ht]

theorem nextStep_1024_CONSUME2 (hs : md.packetSize = .MTU_1024) (ht : md.packetType = .CONSUME2) :
    nextStep (addDefaultEntries true) md = .recirculateForCONSUME3SamePortNextPipe := by
  rw [nextStep_1024_later hs (by simp [ht]) (by simp [ht])]
  simp [foldedLaterEntries, NextStepEntry.hits, hs, ht]

/-- The last consume pass decides as the only one of a 256 byte packet does. -/
theorem nextStep_1024_CONSUME3 (hs : md.packetSize = .MTU_1024) (ht : md.packetType = .CONSUME3) :
    nextStep (addDefaultEntries true) md =
      if md.firstLastFlag = Flag.LAST then .recirculateForHARVEST1 (port 1)
      else if md.mapResult = 0 then .finishConsume
      else if md.firstLastFlag = Flag.FIRST then .recirculateForHARVEST1 (port 1)
      else .drop := by
  rw [nextStep_1024_later hs (by simp [ht]) (by simp [ht])]
  unfold foldedLaterEntries
  by_cases hl : md.firstLastFlag = Flag.LAST <;> by_cases hm : md.mapResult = 0#32 <;>
    by_cases hf : md.firstLastFlag = Flag.FIRST <;> simp_all [NextStepEntry.hits]

/-- The step after a harvest pass of a 1024 byte packet, except the last one. -/
def harvestStep : PacketType → NextStep
  | .HARVEST1 => .recirculateForHARVEST2 (port 2)
  | .HARVEST2 => .recirculateForHARVEST3 (port 3)
  | .HARVEST3 => .recirculateForHARVEST4 (port 4)
  | .HARVEST4 => .recirculateForHARVEST5 (port 5)
  | .HARVEST5 => .recirculateForHARVEST6 (port 6)
  | .HARVEST6 => .recirculateForHARVEST7 (port 7)
  | _ => .recirculateForHARVEST1 (port 1)

theorem nextStep_1024_harvest (hs : md.packetSize = .MTU_1024) (hsml : md.packetType.isSwitchML = true)
    (hc : md.packetType.isConsume = false) (h7 : md.packetType ≠ .HARVEST7) :
    nextStep (addDefaultEntries true) md = harvestStep md.packetType := by
  rw [nextStep_1024_later hs (by rintro h; simp [h, PacketType.isConsume] at hc) h7]
  unfold foldedLaterEntries
  cases ht : md.packetType <;>
    simp only [ht, PacketType.isConsume, PacketType.isSwitchML, Bool.false_eq_true, Bool.true_eq_false,
      ne_eq, not_true_eq_false] at hsml hc h7 <;>
    simp [NextStepEntry.hits, hs, ht, harvestStep]

/-- The last pass: broadcast what completed the slot, send the result again to
who asks for it, drop the rest. -/
theorem nextStep_HARVEST7 (hs : md.packetSize = .MTU_256 ∨ md.packetSize = .MTU_1024)
    (h7 : md.packetType = .HARVEST7) :
    nextStep (addDefaultEntries foldedPipe) md =
      if md.firstLastFlag = Flag.LAST ∧ md.mapResult = 0 then .broadcast
      else if md.firstLastFlag = Flag.FIRST ∧ md.mapResult ≠ 0 then .retransmit
      else .drop := by
  have hbase : baseEntries.find? (·.hits md) = none := by
    rcases hs with hs | hs <;> simp [baseEntries, NextStepEntry.hits, hs, h7]
  have hfold : (if foldedPipe then foldedEntries else []).find? (·.hits md) = none := by
    cases foldedPipe
    · rfl
    · rw [if_pos rfl, foldedEntries, List.find?_append, find?_foldedConsume0Entries (by simp [h7])]
      simp [foldedLaterEntries, NextStepEntry.hits, h7]
  unfold nextStep Tna.lookup addDefaultEntries
  rw [List.find?_append, List.find?_append, hbase, hfold, Option.none_or, Option.none_or]
  unfold finalEntries
  by_cases hl : md.firstLastFlag = Flag.LAST <;> by_cases hm : md.mapResult = 0#32 <;>
    by_cases hf : md.firstLastFlag = Flag.FIRST <;> simp_all [NextStepEntry.hits]

end SwitchML.Controller
