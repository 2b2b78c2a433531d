/-
The slots of the switch that the DPDK worker thread uses. The switch gives a
worker's packet to one of the two sets of a slot and with that forgets the
worker in the other set. So the thread may send a new packet only after the
result of the packet before it on the slot has come back, and it has to use the
sets of a slot in turn.

The ids of a slice run through the slots one after the other, so on each slot
they take turns at a distance of `max_outstanding_pkts`. The successor of an
accepted packet is at the distance of a batch, though. These are the same
unless the slice is smaller than the window. Then it makes a difference if there
is an extra batch that does not fit into the window either: the successor takes
a slot on which the result of another packet may still be missing.
-/
import SwitchML.P4.UDPReceiver
import SwitchML.Client.DpdkReceive
import Mathlib.Data.Nat.ModEq

namespace SwitchML.Client

open P4 (slotOf setBit indexOf)
open P4.UDPReceiver (poolIndexOf)

/-! ## Pool indices -/

/-- The slot a pool index is for, as the switch reads it. -/
def switchSlot (switchPoolIndex : BitVec 16) : BitVec 14 := slotOf (poolIndexOf switchPoolIndex)

/-- The set of the slot. -/
def switchSet (switchPoolIndex : BitVec 16) : Bool := setBit (poolIndexOf switchPoolIndex)

theorem poolIndexOf_eq (i : BitVec 16) : poolIndexOf i = indexOf (i.extractLsb' 0 14) (i.getLsbD 15) := by
  have hset : i.extractLsb' 15 1 = BitVec.ofBool (i.getLsbD 15) := by
    ext j hj
    obtain rfl : j = 0 := by omega
    simp
  rw [poolIndexOf, indexOf, hset]

theorem switchSlot_eq (i : BitVec 16) : switchSlot i = i.extractLsb' 0 14 := by
  rw [switchSlot, poolIndexOf_eq, P4.slotOf_indexOf]

theorem switchSet_eq (i : BitVec 16) : switchSet i = i.getLsbD 15 := by
  rw [switchSet, poolIndexOf_eq, P4.setBit_indexOf]

theorem switchSlot_ofNat (n : ℕ) : switchSlot (BitVec.ofNat 16 n) = BitVec.ofNat 14 n := by
  rw [switchSlot_eq]
  apply BitVec.eq_of_toNat_eq
  simp only [BitVec.extractLsb'_toNat, BitVec.toNat_ofNat, Nat.shiftRight_zero]
  omega

theorem switchSet_ofNat {n : ℕ} (hn : n < 2 ^ 14) : switchSet (BitVec.ofNat 16 n) = false := by
  rw [switchSet_eq, BitVec.getLsbD_ofNat, Nat.testBit_lt_two_pow (by omega)]
  rfl

theorem switchSlot_or (i : BitVec 16) : switchSlot (i ||| 0x8000#16) = switchSlot i := by
  rw [switchSlot_eq, switchSlot_eq, BitVec.extractLsb'_or]
  exact BitVec.or_zero

theorem switchSet_or (i : BitVec 16) : switchSet (i ||| 0x8000#16) = true := by
  rw [switchSet_eq, BitVec.getLsbD_or]
  exact Bool.or_true _

variable {start shift M p q : ℕ}

theorem switchSlot_pktId2PoolIndex (h : start + M ≤ 2 ^ 14) :
    switchSlot (pktId2PoolIndex p start shift M) = BitVec.ofNat 14 (start + (p + shift) % M) := by
  have hM : 2 * M % 2 ^ 32 = 2 * M := Nat.mod_eq_of_lt (by omega)
  have hmod : (p + shift) % (2 * M) % M = (p + shift) % M := Nat.mod_mod_of_dvd _ (Nat.dvd_mul_left M 2)
  rw [pktId2PoolIndex, hM, ← hmod]
  split
  · rename_i hlt
    rw [switchSlot_ofNat, Nat.mod_eq_of_lt hlt]
  · rename_i hle
    rw [switchSlot_or, switchSlot_ofNat]
    rcases Nat.eq_zero_or_pos M with h0 | hpos
    · simp [h0]
    · have hlt := Nat.mod_lt (p + shift) (Nat.mul_pos Nat.two_pos hpos)
      have hsub : (p + shift) % (2 * M) % M = (p + shift) % (2 * M) - M := by
        rw [Nat.mod_eq_sub_mod (Nat.le_of_not_lt hle), Nat.mod_eq_of_lt (by omega)]
      rw [hsub]

theorem switchSet_pktId2PoolIndex (h : start + M ≤ 2 ^ 14) :
    switchSet (pktId2PoolIndex p start shift M) = decide (M ≤ (p + shift) % (2 * M)) := by
  have hM : 2 * M % 2 ^ 32 = 2 * M := Nat.mod_eq_of_lt (by omega)
  rw [pktId2PoolIndex, hM]
  split
  · rename_i hlt
    rw [switchSet_ofNat (by omega), decide_eq_false (by omega)]
  · rename_i hle
    rw [switchSet_or, decide_eq_true (by omega)]

/-- Two packets of a slice share a slot when they are a multiple of the window apart. -/
theorem switchSlot_eq_iff (h : start + M ≤ 2 ^ 14) (hM : 0 < M) :
    switchSlot (pktId2PoolIndex p start shift M) = switchSlot (pktId2PoolIndex q start shift M) ↔ p % M = q % M := by
  have hlt (x : ℕ) : (start + x % M) % 2 ^ 14 = start + x % M := by
    have h1 := Nat.mod_lt x hM
    exact Nat.mod_eq_of_lt (by omega)
  rw [switchSlot_pktId2PoolIndex h, switchSlot_pktId2PoolIndex h, ← BitVec.toNat_inj, BitVec.toNat_ofNat,
    BitVec.toNat_ofNat, hlt, hlt, Nat.add_left_cancel_iff]
  exact ⟨fun hmod => Nat.ModEq.add_right_cancel' shift hmod, fun hmod => Nat.ModEq.add_right shift hmod⟩

/-- The next packet on a slot is for the other set. -/
theorem switchSet_add (h : start + M ≤ 2 ^ 14) (hM : 0 < M) :
    switchSet (pktId2PoolIndex (p + M) start shift M) = !switchSet (pktId2PoolIndex p start shift M) := by
  have h1 := Nat.mod_lt (p + shift) (Nat.mul_pos Nat.two_pos hM)
  have h2 : (p + M + shift) % (2 * M) =
      if (p + shift) % (2 * M) < M then (p + shift) % (2 * M) + M else (p + shift) % (2 * M) - M := by
    rw [show p + M + shift = p + shift + M by omega, Nat.add_mod, Nat.mod_eq_of_lt (a := M) (by omega)]
    split
    · exact Nat.mod_eq_of_lt (by omega)
    · rw [Nat.mod_eq_sub_mod (by omega), Nat.mod_eq_of_lt (by omega)]
      omega
  rw [switchSet_pktId2PoolIndex h, switchSet_pktId2PoolIndex h, h2]
  split
  · rw [decide_eq_true (by omega), decide_eq_false (by omega)]
    rfl
  · rw [decide_eq_false (by omega), decide_eq_true (by omega)]
    rfl

/-- After a slice the ids go on where the last one ended. -/
theorem pktId2PoolIndex_shift (total : ℕ) (h : start + M ≤ 2 ^ 14) :
    pktId2PoolIndex p start ((shift + total) % (2 * M)) M = pktId2PoolIndex (p + total) start shift M := by
  have hM : 2 * M % 2 ^ 32 = 2 * M := Nat.mod_eq_of_lt (by omega)
  rw [pktId2PoolIndex, pktId2PoolIndex, hM, Nat.add_mod_mod, show p + (shift + total) = p + total + shift by omega]

/-- The pool indices run through `M` slots and change the set with each round. -/
structure Alternates (index : ℕ → BitVec 16) (M : ℕ) : Prop where
  slot : ∀ p q, switchSlot (index p) = switchSlot (index q) ↔ p % M = q % M
  set : ∀ p, switchSet (index (p + M)) = !switchSet (index p)

theorem alternates (h : start + M ≤ 2 ^ 14) (hM : 0 < M) (shift : ℕ) :
    Alternates (fun p => pktId2PoolIndex p start shift M) M where
  slot _ _ := switchSlot_eq_iff h hM
  set _ := switchSet_add h hM

/-! ## The rule -/

/-- The last packet that was sent on the slot. -/
def lastSent (slot : BitVec 14) (log : List DpdkAction) : Option DpdkPacket :=
  log.foldl (fun last a =>
    match a with
    | .sent m => if switchSlot m.switchPoolIndex = slot then some m else last
    | .accepted _ _ => last) none

/-- The receive loop has accepted the packet's result. -/
def wasAccepted (log : List DpdkAction) (m : DpdkPacket) : Bool :=
  log.any fun a =>
    match a with
    | .sent _ => false
    | .accepted slice pktId => slice = m.slice && pktId = m.pktId

/-- If there was a packet on the slot before, it was for the other set and its
result was accepted. -/
def Ready (log : List DpdkAction) (switchPoolIndex : BitVec 16) : Prop :=
  ∀ m ∈ lastSent (switchSlot switchPoolIndex) log,
    switchSet m.switchPoolIndex = !switchSet switchPoolIndex ∧ wasAccepted log m = true

instance (log : List DpdkAction) (switchPoolIndex : BitVec 16) : Decidable (Ready log switchPoolIndex) :=
  inferInstanceAs (Decidable (∀ m ∈ lastSent _ log, _ ∧ _))

/-- Each new packet was sent on a slot that was ready for it. -/
def KeepsSlots (log : List DpdkAction) : Prop :=
  ∀ k m, log[k]? = some (.sent m) → m.fresh = true → Ready (log.take k) m.switchPoolIndex

variable {log : List DpdkAction} {m : DpdkPacket} {slot : BitVec 14} {switchPoolIndex : BitVec 16}

@[simp] theorem lastSent_sent : lastSent slot (log ++ [.sent m]) =
    if switchSlot m.switchPoolIndex = slot then some m else lastSent slot log := by
  rw [lastSent, List.foldl_append, List.foldl_cons, List.foldl_nil, ← lastSent]

@[simp] theorem lastSent_accepted {slice pktId : ℕ} :
    lastSent slot (log ++ [.accepted slice pktId]) = lastSent slot log := by
  rw [lastSent, List.foldl_append, List.foldl_cons, List.foldl_nil, ← lastSent]

theorem wasAccepted_iff : wasAccepted log m = true ↔ .accepted m.slice m.pktId ∈ log := by
  rw [wasAccepted, List.any_eq_true]
  constructor
  · intro ⟨a, ha, hm⟩
    cases a with
    | sent => cases hm
    | accepted slice pktId =>
      simp only [Bool.and_eq_true, decide_eq_true_eq] at hm
      rw [← hm.1, ← hm.2]
      exact ha
  · intro h
    exact ⟨_, h, by simp⟩

theorem wasAccepted_append {log' : List DpdkAction} (h : wasAccepted log m = true) :
    wasAccepted (log ++ log') m = true :=
  wasAccepted_iff.mpr (List.mem_append_left _ (wasAccepted_iff.mp h))

/-- What is done on the other slots does not matter. -/
theorem Ready.append (h : Ready log switchPoolIndex) {log' : List DpdkAction}
    (hlast : lastSent (switchSlot switchPoolIndex) log' = lastSent (switchSlot switchPoolIndex) log)
    (hacc : ∀ m, wasAccepted log m = true → wasAccepted log' m = true) : Ready log' switchPoolIndex := by
  intro m hm
  rw [hlast] at hm
  exact ⟨(h m hm).1, hacc m (h m hm).2⟩

theorem KeepsSlots.nil : KeepsSlots [] := by
  intro k m hk
  cases hk

theorem KeepsSlots.concat (h : KeepsSlots log) {a : DpdkAction}
    (ha : ∀ m, a = .sent m → m.fresh = true → Ready log m.switchPoolIndex) : KeepsSlots (log ++ [a]) := by
  intro k m hk hfresh
  rcases Nat.lt_trichotomy k log.length with hlt | rfl | hgt
  · rw [List.getElem?_append_left hlt] at hk
    rw [List.take_append_of_le_length hlt.le]
    exact h k m hk hfresh
  · rw [List.getElem?_concat_length, Option.some.injEq] at hk
    rw [List.take_left]
    exact ha m hk hfresh
  · have hlen : (log ++ [a]).length ≤ k := by
      rw [List.length_append, List.length_singleton]
      exact hgt
    rw [List.getElem?_eq_none hlen] at hk
    cases hk

/-! ## The packets of a slice -/

/-- The packets `S` were sent on their slots in turn, each after those before it
were accepted. `A` are the packets that were accepted. -/
structure Turns (index : ℕ → BitVec 16) (M slice : ℕ) (log : List DpdkAction) (S A : Set ℕ) : Prop where
  rule : KeepsSlots log
  sub : A ⊆ S
  prev : ∀ q ∈ S, M ≤ q → q - M ∈ A
  logged : ∀ p ∈ A, .accepted slice p ∈ log
  /-- Before the first packet on a slot the slot is ready for it. -/
  first : ∀ p, NextTurn M S p → p < M → Ready log (index p)
  /-- Before any other the last packet on the slot is the one before it. -/
  last : ∀ p, NextTurn M S p → M ≤ p → ∃ m, lastSent (switchSlot (index p)) log = some m ∧
    m.slice = slice ∧ m.pktId = p - M ∧ switchSet m.switchPoolIndex = !switchSet (index p)

namespace Turns

variable {index : ℕ → BitVec 16} {slice : ℕ} {S A : Set ℕ}

theorem of_eq {S' A' : Set ℕ} (h : Turns index M slice log S A) (hS : S' = S) (hA : A' = A) :
    Turns index M slice log S' A' := by
  rw [hS, hA]
  exact h

theorem inTurn (h : Turns index M slice log S A) : InTurn M S := fun q hq hM => h.sub (h.prev q hq hM)

/-- When a packet's predecessor on the slot was accepted, the slot is ready. -/
theorem ready (h : Turns index M slice log S A) (hp : p ∉ S) (hprev : M ≤ p → p - M ∈ A) : Ready log (index p) := by
  have hnext : NextTurn M S p := ⟨hp, fun hM => h.sub (hprev hM)⟩
  rcases Nat.lt_or_ge p M with hlt | hM
  · exact h.first p hnext hlt
  · obtain ⟨m, hm, hslice, hid, hset⟩ := h.last p hnext hM
    intro m' hm'
    rw [hm] at hm'
    cases hm'
    refine ⟨hset, wasAccepted_iff.mpr ?_⟩
    rw [hslice, hid]
    exact h.logged _ (hprev hM)

/-- The result of a packet is accepted. -/
theorem accept (h : Turns index M slice log S A) (hp : p ∈ S) :
    Turns index M slice (log ++ [.accepted slice p]) S (insert p A) where
  rule := h.rule.concat fun m hm => by cases hm
  sub := Set.insert_subset hp h.sub
  prev q hq hM := .inr (h.prev q hq hM)
  logged q hq := by
    rcases hq with rfl | hq
    · exact List.mem_append_right _ (List.mem_singleton_self _)
    · exact List.mem_append_left _ (h.logged q hq)
  first q hq hlt := (h.first q hq hlt).append lastSent_accepted fun _ => wasAccepted_append
  last q hq hM := by
    obtain ⟨m, hm, hrest⟩ := h.last q hq hM
    exact ⟨m, lastSent_accepted.trans hm, hrest⟩

/-- A packet whose slot is ready is sent for the first time. -/
theorem send (h : Turns index M slice log S A) (ha : Alternates index M) (hq : q ∉ S) (hprev : M ≤ q → q - M ∈ A)
    (hslice : m.slice = slice) (hid : m.pktId = q) (hindex : m.switchPoolIndex = index q) :
    Turns index M slice (log ++ [.sent m]) (insert q S) A := by
  have hnext : NextTurn M S q := ⟨hq, fun hM => h.sub (hprev hM)⟩
  -- the other slots stay as they are
  have hother (p : ℕ) (hmod : p % M ≠ q % M) :
      lastSent (switchSlot (index p)) (log ++ [.sent m]) = lastSent (switchSlot (index p)) log := by
    rw [lastSent_sent, hindex, if_neg]
    rw [ha.slot]
    exact fun hmod' => hmod hmod'.symm
  refine ⟨h.rule.concat fun m' hm' _ => ?_, fun p hp => .inr (h.sub hp), fun p hp hM => ?_,
    fun p hp => List.mem_append_left _ (h.logged p hp), fun p hp hlt => ?_, fun p hp hM => ?_⟩
  · cases hm'
    rw [hindex]
    exact h.ready hq hprev
  · rcases hp with rfl | hp
    · exact hprev hM
    · exact h.prev p hp hM
  · rcases h.inTurn.next_insert hnext hp with rfl | ⟨hp, hmod⟩
    · omega
    · exact (h.first p hp hlt).append (hother p hmod) fun _ => wasAccepted_append
  · rcases h.inTurn.next_insert hnext hp with rfl | ⟨hp, hmod⟩
    · refine ⟨m, ?_, hslice, ?_, ?_⟩
      · rw [lastSent_sent, hindex, if_pos]
        rw [ha.slot, Nat.add_mod_right]
      · rw [hid, Nat.add_sub_cancel]
      · rw [hindex, ha.set, Bool.not_not]
    · rw [hother p hmod]
      exact h.last p hp hM

/-- The last packet of a slot is sent again. -/
theorem resend (h : Turns index M slice log S A) (ha : Alternates index M) (hq : q ∈ S) (hlast : q + M ∉ S)
    (hslice : m.slice = slice) (hfresh : m.fresh = false) (hid : m.pktId = q) (hindex : m.switchPoolIndex = index q) :
    Turns index M slice (log ++ [.sent m]) S A := by
  -- only the one after it is still to be sent on the slot
  have hnext (p : ℕ) (hp : NextTurn M S p) :
      p = q + M ∨ lastSent (switchSlot (index p)) (log ++ [.sent m]) = lastSent (switchSlot (index p)) log := by
    by_cases hmod : p % M = q % M
    · exact .inl (h.inTurn.next_of_last hq hlast hp hmod)
    · refine .inr ?_
      rw [lastSent_sent, hindex, if_neg]
      rw [ha.slot]
      exact fun hmod' => hmod hmod'.symm
  refine ⟨h.rule.concat fun m' hm' hf => ?_, h.sub, h.prev, fun p hp => List.mem_append_left _ (h.logged p hp),
    fun p hp hlt => ?_, fun p hp hM => ?_⟩
  · cases hm'
    rw [hfresh] at hf
    cases hf
  · rcases hnext p hp with rfl | heq
    · omega
    · exact (h.first p hp hlt).append heq fun _ => wasAccepted_append
  · rcases hnext p hp with rfl | heq
    · refine ⟨m, ?_, hslice, ?_, ?_⟩
      · rw [lastSent_sent, hindex, if_pos]
        rw [ha.slot, Nat.add_mod_right]
      · rw [hid, Nat.add_sub_cancel]
      · rw [hindex, ha.set, Bool.not_not]
    · rw [heq]
      exact h.last p hp hM

/-- Before the first packet of a slice. -/
theorem empty (hrule : KeepsSlots log) (hready : ∀ p < M, Ready log (index p)) : Turns index M slice log ∅ ∅ where
  rule := hrule
  sub := Set.empty_subset _
  prev q hq := absurd hq (Set.notMem_empty q)
  logged p hp := absurd hp (Set.notMem_empty p)
  first p _ hlt := hready p hlt
  last _ hp hM := absurd (hp.2 hM) (Set.notMem_empty _)

end Turns

/-! ## The thread -/

namespace DpdkWorkerThread

variable {K : Type} {c : DpdkConfig} {ops : FloatOps K} {s s' : DpdkWorkerThread K} {sl : DpdkSlice}

/-- The batches of the slice fill the window, or all of its packets fit into it
at once. -/
def fitsWindow (c : DpdkConfig) (s : DpdkWorkerThread K) : Bool :=
  !s.ppp.needsExtraBatch || c.maxOutstandingPkts ≤ s.ppp.totalMainNumLtus ||
    2 * s.ppp.totalMainNumLtus ≤ c.maxOutstandingPkts

/-- In a slice that does not fit the window, no packet is accepted before the one
that its successor follows on the slot. And a timer that expires belongs to the
last packet of its slot. -/
def slotsInTurn (c : DpdkConfig) (s : DpdkWorkerThread K) : Event → Bool
  | .receive hdr _ _ =>
    match s.current with
    | some sl =>
      let pktId := hdr.pktId + sl.batchNumPkts
      hdr.shortJobId != shortJobId sl.jobId || s.fitsWindow c || sl.totalNumPkts ≤ pktId ||
        pktId < c.maxOutstandingPkts || sl.bitmap (pktId - c.maxOutstandingPkts)
    | none => true
  | .expire i _ =>
    match s.current, s.timers i with
    | some sl, some args =>
      sl.sent.contains args.pktId && !sl.sent.contains (args.pktId + c.maxOutstandingPkts) &&
        args.switchPoolIndex = s.poolIndex c args.pktId
    | _, _ => true
  | _ => true

/-- There a packet's successor is the next one on its slot, or the only one. -/
theorem window_of_fits (h : s.fitsWindow c = true) :
    s.batchNumPkts c = c.maxOutstandingPkts ∨ s.totalNumPkts c ≤ c.maxOutstandingPkts := by
  simp only [fitsWindow, Bool.or_eq_true, Bool.not_eq_true', decide_eq_true_eq] at h
  rw [totalNumPkts, batchNumPkts]
  rcases h with (h | h) | h
  · rw [h]
    simp only [Bool.false_eq_true, if_false]
    omega
  · exact .inl (min_eq_left h)
  · refine .inr ?_
    split <;> omega

/-- What the thread keeps about the slots it uses. -/
structure UsesSlots (c : DpdkConfig) (s : DpdkWorkerThread K) : Prop where
  rule : KeepsSlots s.log
  idle : s.current = none → s.running = true → ∀ p < c.maxOutstandingPkts, Ready s.log (s.poolIndex c p)
  size : ∀ sl, s.current = some sl → sl.batchNumPkts = s.batchNumPkts c ∧ sl.totalNumPkts = s.totalNumPkts c
  slice : ∀ sl, s.current = some sl →
    Turns (s.poolIndex c) c.maxOutstandingPkts s.slices s.log {p | p ∈ sl.sent} {p | p ∈ sl.accepted}

theorem UsesSlots.init (c : DpdkConfig) (memory : Memory) : UsesSlots c (new c memory : DpdkWorkerThread K) where
  rule := KeepsSlots.nil
  idle _ _ _ _ _ hm := by cases hm
  size _ h := by cases h
  slice _ h := by cases h

/-- The first batch goes out on different slots. -/
theorem turns_begin (ops : FloatOps K) (h : Turns (s.poolIndex c) c.maxOutstandingPkts s.slices s.log ∅ ∅)
    (ha : Alternates (s.poolIndex c) c.maxOutstandingPkts) (jobId : ℕ) (bufs : ℕ → Packet) {n : ℕ}
    (hn : n ≤ c.maxOutstandingPkts) (hn32 : n ≤ 2 ^ 32) :
    Turns (s.poolIndex c) c.maxOutstandingPkts s.slices
      (s.log ++ (List.range n).map fun j => .sent (s.buildPacket ops true jobId j (s.poolIndex c j) (bufs j)))
      {p | p < n} ∅ := by
  induction n with
  | zero => simpa using h
  | succ n ih =>
    have hset : {p | p < n + 1} = insert n {p | p < n} := by
      ext p
      rw [Set.mem_insert_iff, Set.mem_ofPred_eq, Set.mem_ofPred_eq]
      omega
    rw [List.range_succ, List.map_append, List.map_singleton, ← List.append_assoc, hset]
    refine (ih (by omega) (by omega)).send ha (by simp) (fun hM => by omega) rfl ?_ rfl
    exact Nat.mod_eq_of_lt (by omega)

theorem alternates_poolIndex (hc : c.switchPoolIndexStart + c.maxOutstandingPkts ≤ 2 ^ 14) (s : DpdkWorkerThread K) :
    Alternates (s.poolIndex c) c.maxOutstandingPkts :=
  alternates hc c.maxOutstandingPkts_pos _

theorem UsesSlots.begin (h : UsesSlots c s) (hc : c.switchPoolIndexStart + c.maxOutstandingPkts ≤ 2 ^ 14)
    {job : JobSlice} {bufs : ℕ → Packet} (hs : s.current = none) (hrun : s.running = true)
    (hb : s.begin c ops job bufs = some s') : UsesSlots c s' := by
  obtain ⟨hbatch, -, rfl⟩ := begin_eq_some hb
  have hstart : Turns ((s.prepare job).poolIndex c) c.maxOutstandingPkts (s.prepare job).slices
      (s.prepare job).log ∅ ∅ := Turns.empty h.rule (h.idle hs hrun)
  have hturns := turns_begin ops hstart (alternates_poolIndex hc _) job.job.id bufs
    (n := (s.prepare job).batchNumPkts c) (min_le_left _ _) (by omega)
  refine ⟨hturns.rule, fun hnone => ?_, fun sl hsl => ?_, fun sl hsl => ?_⟩
  · cases hnone
  · cases hsl
    exact ⟨rfl, rfl⟩
  · cases hsl
    refine hturns.of_eq ?_ ?_
    · ext p
      exact List.mem_range
    · ext p
      simp [DpdkSlice.accepted]

theorem UsesSlots.accept (h : UsesSlots c s) (hc : c.switchPoolIndexStart + c.maxOutstandingPkts ≤ 2 ^ 14)
    (hs : s.current = some sl) (hsl : sl.Receiving) {hdr : DpdkPacketHdr} (pkt : Packet)
    (hsent : hdr.pktId ∈ sl.sent) (hnew : hdr.pktId ∉ sl.accepted) (hlt : hdr.pktId < sl.totalNumPkts)
    (hturn : hdr.pktId + sl.batchNumPkts < sl.totalNumPkts → c.maxOutstandingPkts ≤ hdr.pktId + sl.batchNumPkts →
      hdr.pktId + sl.batchNumPkts - c.maxOutstandingPkts ∈ insert hdr.pktId sl.accepted) :
    UsesSlots c (s.accept c ops sl hdr pkt) := by
  have hacc : {p | p ∈ (sl.acceptedPacket hdr).accepted} = insert hdr.pktId {p | p ∈ sl.accepted} := by
    ext p
    rw [Set.mem_ofPred_eq, DpdkSlice.accepted_acceptedPacket, Finset.mem_insert, Set.mem_insert_iff, Set.mem_ofPred_eq]
  have haccept := (h.slice sl hs).accept hsent
  have hturns : Turns (s.poolIndex c) c.maxOutstandingPkts s.slices (s.accept c ops sl hdr pkt).log
      {p | p ∈ (sl.acceptedPacket hdr).sent} {p | p ∈ (sl.acceptedPacket hdr).accepted} := by
    rw [accept_eq hsl pkt hlt, hacc]
    by_cases hnext : hdr.pktId + sl.batchNumPkts < sl.totalNumPkts
    · have hnotsent : hdr.pktId + sl.batchNumPkts ∉ sl.sent := by
        rw [hsl.mem_sent]
        intro hwin
        rcases hwin.2 with h1 | ⟨-, h1⟩
        · omega
        · rw [Nat.add_sub_cancel] at h1
          exact hnew h1
      have hid : (hdr.pktId + sl.batchNumPkts) % 2 ^ 32 = hdr.pktId + sl.batchNumPkts := by
        have h1 := hsl.fits
        exact Nat.mod_eq_of_lt (by omega)
      simp only [if_pos hnext]
      rw [List.append_cons]
      refine (haccept.send (alternates_poolIndex hc s) hnotsent (fun hM => Finset.mem_insert.mp (hturn hnext hM))
        rfl hid rfl).of_eq ?_ rfl
      ext p
      simp [DpdkSlice.acceptedPacket, hnext, or_comm]
    · simp only [if_neg hnext]
      refine haccept.of_eq ?_ rfl
      ext p
      simp [DpdkSlice.acceptedPacket, hnext]
  rw [accept_eq hsl pkt hlt] at hturns ⊢
  refine ⟨hturns.rule, fun hnone => ?_, fun sl' hsl' => ?_, fun sl' hsl' => ?_⟩
  · cases hnone
  · cases hsl'
    -- the setup of the slice stays
    rw [batchNumPkts, totalNumPkts, batchNumPkts, postprocessed, Ppp.postprocessSingle_eq]
    exact h.size sl hs
  · cases hsl'
    exact hturns

/-- After the last packet of a slice the next one goes on with the slots. -/
theorem UsesSlots.finish (h : UsesSlots c s) (hc : c.switchPoolIndexStart + c.maxOutstandingPkts ≤ 2 ^ 14)
    (hs : s.current = some sl) (hsl : sl.Receiving) (hend : ¬(sl.numReceivedPkts < sl.totalNumPkts ∧ s.running = true)) :
    UsesSlots c (s.finish c sl) := by
  refine ⟨h.rule, fun _ hrun p hp => ?_, fun sl' hsl' => ?_, fun sl' hsl' => ?_⟩
  · have hcount : ¬sl.numReceivedPkts < sl.totalNumPkts := fun hlt => hend ⟨hlt, hrun⟩
    have hall : sl.accepted = Finset.range sl.totalNumPkts := by
      have hle := hsl.window.card_le
      rw [← hsl.window.card_eq_iff]
      rw [hsl.card_accepted] at hle ⊢
      omega
    have hready := (h.slice sl hs).ready (p := p + sl.totalNumPkts) ?_ fun hM => ?_
    · show Ready s.log ((s.finish c sl).poolIndex c p)
      rw [poolIndex, DpdkWorkerThread.finish, pktId2PoolIndex_shift _ hc]
      exact hready
    · intro hp'
      have hlt := (hsl.mem_sent.mp hp').1
      omega
    · show _ ∈ sl.accepted
      rw [hall, Finset.mem_range]
      omega
  · cases hsl'
  · cases hsl'

/-! ## Every step -/

theorem UsesSlots.step (h : UsesSlots c s) (hI : Inv c s)
    (hc : c.switchPoolIndexStart + c.maxOutstandingPkts ≤ 2 ^ 14) {e : Event} (hg : s.genuine e = true)
    (ht : s.slotsInTurn c e = true) (hn : s.next c ops e = some s') : UsesSlots c s' := by
  cases DpdkWorkerThread.step hn with
  | began job bufs _ hs hnumel hb =>
    simp only [next, Option.ite_none_right_eq_some] at hn
    exact h.begin hc hs hn.1.2.1 hb
  | received sl hdr pkt bit hs =>
    have hsl := hI.receiving sl hs
    rcases receive_cases hsl hdr pkt bit (hI.mem_sent_of_genuine hs hg) with heq | ⟨hsent, hnew, hshort, hlt, heq⟩
    · rw [heq]
      refine ⟨h.rule, fun hnone => ?_, fun sl' hsl' => ?_, fun sl' hsl' => ?_⟩
      · cases hnone
      · cases hsl'
        exact h.size sl hs
      · cases hsl'
        exact h.slice sl hs
    · rw [heq]
      refine h.accept hc hs hsl pkt hsent hnew hlt fun hnext hM => ?_
      simp only [slotsInTurn, hs, hshort, bne_self_eq_false, Bool.false_or, Bool.or_eq_true, decide_eq_true_eq,
        hsl.bitmap] at ht
      rw [Finset.mem_insert]
      rcases ht with ((h1 | h1) | h1) | h1
      · obtain ⟨hbatch, htotal⟩ := h.size sl hs
        rcases window_of_fits h1 with h2 | h2
        · exact .inl (by omega)
        · omega
      · omega
      · omega
      · exact .inr h1
  | expired sl args i buf hs harm hlt =>
    simp only [slotsInTurn, hs, harm, Bool.and_eq_true, Bool.not_eq_true', decide_eq_true_eq] at ht
    obtain ⟨⟨hsent, hlast⟩, hindex⟩ := ht
    rw [List.contains_iff_mem] at hsent
    have hid : args.pktId % 2 ^ 32 = args.pktId := by
      have h1 := ((hI.receiving sl hs).mem_sent.mp hsent).1
      have h2 := (hI.receiving sl hs).fits
      exact Nat.mod_eq_of_lt (by omega)
    have hturns := (h.slice sl hs).resend (alternates_poolIndex hc s) hsent (by simpa using hlast)
      (m := s.buildPacket ops false args.jobId args.pktId args.switchPoolIndex buf) rfl rfl hid hindex
    refine ⟨hturns.rule, fun hnone => ?_, h.size, fun sl' hsl' => ?_⟩
    · rw [show (s.resend ops args buf).current = s.current from rfl, hs] at hnone
      cases hnone
    · obtain rfl : sl = sl' := Option.some.inj (hs.symm.trans hsl')
      exact hturns
  | finished sl hs hend => exact h.finish hc hs (hI.receiving sl hs) hend
  | stopped => exact ⟨h.rule, (fun _ hrun => by cases hrun), h.size, h.slice⟩
  | wrote addr w hr => exact ⟨h.rule, h.idle, h.size, h.slice⟩

/-- Where the slots are used in turn, the thread keeps the switch's rule. -/
theorem keeps_slots (hc : c.switchPoolIndexStart + c.maxOutstandingPkts ≤ 2 ^ 14)
    (h : (machine c ops).Reach (fun s e => (s.genuine e = true ∧ s.keepsOrder c e = true) ∧ s.slotsInTurn c e = true) s) :
    KeepsSlots s.log := by
  have hinv : UsesSlots c s := by
    refine Machine.Reach.invariant_of (I := Inv c) (fun s hs => Inv.of_reach (hs.mono fun _ _ hok => hok.1))
      (fun s hs => ?_) (fun s e s' hI hu hok hn => hu.step hI hc hok.1.1 hok.2 hn) h
    obtain ⟨memory, rfl⟩ := hs
    exact UsesSlots.init c memory
  exact hinv.rule

/-- The entry of a log is a new packet on a slot that was not ready for it. -/
def sentTooSoon (log : List DpdkAction) (k : ℕ) : Bool :=
  match log[k]? with
  | some (.sent m) => m.fresh && !decide (Ready (log.take k) m.switchPoolIndex)
  | _ => false

/-- Three packets and as many for the extra batch, with a window of four. The
response to packet 1 comes first, and packet 4 is sent on the slot of packet 0. -/
theorem breaks_slots : ∃ s : DpdkWorkerThread ℕ, (machine (exampleConfig 4 (by decide)) exampleOps).Reach
    (fun s e => s.genuine e = true ∧ s.keepsOrder (exampleConfig 4 (by decide)) e = true) s ∧ ¬KeepsSlots s.log := by
  have hrun : ((machine (exampleConfig 4 (by decide)) exampleOps).runWhile
      (fun s e => s.genuine e = true ∧ s.keepsOrder (exampleConfig 4 (by decide)) e = true)
      (new (exampleConfig 4 (by decide)) fun _ => 0)
      [.begin (exampleSlice 0 192 .float32) fun _ => examplePacket,
        .receive { pktId := 1, shortJobId := 0 } examplePacket false]).map (fun s : DpdkWorkerThread ℕ =>
      sentTooSoon s.log 4) = some true := by
    decide +kernel
  obtain ⟨s, hr, hbad⟩ := Option.map_eq_some_iff.mp hrun
  refine ⟨s, Machine.Reach.runWhile (.init ⟨_, rfl⟩) hr, fun hkeeps => ?_⟩
  unfold sentTooSoon at hbad
  split at hbad
  · rename_i m hm
    rw [Bool.and_eq_true] at hbad
    have hready := hkeeps 4 m hm hbad.1
    simp [hready] at hbad
  · cases hbad

/-- Two slices of three packets with a window of two. -/
theorem keeps_slots_twice : ∃ s : DpdkWorkerThread ℕ, s.log.length = 11 ∧ KeepsSlots s.log := by
  let hdr (pktId shortJobId : ℕ) : DpdkPacketHdr := { pktId, shortJobId }
  have hrun : ((machine (exampleConfig 2 (by decide)) exampleOps).runWhile
      (fun s e => (s.genuine e = true ∧ s.keepsOrder (exampleConfig 2 (by decide)) e = true) ∧
        s.slotsInTurn (exampleConfig 2 (by decide)) e = true)
      (new (exampleConfig 2 (by decide)) fun _ => 0)
      [.begin (exampleSlice 0 130 .int32) fun _ => examplePacket, .receive (hdr 1 0) examplePacket false,
        .receive (hdr 0 0) examplePacket false, .receive (hdr 0 0) examplePacket false,
        .receive (hdr 2 0) examplePacket false, .finish,
        .begin (exampleSlice 1 130 .int32) fun _ => examplePacket, .receive (hdr 0 1) examplePacket false,
        .receive (hdr 1 1) examplePacket false]).map (fun s => s.log.length) = some 11 := by
    decide +kernel
  obtain ⟨s, hr, hlen⟩ := Option.map_eq_some_iff.mp hrun
  exact ⟨s, hlen, keeps_slots (by decide) (Machine.Reach.runWhile (.init ⟨_, rfl⟩) hr)⟩

end DpdkWorkerThread

end SwitchML.Client
