/-
The addresses that the threads of a DPDK worker use on the switch. Each thread is
given a range of pool indices, twice as long as its window, and uses the first
half of it in both sets. The validation of the configuration does not know how
many slots the switch has, so the ranges of the last threads may be beyond them,
and beyond the 14 bits that the switch reads.
-/
import SwitchML.Client.Config
import SwitchML.Client.DpdkSlots
import SwitchML.P4.UDPSender

namespace SwitchML.Client

open P4 (slotOf setBit registerSize)
open P4.UDPReceiver (poolIndexOf)
open P4.UDPSender (wirePoolIndex)

/-! ## The address of a packet -/

/-- `switch_pool_size * tid_` in 32 bits. The id is an `int16_t`, so that its sign
is extended. -/
def switchPoolIndexStart (tid M : ℕ) : BitVec 32 := BitVec.ofNat 32 (M * 2) * (BitVec.ofNat 16 tid).signExtend 32

/-- `pkt_id + switch_pool_index_shift` -/
def shifted (pktId : BitVec 64) (shift : BitVec 32) : ℕ := (pktId + shift.setWidth 64).toNat

/-- The pool index of a thread's packet, if `2 * max_outstanding_pkts`, by which it
divides, is not zero. -/
def packetPoolIndex (tid M : ℕ) (pktId : BitVec 64) (shift : BitVec 32) : Option (BitVec 16) :=
  if 2 * M % 2 ^ 32 = 0 then none
  else some (pktId2PoolIndex (shifted pktId shift) (switchPoolIndexStart tid M).toNat 0 M)

/-- The addresses of `T` threads with windows of `M` packets are in range, come
back as they were sent, and belong to one thread and one residue each. -/
structure PrivateSlots (M T : ℕ) : Prop where
  decodes : ∀ tid < T, ∀ pktId shift, ∃ i, packetPoolIndex tid M pktId shift = some i ∧
    (poolIndexOf i).toNat < registerSize ∧ wirePoolIndex (poolIndexOf i) = i
  apart : ∀ tid < T, ∀ tid' < T, ∀ pktId pktId' shift shift' i i',
    packetPoolIndex tid M pktId shift = some i → packetPoolIndex tid' M pktId' shift' = some i' →
    poolIndexOf i = poolIndexOf i' →
    tid = tid' ∧ shifted pktId shift % (2 * M) = shifted pktId' shift' % (2 * M)

variable {M T tid : ℕ}

/-- Only the lowest 16 bits of the start matter. -/
theorem pktId2PoolIndex_congr {start start' : ℕ} (h : start ≡ start' [MOD 2 ^ 16]) (p shift : ℕ) :
    pktId2PoolIndex p start shift M = pktId2PoolIndex p start' shift M := by
  have hof (i : ℕ) : BitVec.ofNat 16 (start + i) = BitVec.ofNat 16 (start' + i) := by
    apply BitVec.eq_of_toNat_eq
    rw [BitVec.toNat_ofNat, BitVec.toNat_ofNat]
    exact h.add_right i
  simp only [pktId2PoolIndex, hof]

/-- In these the sign of the id makes no difference. -/
theorem switchPoolIndexStart_modEq (tid M : ℕ) :
    (switchPoolIndexStart tid M).toNat ≡ 2 * M * tid [MOD 2 ^ 16] := by
  have hdvd : 2 ^ 16 ∣ 2 ^ 32 := by decide
  have hsign : ((BitVec.ofNat 16 tid).signExtend 32).toNat ≡ tid [MOD 2 ^ 16] := by
    rw [BitVec.toNat_signExtend, BitVec.toNat_setWidth, BitVec.toNat_ofNat]
    unfold Nat.ModEq
    split <;> omega
  have hsize : M * 2 % 2 ^ 32 ≡ 2 * M [MOD 2 ^ 16] := by
    rw [Nat.mul_comm]
    exact Nat.mod_mod_of_dvd _ hdvd
  rw [switchPoolIndexStart, BitVec.toNat_mul, BitVec.toNat_ofNat]
  exact (Nat.mod_mod_of_dvd _ hdvd).trans (hsize.mul hsign)

theorem packetPoolIndex_eq (h : 2 * M % 2 ^ 32 ≠ 0) (pktId : BitVec 64) (shift : BitVec 32) :
    packetPoolIndex tid M pktId shift = some (pktId2PoolIndex (shifted pktId shift) (2 * M * tid) 0 M) := by
  rw [packetPoolIndex, if_neg h, pktId2PoolIndex_congr (switchPoolIndexStart_modEq tid M)]

theorem shifted_ofNat {p : ℕ} (hp : p < 2 ^ 64) : shifted (BitVec.ofNat 64 p) 0 = p := by
  simpa [shifted] using hp

theorem poolIndexOf_toNat (i : BitVec 16) :
    (poolIndexOf i).toNat = 2 * (switchSlot i).toNat + (switchSet i).toNat := by
  rw [poolIndexOf_eq, P4.indexOf, BitVec.toNat_append, switchSlot_eq, switchSet_eq,
    ← Nat.shiftLeft_add_eq_or_of_lt (BitVec.isLt _), Nat.shiftLeft_eq, BitVec.toNat_ofBool]
  omega

/-! ## Ranges within the switch -/

/-- The range of each thread is within the slots of the switch. -/
theorem start_add_le (h : (2 * T - 1) * M ≤ 8192) (htid : tid < T) : 2 * M * tid + M ≤ 8192 := by
  have hle : (2 * tid + 1) * M ≤ (2 * T - 1) * M := Nat.mul_le_mul_right M (by omega)
  have heq : (2 * tid + 1) * M = 2 * M * tid + M := by ring
  omega

theorem slot_lt {p start : ℕ} (hM : 0 < M) (h : start + M ≤ 8192) :
    (switchSlot (pktId2PoolIndex p start 0 M)).toNat = start + p % M := by
  have hlt := Nat.mod_lt p hM
  rw [switchSlot_pktId2PoolIndex (by omega), BitVec.toNat_ofNat, Nat.add_zero, Nat.mod_eq_of_lt (by omega)]

/-- The bit between the slot and the set is not used. -/
theorem unused_bit {p start : ℕ} (hM : 0 < M) (h : start + M ≤ 8192) :
    (pktId2PoolIndex p start 0 M).getLsbD 14 = false := by
  have hlt := Nat.mod_lt p (Nat.mul_pos Nat.two_pos hM)
  have hmod : 2 * M % 2 ^ 32 = 2 * M := Nat.mod_eq_of_lt (by omega)
  have hzero (n : ℕ) (hn : n < 8192) : (BitVec.ofNat 16 n).getLsbD 14 = false := by
    rw [BitVec.getLsbD_ofNat, Nat.testBit_lt_two_pow (by omega)]
    rfl
  rw [pktId2PoolIndex, hmod, Nat.add_zero]
  split
  · exact hzero _ (by omega)
  · rw [BitVec.getLsbD_or, hzero _ (by omega)]
    rfl

/-- The residue is given by the slot and the set. -/
theorem residue_eq (hM : 0 < M) (x : ℕ) : x % (2 * M) = if M ≤ x % (2 * M) then M + x % M else x % M := by
  have hx := Nat.mod_lt x (Nat.mul_pos Nat.two_pos hM)
  have hmod : x % (2 * M) % M = x % M := Nat.mod_mod_of_dvd _ (Nat.dvd_mul_left M 2)
  generalize x % (2 * M) = y at hx hmod ⊢
  rw [← hmod]
  split
  · rename_i hge
    rw [Nat.mod_eq_sub_mod hge, Nat.mod_eq_of_lt (by omega)]
    omega
  · exact (Nat.mod_eq_of_lt (by omega)).symm

theorem PrivateSlots.of_le (hM : 0 < M) (h : (2 * T - 1) * M ≤ 8192) : PrivateSlots M T where
  decodes tid htid pktId shift := by
    have hstart := start_add_le h htid
    refine ⟨_, packetPoolIndex_eq (by omega) _ _, ?_, ?_⟩
    · have hslot := slot_lt (p := shifted pktId shift) hM hstart
      have hlt := Nat.mod_lt (shifted pktId shift) hM
      have hset := Bool.toNat_lt (switchSet (pktId2PoolIndex (shifted pktId shift) (2 * M * tid) 0 M))
      rw [poolIndexOf_toNat, hslot, registerSize]
      omega
    · exact (P4.UDPSender.wirePoolIndex_poolIndexOf _).mpr (unused_bit hM hstart)
  apart tid htid tid' htid' pktId pktId' shift shift' i i' hi hi' heq := by
    have hstart := start_add_le h htid
    have hstart' := start_add_le h htid'
    rw [packetPoolIndex_eq (by omega), Option.some.injEq] at hi hi'
    subst hi hi'
    generalize shifted pktId shift = p at heq ⊢
    generalize shifted pktId' shift' = q at heq ⊢
    have hslot : switchSlot (pktId2PoolIndex p (2 * M * tid) 0 M) = switchSlot (pktId2PoolIndex q (2 * M * tid') 0 M) :=
      congrArg slotOf heq
    have hset : switchSet (pktId2PoolIndex p (2 * M * tid) 0 M) = switchSet (pktId2PoolIndex q (2 * M * tid') 0 M) :=
      congrArg setBit heq
    have hnat := congrArg BitVec.toNat hslot
    rw [slot_lt hM hstart, slot_lt hM hstart'] at hnat
    rw [switchSet_pktId2PoolIndex (by omega), switchSet_pktId2PoolIndex (by omega), decide_eq_decide] at hset
    have hlt := Nat.mod_lt p hM
    have hlt' := Nat.mod_lt q hM
    -- the thread is the quotient by the length of its range
    have htids : tid = tid' := by
      have hdiv (t r : ℕ) (hr : r < M) : (2 * M * t + r) / (2 * M) = t := by
        rw [Nat.mul_add_div (by omega), Nat.div_eq_of_lt (by omega), Nat.add_zero]
      rw [← hdiv tid _ hlt, hnat, hdiv tid' _ hlt']
    subst htids
    refine ⟨rfl, ?_⟩
    have hslots : p % M = q % M := by omega
    rw [residue_eq hM p, residue_eq hM q, hslots]
    simp only [Nat.add_zero] at hset
    simp only [hset]

/-! ## Ranges beyond it -/

/-- What the first set's addresses have to be. -/
theorem PrivateSlots.decodes_lt (h : PrivateSlots M T) (htid : tid < T) {p : ℕ} (hp : p < 2 ^ 64) :
    2 * M % 2 ^ 32 ≠ 0 ∧ (poolIndexOf (pktId2PoolIndex p (2 * M * tid) 0 M)).toNat < registerSize ∧
      (pktId2PoolIndex p (2 * M * tid) 0 M).getLsbD 14 = false := by
  obtain ⟨i, hi, hlt, hwire⟩ := h.decodes tid htid (BitVec.ofNat 64 p) 0
  have hzero : 2 * M % 2 ^ 32 ≠ 0 := by
    intro h0
    rw [packetPoolIndex, if_pos h0] at hi
    cases hi
  rw [packetPoolIndex_eq hzero, shifted_ofNat hp, Option.some.injEq] at hi
  subst hi
  exact ⟨hzero, hlt, (P4.UDPSender.wirePoolIndex_poolIndexOf _).mp hwire⟩

/-- A window that is longer than the switch has slots. -/
theorem PrivateSlots.le_of_window (h : PrivateSlots M T) (hT : 0 < T) (hM : M < 2 ^ 32) : M ≤ 8192 := by
  by_contra hgt
  obtain ⟨hzero, hlt, -⟩ := h.decodes_lt hT (p := 8192) (by omega)
  rcases Nat.lt_or_ge M (2 ^ 31) with hsmall | hlarge
  · -- packet 8192 is for the slot after the last one
    have hmod : 2 * M % 2 ^ 32 = 2 * M := Nat.mod_eq_of_lt (by omega)
    rw [pktId2PoolIndex, hmod, Nat.add_zero, Nat.mod_eq_of_lt (by omega), if_pos (by omega), Nat.mul_zero,
      Nat.zero_add] at hlt
    exact absurd hlt (by decide)
  · -- twice the window wraps, and the packets of a window are not told apart
    have hmod : 2 * M % 2 ^ 32 = 2 * M - 2 ^ 32 := by omega
    have hsame : pktId2PoolIndex (2 * M - 2 ^ 32) (2 * M * 0) 0 M = pktId2PoolIndex 0 (2 * M * 0) 0 M := by
      rw [pktId2PoolIndex, pktId2PoolIndex, hmod, Nat.add_zero, Nat.mod_self, Nat.zero_mod]
    have haddress (p : ℕ) : packetPoolIndex 0 M (BitVec.ofNat 64 p) 0 = some _ := packetPoolIndex_eq hzero _ _
    have hfirst := haddress (2 * M - 2 ^ 32)
    have hsecond := haddress 0
    rw [shifted_ofNat (by omega)] at hfirst hsecond
    have heq := (h.apart 0 hT 0 hT _ _ _ _ _ _ hfirst hsecond (by rw [hsame])).2
    rw [shifted_ofNat (by omega), shifted_ofNat (by omega), Nat.zero_mod, Nat.mod_eq_of_lt (by omega)] at heq
    omega

/-- The first thread whose range is beyond the slots sends a packet there. -/
theorem PrivateSlots.le (h : PrivateSlots M T) (hT : 0 < T) (hM : M < 2 ^ 32) : (2 * T - 1) * M ≤ 8192 := by
  have hwindow := h.le_of_window hT hM
  by_contra hgt
  have hgt' : 8192 < 2 * M * (T - 1) + M := by
    have heq : (2 * (T - 1) + 1) * M = 2 * M * (T - 1) + M := by ring
    rw [show 2 * T - 1 = 2 * (T - 1) + 1 by omega, heq] at hgt
    omega
  have hlast : ∃ t, 8192 < 2 * M * t + M := ⟨T - 1, hgt'⟩
  have hle : Nat.find hlast ≤ T - 1 := Nat.find_min' hlast hgt'
  have hbeyond := Nat.find_spec hlast
  generalize ht : Nat.find hlast = t at hle hbeyond
  have htpos : 0 < t := by
    rcases Nat.eq_zero_or_pos t with rfl | hpos
    · omega
    · exact hpos
  have hbefore := Nat.find_min hlast (m := t - 1) (by omega)
  have hstart : 2 * M * t = 2 * M * (t - 1) + 2 * M := by
    obtain ⟨k, rfl⟩ : ∃ k, t = k + 1 := ⟨t - 1, by omega⟩
    rw [Nat.add_sub_cancel]
    ring
  -- the first slot of the range that the switch does not have
  have hslot (p : ℕ) (hp : p < M) (hge : 8192 ≤ 2 * M * t + p) (hlt : 2 * M * t + p ≤ 2 ^ 14) : False := by
    obtain ⟨-, hlt', hbit⟩ := h.decodes_lt (by omega : t < T) (p := p) (by omega)
    have hmod : 2 * M % 2 ^ 32 = 2 * M := Nat.mod_eq_of_lt (by omega)
    rw [pktId2PoolIndex, hmod, Nat.add_zero, Nat.mod_eq_of_lt (by omega), if_pos hp] at hlt' hbit
    rcases Nat.lt_or_eq_of_le hlt with hin | heq
    · rw [poolIndexOf_toNat, switchSlot_ofNat, BitVec.toNat_ofNat, Nat.mod_eq_of_lt hin, registerSize] at hlt'
      omega
    · rw [heq] at hbit
      exact absurd hbit (by decide)
  rcases Nat.lt_or_ge (2 * M * t) 8192 with hin | hout
  · exact hslot (8192 - 2 * M * t) (by omega) (by omega) (by omega)
  · exact hslot 0 (by omega) (by omega) (by omega)

/-! ## Accepted configurations -/

/-- The slots are private exactly if every thread has a packet and the window of
the last thread ends within the switch. -/
theorem privateSlots_iff {b : Build} {c c' : Config} (h : c.validate b = .ok c') :
    PrivateSlots c'.maxOutstandingPkts c'.numWorkerThreads.toNat ↔
      0 < c'.maxOutstandingPkts ∧ (2 * c'.numWorkerThreads.toNat - 1) * c'.maxOutstandingPkts ≤ 8192 := by
  obtain ⟨heq, hpos⟩ := Config.validate_numWorkerThreads h
  rw [← heq] at hpos
  have hM : c'.maxOutstandingPkts < 2 ^ 32 :=
    Nat.lt_of_le_of_lt (Nat.div_le_self _ _) c'.maxOutstandingPackets.isLt
  constructor
  · intro hprivate
    refine ⟨?_, hprivate.le hpos hM⟩
    rcases Nat.eq_zero_or_pos c'.maxOutstandingPkts with h0 | hlt
    · obtain ⟨hzero, -⟩ := hprivate.decodes_lt hpos (p := 0) (by omega)
      simp [h0] at hzero
    · exact hlt
  · intro ⟨hlt, hle⟩
    exact .of_le hlt hle

/-- Four threads that share as many packets as the switch has slots. -/
def wholeSwitch : Config where
  numWorkerThreads := 4
  maxOutstandingPackets := 8192
  packetNumel := 256
  backend := .dpdk
  msgNumel := 1024

/-- With an eighth of that they are private. -/
theorem privateSlots_eighth : PrivateSlots 256 4 := by
  have h : Config.validate ⟨true, true⟩ { wholeSwitch with maxOutstandingPackets := 1024 } =
      .ok { wholeSwitch with maxOutstandingPackets := 1024 } := by decide
  exact (privateSlots_iff h).mpr (by decide)

/-- They are accepted, but the third thread starts after the last slot. -/
theorem not_privateSlots : wholeSwitch.validate ⟨true, true⟩ = .ok wholeSwitch ∧ wholeSwitch.IsDpdk ⟨true, true⟩ ∧
    ¬ PrivateSlots wholeSwitch.maxOutstandingPkts wholeSwitch.numWorkerThreads.toNat := by
  refine ⟨by decide, by decide, fun h => ?_⟩
  have hle := h.le (by decide) (by decide)
  exact absurd hle (by decide)

end SwitchML.Client
