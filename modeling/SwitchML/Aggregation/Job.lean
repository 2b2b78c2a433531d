/-
A session's packets for one slot: `n` workers contribute to it phase after
phase, on alternating sets, with packets of one size. A job is a session whose
packets the pipelines aggregate.
-/
import SwitchML.Aggregation.Cells
import SwitchML.Controller.NextStepSelector
import SwitchML.Lib.Machine
import SwitchML.Lib.Phases
import Mathlib.Data.BitVec
import Mathlib.Data.Fintype.Card
import Mathlib.Algebra.BigOperators.Group.Finset.Basic
import Mathlib.Order.Bounds.Basic

namespace SwitchML.Aggregation

open P4 Tna

/-- The workers of one session, and what they send for one slot. -/
structure Session (n : ℕ) where
  id : Fin n → Fin 32
  id_injective : Function.Injective id
  packetSize : PacketSize
  foldedPipe : Bool
  slot : BitVec 14
  /-- The set of phase 0. -/
  firstSet : Bool
  /-- The port of a worker; all front panel ports that are not recirculated are in pipe 0. -/
  port : Fin n → PortId
  pipeOf_port : ∀ w, pipeOf (port w) = 0
  /-- What the receivers leave in the metadata of a worker's packets, beside the fields below. -/
  receivedMd : Fin n → ℕ → SwitchmlMd
  rdmaAddr : Fin n → ℕ → BitVec 64
  /-- What a worker contributes to a phase, in slices of 128 bytes. -/
  contribution : Fin n → ℕ → ℕ → DataH
  arpIcmp : List ArpIcmpEntry
  forward : ForwardTable

namespace Session

variable {n : ℕ} (J : Session n)

/-- Phases alternate between the sets. -/
def set (k : ℕ) : Bool := xor J.firstSet (k % 2 == 1)

theorem set_succ (k : ℕ) : J.set (k + 1) = !J.set k := by
  unfold set
  rcases Nat.mod_two_eq_zero_or_one k with h | h
  · have h1 : (k + 1) % 2 = 1 := by omega
    cases J.firstSet <;> simp [h, h1]
  · have h1 : (k + 1) % 2 = 0 := by omega
    cases J.firstSet <;> simp [h, h1]

def poolIndex (k : ℕ) : PoolIndex := indexOf J.slot (J.set k)

@[simp] theorem slotOf_poolIndex (k : ℕ) : slotOf (J.poolIndex k) = J.slot := slotOf_indexOf ..

@[simp] theorem setBit_poolIndex (k : ℕ) : setBit (J.poolIndex k) = J.set k := setBit_indexOf ..

/-- The bitmap of a worker. -/
def bit (w : Fin n) : WorkerBitmap := (1 : WorkerBitmap) <<< (J.id w).val

def numWorkers (_ : Session n) : NumWorkers := BitVec.ofNat 8 n

theorem le_32 (J : Session n) : n ≤ 32 := by
  have h := Fintype.card_le_of_injective J.id J.id_injective
  simpa using h

theorem toNat_numWorkers : J.numWorkers.toNat = n := by
  have h := J.le_32
  unfold numWorkers
  rw [BitVec.toNat_ofNat]
  omega

theorem numWorkers_eq_one : J.numWorkers = 1 ↔ n = 1 := by
  rw [← BitVec.toNat_inj, J.toNat_numWorkers]
  rfl

theorem getLsbD_bit (w : Fin n) (i : ℕ) : (J.bit w).getLsbD i = decide (i = (J.id w).val) := by
  have h := (J.id w).isLt
  unfold bit
  rw [BitVec.getLsbD_shiftLeft, BitVec.ofNat_eq_ofNat, BitVec.getLsbD_one]
  by_cases hi : i = (J.id w).val
  · simp [hi]
  · rw [decide_eq_false hi]
    by_cases hlt : i < (J.id w).val
    · simp [hlt]
    · have h0 : i - (J.id w).val ≠ 0 := by omega
      simp [h0]

/-- A packet's metadata when it enters the first pass. -/
def packetMd (w : Fin n) (k : ℕ) : SwitchmlMd :=
  { J.receivedMd w k with
    packetSize := J.packetSize
    workerId := BitVec.ofNat 16 (J.id w)
    packetType := .CONSUME0
    poolIndex := J.poolIndex k
    numWorkers := J.numWorkers
    ingressPort := J.port w }

/-- Whether a worker's packet is the last one of its message, which carries the exponents. -/
def isLast (w : Fin n) (k : ℕ) : Bool := (J.receivedMd w k).lastPacket

def e0 (w : Fin n) (k : ℕ) : Exponent := (J.receivedMd w k).e0

def e1 (w : Fin n) (k : ℕ) : Exponent := (J.receivedMd w k).e1

/-- How many pipes a packet visits. -/
def pipes : ℕ := if J.packetSize = .MTU_256 then 1 else 4

/-- The packet as a worker sends it, parsed up to the values. -/
def packet (w : Fin n) (k : ℕ) : Wire where
  md := J.packetMd w k
  rdmaAddr := J.rdmaAddr w k
  payload := (List.range (2 * J.pipes)).map (J.contribution w k)

/-- The tables of every pipe. The receivers' tables are not consulted past the first pass' receivers. -/
def tables : Tables where
  receiveUdp := []
  receiveRoce := []
  nextStep := Controller.addDefaultEntries J.foldedPipe
  arpIcmp := J.arpIcmp
  forward := J.forward

/-! ## What the cells should hold -/

/-- The sum of one slice over some workers, modulo 2^32 in each word. -/
def sum (S : Finset (Fin n)) (k slice : ℕ) : DataH := fun i => ∑ w ∈ S, J.contribution w k slice i

/-- Pipe `p` aggregates slices `2p` and `2p + 1`. -/
def HoldsValues (p : Fin 4) (i : Fin 32) (k : ℕ) (S : Finset (Fin n)) (cell : Pair Value) : Prop :=
  cell.first = J.sum S k (2 * p) i ∧ cell.second = J.sum S k (2 * p + 1) i

/-- Where all packets carry exponents, the cell has their greatest ones. -/
def HoldsExponents (k : ℕ) (S : Finset (Fin n)) (cell : Pair Exponent) : Prop :=
  (∀ w, J.isLast w k = true) →
    IsGreatest ((J.e0 · k) '' S) cell.first ∧ IsGreatest ((J.e1 · k) '' S) cell.second

variable {J} {S : Finset (Fin n)} {w : Fin n} {k : ℕ}

theorem HoldsValues.singleton {p : Fin 4} {i : Fin 32} :
    J.HoldsValues p i k {w} ⟨J.contribution w k (2 * p) i, J.contribution w k (2 * p + 1) i⟩ := by
  simp [HoldsValues, sum]

theorem HoldsValues.insert {p : Fin 4} {i : Fin 32} {cell : Pair Value} (h : J.HoldsValues p i k S cell)
    (hw : w ∉ S) :
    J.HoldsValues p i k (insert w S)
      (Pair.map₂ (· + ·) cell ⟨J.contribution w k (2 * p) i, J.contribution w k (2 * p + 1) i⟩) := by
  obtain ⟨h1, h2⟩ := h
  simp only [HoldsValues, Pair.map₂, sum, Finset.sum_insert hw, h1, h2]
  exact ⟨BitVec.add_comm .., BitVec.add_comm ..⟩

theorem HoldsExponents.singleton : J.HoldsExponents k {w} ⟨J.e0 w k, J.e1 w k⟩ := by
  intro _
  simp [isGreatest_singleton]

theorem HoldsExponents.insert {cell : Pair Exponent} (h : J.HoldsExponents k S cell) :
    J.HoldsExponents k (insert w S) (Pair.map₂ max cell ⟨J.e0 w k, J.e1 w k⟩) := by
  intro hl
  obtain ⟨h0, h1⟩ := h hl
  simp only [Pair.map₂, Finset.coe_insert, Set.image_insert_eq]
  exact ⟨max_comm _ (J.e0 w k) ▸ h0.insert _, max_comm _ (J.e1 w k) ▸ h1.insert _⟩

end Session

/-! ## Jobs -/

/-- The sizes the pipelines aggregate: 256 byte packets in pipe 0, and 1024
byte packets through all four where the pipe is folded and the entries list the
worker. -/
def Supported (packetSize : PacketSize) (foldedPipe : Bool) (id : Fin 32) : Prop :=
  packetSize = .MTU_256 ∨ packetSize = .MTU_1024 ∧ foldedPipe = true ∧ id.val < 16

/-- A session the pipelines aggregate for. -/
structure Job (n : ℕ) extends Session n where
  pos : 0 < n
  supported : ∀ w, Supported packetSize foldedPipe (id w)

/-- Two workers, whose contributions tell worker, phase and slice. -/
def Job.pair (packetSize : PacketSize) (h : packetSize = .MTU_256 ∨ packetSize = .MTU_1024) : Job 2 where
  pos := by decide
  id w := ⟨w.val, by omega⟩
  id_injective v w h := Fin.ext (congrArg (fun i : Fin 32 => i.val) h)
  packetSize := packetSize
  foldedPipe := true
  supported w := h.imp_right fun h1024 => ⟨h1024, rfl, by have := w.isLt; simp only; omega⟩
  slot := 5
  firstSet := false
  port w := BitVec.ofNat 9 (4 * w)
  pipeOf_port := by decide
  receivedMd w _ := { (default : SwitchmlMd) with lastPacket := true, e0 := if w = 0 then 3 else 5, e1 := -2 }
  rdmaAddr _ _ := 0
  contribution w k slice _ := BitVec.ofNat 32 (1000 * w + 10 * k + slice + 1)
  arpIcmp := []
  forward := ⟨[], none⟩

end SwitchML.Aggregation
