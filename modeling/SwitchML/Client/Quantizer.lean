/-
`cpu_exponent_quantizer_ppp.cc`: how a job slice is cut into logical
transmission units (LTUs), and what goes between the client's buffers and the
packets.

A `FLOAT32` slice needs an extra batch: packet `p` has the payload of LTU
`p - batch_num_ltus` and the exponent of LTU `p`. The loops are those without
vector instructions, those with them are in `VectorLoops`. Next to its result
each function gives the accesses it makes, in order.
-/
import SwitchML.Client.Job
import SwitchML.Lib.Chunks
import SwitchML.P4.Types
import Mathlib.Tactic.IntervalCases

namespace SwitchML.Client

open P4 (Exponent)

/-- An `int32_t`, or the bits of a `float`. -/
abbrev Word := BitVec 32

/-- The word at an address. -/
abbrev Memory := ℕ → Word

/-- The payload of a packet and its exponent. -/
structure Packet where
  entries : ℕ → Word
  exponent : Exponent

/-- The other byte order. `ntohl` is the same function. -/
def htonl (w : Word) : Word := w.extractLsb' 0 8 ++ w.extractLsb' 8 8 ++ w.extractLsb' 16 8 ++ w.extractLsb' 24 8

theorem htonl_htonl (w : Word) : htonl (htonl w) = w := by
  apply BitVec.eq_of_getLsbD_eq
  intro i hi
  simp only [htonl, BitVec.getLsbD_append, BitVec.getLsbD_extractLsb']
  interval_cases i <;> simp

/-! ## Floats -/

/-- `std::abs`, which clears the sign. -/
def floatAbs (w : Word) : Word := w &&& 0x7fffffff#32

def isNaN (w : Word) : Bool := 0x7f800000 < (floatAbs w).toNat

/-- `v > m` of two floats whose sign is clear. -/
def floatGt (v m : Word) : Bool := !isNaN v && !isNaN m && m.toNat < v.toNat

/-- One turn of the loop that finds the greatest absolute value. -/
def floatMax (currentMax w : Word) : Word := if floatGt (floatAbs w) currentMax then floatAbs w else currentMax

def absMax (elements : List Word) : Word := elements.foldl floatMax 0

/-- The exponent field less its bias, plus one. -/
def exponentOf (currentMax : Word) : Exponent :=
  Int8.ofInt (((currentMax &&& 0x7f800000#32) >>> 23).toNat - 126)

/-- The arithmetic on floats, where `K` holds the scaling factors. -/
structure FloatOps (K : Type) where
  /-- `double(INT32_MAX) / (num_workers * powf(2, exponent))` -/
  scalingFactor : ℕ → Exponent → K
  /-- `std::round(v * factor)` as an `int32_t` -/
  quantize : Word → K → Word
  /-- `v / factor` of an `int32_t` -/
  dequantize : Word → K → Word
  /-- What `new float[]` leaves in an entry. -/
  uninitialized : K

/-- Arithmetic on whole numbers that tells the elements and the factors apart. -/
def exampleOps : FloatOps ℕ where
  scalingFactor numWorkers e := numWorkers * e.toInt.toNat
  quantize w factor := w * BitVec.ofNat 32 factor
  dequantize w factor := w + BitVec.ofNat 32 factor
  uninitialized := 0

/-! ## The prepostprocessor -/

/-- What is done with the element of the slice at an index. -/
inductive Access (K : Type)
  /-- It is read and multiplied by the scaling factor of an LTU; `none` is an
  entry of the table that nothing was written to. -/
  | quantize (index ltuId : ℕ) (factor : Option K)
  /-- The elements are read and the exponent of the LTU is written. -/
  | exponent (ltuId : ℕ) (indices : List ℕ)
  /-- It is written, divided by the scaling factor of an LTU. -/
  | dequantize (index ltuId : ℕ) (factor : Option K)
  /-- The scaling factor of an LTU is written. -/
  | scale (ltuId : ℕ) (exponent : Exponent)
  /-- It is read, and converted to network byte order. -/
  | load (index : ℕ)
  /-- It is written, converted to host byte order. -/
  | store (index : ℕ)

structure Ppp (K : Type) where
  ltuSize : ℕ
  batchMaxNumLtus : ℕ
  numWorkers : ℕ
  slice : Tensor
  totalMainNumLtus : ℕ
  batchNumLtus : ℕ
  scalingFactors : ℕ → Option K

namespace Ppp

variable {K : Type}

/-- `SetupJobSlice`; it returns the number of main LTUs. -/
def setupJobSlice (p : Ppp K) (slice : Tensor) : Ppp K :=
  let tensorSize := slice.numel * dataTypeSize slice.dataType
  let totalMainNumLtus := (tensorSize + p.ltuSize - 1) / p.ltuSize
  { p with
    slice
    totalMainNumLtus
    batchNumLtus := min totalMainNumLtus p.batchMaxNumLtus
    scalingFactors := fun _ => none }

def needsExtraBatch (p : Ppp K) : Bool := p.slice.dataType = .float32

/-- Number of elements in an LTU. -/
def ltuNumel (p : Ppp K) : ℕ := p.ltuSize / dataTypeSize p.slice.dataType

/-- `numel - offset` as a `uint64_t`. -/
def remainingNumel (p : Ppp K) (offset : ℕ) : ℕ :=
  if offset ≤ p.slice.numel then p.slice.numel - offset else 2 ^ 64 + p.slice.numel - offset

def numelToProcess (p : Ppp K) (ltuId : ℕ) : ℕ := min p.ltuNumel (p.remainingNumel (ltuId * p.ltuNumel))

/-- The indices of the elements of an LTU. -/
def indices (p : Ppp K) (ltuId : ℕ) : List ℕ := (List.range (p.numelToProcess ltuId)).map (ltuId * p.ltuNumel + ·)

/-- The element of the input at an index. -/
def input (p : Ppp K) (mem : Memory) (index : ℕ) : Word := mem (p.slice.inPtr + 4 * index)

/-- The first `n` entries of a payload are replaced. -/
def fill (n : ℕ) (f entries : ℕ → Word) : ℕ → Word := fun i => if i < n then f i else entries i

/-- The `n` elements of the output from `offset` on are replaced. -/
def output (p : Ppp K) (offset n : ℕ) (f : ℕ → Word) (mem : Memory) : Memory := fun addr =>
  let base := p.slice.outPtr + 4 * offset
  if base ≤ addr ∧ (addr - base) % 4 = 0 ∧ (addr - base) / 4 < n then f ((addr - base) / 4) else mem addr

variable (ops : FloatOps K)

def quantized (w : Word) (factor : Option K) : Word := ops.quantize w (factor.getD ops.uninitialized)

def dequantized (w : Word) (factor : Option K) : Word := ops.dequantize w (factor.getD ops.uninitialized)

/-- Quantize the elements of an LTU into a packet. -/
def quantizeLtu (p : Ppp K) (mem : Memory) (ltuId : ℕ) (pkt : Packet) : Packet × List (Access K) :=
  let factor := p.scalingFactors ltuId
  let offset := ltuId * p.ltuNumel
  ({ pkt with
      entries := fill (p.numelToProcess ltuId) (fun i => htonl (quantized ops (p.input mem (offset + i)) factor))
        pkt.entries },
    (p.indices ltuId).map fun index => .quantize index ltuId factor)

/-- Compute the exponent of an LTU. -/
def computeExponent (p : Ppp K) (mem : Memory) (ltuId : ℕ) (pkt : Packet) : Packet × List (Access K) :=
  ({ pkt with exponent := exponentOf (absMax ((p.indices ltuId).map (p.input mem))) },
    [.exponent ltuId (p.indices ltuId)])

def preprocessSingle (p : Ppp K) (mem : Memory) (ltuId : ℕ) (pkt : Packet) : Packet × List (Access K) :=
  match p.slice.dataType with
  | .float32 =>
    let quantized := if p.batchNumLtus ≤ ltuId then p.quantizeLtu ops mem (ltuId - p.batchNumLtus) pkt else (pkt, [])
    if ltuId < p.totalMainNumLtus then
      let exponent := p.computeExponent mem ltuId quantized.1
      (exponent.1, quantized.2 ++ exponent.2)
    else quantized
  | .int32 =>
    ({ pkt with
        entries := fill (p.numelToProcess ltuId) (fun i => htonl (p.input mem (ltuId * p.ltuNumel + i))) pkt.entries },
      (p.indices ltuId).map .load)

/-- Dequantize a payload into the elements of an LTU. -/
def dequantizeLtu (p : Ppp K) (mem : Memory) (ltuId : ℕ) (pkt : Packet) : Memory × List (Access K) :=
  let factor := p.scalingFactors ltuId
  (p.output (ltuId * p.ltuNumel) (p.numelToProcess ltuId) (fun i => dequantized ops (htonl (pkt.entries i)) factor) mem,
    (p.indices ltuId).map fun index => .dequantize index ltuId factor)

/-- Compute the scaling factor of an LTU from the exponent received. -/
def scale (p : Ppp K) (ltuId : ℕ) (pkt : Packet) : Ppp K × List (Access K) :=
  ({ p with
      scalingFactors := Function.update p.scalingFactors ltuId (some (ops.scalingFactor p.numWorkers pkt.exponent)) },
    [.scale ltuId pkt.exponent])

def postprocessSingle (p : Ppp K) (mem : Memory) (ltuId : ℕ) (pkt : Packet) : Ppp K × Memory × List (Access K) :=
  match p.slice.dataType with
  | .float32 =>
    let dequantized :=
      if p.batchNumLtus ≤ ltuId then p.dequantizeLtu ops mem (ltuId - p.batchNumLtus) pkt else (mem, [])
    if ltuId < p.totalMainNumLtus then
      let scaled := p.scale ops ltuId pkt
      (scaled.1, dequantized.1, dequantized.2 ++ scaled.2)
    else (p, dequantized.1, dequantized.2)
  | .int32 =>
    (p, p.output (ltuId * p.ltuNumel) (p.numelToProcess ltuId) (fun i => htonl (pkt.entries i)) mem,
      (p.indices ltuId).map .store)

/-! ## The LTUs of a slice -/

theorem dataTypeSize_eq (d : DataType) : dataTypeSize d = 4 := by cases d <;> rfl

/-- The slice was set up, with LTUs of a whole number of elements. -/
structure SetUp (p : Ppp K) : Prop where
  ltuNumel_pos : 0 < p.ltuNumel
  total : p.totalMainNumLtus = Chunks.count p.slice.numel p.ltuNumel
  batch : p.batchNumLtus = min p.totalMainNumLtus p.batchMaxNumLtus
  batch_pos : 0 < p.batchNumLtus

variable {p : Ppp K} {slice : Tensor} {l : ℕ}

theorem setUp (h4 : 4 ∣ p.ltuSize) (hsize : 0 < p.ltuSize) (hmax : 0 < p.batchMaxNumLtus) (hnumel : 0 < slice.numel) :
    (p.setupJobSlice slice).SetUp := by
  obtain ⟨c, hc⟩ := h4
  have hcpos : 0 < c := by omega
  have hnumel' : (p.setupJobSlice slice).ltuNumel = c := by
    simp only [ltuNumel, setupJobSlice, dataTypeSize_eq, hc]
    omega
  have htotal : (p.setupJobSlice slice).totalMainNumLtus = Chunks.count slice.numel c := by
    simp only [setupJobSlice, dataTypeSize_eq, hc, Chunks.count]
    have h1 : slice.numel * 4 + 4 * c - 1 = 4 * (slice.numel + c - 1) + 3 := by omega
    rw [h1, ← Nat.div_div_eq_div_mul]
    congr 1
    omega
  have hpos : 0 < Chunks.count slice.numel c := (Chunks.lt_count_iff hcpos).mpr (by omega)
  refine ⟨by rw [hnumel']; exact hcpos, by rw [hnumel']; exact htotal, rfl, ?_⟩
  show 0 < min (p.setupJobSlice slice).totalMainNumLtus p.batchMaxNumLtus
  rw [htotal]
  exact lt_min hpos hmax

theorem SetUp.lt_iff (h : p.SetUp) : l < p.totalMainNumLtus ↔ l * p.ltuNumel < p.slice.numel := by
  rw [h.total, Chunks.lt_count_iff h.ltuNumel_pos]

theorem SetUp.batch_le (h : p.SetUp) : p.batchNumLtus ≤ p.totalMainNumLtus := by
  rw [h.batch]
  exact min_le_left _ _

theorem SetUp.numelToProcess (h : p.SetUp) (hl : l < p.totalMainNumLtus) :
    p.numelToProcess l = min p.ltuNumel (p.slice.numel - l * p.ltuNumel) := by
  have h1 := h.lt_iff.mp hl
  rw [Ppp.numelToProcess, remainingNumel, if_pos h1.le]

theorem SetUp.indices (h : p.SetUp) (hl : l < p.totalMainNumLtus) :
    p.indices l = Chunks.chunk p.slice.numel p.ltuNumel l := by
  rw [Ppp.indices, h.numelToProcess hl, Chunks.chunk]

end Ppp

end SwitchML.Client
