/-
The loops of `cpu_exponent_quantizer_ppp.cc` with vector instructions: sixteen
elements a turn up to some bound, which is `numel - numel % 16`, and one element
a turn from there. Without the vector class library (VCL) the bound is 0. The
library is a parameter, `Vcl.Documented` says what its functions are documented
to do.

A product of floats is taken as exact. The two paths round it differently, half
to even and half away from zero, and they convert it differently: the single
element goes through a `uint32_t`, to which a negative float has no conversion.
So they agree on an element exactly when its product is above `-1/2` and not
halfway above an even number.
-/
import SwitchML.Client.Quantization
import SwitchML.Client.QuantizerFrame
import SwitchML.Lib.ForLoop
import Mathlib.Data.Int.Log

namespace SwitchML.Client

open P4 (Exponent)

/-! ## The vector class library -/

/-- What 16 words are in memory, least significant byte first. -/
def bytes (v : Fin 16 → Word) : Fin 64 → BitVec 8 := fun k => (v ⟨k / 4, by omega⟩).extractLsb' (8 * (k % 4)) 8

/-- The 16 words stored as these bytes. -/
def words (b : Fin 64 → BitVec 8) : Fin 16 → Word := fun lane =>
  b ⟨4 * lane + 3, by omega⟩ ++ b ⟨4 * lane + 2, by omega⟩ ++ b ⟨4 * lane + 1, by omega⟩ ++ b ⟨4 * lane, by omega⟩

/-- The functions the loops call, on the lanes of a vector. -/
structure Vcl where
  roundi : (Fin 16 → ℚ) → Fin 16 → Word
  permute64 : (Fin 64 → Fin 64) → (Fin 64 → BitVec 8) → Fin 64 → BitVec 8
  abs : (Fin 16 → Word) → Fin 16 → Word
  max : (Fin 16 → Word) → (Fin 16 → Word) → Fin 16 → Word
  horizontalMax : (Fin 16 → Word) → Word
  toFloat : (Fin 16 → Word) → Fin 16 → Word
  /-- `u / v` -/
  div : (Fin 16 → Word) → (Fin 16 → Word) → Fin 16 → Word

/-- The arithmetic on single floats where it rounds to a float. -/
structure FloatArith where
  /-- An `int32_t` as a float. -/
  ofInt32 : Word → Word
  /-- `v / w` -/
  div : Word → Word → Word

/-- To the nearest integer, half-way cases to the even one. -/
def roundHalfEven (x : ℚ) : ℤ :=
  if Int.fract x < 1 / 2 then ⌊x⌋
  else if 1 / 2 < Int.fract x then ⌊x⌋ + 1
  else if ⌊x⌋ % 2 = 0 then ⌊x⌋
  else ⌊x⌋ + 1

/-- A rational that is in the range of an `int32_t`. -/
def FitsInt32 (x : ℚ) : Prop := -2 ^ 31 ≤ x ∧ x ≤ 2 ^ 31 - 1

/-- The bits of a finite float whose sign is clear. -/
def IsMagnitude (w : Word) : Prop := w.toNat < 0x7f800000

structure Vcl.Documented (vcl : Vcl) (arith : FloatArith) : Prop where
  roundi : ∀ x lane, FitsInt32 (x lane) → vcl.roundi x lane = BitVec.ofInt 32 (roundHalfEven (x lane))
  permute64 : ∀ indexes b k, vcl.permute64 indexes b k = b (indexes k)
  abs : ∀ v lane, vcl.abs v lane = floatAbs (v lane)
  max : ∀ u v lane, IsMagnitude (u lane) → IsMagnitude (v lane) →
    vcl.max u v lane = if floatGt (v lane) (u lane) then v lane else u lane
  horizontalMax : ∀ v, (∀ lane, IsMagnitude (v lane)) →
    (∃ lane, vcl.horizontalMax v = v lane) ∧ ∀ lane, floatGt (v lane) (vcl.horizontalMax v) = false
  toFloat : ∀ v lane, vcl.toFloat v lane = arith.ofInt32 (v lane)
  div : ∀ u v lane, vcl.div u v lane = arith.div (u lane) (v lane)

/-- `ENDIANESS_CONVERSION` -/
def endianessConversion : Fin 64 → Fin 64 := fun k =>
  [3, 2, 1, 0, 7, 6, 5, 4, 11, 10, 9, 8, 15, 14, 13, 12, 19, 18, 17, 16, 23,
    22, 21, 20, 27, 26, 25, 24, 31, 30, 29, 28, 35, 34, 33, 32, 39, 38, 37,
    36, 43, 42, 41, 40, 47, 46, 45, 44, 51, 50, 49, 48, 55, 54, 53, 52, 59,
    58, 57, 56, 63, 62, 61, 60].getD k 0

/-! ## What the loops do to an element -/

/-- An element times the scaling factor. -/
def scaled (factor w : Word) : ℚ := floatValue w * floatValue factor

/-- A float that is an integer, as a `uint32_t`; `none` where that is undefined. -/
def toUint32 (z : ℤ) : Option Word := if 0 ≤ z ∧ z < 2 ^ 32 then some (BitVec.ofInt 32 z) else none

/-- `htonl(std::round(v * factor))` -/
def quantizeElement (factor w : Word) : Option Word := (toUint32 (roundHalfAway (scaled factor w))).map htonl

/-- `in_be / factor`, where `in_be` is `ntohl` of the entry. -/
def dequantizeElement (arith : FloatArith) (factor w : Word) : Word := arith.div (arith.ofInt32 (htonl w)) factor

namespace Vcl

variable (vcl : Vcl)

/-- The other byte order in each lane. -/
def swap (v : Fin 16 → Word) : Fin 16 → Word := words (vcl.permute64 endianessConversion (bytes v))

def quantizeBlock (factor : Word) (v : Fin 16 → Word) : Fin 16 → Word :=
  vcl.swap (vcl.roundi fun lane => scaled factor (v lane))

def dequantizeBlock (factor : Word) (v : Fin 16 → Word) : Fin 16 → Word :=
  vcl.div (vcl.toFloat (vcl.swap v)) fun _ => factor

/-! ## The loops over an LTU -/

def toVectorProcess (numelToProcess : ℕ) : ℕ := numelToProcess - numelToProcess % 16

variable (bound numelToProcess : ℕ) (elements : ℕ → Word)

/-- The payload of a packet, from the elements of an LTU. -/
def quantize (factor : Word) (entries : ℕ → Word) : Option (ℕ → Word) :=
  elementwise 16 (vcl.quantizeBlock factor) (quantizeElement factor) elements bound numelToProcess entries

/-- The elements of an LTU, from the payload of a packet. -/
def dequantize (arith : FloatArith) (factor : Word) (out : ℕ → Word) : Option (ℕ → Word) :=
  elementwise 16 (vcl.dequantizeBlock factor) (fun w => some (dequantizeElement arith factor w)) elements bound
    numelToProcess out

/-- `INT32` elements in the other byte order, which is what is done to them
either way. -/
def convert (out : ℕ → Word) : Option (ℕ → Word) :=
  elementwise 16 vcl.swap (fun w => some (htonl w)) elements bound numelToProcess out

/-- The elements that are left, for the maximum. -/
def remainderMax (i : ℕ) (currentMax : Word) : Word :=
  (forLoop 1 (fun i currentMax => floatMax currentMax (elements i)) numelToProcess i currentMax).2

/-- The greatest absolute value. -/
def currentMax : Word :=
  let vectorial := forLoop 16 (fun i current => vcl.max current (vcl.abs (loadBlock 16 elements i))) bound 0
    fun _ => 0
  remainderMax numelToProcess elements vectorial.1 (vcl.horizontalMax vectorial.2)

end Vcl

/-! ## The byte order -/

theorem bytes_lane (v : Fin 16 → Word) (lane : Fin 16) (byte : Fin 4) :
    bytes v ⟨4 * lane + byte, by omega⟩ = (v lane).extractLsb' (8 * byte) 8 := by
  have hlane : (4 * lane.val + byte.val) / 4 = lane := by omega
  have hbyte : (4 * lane.val + byte.val) % 4 = byte := by omega
  simp only [bytes, hlane, hbyte]

theorem endianessConversion_lane (lane : Fin 16) (byte : Fin 4) :
    endianessConversion ⟨4 * lane + byte, by omega⟩ = ⟨4 * lane + (3 - byte), by omega⟩ := by
  revert lane byte
  decide

namespace Vcl.Documented

variable {vcl : Vcl} {arith : FloatArith} (h : vcl.Documented arith)
include h

/-- The constants exchange the bytes of each word. -/
theorem swap_lane (v : Fin 16 → Word) (lane : Fin 16) : vcl.swap v lane = htonl (v lane) := by
  have hbyte (byte : Fin 4) : vcl.permute64 endianessConversion (bytes v) ⟨4 * lane + byte, by omega⟩ =
      (v lane).extractLsb' (8 * (3 - byte)) 8 := by
    rw [h.permute64, endianessConversion_lane]
    exact bytes_lane v lane ⟨3 - byte, by omega⟩
  rw [swap, words, htonl]
  exact congr_arg₂ _ (congr_arg₂ _ (congr_arg₂ _ (hbyte 3) (hbyte 2)) (hbyte 1)) (hbyte 0)

theorem quantizeBlock_lane {factor : Word} {v : Fin 16 → Word} {lane : Fin 16} (hfits : FitsInt32 (scaled factor (v lane))) :
    vcl.quantizeBlock factor v lane = htonl (BitVec.ofInt 32 (roundHalfEven (scaled factor (v lane)))) := by
  rw [quantizeBlock, h.swap_lane, h.roundi (fun lane => scaled factor (v lane)) lane hfits]

theorem dequantizeBlock_lane (factor : Word) (v : Fin 16 → Word) (lane : Fin 16) :
    vcl.dequantizeBlock factor v lane = dequantizeElement arith factor (v lane) := by
  rw [dequantizeBlock, h.div, h.toFloat, h.swap_lane, dequantizeElement]

end Vcl.Documented

/-! ## Rounding -/

theorem roundHalfAway_nonneg {x : ℚ} : 0 ≤ roundHalfAway x ↔ -1 / 2 < x := by
  unfold roundHalfAway
  split
  · rename_i hx
    exact iff_of_true (Int.floor_nonneg.mpr (by linarith)) (by linarith)
  · have hceil : -1 < ⌈x - 1 / 2⌉ ↔ ((-1 : ℤ) : ℚ) < x - 1 / 2 := Int.lt_ceil
    push_cast at hceil
    constructor
    · intro h
      have h1 := hceil.mp (by omega)
      linarith
    · intro h
      have h1 := hceil.mpr (by linarith)
      omega

theorem floor_add_half (x : ℚ) : ⌊x + 1 / 2⌋ = if Int.fract x < 1 / 2 then ⌊x⌋ else ⌊x⌋ + 1 := by
  have hsum := Int.floor_add_fract x
  have hlt := Int.fract_lt_one x
  have hnonneg := Int.fract_nonneg x
  split
  · exact Int.floor_eq_iff.mpr ⟨by linarith, by linarith⟩
  · exact Int.floor_eq_iff.mpr ⟨by push_cast; linarith, by push_cast; linarith⟩

theorem floor_of_halfway {x : ℚ} {k : ℕ} (hx : x = 2 * k + 1 / 2) : ⌊x⌋ = 2 * k ∧ Int.fract x = 1 / 2 := by
  have hfloor : ⌊x⌋ = 2 * k := Int.floor_eq_iff.mpr ⟨by push_cast; linarith, by push_cast; linarith⟩
  have hsum := Int.floor_add_fract x
  rw [hfloor] at hsum
  push_cast at hsum
  exact ⟨hfloor, by linarith⟩

/-- The two ways to round differ halfway above an even number. -/
theorem roundHalfAway_eq_roundHalfEven_iff {x : ℚ} (hx : -1 / 2 < x) :
    roundHalfAway x = roundHalfEven x ↔ ∀ k : ℕ, x ≠ 2 * k + 1 / 2 := by
  have hsum := Int.floor_add_fract x
  by_cases h0 : 0 ≤ x
  · have hfloor : 0 ≤ ⌊x⌋ := Int.floor_nonneg.mpr h0
    rw [roundHalfAway, if_pos h0, floor_add_half, roundHalfEven]
    rcases lt_trichotomy (Int.fract x) (1 / 2) with hfract | hfract | hfract
    · rw [if_pos hfract, if_pos hfract]
      exact iff_of_true rfl fun k hk => absurd (floor_of_halfway hk).2 hfract.ne
    · rw [if_neg hfract.not_lt, if_neg hfract.not_lt, if_neg hfract.not_gt]
      split
      · rename_i heven
        obtain ⟨k, hk⟩ : ∃ k : ℕ, ⌊x⌋ = 2 * k := ⟨(⌊x⌋ / 2).toNat, by omega⟩
        refine iff_of_false (by omega) fun hne => hne k ?_
        rw [hk, hfract] at hsum
        push_cast at hsum
        exact hsum.symm
      · rename_i hodd
        refine iff_of_true rfl fun k hk => hodd ?_
        have heven := (floor_of_halfway hk).1
        omega
    · rw [if_neg hfract.not_gt, if_neg hfract.not_gt, if_pos hfract]
      exact iff_of_true rfl fun k hk => absurd (floor_of_halfway hk).2 hfract.ne'
  · -- both are 0
    have hfloor : ⌊x⌋ = -1 := Int.floor_eq_iff.mpr ⟨by push_cast; linarith, by push_cast; linarith⟩
    have haway : ⌈x - 1 / 2⌉ = 0 := Int.ceil_eq_iff.mpr ⟨by push_cast; linarith, by push_cast; linarith⟩
    rw [hfloor] at hsum
    push_cast at hsum
    rw [roundHalfAway, if_neg h0, haway, roundHalfEven, if_neg (by linarith), if_pos (by linarith), hfloor]
    refine iff_of_true rfl fun k hk => ?_
    have hk0 : (0 : ℚ) ≤ k := Nat.cast_nonneg k
    linarith

theorem roundHalfEven_sub (x : ℚ) : |(roundHalfEven x : ℚ) - x| ≤ 1 / 2 := by
  have hsum := Int.floor_add_fract x
  have hlt := Int.fract_lt_one x
  have hnonneg := Int.fract_nonneg x
  rw [abs_le]
  unfold roundHalfEven
  split
  · constructor <;> linarith
  · split
    · push_cast
      constructor <;> linarith
    · have hhalf : Int.fract x = 1 / 2 := by linarith
      split
      · constructor <;> linarith
      · push_cast
        constructor <;> linarith

/-! ## An element -/

variable {vcl : Vcl} {arith : FloatArith} {factor : Word}

/-- The two integers are next to each other, so the words differ where they do. -/
theorem ofInt_round_inj {x : ℚ} :
    BitVec.ofInt 32 (roundHalfAway x) = BitVec.ofInt 32 (roundHalfEven x) ↔ roundHalfAway x = roundHalfEven x := by
  have haway := abs_le.mp (roundHalfAway_sub x)
  have heven := abs_le.mp (roundHalfEven_sub x)
  have hle : roundHalfAway x - roundHalfEven x ≤ 1 := by
    have hle' : ((roundHalfAway x - roundHalfEven x : ℤ) : ℚ) ≤ 1 := by push_cast; linarith
    exact_mod_cast hle'
  have hge : -1 ≤ roundHalfAway x - roundHalfEven x := by
    have hge' : (-1 : ℚ) ≤ ((roundHalfAway x - roundHalfEven x : ℤ) : ℚ) := by push_cast; linarith
    exact_mod_cast hge'
  refine ⟨fun h => ?_, fun h => congrArg _ h⟩
  have hnat := congrArg BitVec.toNat h
  rw [BitVec.toNat_ofInt, BitVec.toNat_ofInt] at hnat
  omega

theorem htonl_inj {v w : Word} : htonl v = htonl w ↔ v = w := by
  refine ⟨fun h => ?_, fun h => congrArg htonl h⟩
  rw [← htonl_htonl v, h, htonl_htonl]

theorem quantizeElement_eq_iff {w r : Word} (hfits : FitsInt32 (scaled factor w)) :
    quantizeElement factor w = some r ↔
      -1 / 2 < scaled factor w ∧ htonl (BitVec.ofInt 32 (roundHalfAway (scaled factor w))) = r := by
  have haway := abs_le.mp (roundHalfAway_sub (scaled factor w))
  have hlt : roundHalfAway (scaled factor w) < 2 ^ 32 := by
    have hlt' : (roundHalfAway (scaled factor w) : ℚ) < 2 ^ 32 := by
      have hle := hfits.2
      linarith
    exact_mod_cast hlt'
  rw [quantizeElement, toUint32, ← roundHalfAway_nonneg]
  split
  · rename_i h
    rw [Option.map_some, Option.some.injEq]
    exact (and_iff_right h.1).symm
  · rename_i h
    rw [Option.map_none]
    exact iff_of_false (by simp) fun h' => h ⟨h'.1, hlt⟩

/-- What a block stores for an element is what a single turn stores. -/
theorem quantizeBlock_agrees_iff (h : vcl.Documented arith) {v : Fin 16 → Word} {lane : Fin 16}
    (hfits : FitsInt32 (scaled factor (v lane))) :
    quantizeElement factor (v lane) = some (vcl.quantizeBlock factor v lane) ↔
      -1 / 2 < scaled factor (v lane) ∧ ∀ k : ℕ, scaled factor (v lane) ≠ 2 * k + 1 / 2 := by
  rw [quantizeElement_eq_iff hfits, h.quantizeBlock_lane hfits, htonl_inj, ofInt_round_inj]
  exact and_congr_right roundHalfAway_eq_roundHalfEven_iff

/-! ## The maximum -/

theorem isMagnitude_floatAbs {w : Word} (hw : isFinite w) : IsMagnitude (floatAbs w) := toNat_floatAbs_lt hw

theorem floatGt_iff {v m : Word} (hv : IsMagnitude v) (hm : IsMagnitude m) :
    floatGt v m = true ↔ m.toNat < v.toNat := by
  have hnan {w : Word} (hw : IsMagnitude w) : isNaN w = false := by
    rw [isNaN, decide_eq_false_iff_not, toNat_floatAbs]
    exact fun hlt => Nat.lt_irrefl _ (Nat.lt_trans (Nat.lt_of_lt_of_le hlt (Nat.mod_le _ _)) hw)
  simp [floatGt, hnan hv, hnan hm]

/-- A turn keeps the greater one of what it has and what it sees. -/
theorem floatMax_cases {m w : Word} (hm : IsMagnitude m) (hw : isFinite w) :
    (floatMax m w = m ∨ floatMax m w = floatAbs w) ∧ m.toNat ≤ (floatMax m w).toNat ∧
      (floatAbs w).toNat ≤ (floatMax m w).toNat := by
  have hgt := floatGt_iff (isMagnitude_floatAbs hw) hm
  unfold floatMax
  split
  · rename_i h
    exact ⟨.inr rfl, (hgt.mp h).le, le_rfl⟩
  · rename_i h
    rw [hgt, not_lt] at h
    exact ⟨.inl rfl, le_rfl, h⟩

/-- Each of some accumulators is 0 or the absolute value of an element below an
index, and one of them is at least that of each such element. -/
structure MaximaOf {ι : Type} (elements : ℕ → Word) (i : ℕ) (m : ι → Word) : Prop where
  mem : ∀ l, m l = 0 ∨ ∃ j < i, m l = floatAbs (elements j)
  le : ∀ j < i, ∃ l, (floatAbs (elements j)).toNat ≤ (m l).toNat

namespace MaximaOf

variable {ι : Type} {elements : ℕ → Word} {i n : ℕ} {m m' : ι → Word}

theorem zero : MaximaOf elements 0 fun _ : ι => 0 := ⟨fun _ => .inl rfl, fun _ hj => absurd hj (Nat.not_lt_zero _)⟩

theorem isMagnitude (h : MaximaOf elements i m) (hfin : ∀ j < i, isFinite (elements j)) (l : ι) :
    IsMagnitude (m l) := by
  rcases h.mem l with h0 | ⟨j, hj, hl⟩
  · rw [h0]
    show (0 : Word).toNat < 0x7f800000
    decide
  · rw [hl]
    exact isMagnitude_floatAbs (hfin j hj)

/-- There is only one maximum. -/
theorem eq {a b : Word} (ha : MaximaOf elements i fun _ : Unit => a) (hb : MaximaOf elements i fun _ : Unit => b) :
    a = b := by
  have hle {a b : Word} (ha : MaximaOf elements i fun _ : Unit => a) (hb : MaximaOf elements i fun _ : Unit => b) :
      a.toNat ≤ b.toNat := by
    rcases ha.mem () with h0 | ⟨j, hj, hl⟩
    · rw [h0]
      exact Nat.zero_le _
    · obtain ⟨-, hle⟩ := hb.le j hj
      rw [hl]
      exact hle
  exact BitVec.eq_of_toNat_eq (Nat.le_antisymm (hle ha hb) (hle hb ha))

/-- A turn that shows each accumulator its own element, and all the elements to some. -/
theorem step (h : MaximaOf elements i m) {w : ℕ} (index : ι → ℕ) (hindex : ∀ l, index l < i + w)
    (hcover : ∀ j, i ≤ j → j < i + w → ∃ l, index l = j) (hfin : ∀ j < i + w, isFinite (elements j)) :
    MaximaOf elements (i + w) fun l => floatMax (m l) (elements (index l)) := by
  have hcases (l : ι) := floatMax_cases (h.isMagnitude (fun j hj => hfin j (by omega)) l) (hfin _ (hindex l))
  refine ⟨fun l => ?_, fun j hj => ?_⟩
  · rcases (hcases l).1 with heq | heq
    · rw [heq]
      exact (h.mem l).imp id fun ⟨j, hj, hl⟩ => ⟨j, by omega, hl⟩
    · exact .inr ⟨index l, hindex l, heq⟩
  · by_cases hlt : j < i
    · obtain ⟨l, hl⟩ := h.le j hlt
      exact ⟨l, hl.trans (hcases l).2.1⟩
    · obtain ⟨l, rfl⟩ := hcover j (by omega) hj
      exact ⟨l, (hcases l).2.2⟩

/-- The greatest of the accumulators. -/
theorem horizontal (h : MaximaOf elements i m) {a : Word} (ha : ∃ l, a = m l) (hle : ∀ l, (m l).toNat ≤ a.toNat) :
    MaximaOf elements i fun _ : Unit => a := by
  obtain ⟨l, rfl⟩ := ha
  refine ⟨fun _ => h.mem l, fun j hj => ?_⟩
  obtain ⟨l', hl'⟩ := h.le j hj
  exact ⟨(), hl'.trans (hle l')⟩

end MaximaOf

namespace Vcl

variable {elements : ℕ → Word} {bound i n : ℕ}

theorem remainderMax_maxima {a : Word} (ha : MaximaOf elements i fun _ : Unit => a) (hi : i ≤ n)
    (hfin : ∀ j < n, isFinite (elements j)) :
    MaximaOf elements n fun _ : Unit => remainderMax n elements i a := by
  refine (forLoop_rule (I := fun i a => MaximaOf elements i fun _ : Unit => a) Nat.one_pos hi (Nat.one_dvd _) ha
    fun j a _ hj h => ?_).2
  exact h.step (fun _ => j) (fun _ => Nat.lt_succ_self j) (fun k h1 h2 => ⟨(), by omega⟩) fun k hk => hfin k (by omega)

/-- Whatever the bound, it is the greatest absolute value. -/
theorem Documented.currentMax_maxima (h : vcl.Documented arith) (hbound : bound ≤ n) (hdvd : 16 ∣ bound)
    (hfin : ∀ j < n, isFinite (elements j)) :
    MaximaOf elements n fun _ : Unit => vcl.currentMax bound n elements := by
  obtain ⟨hend, hlanes⟩ := forLoop_rule
    (f := fun i current => vcl.max current (vcl.abs (loadBlock 16 elements i))) (I := MaximaOf elements)
    (by decide) (Nat.zero_le bound) hdvd MaximaOf.zero fun j m _ hj hm => by
      have hfin' (k : ℕ) (hk : k < j + 16) : isFinite (elements k) := hfin k (by omega)
      have hmax : vcl.max m (vcl.abs (loadBlock 16 elements j)) =
          fun lane => floatMax (m lane) (elements (j + lane.val)) := by
        funext lane
        have hlane : vcl.abs (loadBlock 16 elements j) lane = floatAbs (elements (j + lane.val)) := h.abs _ _
        rw [h.max _ _ _ (hm.isMagnitude (fun k hk => hfin' k (by omega)) lane), hlane]
        · rfl
        · rw [hlane]
          exact isMagnitude_floatAbs (hfin' _ (by omega))
      rw [hmax]
      exact hm.step (fun lane => j + lane.val) (fun lane => by omega)
        (fun k h1 h2 => ⟨⟨k - j, by omega⟩, Nat.add_sub_cancel' h1⟩) hfin'
  have hmag := hlanes.isMagnitude fun j hj => hfin j (by omega)
  obtain ⟨⟨lane, hlane⟩, hgreatest⟩ := h.horizontalMax _ hmag
  have hhorizontal := hlanes.horizontal ⟨lane, hlane⟩ fun l => by
    have hl := hgreatest l
    rw [hlane, Bool.eq_false_iff, ne_eq, floatGt_iff (hmag l) (hmag lane), not_lt] at hl
    rw [hlane]
    exact hl
  rw [currentMax, hend]
  exact remainderMax_maxima hhorizontal hbound hfin

end Vcl

/-! ## The two paths -/

/-- Where the vector loops may stop. -/
structure IsBound (numelToProcess bound : ℕ) : Prop where
  le : bound ≤ numelToProcess
  dvd : 16 ∣ bound

theorem isBound_zero (n : ℕ) : IsBound n 0 := ⟨Nat.zero_le n, by decide⟩

theorem isBound_toVectorProcess (n : ℕ) : IsBound n (Vcl.toVectorProcess n) :=
  ⟨Nat.sub_le _ _, Nat.dvd_sub_mod n⟩

/-- An LTU is processed the same with vector instructions, without them, and
wherever the vector loops stop. -/
structure PathsAgree (vcl : Vcl) (arith : FloatArith) (elements : ℕ → Word) (n : ℕ) (factor : Word) : Prop where
  /-- the word stored for an element, -/
  words : ∀ j < n, ∀ (v : Fin 16 → Word) lane, v lane = elements j →
    quantizeElement factor (elements j) = some (vcl.quantizeBlock factor v lane)
  /-- the value stored for an entry that is received, -/
  values : ∀ w (v : Fin 16 → Word) lane, v lane = w →
    dequantizeElement arith factor w = vcl.dequantizeBlock factor v lane
  /-- the maximum, -/
  maximum : ∀ bound, IsBound n bound → vcl.currentMax bound n elements = Vcl.remainderMax n elements 0 0
  /-- the payload of the packet, -/
  payload : ∀ bound, IsBound n bound → ∀ entries,
    vcl.quantize bound n elements factor entries = vcl.quantize 0 n elements factor entries
  /-- and the elements that are stored. -/
  stored : ∀ bound, IsBound n bound → ∀ entries out,
    vcl.dequantize bound n entries arith factor out = vcl.dequantize 0 n entries arith factor out

/-- The products for which the two paths round and convert alike. -/
def Unambiguous (x : ℚ) : Prop := -1 / 2 < x ∧ ∀ k : ℕ, x ≠ 2 * k + 1 / 2

section Paths

variable {elements entries out : ℕ → Word} {bound n : ℕ}

theorem Vcl.Documented.currentMax_eq (h : vcl.Documented arith) (hbound : IsBound n bound)
    (hfin : ∀ j < n, isFinite (elements j)) : vcl.currentMax bound n elements = Vcl.remainderMax n elements 0 0 :=
  (h.currentMax_maxima hbound.le hbound.dvd hfin).eq
    (Vcl.remainderMax_maxima MaximaOf.zero (Nat.zero_le n) hfin)

theorem Vcl.Documented.quantize_eq (h : vcl.Documented arith) (hbound : IsBound n bound)
    (hfits : ∀ j < n, FitsInt32 (scaled factor (elements j))) (hround : ∀ j < n, Unambiguous (scaled factor (elements j))) :
    vcl.quantize bound n elements factor entries =
      some (filled n (fun j => htonl (BitVec.ofInt 32 (roundHalfAway (scaled factor (elements j))))) entries) := by
  have helement (j : ℕ) (hj : j < n) := (quantizeElement_eq_iff (hfits j hj)).mpr ⟨(hround j hj).1, rfl⟩
  refine elementwise_eq (by decide) hbound.le hbound.dvd helement fun j hj v lane hv => ?_
  have hagrees := (quantizeBlock_agrees_iff h (hv ▸ hfits j hj)).mpr (hv ▸ hround j hj)
  rw [hv, helement j hj, Option.some.injEq] at hagrees
  exact hagrees.symm

theorem Vcl.Documented.dequantize_eq (h : vcl.Documented arith) (hbound : IsBound n bound) :
    vcl.dequantize bound n entries arith factor out =
      some (filled n (fun j => dequantizeElement arith factor (entries j)) out) := by
  refine elementwise_eq (by decide) hbound.le hbound.dvd (fun _ _ => rfl) fun j _ v lane hv => ?_
  rw [h.dequantizeBlock_lane, hv]

theorem Vcl.Documented.convert_eq (h : vcl.Documented arith) (hbound : IsBound n bound) :
    vcl.convert bound n elements out = some (filled n (fun j => htonl (elements j)) out) := by
  refine elementwise_eq (by decide) hbound.le hbound.dvd (fun _ _ => rfl) fun j _ v lane hv => ?_
  rw [h.swap_lane, hv]

/-- The paths agree on an LTU exactly when they round and convert each of its
elements alike. -/
theorem pathsAgree_iff (h : vcl.Documented arith) (hfin : ∀ j < n, isFinite (elements j))
    (hfits : ∀ j < n, FitsInt32 (scaled factor (elements j))) :
    PathsAgree vcl arith elements n factor ↔ ∀ j < n, Unambiguous (scaled factor (elements j)) := by
  constructor
  · intro hagree j hj
    have hword := hagree.words j hj (fun _ => elements j) 0 rfl
    exact (@quantizeBlock_agrees_iff vcl arith factor h (fun _ => elements j) 0 (hfits j hj)).mp hword
  · intro hround
    refine ⟨fun j hj v lane hv => ?_, fun w v lane hv => ?_, fun bound hbound => h.currentMax_eq hbound hfin,
      fun bound hbound entries => ?_, fun bound hbound entries out => ?_⟩
    · rw [← hv]
      exact (quantizeBlock_agrees_iff h (hv ▸ hfits j hj)).mpr (hv ▸ hround j hj)
    · rw [h.dequantizeBlock_lane, hv]
    · rw [h.quantize_eq hbound hfits hround, h.quantize_eq (isBound_zero n) hfits hround]
    · rw [h.dequantize_eq hbound, h.dequantize_eq (isBound_zero n)]

end Paths

/-! ## A library that works lane by lane -/

/-- The float nearest to a rational, half-way cases to the even one. -/
def nearestFloat (q : ℚ) : Word :=
  if q = 0 then 0
  else
    -- a significand that rounds up to 2^24 carries into the exponent
    let exponent := max (Int.log 2 |q|) (-126)
    let magnitude := (exponent + 126) * 2 ^ 23 + roundHalfEven (|q| * 2 ^ (23 - exponent))
    let bits : Word := BitVec.ofInt 32 (min magnitude 0x7f800000)
    if q < 0 then bits ||| 0x80000000#32 else bits

/-- Single precision, for finite floats and divisors above 0. -/
def singlePrecision : FloatArith where
  ofInt32 w := nearestFloat w.toInt
  div v w := nearestFloat (floatValue v / floatValue w)

def laneWise (arith : FloatArith) : Vcl where
  roundi x lane := BitVec.ofInt 32 (roundHalfEven (x lane))
  permute64 indexes b k := b (indexes k)
  abs v lane := floatAbs (v lane)
  max u v lane := if floatGt (v lane) (u lane) then v lane else u lane
  horizontalMax v := (List.ofFn v).foldl floatMax (v 0)
  toFloat v lane := arith.ofInt32 (v lane)
  div u v lane := arith.div (u lane) (v lane)

theorem IsMagnitude.floatAbs_eq {w : Word} (hw : IsMagnitude w) : floatAbs w = w := by
  refine BitVec.eq_of_toNat_eq ?_
  rw [toNat_floatAbs]
  exact Nat.mod_eq_of_lt (Nat.lt_trans hw (by decide))

theorem IsMagnitude.isFinite {w : Word} (hw : IsMagnitude w) : isFinite w := by
  unfold IsMagnitude at hw
  unfold Client.isFinite exponentField
  omega

theorem laneWise_documented (arith : FloatArith) : (laneWise arith).Documented arith := by
  refine ⟨fun _ _ _ => rfl, fun _ _ _ => rfl, fun _ _ => rfl, fun _ _ _ _ _ => rfl, fun v hv => ?_, fun _ _ => rfl,
    fun _ _ _ => rfl⟩
  obtain ⟨-, hmag, hle⟩ := absMax_fold (l := List.ofFn v) (m := v 0)
    (fun w hw => by
      obtain ⟨lane, rfl⟩ := List.mem_ofFn.mp hw
      exact (hv lane).isFinite) (hv 0)
  refine ⟨?_, fun lane => ?_⟩
  · rcases foldl_floatMax_mem (List.ofFn v) (v 0) with h0 | ⟨w, hw, hmax⟩
    · exact ⟨0, h0⟩
    · obtain ⟨lane, rfl⟩ := List.mem_ofFn.mp hw
      exact ⟨lane, hmax.trans (hv lane).floatAbs_eq⟩
  · have hlane := hle (v lane) (List.mem_ofFn.mpr ⟨lane, rfl⟩)
    rw [(hv lane).floatAbs_eq] at hlane
    exact Bool.eq_false_iff.mpr fun hgt => absurd ((floatGt_iff (hv lane) hmag).mp hgt) (not_lt.mpr hlane)

/-- The float 1/2 with the scaling factor 1: a block stores 0, a single turn 1. -/
theorem paths_disagree : (laneWise singlePrecision).Documented singlePrecision ∧ isFinite 0x3f000000#32 ∧
    isFinite 0x3f800000#32 ∧ FitsInt32 (scaled 0x3f800000#32 0x3f000000#32) ∧
    quantizeElement 0x3f800000#32 0x3f000000#32 = some (htonl 1) ∧
    (laneWise singlePrecision).quantizeBlock 0x3f800000#32 (fun _ => 0x3f000000#32) 0 = htonl 0 ∧
    ¬PathsAgree (laneWise singlePrecision) singlePrecision (fun _ => 0x3f000000#32) 1 0x3f800000#32 := by
  have hscaled : scaled 0x3f800000#32 0x3f000000#32 = 1 / 2 := by decide +kernel
  have hfits : FitsInt32 (scaled 0x3f800000#32 0x3f000000#32) := by
    rw [hscaled]
    constructor <;> norm_num
  have hdoc := laneWise_documented singlePrecision
  have hone : quantizeElement 0x3f800000#32 0x3f000000#32 = some (htonl 1) := by decide +kernel
  have hzero : (laneWise singlePrecision).quantizeBlock 0x3f800000#32 (fun _ => 0x3f000000#32) 0 = htonl 0 := by
    decide +kernel
  refine ⟨hdoc, by decide, by decide, hfits, hone, hzero, fun hagree => ?_⟩
  have hword := hagree.words 0 (by decide) (fun _ => 0x3f000000#32) 0 rfl
  rw [hone, hzero] at hword
  revert hword
  decide

/-- 17 elements 3 with the scaling factor 1. -/
theorem paths_agree_three :
    PathsAgree (laneWise singlePrecision) singlePrecision (fun _ => 0x40400000#32) 17 0x3f800000#32 := by
  have hscaled : scaled 0x3f800000#32 0x40400000#32 = 3 := by decide +kernel
  refine (pathsAgree_iff (laneWise_documented _) (fun _ _ => by decide) fun _ _ => ?_).mpr fun _ _ => ?_
  · rw [hscaled]
    constructor <;> norm_num
  · rw [hscaled]
    refine ⟨by norm_num, fun k hk => ?_⟩
    -- 6 is not 4 * k + 1
    have h6 : (6 : ℚ) = ((4 * k + 1 : ℕ) : ℚ) := by push_cast; linarith
    have h6' : 6 = 4 * k + 1 := by exact_mod_cast h6
    omega

/-! ## Packets -/

/-- The arithmetic of the loops without vector instructions, where a negative
result converts as in `exactOps`. -/
def floatOps (arith : FloatArith) (scalingFactor : ℕ → Exponent → Word) (uninitialized : Word) : FloatOps Word where
  scalingFactor := scalingFactor
  quantize w factor := BitVec.ofInt 32 (roundHalfAway (scaled factor w))
  dequantize w factor := arith.div (arith.ofInt32 w) factor
  uninitialized := uninitialized

namespace Ppp

variable {ops : FloatOps Word} {bound : ℕ → ℕ} {p : Ppp Word} {mem : Memory} {ltuId : ℕ} {pkt : Packet}
  {scalingFactor : ℕ → Exponent → Word} {uninitialized : Word}

/-- The elements of an LTU. -/
def elements (p : Ppp Word) (mem : Memory) (ltuId : ℕ) : ℕ → Word := fun i => p.input mem (ltuId * p.ltuNumel + i)

/-- The scaling factor of an LTU. -/
def factorOf (p : Ppp Word) (ops : FloatOps Word) (ltuId : ℕ) : Word := (p.scalingFactors ltuId).getD ops.uninitialized

/-- `PreprocessSingle` with vector loops over `n` elements that stop at `bound n`;
`none` where something undefined happens. -/
def preprocessVector (vcl : Vcl) (ops : FloatOps Word) (bound : ℕ → ℕ) (p : Ppp Word) (mem : Memory) (ltuId : ℕ)
    (pkt : Packet) : Option Packet :=
  let vectors (ltuId : ℕ) := bound (p.numelToProcess ltuId)
  match p.slice.dataType with
  | .float32 =>
    let payload := ltuId - p.batchNumLtus
    let quantized :=
      if p.batchNumLtus ≤ ltuId then
        (vcl.quantize (vectors payload) (p.numelToProcess payload) (p.elements mem payload) (p.factorOf ops payload)
          pkt.entries).map fun entries => { pkt with entries }
      else some pkt
    quantized.map fun quantized =>
      if ltuId < p.totalMainNumLtus then
        { quantized with
          exponent := exponentOf (vcl.currentMax (vectors ltuId) (p.numelToProcess ltuId) (p.elements mem ltuId)) }
      else quantized
  | .int32 =>
    (vcl.convert (vectors ltuId) (p.numelToProcess ltuId) (p.elements mem ltuId) pkt.entries).map fun entries =>
      { pkt with entries }

/-- `PostprocessSingle` with such loops. -/
def postprocessVector (vcl : Vcl) (arith : FloatArith) (ops : FloatOps Word) (bound : ℕ → ℕ) (p : Ppp Word) (mem : Memory)
    (ltuId : ℕ) (pkt : Packet) : Option (Ppp Word × Memory) :=
  let vectors (ltuId : ℕ) := bound (p.numelToProcess ltuId)
  let out (ltuId : ℕ) : ℕ → Word := fun i => mem (p.slice.outPtr + 4 * (ltuId * p.ltuNumel + i))
  match p.slice.dataType with
  | .float32 =>
    let payload := ltuId - p.batchNumLtus
    let dequantized :=
      if p.batchNumLtus ≤ ltuId then
        (vcl.dequantize (vectors payload) (p.numelToProcess payload) pkt.entries arith (p.factorOf ops payload)
          (out payload)).map fun values => p.output (payload * p.ltuNumel) (p.numelToProcess payload) values mem
      else some mem
    dequantized.map fun mem => (if ltuId < p.totalMainNumLtus then (p.scale ops ltuId pkt).1 else p, mem)
  | .int32 =>
    (vcl.convert (vectors ltuId) (p.numelToProcess ltuId) pkt.entries (out ltuId)).map fun values =>
      (p, p.output (ltuId * p.ltuNumel) (p.numelToProcess ltuId) values mem)

/-- The two paths quantize the elements of an LTU alike. -/
structure Quantizes (p : Ppp Word) (mem : Memory) (ops : FloatOps Word) (ltuId : ℕ) : Prop where
  fits : ∀ j < p.numelToProcess ltuId, FitsInt32 (scaled (p.factorOf ops ltuId) (p.elements mem ltuId j))
  round : ∀ j < p.numelToProcess ltuId, Unambiguous (scaled (p.factorOf ops ltuId) (p.elements mem ltuId j))

theorem remainderMax_eq_absMax : Vcl.remainderMax (p.numelToProcess ltuId) (p.elements mem ltuId) 0 0 =
    absMax ((p.indices ltuId).map (p.input mem)) := by
  have hmap : (p.indices ltuId).map (p.input mem) =
      (List.range (p.numelToProcess ltuId)).map (p.elements mem ltuId) := List.map_map ..
  rw [hmap]
  refine (forLoop_rule (I := fun i a => a = absMax ((List.range i).map (p.elements mem ltuId)))
    Nat.one_pos (Nat.zero_le _) (Nat.one_dvd _) rfl fun i a _ _ h => ?_).2
  rw [List.range_succ, List.map_append, absMax, List.foldl_append, h]
  rfl

/-- Where they do, neither the vector instructions nor where their loops stop
change a packet. -/
theorem preprocessVector_eq (h : vcl.Documented arith) (hbound : ∀ n, IsBound n (bound n))
    (hfin : ∀ j < p.numelToProcess ltuId, isFinite (p.elements mem ltuId j))
    (hquantizes : p.batchNumLtus ≤ ltuId →
      p.Quantizes mem (floatOps arith scalingFactor uninitialized) (ltuId - p.batchNumLtus)) :
    p.preprocessVector vcl (floatOps arith scalingFactor uninitialized) bound mem ltuId pkt =
      some (p.preprocessSingle (floatOps arith scalingFactor uninitialized) mem ltuId pkt).1 := by
  unfold preprocessVector preprocessSingle
  cases p.slice.dataType with
  | float32 =>
    have hmax := (h.currentMax_eq (hbound _) hfin).trans remainderMax_eq_absMax
    by_cases hb : p.batchNumLtus ≤ ltuId
    · have hq := hquantizes hb
      simp only [if_pos hb, h.quantize_eq (hbound _) hq.fits hq.round, hmax, Option.map_some]
      split <;> rfl
    · simp only [if_neg hb, hmax, Option.map_some]
      split <;> rfl
  | int32 =>
    simp only [h.convert_eq (hbound _), Option.map_some]
    rfl

theorem output_filled {offset n : ℕ} {f out : ℕ → Word} : p.output offset n (filled n f out) mem = p.output offset n f mem :=
  output_congr fun _ hi => filled_of_lt hi

/-- Nor do they change what a packet stores. -/
theorem postprocessVector_eq (h : vcl.Documented arith) (hbound : ∀ n, IsBound n (bound n)) :
    p.postprocessVector vcl arith (floatOps arith scalingFactor uninitialized) bound mem ltuId pkt =
      some ((p.postprocessSingle (floatOps arith scalingFactor uninitialized) mem ltuId pkt).1,
        (p.postprocessSingle (floatOps arith scalingFactor uninitialized) mem ltuId pkt).2.1) := by
  unfold postprocessVector postprocessSingle
  cases p.slice.dataType with
  | float32 =>
    by_cases hb : p.batchNumLtus ≤ ltuId
    · simp only [if_pos hb, h.dequantize_eq (hbound _), Option.map_some, output_filled]
      split <;> rfl
    · simp only [if_neg hb, Option.map_some]
      split <;> rfl
  | int32 => simp only [h.convert_eq (hbound _), Option.map_some, output_filled]

end Ppp

end SwitchML.Client
