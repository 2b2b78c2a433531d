/-
What the quantized values of an LTU add up to, with floats taken as exact
rationals. The exponent `e` of an LTU is one more than that of its greatest
absolute value, which has 24 significant bits: so all its values are at most
`(2^24 - 1) * 2^(e - 24)`, and the room that leaves is more than `n` roundings
can use up.

The exponent goes through an `int8_t`, and that of the values from `2^127` on is
128: as an `int8_t` it is -128, and these values are far above `2^e`.
-/
import SwitchML.Client.Quantizer
import SwitchML.Lib.Machine
import Mathlib.Algebra.BigOperators.Ring.Finset
import Mathlib.Algebra.Order.BigOperators.Group.Finset
import Mathlib.Algebra.Order.Field.Power
import Mathlib.Data.BitVec
import Mathlib.Data.Rat.Floor
import Mathlib.Order.Bounds.Basic
import Mathlib.Tactic.FieldSimp
import Mathlib.Tactic.Linarith
import Mathlib.Tactic.NormNum

namespace SwitchML.Client

open P4 (Exponent)

/-! ## The floats as rationals -/

def exponentField (w : Word) : ℕ := w.toNat / 2 ^ 23 % 256

def mantissa (w : Word) : ℕ := w.toNat % 2 ^ 23

def isFinite (w : Word) : Prop := exponentField w < 255

instance : DecidablePred isFinite := fun w => Nat.decLt (exponentField w) 255

def magnitude (w : Word) : ℚ :=
  if exponentField w = 0 then mantissa w * 2 ^ (-149 : ℤ)
  else (2 ^ 23 + mantissa w) * 2 ^ ((exponentField w : ℤ) - 150)

def floatValue (w : Word) : ℚ := if w.msb then -magnitude w else magnitude w

/-- `std::round`: half-way cases away from zero. -/
def roundHalfAway (x : ℚ) : ℤ := if 0 ≤ x then ⌊x + 1 / 2⌋ else ⌈x - 1 / 2⌉

/-- `INT32_MAX / (numWorkers * 2^exponent)` -/
def exactScale (numWorkers : ℕ) (exponent : Exponent) : ℚ := (2 ^ 31 - 1) / (numWorkers * 2 ^ exponent.toInt)

/-- Exact arithmetic up to where a quotient is stored as a float again. -/
def exactOps (dequantize : Word → ℚ → Word) : FloatOps ℚ where
  scalingFactor := exactScale
  quantize w factor := BitVec.ofInt 32 (roundHalfAway (floatValue w * factor))
  dequantize := dequantize
  uninitialized := 0

variable {w m : Word} {l : List Word}

theorem magnitude_nonneg : 0 ≤ magnitude w := by
  unfold magnitude
  split <;> positivity

theorem abs_floatValue : |floatValue w| = magnitude w := by
  unfold floatValue
  split
  · rw [abs_neg, abs_of_nonneg magnitude_nonneg]
  · rw [abs_of_nonneg magnitude_nonneg]

/-- A float has 24 significant bits. -/
theorem magnitude_le : magnitude w ≤ (2 ^ 24 - 1) * 2 ^ ((exponentField w : ℤ) - 150) := by
  have hm : (mantissa w : ℚ) ≤ 2 ^ 23 - 1 := by
    have h1 : mantissa w ≤ 2 ^ 23 - 1 := Nat.le_sub_one_of_lt (Nat.mod_lt _ (by decide))
    calc (mantissa w : ℚ) ≤ ((2 ^ 23 - 1 : ℕ) : ℚ) := by exact_mod_cast h1
      _ = 2 ^ 23 - 1 := by norm_num
  unfold magnitude
  split
  · rename_i h0
    have h1 : (2 : ℚ) ^ (-149 : ℤ) = 2 * 2 ^ (-150 : ℤ) := by norm_num
    have h2 : (0 : ℚ) < 2 ^ (-150 : ℤ) := by positivity
    rw [h0, h1]
    simp only [Nat.cast_zero, zero_sub]
    nlinarith
  · have h2 : (0 : ℚ) < 2 ^ ((exponentField w : ℤ) - 150) := by positivity
    nlinarith

theorem magnitude_ge (h : exponentField w ≠ 0) : 2 ^ ((exponentField w : ℤ) - 127) ≤ magnitude w := by
  have h1 : (2 : ℚ) ^ ((exponentField w : ℤ) - 127) = 2 ^ 23 * 2 ^ ((exponentField w : ℤ) - 150) := by
    rw [← zpow_natCast, ← zpow_add₀ (by norm_num)]
    congr 1
    push_cast
    ring
  have h2 : (0 : ℚ) < 2 ^ ((exponentField w : ℤ) - 150) := by positivity
  have h3 : (0 : ℚ) ≤ mantissa w := Nat.cast_nonneg _
  rw [magnitude, if_neg h, h1]
  nlinarith

/-- The finite floats below `2^127` are those without the greatest exponent. -/
theorem magnitude_lt_iff (hw : isFinite w) : magnitude w < 2 ^ 127 ↔ exponentField w ≤ 253 := by
  constructor
  · intro h
    by_contra h1
    have h2 : exponentField w = 254 := by unfold isFinite at hw; omega
    have h3 := magnitude_ge (w := w) (by omega)
    rw [h2] at h3
    norm_num at h h3
    linarith
  · intro h
    calc magnitude w ≤ (2 ^ 24 - 1) * 2 ^ ((exponentField w : ℤ) - 150) := magnitude_le
      _ ≤ (2 ^ 24 - 1) * 2 ^ (103 : ℤ) := by
        gcongr
        · norm_num
        · omega
      _ < 2 ^ 127 := by norm_num

/-! ## The exponent of an LTU -/

theorem toNat_floatAbs : (floatAbs w).toNat = w.toNat % 2 ^ 31 := by
  rw [floatAbs, BitVec.toNat_and]
  exact Nat.and_two_pow_sub_one_eq_mod w.toNat 31

theorem exponentField_floatAbs : exponentField (floatAbs w) = exponentField w := by
  have h := w.isLt
  simp only [exponentField, toNat_floatAbs]
  omega

theorem toNat_floatAbs_lt (hw : isFinite w) : (floatAbs w).toNat < 0x7f800000 := by
  have h1 : (floatAbs w).toNat < 2 ^ 31 := by rw [toNat_floatAbs]; exact Nat.mod_lt _ (by decide)
  rw [isFinite, ← exponentField_floatAbs, exponentField] at hw
  omega

theorem isNaN_of_isFinite (hw : isFinite w) : isNaN w = false := by
  have h1 := toNat_floatAbs_lt hw
  rw [isNaN, decide_eq_false_iff_not]
  omega

/-- The fold keeps a bit pattern that is at least those it has seen. -/
theorem absMax_fold (hl : ∀ w ∈ l, isFinite w) (hm : m.toNat < 0x7f800000) :
    m.toNat ≤ (l.foldl floatMax m).toNat ∧ (l.foldl floatMax m).toNat < 0x7f800000 ∧
      ∀ w ∈ l, (floatAbs w).toNat ≤ (l.foldl floatMax m).toNat := by
  induction l generalizing m with
  | nil => exact ⟨le_rfl, hm, fun w hw => by cases hw⟩
  | cons v l ih =>
    have hv := toNat_floatAbs_lt (hl v (by simp))
    have hgt : floatGt (floatAbs v) m = decide (m.toNat < (floatAbs v).toNat) := by
      have h1 : isNaN (floatAbs v) = false :=
        isNaN_of_isFinite (by rw [isFinite, exponentField_floatAbs]; exact hl v (by simp))
      have h2 : isNaN m = false := isNaN_of_isFinite (by rw [isFinite, exponentField]; omega)
      simp [floatGt, h1, h2]
    simp only [List.foldl_cons, floatMax, hgt, decide_eq_true_eq]
    by_cases hlt : m.toNat < (floatAbs v).toNat
    · obtain ⟨h1, h2, h3⟩ := ih (fun w hw => hl w (by simp [hw])) hv
      rw [if_pos hlt]
      refine ⟨by omega, h2, fun w hw => ?_⟩
      rcases List.mem_cons.mp hw with rfl | hw
      · exact h1
      · exact h3 w hw
    · obtain ⟨h1, h2, h3⟩ := ih (fun w hw => hl w (by simp [hw])) hm
      rw [if_neg hlt]
      refine ⟨h1, h2, fun w hw => ?_⟩
      rcases List.mem_cons.mp hw with rfl | hw
      · omega
      · exact h3 w hw

theorem exponentField_le_absMax (hl : ∀ w ∈ l, isFinite w) (hw : w ∈ l) :
    exponentField w ≤ exponentField (absMax l) := by
  obtain ⟨-, h1, h2⟩ := absMax_fold hl (m := 0) (by decide)
  have h3 := h2 w hw
  rw [← exponentField_floatAbs]
  have h4 := toNat_floatAbs_lt (hl w hw)
  unfold absMax exponentField
  omega

theorem foldl_floatMax_mem (l : List Word) (m : Word) :
    l.foldl floatMax m = m ∨ ∃ w ∈ l, l.foldl floatMax m = floatAbs w := by
  induction l generalizing m with
  | nil => exact .inl rfl
  | cons v l ih =>
    rw [List.foldl_cons, floatMax]
    split
    · rcases ih (floatAbs v) with h | ⟨w, hw, h⟩
      · exact .inr ⟨v, by simp, h⟩
      · exact .inr ⟨w, by simp [hw], h⟩
    · rcases ih m with h | ⟨w, hw, h⟩
      · exact .inl h
      · exact .inr ⟨w, by simp [hw], h⟩

/-- The greatest exponent is that of an element. -/
theorem exponentField_absMax : exponentField (absMax l) = 0 ∨ ∃ w ∈ l, exponentField (absMax l) = exponentField w := by
  rcases foldl_floatMax_mem l 0 with h | ⟨w, hw, h⟩
  · exact .inl (by rw [absMax, h]; rfl)
  · exact .inr ⟨w, hw, by rw [absMax, h, exponentField_floatAbs]⟩

/-- The exponent that is written is right unless the field is 254. -/
theorem exponentOf_toInt (h : exponentField m ≤ 253) : (exponentOf m).toInt = (exponentField m : ℤ) - 126 := by
  have h1 : ((m &&& 0x7f800000#32) >>> 23).toNat = exponentField m := by
    rw [BitVec.toNat_ushiftRight, BitVec.toNat_and, Nat.shiftRight_and_distrib, Nat.shiftRight_eq_div_pow]
    exact Nat.and_two_pow_sub_one_eq_mod (m.toNat / 2 ^ 23) 8
  rw [exponentOf, h1, Int8.toInt_ofInt]
  exact Int.bmod_eq_of_le (by simp only [Int8.size]; omega) (by simp only [Int8.size]; omega)

/-! ## Rounding -/

theorem roundHalfAway_sub (x : ℚ) : |(roundHalfAway x : ℚ) - x| ≤ 1 / 2 := by
  rw [abs_le]
  unfold roundHalfAway
  split
  · have h1 := Int.floor_le (x + 1 / 2)
    have h2 := Int.lt_floor_add_one (x + 1 / 2)
    exact ⟨by linarith, by linarith⟩
  · have h1 := Int.le_ceil (x - 1 / 2)
    have h2 := Int.ceil_lt_add_one (x - 1 / 2)
    exact ⟨by linarith, by linarith⟩

variable {ι : Type} [Fintype ι]

/-- The sum of the rounded values is off by at most a half for each. -/
theorem sum_roundHalfAway_sub (x : ι → ℚ) :
    |((∑ v, roundHalfAway (x v) : ℤ) : ℚ) - ∑ v, x v| ≤ Fintype.card ι / 2 := by
  calc |((∑ v, roundHalfAway (x v) : ℤ) : ℚ) - ∑ v, x v|
      = |∑ v, ((roundHalfAway (x v) : ℚ) - x v)| := by rw [Finset.sum_sub_distrib, Int.cast_sum]
    _ ≤ ∑ v, |(roundHalfAway (x v) : ℚ) - x v| := Finset.abs_sum_le_sum_abs _ _
    _ ≤ ∑ _v : ι, (1 / 2 : ℚ) := Finset.sum_le_sum fun v _ => roundHalfAway_sub (x v)
    _ = Fintype.card ι / 2 := by
      rw [Finset.sum_const, Finset.card_univ, nsmul_eq_mul]
      ring

theorem sum_ofInt (q : ι → ℤ) : ∑ v, BitVec.ofInt 32 (q v) = BitVec.ofInt 32 (∑ v, q v) := by
  classical
  induction (Finset.univ : Finset ι) using Finset.induction_on with
  | empty => rfl
  | insert v s hv ih => rw [Finset.sum_insert hv, Finset.sum_insert hv, ih, BitVec.ofInt_add]

/-- A sum that fits an `int32_t` is not changed by wrapping around. -/
theorem toInt_sum_ofInt {q : ι → ℤ} (h : |∑ v, q v| ≤ 2 ^ 31 - 1) :
    (∑ v, BitVec.ofInt 32 (q v)).toInt = ∑ v, q v := by
  rw [abs_le] at h
  rw [sum_ofInt, BitVec.toInt_ofInt]
  exact Int.bmod_eq_of_le (by omega) (by omega)

/-! ## The sum over the workers -/

variable {n k : ℕ}

/-- The exponent that is written for the LTU of a worker. -/
def ltuExponent (ltu : Fin k → Word) : Exponent := exponentOf (absMax (List.ofFn ltu))

/-- What the quantization promises for the LTUs of `n` workers and the greatest
exponent `e` of these. -/
structure SumsFit (ltu : Fin n → Fin k → Word) (e : Exponent) (scale : ℚ) : Prop where
  below : ∀ v i, |floatValue (ltu v i)| < 2 ^ e.toInt
  fits : ∀ i, |∑ v, roundHalfAway (floatValue (ltu v i) * scale)| ≤ 2 ^ 31 - 1
  exact : ∀ dequantize i, (∑ v, (exactOps dequantize).quantize (ltu v i) scale).toInt =
    ∑ v, roundHalfAway (floatValue (ltu v i) * scale)
  close : ∀ i, |((∑ v, roundHalfAway (floatValue (ltu v i) * scale) : ℤ) : ℚ) / scale - ∑ v, floatValue (ltu v i)| ≤
    n / (2 * scale)

variable {ltu : Fin n → Fin k → Word} {e : Exponent}

theorem ltuExponent_toInt {ltu : Fin k → Word} (hfin : ∀ i, isFinite (ltu i)) (hlt : ∀ i, exponentField (ltu i) ≤ 253)
    (i : Fin k) : (exponentField (ltu i) : ℤ) - 126 ≤ (ltuExponent ltu).toInt := by
  have h1 : exponentField (absMax (List.ofFn ltu)) ≤ 253 := by
    rcases exponentField_absMax (l := List.ofFn ltu) with h0 | ⟨w, hw, h0⟩
    · omega
    · obtain ⟨j, rfl⟩ := List.mem_ofFn.mp hw
      rw [h0]
      exact hlt j
  have h2 : exponentField (ltu i) ≤ exponentField (absMax (List.ofFn ltu)) := by
    refine exponentField_le_absMax (fun w hw => ?_) (List.mem_ofFn.mpr ⟨i, rfl⟩)
    obtain ⟨j, rfl⟩ := List.mem_ofFn.mp hw
    exact hfin j
  rw [ltuExponent, exponentOf_toInt h1]
  omega

/-- With its 24 significant bits a value stays below `2^e` by more than the
rounding needs. -/
theorem magnitude_le_of_exponent (hfin : ∀ v i, isFinite (ltu v i))
    (he : IsGreatest (Set.range fun v => ltuExponent (ltu v)) e) (hlt : ∀ v i, exponentField (ltu v i) ≤ 253)
    (v : Fin n) (i : Fin k) : magnitude (ltu v i) ≤ (1 - 1 / 2 ^ 24) * 2 ^ e.toInt := by
  have h1 : ltuExponent (ltu v) ≤ e := he.2 ⟨v, rfl⟩
  have h2 : (ltuExponent (ltu v)).toInt ≤ e.toInt := Int8.le_iff_toInt_le.mp h1
  have h3 := ltuExponent_toInt (hfin v) (hlt v) i
  have h4 : (2 : ℚ) ^ ((exponentField (ltu v i) : ℤ) - 150) ≤ 2 ^ (e.toInt - 24) :=
    zpow_le_zpow_right₀ (by norm_num) (by omega)
  calc magnitude (ltu v i) ≤ (2 ^ 24 - 1) * 2 ^ ((exponentField (ltu v i) : ℤ) - 150) := magnitude_le
    _ ≤ (2 ^ 24 - 1) * 2 ^ (e.toInt - 24) := mul_le_mul_of_nonneg_left h4 (by norm_num)
    _ = (1 - 1 / 2 ^ 24) * 2 ^ e.toInt := by
      rw [zpow_sub₀ (by norm_num)]
      norm_num
      ring

theorem exactScale_pos (hn : 0 < n) (e : Exponent) : 0 < exactScale n e := by
  have h2e : (0 : ℚ) < 2 ^ e.toInt := zpow_pos (by norm_num) _
  have hn0 : (0 : ℚ) < n := Nat.cast_pos.mpr hn
  unfold exactScale
  positivity

theorem abs_mul_scale_le (hn : 0 < n) {x : Word} (hle : magnitude x ≤ (1 - 1 / 2 ^ 24) * 2 ^ e.toInt) :
    |floatValue x * exactScale n e| ≤ (1 - 1 / 2 ^ 24) * (2 ^ 31 - 1) / n := by
  have h2e : (0 : ℚ) < 2 ^ e.toInt := zpow_pos (by norm_num) _
  have hn0 : (0 : ℚ) < n := Nat.cast_pos.mpr hn
  rw [abs_mul, abs_floatValue, abs_of_pos (exactScale_pos hn e)]
  calc magnitude x * exactScale n e ≤ (1 - 1 / 2 ^ 24) * 2 ^ e.toInt * exactScale n e :=
        mul_le_mul_of_nonneg_right hle (exactScale_pos hn e).le
    _ = (1 - 1 / 2 ^ 24) * (2 ^ 31 - 1) / n := by
      rw [exactScale]
      field_simp

theorem sum_le (hn : 0 < n) (hn32 : n ≤ 32)
    (hle : ∀ v i, magnitude (ltu v i) ≤ (1 - 1 / 2 ^ 24) * 2 ^ e.toInt) (i : Fin k) :
    |∑ v, roundHalfAway (floatValue (ltu v i) * exactScale n e)| ≤ 2 ^ 31 - 1 := by
  have hn0 : (n : ℚ) ≠ 0 := Nat.cast_ne_zero.mpr hn.ne'
  have hsum : |∑ v, floatValue (ltu v i) * exactScale n e| ≤ (1 - 1 / 2 ^ 24) * (2 ^ 31 - 1) := by
    calc |∑ v, floatValue (ltu v i) * exactScale n e|
        ≤ ∑ v, |floatValue (ltu v i) * exactScale n e| := Finset.abs_sum_le_sum_abs _ _
      _ ≤ ∑ _v : Fin n, (1 - 1 / 2 ^ 24) * (2 ^ 31 - 1) / (n : ℚ) :=
        Finset.sum_le_sum fun v _ => abs_mul_scale_le hn (hle v i)
      _ = (1 - 1 / 2 ^ 24) * (2 ^ 31 - 1) := by
        rw [Finset.sum_const, Finset.card_univ, Fintype.card_fin, nsmul_eq_mul]
        field_simp
  have hround := sum_roundHalfAway_sub fun v => floatValue (ltu v i) * exactScale n e
  rw [Fintype.card_fin] at hround
  have hn32' : (n : ℚ) ≤ 32 := by exact_mod_cast hn32
  -- the rounding adds at most 16, and there is room for more than 127
  have hq : |((∑ v, roundHalfAway (floatValue (ltu v i) * exactScale n e) : ℤ) : ℚ)| ≤ 2 ^ 31 - 1 := by
    rw [abs_le] at hround hsum ⊢
    constructor <;> linarith
  exact_mod_cast hq

theorem sum_close (ltu : Fin n → Fin k → Word) {scale : ℚ} (hscale : 0 < scale) (i : Fin k) :
    |((∑ v, roundHalfAway (floatValue (ltu v i) * scale) : ℤ) : ℚ) / scale - ∑ v, floatValue (ltu v i)| ≤
      n / (2 * scale) := by
  have hround := sum_roundHalfAway_sub fun v => floatValue (ltu v i) * scale
  rw [Fintype.card_fin, ← Finset.sum_mul] at hround
  have hmul := mul_div_cancel_right₀ (∑ v, floatValue (ltu v i)) hscale.ne'
  calc |((∑ v, roundHalfAway (floatValue (ltu v i) * scale) : ℤ) : ℚ) / scale - ∑ v, floatValue (ltu v i)|
      = |(((∑ v, roundHalfAway (floatValue (ltu v i) * scale) : ℤ) : ℚ) -
          (∑ v, floatValue (ltu v i)) * scale) / scale| := by rw [sub_div, hmul]
    _ = |((∑ v, roundHalfAway (floatValue (ltu v i) * scale) : ℤ) : ℚ) -
          (∑ v, floatValue (ltu v i)) * scale| / scale := by rw [abs_div, abs_of_pos hscale]
    _ ≤ (n / 2) / scale := div_le_div_of_nonneg_right hround hscale.le
    _ = n / (2 * scale) := by rw [div_div]

/-- The sums fit and are close to the true ones exactly when no value is as
great as `2^127`. -/
theorem sums_fit_iff (hn : 1 ≤ n) (hn32 : n ≤ 32) (hfin : ∀ v i, isFinite (ltu v i))
    (he : IsGreatest (Set.range fun v => ltuExponent (ltu v)) e) (dequantize : Word → ℚ → Word) :
    SumsFit ltu e ((exactOps dequantize).scalingFactor n e) ↔ ∀ v i, |floatValue (ltu v i)| < 2 ^ 127 := by
  constructor
  · intro h v i
    have h1 : e.toInt ≤ 127 := by have h2 := e.toInt_lt; omega
    calc |floatValue (ltu v i)| < 2 ^ e.toInt := h.below v i
      _ ≤ (2 : ℚ) ^ (127 : ℤ) := zpow_le_zpow_right₀ (by norm_num) h1
      _ = 2 ^ 127 := by norm_num
  · intro h
    have hlt : ∀ v i, exponentField (ltu v i) ≤ 253 := fun v i =>
      (magnitude_lt_iff (hfin v i)).mp (abs_floatValue ▸ h v i)
    have hle := magnitude_le_of_exponent hfin he hlt
    have hfit := sum_le hn hn32 hle
    refine ⟨fun v i => ?_, hfit, fun _ i => toInt_sum_ofInt (hfit i), fun i => sum_close ltu (exactScale_pos hn e) i⟩
    have h2e : (0 : ℚ) < 2 ^ e.toInt := zpow_pos (by norm_num) _
    rw [abs_floatValue]
    have h1 := hle v i
    linarith

/-- One worker with the value `2^127`, whose exponent is written as -128. -/
theorem sums_do_not_fit : ∃ (ltu : Fin 1 → Fin 1 → Word) (e : Exponent), (∀ v i, isFinite (ltu v i)) ∧
    IsGreatest (Set.range fun v => ltuExponent (ltu v)) e ∧
    ∀ dequantize, ¬SumsFit ltu e ((exactOps dequantize).scalingFactor 1 e) := by
  refine ⟨fun _ _ => 0x7f000000#32, -128, fun _ _ => (by decide : isFinite 0x7f000000#32), ⟨⟨0, by decide⟩, ?_⟩, fun dequantize h => ?_⟩
  · rintro _ ⟨v, rfl⟩
    show ltuExponent (fun _ : Fin 1 => 0x7f000000#32) ≤ -128
    decide
  · have h1 : 2 ^ (((254 : ℕ) : ℤ) - 127) ≤ magnitude 0x7f000000#32 := magnitude_ge (w := 0x7f000000#32) (by decide)
    have h2 := h.below 0 0
    rw [abs_floatValue] at h2
    have h3 : (2 : ℚ) ^ (((254 : ℕ) : ℤ) - 127) < 2 ^ (-128 : ℤ) := h1.trans_lt h2
    norm_num at h3

/-- Two workers with the values 1 and -3. -/
theorem sums_fit_pair : SumsFit (fun (v : Fin 2) (_ : Fin 1) => if v = 0 then 0x3f800000#32 else 0xc0400000#32) 2
    ((exactOps fun w _ => w).scalingFactor 2 2) := by
  refine (sums_fit_iff (by decide) (by decide) (fun v i => ?_) ⟨⟨1, by decide⟩, ?_⟩ _).mpr fun v i => ?_
  · revert v
    decide
  · rintro _ ⟨v, rfl⟩
    revert v
    decide
  · rw [abs_floatValue, magnitude_lt_iff]
    · revert v
      decide
    · revert v
      decide

end SwitchML.Client
