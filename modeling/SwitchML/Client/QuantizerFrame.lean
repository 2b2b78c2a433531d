/-
What `PreprocessSingle` reads and what `PostprocessSingle` writes. A packet is
determined by the elements of at most two LTUs and one scaling factor, and a
postprocessed packet changes the elements of at most one LTU and one scaling
factor: so most packets can be built again after others were postprocessed, also
where the output is the input.
-/
import SwitchML.Client.Quantizer

namespace SwitchML.Client

/-- The input and the output are the same buffer, or do not overlap. -/
def Tensor.Separate (t : Tensor) : Prop :=
  t.inPtr = t.outPtr ∨ t.inPtr + 4 * t.numel ≤ t.outPtr ∨ t.outPtr + 4 * t.numel ≤ t.inPtr

instance (t : Tensor) : Decidable t.Separate := inferInstanceAs (Decidable (_ ∨ _))

namespace Ppp

variable {K : Type} {ops : FloatOps K} {p : Ppp K} {mem mem' : Memory} {ltuId i : ℕ} {pkt a b : Packet}

/-- The LTU whose elements a packet carries. -/
def payloadLtu (p : Ppp K) (ltuId : ℕ) : Option ℕ :=
  match p.slice.dataType with
  | .float32 => if p.batchNumLtus ≤ ltuId then some (ltuId - p.batchNumLtus) else none
  | .int32 => some ltuId

/-- The LTU whose exponent a packet carries. -/
def exponentLtu (p : Ppp K) (ltuId : ℕ) : Option ℕ :=
  match p.slice.dataType with
  | .float32 => if ltuId < p.totalMainNumLtus then some ltuId else none
  | .int32 => none

/-- Two packets agree in what `PostprocessSingle` uses of them. -/
structure Agree (p : Ppp K) (ltuId : ℕ) (a b : Packet) : Prop where
  entries : ∀ l, p.payloadLtu ltuId = some l → ∀ i < p.numelToProcess l, a.entries i = b.entries i
  exponent : ∀ l, p.exponentLtu ltuId = some l → a.exponent = b.exponent

theorem output_congr {offset n : ℕ} {f g : ℕ → Word} (h : ∀ i < n, f i = g i) :
    p.output offset n f mem = p.output offset n g mem := by
  funext addr
  unfold output
  dsimp only
  split
  · rename_i hc
    exact h _ hc.2.2
  · rfl

/-- `PostprocessSingle` uses nothing else. -/
theorem postprocessSingle_congr (h : p.Agree ltuId a b) :
    p.postprocessSingle ops mem ltuId a = p.postprocessSingle ops mem ltuId b := by
  unfold postprocessSingle
  cases hd : p.slice.dataType with
  | float32 =>
    have hdeq : p.batchNumLtus ≤ ltuId →
        p.dequantizeLtu ops mem (ltuId - p.batchNumLtus) a = p.dequantizeLtu ops mem (ltuId - p.batchNumLtus) b := by
      intro hb
      have h1 := h.entries (ltuId - p.batchNumLtus) (by simp [payloadLtu, hd, hb])
      unfold dequantizeLtu
      dsimp only
      rw [output_congr fun i hi => by rw [h1 i hi]]
    have hscale : ltuId < p.totalMainNumLtus → p.scale ops ltuId a = p.scale ops ltuId b := by
      intro hl
      have h1 := h.exponent ltuId (by simp [exponentLtu, hd, hl])
      rw [scale, scale, h1]
    by_cases hb : p.batchNumLtus ≤ ltuId <;> by_cases hl : ltuId < p.totalMainNumLtus <;>
      simp only [hb, hl, if_true, if_false] <;> simp only [hb, hl, hdeq, hscale]
  | int32 =>
    have h1 := h.entries ltuId (by simp [payloadLtu, hd])
    dsimp only
    rw [output_congr fun i hi => by rw [h1 i hi]]

/-! ## Building a packet again -/

/-- What a packet is built from is the same. -/
structure SameInputs (p q : Ppp K) (mem mem' : Memory) (ltuId : ℕ) : Prop where
  shape : q = { p with scalingFactors := q.scalingFactors }
  payload : ∀ l, p.payloadLtu ltuId = some l → ∀ i ∈ p.indices l, p.input mem i = p.input mem' i
  factor : p.slice.dataType = .float32 → ∀ l, p.payloadLtu ltuId = some l → p.scalingFactors l = q.scalingFactors l
  exponent : ∀ l, p.exponentLtu ltuId = some l → ∀ i ∈ p.indices l, p.input mem i = p.input mem' i

theorem mem_indices {l k : ℕ} (hk : k < p.numelToProcess l) : l * p.ltuNumel + k ∈ p.indices l :=
  List.mem_map.mpr ⟨k, List.mem_range.mpr hk, rfl⟩

theorem quantizeLtu_entries {l : ℕ} (hi : i < p.numelToProcess l) :
    (p.quantizeLtu ops mem l a).1.entries i =
      htonl (quantized ops (p.input mem (l * p.ltuNumel + i)) (p.scalingFactors l)) :=
  if_pos hi

theorem quantizeLtu_agree {q : Ppp K} {l : ℕ} (hq : q = { p with scalingFactors := q.scalingFactors })
    (hin : ∀ i ∈ p.indices l, p.input mem i = p.input mem' i) (hf : p.scalingFactors l = q.scalingFactors l)
    (hi : i < p.numelToProcess l) :
    (p.quantizeLtu ops mem l a).1.entries i = (q.quantizeLtu ops mem' l b).1.entries i := by
  have hn : q.numelToProcess l = p.numelToProcess l := by rw [hq]; rfl
  have hnumel : q.ltuNumel = p.ltuNumel := by rw [hq]; rfl
  have hinput : q.input mem' = p.input mem' := by rw [hq]; rfl
  rw [quantizeLtu_entries hi, quantizeLtu_entries (by rwa [hn]), hin _ (mem_indices hi), hf, hnumel, hinput]

theorem computeExponent_eq {q : Ppp K} {l : ℕ} (hq : q = { p with scalingFactors := q.scalingFactors })
    (hin : ∀ i ∈ p.indices l, p.input mem i = p.input mem' i) :
    (p.computeExponent mem l a).1.exponent = (q.computeExponent mem' l b).1.exponent := by
  have hmap : (p.indices l).map (p.input mem) = (p.indices l).map (p.input mem') := List.map_congr_left hin
  rw [hq]
  show exponentOf (absMax ((p.indices l).map (p.input mem))) = exponentOf (absMax ((p.indices l).map (p.input mem')))
  rw [hmap]

/-- A packet built from the same is the same where it matters. -/
theorem preprocessSingle_agree {q : Ppp K} (h : SameInputs p q mem mem' ltuId) :
    p.Agree ltuId (p.preprocessSingle ops mem ltuId a).1 (q.preprocessSingle ops mem' ltuId b).1 := by
  have hslice : q.slice = p.slice := by rw [h.shape]
  have htotal : q.totalMainNumLtus = p.totalMainNumLtus := by rw [h.shape]
  have hbatch : q.batchNumLtus = p.batchNumLtus := by rw [h.shape]
  unfold preprocessSingle
  rw [hslice, htotal, hbatch]
  cases hd : p.slice.dataType with
  | float32 =>
    dsimp only
    constructor
    · intro l hl i hi
      have hpay := h.payload l hl
      have hfac := h.factor hd l hl
      simp only [payloadLtu, hd, Option.ite_none_right_eq_some, Option.some.injEq] at hl
      obtain ⟨hb, rfl⟩ := hl
      have h1 : (p.quantizeLtu ops mem (ltuId - p.batchNumLtus) a).1.entries i =
          (q.quantizeLtu ops mem' (ltuId - p.batchNumLtus) b).1.entries i := quantizeLtu_agree h.shape hpay hfac hi
      simp only [if_pos hb]
      split
      · exact h1
      · exact h1
    · intro l hl
      have hexp := h.exponent l hl
      simp only [exponentLtu, hd, Option.ite_none_right_eq_some, Option.some.injEq] at hl
      obtain ⟨ht, rfl⟩ := hl
      simp only [if_pos ht]
      exact computeExponent_eq h.shape hexp
  | int32 =>
    dsimp only
    constructor
    · intro l hl i hi
      have hpay := h.payload l hl
      simp only [payloadLtu, hd, Option.some.injEq] at hl
      subst hl
      have hn : q.numelToProcess ltuId = p.numelToProcess ltuId := by rw [h.shape]; rfl
      have hnumel : q.ltuNumel = p.ltuNumel := by rw [h.shape]; rfl
      have hinput : q.input mem' = p.input mem' := by rw [h.shape]; rfl
      rw [hn, hnumel, hinput]
      simp only [fill, if_pos hi, hpay _ (mem_indices hi)]
    · intro l hl
      simp [exponentLtu, hd] at hl

/-! ## What a postprocessed packet changes -/

/-- Elements that are not written keep their value. -/
theorem input_output {offset n : ℕ} {f : ℕ → Word} (hsep : p.slice.Separate) (hi : i < p.slice.numel)
    (hn : offset + n ≤ p.slice.numel) (hne : ∀ k < n, i ≠ offset + k) :
    p.input (p.output offset n f mem) i = p.input mem i := by
  unfold input output
  dsimp only
  rw [if_neg]
  rintro ⟨h1, h2, h3⟩
  rcases hsep with heq | hlt | hlt
  · exact hne ((p.slice.inPtr + 4 * i - (p.slice.outPtr + 4 * offset)) / 4) h3 (by omega)
  · omega
  · omega

theorem lt_of_payloadLtu {l : ℕ}
    (hlt : ltuId < p.totalMainNumLtus + if p.slice.dataType = .float32 then p.batchNumLtus else 0)
    (hl : p.payloadLtu ltuId = some l) : l < p.totalMainNumLtus := by
  cases hd : p.slice.dataType with
  | float32 =>
    simp only [hd, if_true] at hlt
    simp only [payloadLtu, hd, Option.ite_none_right_eq_some, Option.some.injEq] at hl
    omega
  | int32 =>
    simp only [hd, reduceCtorEq, if_false, Nat.add_zero] at hlt
    simp only [payloadLtu, hd, Option.some.injEq] at hl
    omega

theorem lt_of_exponentLtu {l : ℕ} (hl : p.exponentLtu ltuId = some l) : l = ltuId ∧ l < p.totalMainNumLtus := by
  cases hd : p.slice.dataType with
  | float32 =>
    simp only [exponentLtu, hd, Option.ite_none_right_eq_some, Option.some.injEq] at hl
    omega
  | int32 => simp [exponentLtu, hd] at hl

/-- The elements of another LTU keep their value. -/
theorem postprocessSingle_input (h : p.SetUp) (hsep : p.slice.Separate) {l : ℕ} (hl : l < p.totalMainNumLtus)
    (hlt : ∀ l', p.payloadLtu ltuId = some l' → l' < p.totalMainNumLtus) (hne : p.payloadLtu ltuId ≠ some l)
    (hi : i ∈ p.indices l) :
    p.input (p.postprocessSingle ops mem ltuId pkt).2.1 i = p.input mem i := by
  rw [h.indices hl, Chunks.mem_chunk h.ltuNumel_pos] at hi
  have key : ∀ l' f, p.payloadLtu ltuId = some l' →
      p.input (p.output (l' * p.ltuNumel) (p.numelToProcess l') f mem) i = p.input mem i := by
    intro l' f hl'
    have h1 := h.lt_iff.mp (hlt l' hl')
    have h2 := h.numelToProcess (hlt l' hl')
    refine input_output hsep hi.1 (by omega) fun k hk hik => hne ?_
    -- the element would be in both LTUs
    have h3 : i ∈ p.indices l' := hik ▸ mem_indices hk
    rw [h.indices (hlt l' hl'), Chunks.mem_chunk h.ltuNumel_pos] at h3
    rw [hl', ← hi.2, h3.2]
  unfold postprocessSingle
  cases hd : p.slice.dataType with
  | float32 =>
    dsimp only
    by_cases hb : p.batchNumLtus ≤ ltuId
    · have h1 := key (ltuId - p.batchNumLtus)
        (fun i => dequantized ops (htonl (pkt.entries i)) (p.scalingFactors (ltuId - p.batchNumLtus)))
        (by simp [payloadLtu, hd, hb])
      simp only [if_pos hb]
      split
      · exact h1
      · exact h1
    · simp only [if_neg hb]
      split <;> rfl
  | int32 =>
    dsimp only
    exact key ltuId _ (by simp [payloadLtu, hd])

/-- Nothing is written outside the output. -/
theorem postprocessSingle_frame (h : p.SetUp) (hlt : ∀ l, p.payloadLtu ltuId = some l → l < p.totalMainNumLtus)
    {addr : ℕ} (ha : ∀ i < p.slice.numel, addr ≠ p.slice.outPtr + 4 * i) :
    (p.postprocessSingle ops mem ltuId pkt).2.1 addr = mem addr := by
  have key : ∀ l f, p.payloadLtu ltuId = some l →
      p.output (l * p.ltuNumel) (p.numelToProcess l) f mem addr = mem addr := by
    intro l f hl
    have h1 := h.lt_iff.mp (hlt l hl)
    have h2 := h.numelToProcess (hlt l hl)
    unfold output
    dsimp only
    rw [if_neg]
    rintro ⟨h3, h4, h5⟩
    refine ha (l * p.ltuNumel + (addr - (p.slice.outPtr + 4 * (l * p.ltuNumel))) / 4) (by omega) (by omega)
  unfold postprocessSingle
  cases hd : p.slice.dataType with
  | float32 =>
    dsimp only
    by_cases hb : p.batchNumLtus ≤ ltuId
    · have h1 := key (ltuId - p.batchNumLtus)
        (fun i => dequantized ops (htonl (pkt.entries i)) (p.scalingFactors (ltuId - p.batchNumLtus)))
        (by simp [payloadLtu, hd, hb])
      simp only [if_pos hb]
      split
      · exact h1
      · exact h1
    · simp only [if_neg hb]
      split <;> rfl
  | int32 =>
    dsimp only
    exact key ltuId _ (by simp [payloadLtu, hd])

/-- The elements of an `INT32` packet are those of its LTU. -/
theorem postprocessSingle_int32 (hd : p.slice.dataType = .int32) {k : ℕ} (hk : k < p.numelToProcess ltuId) :
    (p.postprocessSingle ops mem ltuId pkt).2.1 (p.slice.outPtr + 4 * (ltuId * p.ltuNumel + k)) =
      htonl (pkt.entries k) := by
  have h1 : p.slice.outPtr + 4 * (ltuId * p.ltuNumel + k) - (p.slice.outPtr + 4 * (ltuId * p.ltuNumel)) = 4 * k := by
    omega
  have h2 : 4 * k / 4 = k := by omega
  unfold postprocessSingle
  simp only [hd, output, h1, h2]
  rw [if_pos ⟨by omega, by omega, hk⟩]

/-- The other elements of the output are kept. -/
theorem postprocessSingle_int32_of_notMem (hd : p.slice.dataType = .int32) (hi : i ∉ p.indices ltuId) :
    (p.postprocessSingle ops mem ltuId pkt).2.1 (p.slice.outPtr + 4 * i) = mem (p.slice.outPtr + 4 * i) := by
  unfold postprocessSingle
  simp only [hd, output]
  rw [if_neg]
  rintro ⟨h1, h2, h3⟩
  refine hi (List.mem_map.mpr ⟨_, List.mem_range.mpr h3, ?_⟩)
  omega

/-- Only the scaling factors are changed. -/
theorem postprocessSingle_eq (p : Ppp K) (mem : Memory) (ltuId : ℕ) (pkt : Packet) :
    (p.postprocessSingle ops mem ltuId pkt).1 =
      { p with scalingFactors := (p.postprocessSingle ops mem ltuId pkt).1.scalingFactors } := by
  unfold postprocessSingle
  split
  · dsimp only
    split <;> rfl
  · rfl

/-- The other scaling factors are kept. -/
theorem postprocessSingle_factor {l : ℕ} (hne : l ≠ ltuId) :
    (p.postprocessSingle ops mem ltuId pkt).1.scalingFactors l = p.scalingFactors l := by
  unfold postprocessSingle
  cases p.slice.dataType with
  | float32 =>
    dsimp only
    split
    · exact Function.update_of_ne hne ..
    · rfl
  | int32 => rfl

end Ppp

end SwitchML.Client
