/-
The quantizer over a whole `FLOAT32` slice, with its functions called in any
order a backend may call them in: an id is preprocessed before it is
postprocessed, and once the id one batch before it was postprocessed.

Packet `p` brings the exponent of LTU `p`, so the scaling factor of that LTU is
there by the time packet `p + batch_num_ltus` needs it. The accesses of a call
are all that it does: performing them gives its packet, its memory and its table
of scaling factors.
-/
import SwitchML.Client.QuantizerFrame
import SwitchML.Lib.Machine
import Mathlib.Data.List.Perm.Basic

namespace SwitchML.Client

open P4 (Exponent)

variable {K : Type}

namespace Access

/-- The element an access quantizes. -/
def quantizes : Access K → Option ℕ
  | .quantize index _ _ => some index
  | _ => none

/-- The LTU whose exponent an access computes. -/
def computes : Access K → Option ℕ
  | .exponent ltuId _ => some ltuId
  | _ => none

/-- The element of the output an access writes. -/
def writes : Access K → Option ℕ
  | .dequantize index _ _ => some index
  | .store index => some index
  | _ => none

/-- An access stays within the slice and the table; a scaling factor is the one
of the element's LTU, from the exponent that was received for it; and an
exponent is that of exactly the elements of its LTU. -/
def Sound (ops : FloatOps K) (p : Ppp K) (received : ℕ → Option Exponent) : Access K → Prop
  | .quantize index ltuId factor | .dequantize index ltuId factor =>
    index < p.slice.numel ∧ ltuId = index / p.ltuNumel ∧ ltuId < p.totalMainNumLtus ∧
      ∃ e, received ltuId = some e ∧ factor = some (ops.scalingFactor p.numWorkers e)
  | .exponent ltuId indices =>
    ltuId < p.totalMainNumLtus ∧ indices.Nodup ∧ ∀ i, i ∈ indices ↔ i < p.slice.numel ∧ i / p.ltuNumel = ltuId
  | .scale ltuId e => ltuId < p.totalMainNumLtus ∧ received ltuId = some e
  | .load index | .store index => index < p.slice.numel

end Access

/-- What a call works on. -/
structure CallState (K : Type) where
  ppp : Ppp K
  memory : Memory
  pkt : Packet

/-- What an access does. An element is at its place within its LTU in the
payload. -/
def Access.perform (ops : FloatOps K) (c : CallState K) : Access K → CallState K
  | .quantize index _ factor =>
    let w := htonl (Ppp.quantized ops (c.ppp.input c.memory index) factor)
    { c with pkt := { c.pkt with entries := Function.update c.pkt.entries (index % c.ppp.ltuNumel) w } }
  | .exponent _ indices =>
    { c with pkt := { c.pkt with exponent := exponentOf (absMax (indices.map (c.ppp.input c.memory))) } }
  | .dequantize index _ factor =>
    let w := Ppp.dequantized ops (htonl (c.pkt.entries (index % c.ppp.ltuNumel))) factor
    { c with memory := Function.update c.memory (c.ppp.slice.outPtr + 4 * index) w }
  | .scale ltuId e =>
    let factor := ops.scalingFactor c.ppp.numWorkers e
    { c with ppp := { c.ppp with scalingFactors := Function.update c.ppp.scalingFactors ltuId (some factor) } }
  | .load index =>
    let w := htonl (c.ppp.input c.memory index)
    { c with pkt := { c.pkt with entries := Function.update c.pkt.entries (index % c.ppp.ltuNumel) w } }
  | .store index =>
    let w := htonl (c.pkt.entries (index % c.ppp.ltuNumel))
    { c with memory := Function.update c.memory (c.ppp.slice.outPtr + 4 * index) w }

namespace Ppp

variable {ops : FloatOps K} {p : Ppp K} {mem : Memory} {pkt : Packet} {ltuId l n k offset addr : ℕ} {f : ℕ → Word}

theorem add_mod_ltuNumel (hk : k < p.ltuNumel) : (l * p.ltuNumel + k) % p.ltuNumel = k := by
  rw [Nat.mul_comm, Nat.mul_add_mod, Nat.mod_eq_of_lt hk]

theorem fill_succ (n : ℕ) (f entries : ℕ → Word) :
    fill (n + 1) f entries = Function.update (fill n f entries) n (f n) := by
  rw [Function.eq_update_iff]
  refine ⟨if_pos n.lt_succ_self, fun i hi => ?_⟩
  have hlt : i < n + 1 ↔ i < n := by omega
  simp [fill, hlt]

theorem output_self (hk : k < n) : p.output offset n f mem (p.slice.outPtr + 4 * (offset + k)) = f k := by
  have h1 : p.slice.outPtr + 4 * (offset + k) - (p.slice.outPtr + 4 * offset) = 4 * k := by omega
  have h2 : 4 * k / 4 = k := by omega
  simp only [output, h1, h2]
  rw [if_pos ⟨by omega, by omega, hk⟩]

theorem output_of_ne (h : ∀ k < n, addr ≠ p.slice.outPtr + 4 * (offset + k)) :
    p.output offset n f mem addr = mem addr := by
  unfold output
  dsimp only
  rw [if_neg]
  rintro ⟨h1, h2, h3⟩
  exact h _ h3 (by omega)

theorem output_succ (n : ℕ) :
    p.output offset (n + 1) f mem =
      Function.update (p.output offset n f mem) (p.slice.outPtr + 4 * (offset + n)) (f n) := by
  rw [Function.eq_update_iff]
  refine ⟨output_self n.lt_succ_self, fun addr hne => ?_⟩
  by_cases h : ∃ k < n, addr = p.slice.outPtr + 4 * (offset + k)
  · obtain ⟨k, hk, rfl⟩ := h
    rw [output_self hk, output_self (Nat.lt_succ_of_lt hk)]
  · push Not at h
    rw [output_of_ne h, output_of_ne]
    intro k hk
    rcases Nat.lt_succ_iff_lt_or_eq.mp hk with hk | rfl
    · exact h k hk
    · exact hne

/-- Performing an access for each element of an LTU fills the payload. -/
theorem foldl_entries {a : ℕ → Access K} (f : ℕ → Word)
    (ha : ∀ k < p.ltuNumel, ∀ pkt, (a (l * p.ltuNumel + k)).perform ops ⟨p, mem, pkt⟩ =
      ⟨p, mem, { pkt with entries := Function.update pkt.entries k (f k) }⟩) (pkt : Packet) :
    ((p.indices l).map a).foldl (Access.perform ops) ⟨p, mem, pkt⟩ =
      ⟨p, mem, { pkt with entries := fill (p.numelToProcess l) f pkt.entries }⟩ := by
  have key : ∀ n ≤ p.ltuNumel,
      (((List.range n).map (l * p.ltuNumel + ·)).map a).foldl (Access.perform ops) ⟨p, mem, pkt⟩ =
      ⟨p, mem, { pkt with entries := fill n f pkt.entries }⟩ := by
    intro n hn
    induction n with
    | zero => rfl
    | succ n ih =>
      rw [List.range_succ, List.map_append, List.map_append, List.foldl_append, ih (by omega), fill_succ]
      exact ha n (by omega) _
  exact key _ (min_le_left _ _)

/-- Performing an access for each element of an LTU writes the output. -/
theorem foldl_output {a : ℕ → Access K} (f : ℕ → Word)
    (ha : ∀ k < p.ltuNumel, ∀ mem, (a (l * p.ltuNumel + k)).perform ops ⟨p, mem, pkt⟩ =
      ⟨p, Function.update mem (p.slice.outPtr + 4 * (l * p.ltuNumel + k)) (f k), pkt⟩) (mem : Memory) :
    ((p.indices l).map a).foldl (Access.perform ops) ⟨p, mem, pkt⟩ =
      ⟨p, p.output (l * p.ltuNumel) (p.numelToProcess l) f mem, pkt⟩ := by
  have key : ∀ n ≤ p.ltuNumel,
      (((List.range n).map (l * p.ltuNumel + ·)).map a).foldl (Access.perform ops) ⟨p, mem, pkt⟩ =
      ⟨p, p.output (l * p.ltuNumel) n f mem, pkt⟩ := by
    intro n hn
    induction n with
    | zero =>
      have h0 : p.output (l * p.ltuNumel) 0 f mem = mem := funext fun addr => output_of_ne (by simp)
      rw [h0]
      rfl
    | succ n ih =>
      rw [List.range_succ, List.map_append, List.map_append, List.foldl_append, ih (by omega), output_succ]
      exact ha n (by omega) _
  exact key _ (min_le_left _ _)

theorem quantizeLtu_performs (l : ℕ) (pkt : Packet) :
    (p.quantizeLtu ops mem l pkt).2.foldl (Access.perform ops) ⟨p, mem, pkt⟩ =
      ⟨p, mem, (p.quantizeLtu ops mem l pkt).1⟩ := by
  refine foldl_entries _ (fun k hk pkt => ?_) pkt
  simp only [Access.perform, add_mod_ltuNumel hk]

theorem dequantizeLtu_performs (l : ℕ) (mem : Memory) :
    (p.dequantizeLtu ops mem l pkt).2.foldl (Access.perform ops) ⟨p, mem, pkt⟩ =
      ⟨p, (p.dequantizeLtu ops mem l pkt).1, pkt⟩ := by
  refine foldl_output (fun i => dequantized ops (htonl (pkt.entries i)) (p.scalingFactors l)) (fun k hk mem => ?_) mem
  simp only [Access.perform, add_mod_ltuNumel hk]

/-- The accesses of `PreprocessSingle` make its packet. -/
theorem preprocessSingle_performs (p : Ppp K) (mem : Memory) (ltuId : ℕ) (pkt : Packet) :
    (p.preprocessSingle ops mem ltuId pkt).2.foldl (Access.perform ops) ⟨p, mem, pkt⟩ =
      ⟨p, mem, (p.preprocessSingle ops mem ltuId pkt).1⟩ := by
  unfold preprocessSingle
  cases hd : p.slice.dataType with
  | float32 =>
    dsimp only
    have hq : ∀ r, r = (if p.batchNumLtus ≤ ltuId then p.quantizeLtu ops mem (ltuId - p.batchNumLtus) pkt
        else (pkt, [])) → r.2.foldl (Access.perform ops) ⟨p, mem, pkt⟩ = ⟨p, mem, r.1⟩ := by
      rintro r rfl
      split
      · exact quantizeLtu_performs _ pkt
      · rfl
    split
    · rw [List.foldl_append, hq _ rfl]
      rfl
    · exact hq _ rfl
  | int32 =>
    refine foldl_entries _ (fun k hk pkt => ?_) pkt
    simp only [Access.perform, add_mod_ltuNumel hk]

/-- The accesses of `PostprocessSingle` make its memory and its table. -/
theorem postprocessSingle_performs (p : Ppp K) (mem : Memory) (ltuId : ℕ) (pkt : Packet) :
    (p.postprocessSingle ops mem ltuId pkt).2.2.foldl (Access.perform ops) ⟨p, mem, pkt⟩ =
      ⟨(p.postprocessSingle ops mem ltuId pkt).1, (p.postprocessSingle ops mem ltuId pkt).2.1, pkt⟩ := by
  unfold postprocessSingle
  cases hd : p.slice.dataType with
  | float32 =>
    dsimp only
    have hq : ∀ r, r = (if p.batchNumLtus ≤ ltuId then p.dequantizeLtu ops mem (ltuId - p.batchNumLtus) pkt
        else (mem, [])) → r.2.foldl (Access.perform ops) ⟨p, mem, pkt⟩ = ⟨p, r.1, pkt⟩ := by
      rintro r rfl
      split
      · exact dequantizeLtu_performs _ mem
      · rfl
    split
    · rw [List.foldl_append, hq _ rfl]
      rfl
    · exact hq _ rfl
  | int32 =>
    refine foldl_output (fun i => htonl (pkt.entries i)) (fun k hk mem => ?_) mem
    simp only [Access.perform, add_mod_ltuNumel hk]

end Ppp

/-- The quantizer, the client's memory and what was done so far. -/
structure QuantizerRun (K : Type) where
  ppp : Ppp K
  memory : Memory
  /-- The memory before the first call. -/
  start : Memory
  /-- The ids that were preprocessed and postprocessed, in order. -/
  pre : List ℕ
  post : List ℕ
  /-- The packet `PreprocessSingle` left for an id. -/
  packed : ℕ → Option Packet
  /-- The packet `PostprocessSingle` was given for an id. -/
  unpacked : ℕ → Option Packet
  log : List (Access K)

namespace QuantizerRun

def new (p : Ppp K) (memory : Memory) : QuantizerRun K where
  ppp := p
  memory := memory
  start := memory
  pre := []
  post := []
  packed _ := none
  unpacked _ := none
  log := []

/-- The exponent in the packet of an id. -/
def received (s : QuantizerRun K) (l : ℕ) : Option Exponent := (s.unpacked l).map Packet.exponent

/-- A call, with what is in the packet's buffer. -/
inductive Event
  | preprocess (ltuId : ℕ) (pkt : Packet)
  | postprocess (ltuId : ℕ) (pkt : Packet)

def preprocess (ops : FloatOps K) (s : QuantizerRun K) (ltuId : ℕ) (pkt : Packet) : QuantizerRun K :=
  let r := s.ppp.preprocessSingle ops s.memory ltuId pkt
  { s with
    pre := s.pre ++ [ltuId]
    packed := Function.update s.packed ltuId (some r.1)
    log := s.log ++ r.2 }

def postprocess (ops : FloatOps K) (s : QuantizerRun K) (ltuId : ℕ) (pkt : Packet) : QuantizerRun K :=
  let r := s.ppp.postprocessSingle ops s.memory ltuId pkt
  { s with
    ppp := r.1
    memory := r.2.1
    post := s.post ++ [ltuId]
    unpacked := Function.update s.unpacked ltuId (some pkt)
    log := s.log ++ r.2.2 }

def next (ops : FloatOps K) (s : QuantizerRun K) : Event → Option (QuantizerRun K)
  | .preprocess ltuId pkt =>
    if ltuId < s.ppp.totalMainNumLtus + s.ppp.batchNumLtus ∧ ltuId ∉ s.pre ∧
        (ltuId < s.ppp.batchNumLtus ∨ ltuId - s.ppp.batchNumLtus ∈ s.post) then some (s.preprocess ops ltuId pkt)
    else none
  | .postprocess ltuId pkt => if ltuId ∈ s.pre ∧ ltuId ∉ s.post then some (s.postprocess ops ltuId pkt) else none

/-- The calls for a slice the quantizer was set up with. -/
def machine (ops : FloatOps K) (p : Ppp K) : Machine (QuantizerRun K) Event where
  init s := ∃ memory, s = new p memory
  next := next ops

/-- The accesses a call puts in the log are what it does: performed in order they
make its packet, the memory and the table of scaling factors. -/
def Performs (ops : FloatOps K) (s s' : QuantizerRun K) : Event → Prop
  | .preprocess ltuId pkt => ∃ as out,
    s'.log = s.log ++ as ∧ s'.packed = Function.update s.packed ltuId (some out) ∧ s'.unpacked = s.unpacked ∧
      as.foldl (Access.perform ops) ⟨s.ppp, s.memory, pkt⟩ = ⟨s'.ppp, s'.memory, out⟩
  | .postprocess ltuId pkt => ∃ as,
    s'.log = s.log ++ as ∧ s'.packed = s.packed ∧ s'.unpacked = Function.update s.unpacked ltuId (some pkt) ∧
      as.foldl (Access.perform ops) ⟨s.ppp, s.memory, pkt⟩ = ⟨s'.ppp, s'.memory, pkt⟩

/-- What is in the packets and in the memory, for a quantizer that was set up as
`p`. -/
structure Values (ops : FloatOps K) (p : Ppp K) (s : QuantizerRun K) : Prop where
  packed : ∀ l, (s.packed l).isSome ↔ l ∈ s.pre
  unpacked : ∀ l, (s.unpacked l).isSome ↔ l ∈ s.post
  /-- An element of the output is from the packet with its LTU. -/
  written : ∀ i < p.slice.numel, ∀ pkt, s.unpacked (i / p.ltuNumel + p.batchNumLtus) = some pkt →
    ∃ e, s.received (i / p.ltuNumel) = some e ∧ s.memory (p.slice.outPtr + 4 * i) =
      ops.dequantize (htonl (pkt.entries (i % p.ltuNumel))) (ops.scalingFactor p.numWorkers e)
  /-- Nothing else was written. -/
  kept : ∀ addr, (∀ i < p.slice.numel, addr = p.slice.outPtr + 4 * i →
    i / p.ltuNumel + p.batchNumLtus ∉ s.post) → s.memory addr = s.start addr
  /-- The payload of a packet is from the input as it was at first. -/
  quantized : p.slice.Separate → ∀ i < p.slice.numel, ∀ pkt,
    s.packed (i / p.ltuNumel + p.batchNumLtus) = some pkt →
    ∃ e, s.received (i / p.ltuNumel) = some e ∧ pkt.entries (i % p.ltuNumel) =
      htonl (ops.quantize (p.input s.start i) (ops.scalingFactor p.numWorkers e))
  exponent : p.slice.Separate → ∀ l < p.totalMainNumLtus, ∀ pkt, s.packed l = some pkt →
    pkt.exponent = exponentOf (absMax ((Chunks.chunk p.slice.numel p.ltuNumel l).map (p.input s.start)))

/-! ## What a call does -/

variable {ops : FloatOps K} {p : Ppp K} {mem : Memory} {pkt : Packet} {ltuId : ℕ}

theorem performs {s s' : QuantizerRun K} {e : Event} (hn : next ops s e = some s') : Performs ops s s' e := by
  cases e with
  | preprocess ltuId pkt =>
    simp only [next, Option.ite_none_right_eq_some, Option.some.injEq] at hn
    obtain ⟨-, rfl⟩ := hn
    exact ⟨_, _, rfl, rfl, rfl, Ppp.preprocessSingle_performs ..⟩
  | postprocess ltuId pkt =>
    simp only [next, Option.ite_none_right_eq_some, Option.some.injEq] at hn
    obtain ⟨-, rfl⟩ := hn
    exact ⟨_, rfl, rfl, rfl, Ppp.postprocessSingle_performs ..⟩

theorem received_postprocess (s : QuantizerRun K) (ltuId : ℕ) (pkt : Packet) :
    (s.postprocess ops ltuId pkt).received = Function.update s.received ltuId (some pkt.exponent) := by
  rw [Function.eq_update_iff]
  constructor
  · simp [received, QuantizerRun.postprocess]
  · intro l hl
    simp [received, QuantizerRun.postprocess, hl]

theorem preprocessSingle_accesses (h : p.slice.dataType = .float32) :
    (p.preprocessSingle ops mem ltuId pkt).2 =
      (if p.batchNumLtus ≤ ltuId then
        (p.indices (ltuId - p.batchNumLtus)).map fun index =>
          .quantize index (ltuId - p.batchNumLtus) (p.scalingFactors (ltuId - p.batchNumLtus))
      else []) ++ if ltuId < p.totalMainNumLtus then [.exponent ltuId (p.indices ltuId)] else [] := by
  unfold Ppp.preprocessSingle
  rw [h]
  by_cases h1 : p.batchNumLtus ≤ ltuId <;> by_cases h2 : ltuId < p.totalMainNumLtus <;>
    simp [h1, h2, Ppp.quantizeLtu, Ppp.computeExponent]

theorem postprocessSingle_accesses (h : p.slice.dataType = .float32) :
    (p.postprocessSingle ops mem ltuId pkt).2.2 =
      (if p.batchNumLtus ≤ ltuId then
        (p.indices (ltuId - p.batchNumLtus)).map fun index =>
          .dequantize index (ltuId - p.batchNumLtus) (p.scalingFactors (ltuId - p.batchNumLtus))
      else []) ++ if ltuId < p.totalMainNumLtus then [.scale ltuId pkt.exponent] else [] := by
  unfold Ppp.postprocessSingle
  rw [h]
  by_cases h1 : p.batchNumLtus ≤ ltuId <;> by_cases h2 : ltuId < p.totalMainNumLtus <;>
    simp [h1, h2, Ppp.dequantizeLtu, Ppp.scale]

theorem postprocessSingle_ppp (h : p.slice.dataType = .float32) :
    (p.postprocessSingle ops mem ltuId pkt).1 =
      if ltuId < p.totalMainNumLtus then
        { p with scalingFactors :=
            Function.update p.scalingFactors ltuId (some (ops.scalingFactor p.numWorkers pkt.exponent)) }
      else p := by
  unfold Ppp.postprocessSingle
  rw [h]
  by_cases h2 : ltuId < p.totalMainNumLtus <;> simp [h2, Ppp.scale]

/-- The elements the packet with this id carries. -/
def payload (p : Ppp K) (ltuId : ℕ) : List ℕ :=
  if p.batchNumLtus ≤ ltuId then p.indices (ltuId - p.batchNumLtus) else []

theorem preprocessSingle_quantizes (h : p.slice.dataType = .float32) :
    (p.preprocessSingle ops mem ltuId pkt).2.filterMap Access.quantizes = payload p ltuId := by
  rw [preprocessSingle_accesses h, List.filterMap_append, payload]
  split <;> split <;> simp [Access.quantizes, List.filterMap_map, Function.comp_def]

theorem preprocessSingle_computes (h : p.slice.dataType = .float32) :
    (p.preprocessSingle ops mem ltuId pkt).2.filterMap Access.computes =
      if ltuId < p.totalMainNumLtus then [ltuId] else [] := by
  rw [preprocessSingle_accesses h, List.filterMap_append]
  split <;> split <;> simp [Access.computes, List.filterMap_map, Function.comp_def]

theorem preprocessSingle_writes (h : p.slice.dataType = .float32) :
    (p.preprocessSingle ops mem ltuId pkt).2.filterMap Access.writes = [] := by
  rw [preprocessSingle_accesses h, List.filterMap_append]
  split <;> split <;> simp [Access.writes, List.filterMap_map, Function.comp_def]

theorem postprocessSingle_quantizes (h : p.slice.dataType = .float32) :
    (p.postprocessSingle ops mem ltuId pkt).2.2.filterMap Access.quantizes = [] := by
  rw [postprocessSingle_accesses h, List.filterMap_append]
  split <;> split <;> simp [Access.quantizes, List.filterMap_map, Function.comp_def]

theorem postprocessSingle_computes (h : p.slice.dataType = .float32) :
    (p.postprocessSingle ops mem ltuId pkt).2.2.filterMap Access.computes = [] := by
  rw [postprocessSingle_accesses h, List.filterMap_append]
  split <;> split <;> simp [Access.computes, List.filterMap_map, Function.comp_def]

theorem postprocessSingle_writes (h : p.slice.dataType = .float32) :
    (p.postprocessSingle ops mem ltuId pkt).2.2.filterMap Access.writes = payload p ltuId := by
  rw [postprocessSingle_accesses h, List.filterMap_append, payload]
  split <;> split <;> simp [Access.writes, List.filterMap_map, Function.comp_def]

/-! ## The invariant -/

/-- The table once the exponents in `received` are there. -/
def table (ops : FloatOps K) (p : Ppp K) (received : ℕ → Option Exponent) : ℕ → Option K := fun l =>
  if l < p.totalMainNumLtus then (received l).map (ops.scalingFactor p.numWorkers) else none

structure Inv (ops : FloatOps K) (p : Ppp K) (s : QuantizerRun K) : Prop where
  ppp : s.ppp = { p with scalingFactors := table ops p s.received }
  received : ∀ l, l ∈ s.post ↔ (s.received l).isSome
  pre_nodup : s.pre.Nodup
  post_nodup : s.post.Nodup
  post_subset : s.post ⊆ s.pre
  pre_lt : ∀ l ∈ s.pre, l < p.totalMainNumLtus + p.batchNumLtus
  pre_after : ∀ l ∈ s.pre, p.batchNumLtus ≤ l → l - p.batchNumLtus ∈ s.post
  sound : ∀ a ∈ s.log, a.Sound ops p s.received
  quantizes : s.log.filterMap Access.quantizes = s.pre.flatMap (payload p)
  computes : s.log.filterMap Access.computes =
    s.pre.flatMap fun l => if l < p.totalMainNumLtus then [l] else []
  writes : s.log.filterMap Access.writes = s.post.flatMap (payload p)

/-- The scaling factor of an LTU is right for each of its elements. -/
theorem sound_factor (hp : p.SetUp) {received : ℕ → Option Exponent} {l index : ℕ} {e : Exponent}
    (hl : l < p.totalMainNumLtus) (he : received l = some e) (hi : index ∈ p.indices l) :
    index < p.slice.numel ∧ l = index / p.ltuNumel ∧ l < p.totalMainNumLtus ∧
      ∃ e, received l = some e ∧ table ops p received l = some (ops.scalingFactor p.numWorkers e) := by
  rw [hp.indices hl, Chunks.mem_chunk hp.ltuNumel_pos] at hi
  refine ⟨hi.1, hi.2.symm, hl, e, he, ?_⟩
  rw [table, if_pos hl, he]
  rfl

theorem sound_mono {received : ℕ → Option Exponent} {l : ℕ} {e : Exponent} (hnew : received l = none)
    {a : Access K} (ha : a.Sound ops p received) : a.Sound ops p (Function.update received l (some e)) := by
  have hne : ∀ {l' : ℕ} {e' : Exponent}, received l' = some e' → Function.update received l (some e) l' = some e' := by
    intro l' e' h'
    rw [Function.update_of_ne]
    · exact h'
    · rintro rfl
      rw [hnew] at h'
      cases h'
  cases a with
  | quantize index ltuId factor =>
    obtain ⟨h1, h2, h3, e', h4, h5⟩ := ha
    exact ⟨h1, h2, h3, e', hne h4, h5⟩
  | dequantize index ltuId factor =>
    obtain ⟨h1, h2, h3, e', h4, h5⟩ := ha
    exact ⟨h1, h2, h3, e', hne h4, h5⟩
  | exponent ltuId indices => exact ha
  | scale ltuId e' => exact ⟨ha.1, hne ha.2⟩
  | load index => exact ha
  | store index => exact ha

variable {s s' : QuantizerRun K}

theorem Inv.init (hfree : p.scalingFactors = fun _ => none) (memory : Memory) : Inv ops p (new p memory) := by
  have htable : table ops p (fun _ => none) = p.scalingFactors := by
    rw [hfree]
    funext l
    simp [table]
  constructor
  · show p = { p with scalingFactors := table ops p fun _ => none }
    rw [htable]
  all_goals simp [new, QuantizerRun.received]

/-- The factor the payload of an id needs was received. -/
theorem Inv.factor (h : Inv ops p s) (hp : p.SetUp) {l : ℕ} (hl : l < p.totalMainNumLtus + p.batchNumLtus)
    (hb : p.batchNumLtus ≤ l) (hpost : l - p.batchNumLtus ∈ s.post) {index : ℕ}
    (hi : index ∈ p.indices (l - p.batchNumLtus)) :
    index < p.slice.numel ∧ l - p.batchNumLtus = index / p.ltuNumel ∧ l - p.batchNumLtus < p.totalMainNumLtus ∧
      ∃ e, s.received (l - p.batchNumLtus) = some e ∧
        s.ppp.scalingFactors (l - p.batchNumLtus) = some (ops.scalingFactor p.numWorkers e) := by
  obtain ⟨e, he⟩ := Option.isSome_iff_exists.mp ((h.received _).mp hpost)
  rw [h.ppp]
  exact sound_factor hp (by omega) he hi

theorem Inv.preprocess (h : Inv ops p s) (hp : p.SetUp) (hf : p.slice.dataType = .float32)
    (hl : ltuId < p.totalMainNumLtus + p.batchNumLtus) (hnew : ltuId ∉ s.pre)
    (hafter : ltuId < p.batchNumLtus ∨ ltuId - p.batchNumLtus ∈ s.post) : Inv ops p (s.preprocess ops ltuId pkt) := by
  have hff : s.ppp.slice.dataType = .float32 := by rw [h.ppp]; exact hf
  have hpay : payload s.ppp ltuId = payload p ltuId := by rw [h.ppp]; rfl
  refine ⟨h.ppp, h.received, ?_, h.post_nodup, ?_, ?_, ?_, ?_, ?_, ?_, ?_⟩
  · exact List.nodup_append.mpr ⟨h.pre_nodup, List.nodup_singleton _, fun a ha b hb => by
      rw [List.mem_singleton] at hb
      rintro rfl
      exact hnew (hb ▸ ha)⟩
  · exact fun l hl => List.mem_append_left _ (h.post_subset hl)
  · intro l hm
    rcases List.mem_append.mp hm with hm | hm
    · exact h.pre_lt l hm
    · rw [List.mem_singleton] at hm
      rwa [hm]
  · intro l hm hb
    rcases List.mem_append.mp hm with hm | hm
    · exact h.pre_after l hm hb
    · rw [List.mem_singleton] at hm
      subst hm
      exact hafter.resolve_left (by omega)
  · intro a ha
    rcases List.mem_append.mp ha with ha | ha
    · exact h.sound a ha
    · rw [preprocessSingle_accesses hff] at ha
      rcases List.mem_append.mp ha with ha | ha
      · split at ha
        · rename_i hb
          obtain ⟨index, hi, rfl⟩ := List.mem_map.mp ha
          rw [h.ppp] at hb hi
          have h1 := h.factor hp hl hb (hafter.resolve_left (not_lt.mpr hb)) hi
          rw [show s.ppp.batchNumLtus = p.batchNumLtus by rw [h.ppp]]
          exact h1
        · cases ha
      · split at ha
        · rename_i ht
          rw [List.mem_singleton] at ha
          rw [h.ppp] at ht
          rw [ha, show s.ppp.indices ltuId = p.indices ltuId by rw [h.ppp]; rfl, hp.indices ht]
          exact ⟨ht, Chunks.nodup_chunk, fun i => Chunks.mem_chunk hp.ltuNumel_pos⟩
        · cases ha
  · show (s.log ++ _).filterMap Access.quantizes = (s.pre ++ [ltuId]).flatMap (payload p)
    rw [List.filterMap_append, preprocessSingle_quantizes hff, h.quantizes, List.flatMap_append, List.flatMap_singleton,
      hpay]
  · show (s.log ++ _).filterMap Access.computes = (s.pre ++ [ltuId]).flatMap _
    rw [List.filterMap_append, preprocessSingle_computes hff, h.computes, List.flatMap_append, List.flatMap_singleton,
      show s.ppp.totalMainNumLtus = p.totalMainNumLtus by rw [h.ppp]]
  · show (s.log ++ _).filterMap Access.writes = s.post.flatMap (payload p)
    rw [List.filterMap_append, preprocessSingle_writes hff, h.writes, List.append_nil]

theorem Inv.received_eq_none (h : Inv ops p s) (hnew : ltuId ∉ s.post) : s.received ltuId = none := by
  rw [h.received] at hnew
  simpa using hnew

theorem Inv.postprocess (h : Inv ops p s) (hp : p.SetUp) (hf : p.slice.dataType = .float32) (hpre : ltuId ∈ s.pre)
    (hnew : ltuId ∉ s.post) : Inv ops p (s.postprocess ops ltuId pkt) := by
  have hff : s.ppp.slice.dataType = .float32 := by rw [h.ppp]; exact hf
  have hpay : payload s.ppp ltuId = payload p ltuId := by rw [h.ppp]; rfl
  have hnone := h.received_eq_none hnew
  refine ⟨?_, ?_, h.pre_nodup, ?_, ?_, h.pre_lt, ?_, ?_, ?_, ?_, ?_⟩
  · show (s.ppp.postprocessSingle ops s.memory ltuId pkt).1 = _
    rw [postprocessSingle_ppp hff, h.ppp]
    have htable : table ops p (Function.update s.received ltuId (some pkt.exponent)) =
        if ltuId < p.totalMainNumLtus then
          Function.update (table ops p s.received) ltuId (some (ops.scalingFactor p.numWorkers pkt.exponent))
        else table ops p s.received := by
      funext l
      by_cases ht : ltuId < p.totalMainNumLtus
      · rw [if_pos ht]
        by_cases hl : l = ltuId
        · simp [table, hl, ht]
        · simp [table, hl]
      · rw [if_neg ht]
        by_cases hl : l = ltuId
        · simp [table, hl, ht]
        · simp [table, hl]
    rw [received_postprocess, htable]
    split <;> rfl
  · intro l
    rw [received_postprocess]
    show l ∈ s.post ++ [ltuId] ↔ (Function.update s.received ltuId (some pkt.exponent) l).isSome
    by_cases hl : l = ltuId
    · simp [hl]
    · simp [hl, h.received]
  · exact List.nodup_append.mpr ⟨h.post_nodup, List.nodup_singleton _, fun a ha b hb => by
      rw [List.mem_singleton] at hb
      rintro rfl
      exact hnew (hb ▸ ha)⟩
  · intro l hm
    rcases List.mem_append.mp hm with hm | hm
    · exact h.post_subset hm
    · rw [List.mem_singleton] at hm
      rwa [hm]
  · exact fun l hm hb => List.mem_append_left _ (h.pre_after l hm hb)
  · intro a ha
    rw [received_postprocess]
    rcases List.mem_append.mp ha with ha | ha
    · exact sound_mono hnone (h.sound a ha)
    · rw [postprocessSingle_accesses hff] at ha
      rcases List.mem_append.mp ha with ha | ha
      · split at ha
        · rename_i hb
          obtain ⟨index, hi, rfl⟩ := List.mem_map.mp ha
          rw [h.ppp] at hb hi
          have h1 := h.factor hp (h.pre_lt _ hpre) hb (h.pre_after _ hpre hb) hi
          rw [show s.ppp.batchNumLtus = p.batchNumLtus by rw [h.ppp]]
          exact sound_mono (a := .dequantize index (ltuId - p.batchNumLtus) _) hnone h1
        · cases ha
      · split at ha
        · rename_i ht
          rw [List.mem_singleton] at ha
          rw [h.ppp] at ht
          rw [ha]
          exact ⟨ht, Function.update_self ..⟩
        · cases ha
  · show (s.log ++ _).filterMap Access.quantizes = s.pre.flatMap (payload p)
    rw [List.filterMap_append, postprocessSingle_quantizes hff, h.quantizes, List.append_nil]
  · show (s.log ++ _).filterMap Access.computes = s.pre.flatMap _
    rw [List.filterMap_append, postprocessSingle_computes hff, h.computes, List.append_nil]
  · show (s.log ++ _).filterMap Access.writes = (s.post ++ [ltuId]).flatMap (payload p)
    rw [List.filterMap_append, postprocessSingle_writes hff, h.writes, List.flatMap_append, List.flatMap_singleton, hpay]

/-- What a step can do. -/
theorem Inv.next_cases (h : Inv ops p s) {e : Event} (hn : next ops s e = some s') :
    (∃ ltuId pkt, ltuId < p.totalMainNumLtus + p.batchNumLtus ∧ ltuId ∉ s.pre ∧
      (ltuId < p.batchNumLtus ∨ ltuId - p.batchNumLtus ∈ s.post) ∧ s' = s.preprocess ops ltuId pkt) ∨
    ∃ ltuId pkt, ltuId ∈ s.pre ∧ ltuId ∉ s.post ∧ s' = s.postprocess ops ltuId pkt := by
  have htotal : s.ppp.totalMainNumLtus = p.totalMainNumLtus := by rw [h.ppp]
  have hbatch : s.ppp.batchNumLtus = p.batchNumLtus := by rw [h.ppp]
  cases e with
  | preprocess ltuId pkt =>
    simp only [next, htotal, hbatch, Option.ite_none_right_eq_some, Option.some.injEq] at hn
    obtain ⟨⟨h1, h2, h3⟩, rfl⟩ := hn
    exact .inl ⟨ltuId, pkt, h1, h2, h3, rfl⟩
  | postprocess ltuId pkt =>
    simp only [next, Option.ite_none_right_eq_some, Option.some.injEq] at hn
    obtain ⟨⟨h1, h2⟩, rfl⟩ := hn
    exact .inr ⟨ltuId, pkt, h1, h2, rfl⟩

theorem Inv.of_reachable (hp : p.SetUp) (hf : p.slice.dataType = .float32) (hfree : p.scalingFactors = fun _ => none)
    (h : (machine ops p).Reachable s) : Inv ops p s := by
  refine Machine.Reachable.invariant (fun s hs => ?_) (fun s e s' hI hn => ?_) h
  · obtain ⟨memory, rfl⟩ := hs
    exact Inv.init hfree memory
  obtain ⟨ltuId, pkt, h1, h2, h3, rfl⟩ | ⟨ltuId, pkt, h1, h2, rfl⟩ := hI.next_cases hn
  · exact hI.preprocess hp hf h1 h2 h3
  · exact hI.postprocess hp hf h1 h2

/-! ## The packets and the memory -/

/-- An element is in the packet a batch after its LTU. -/
theorem mem_payload (hp : p.SetUp) {i : ℕ} (hl : ltuId < p.totalMainNumLtus + p.batchNumLtus) :
    i ∈ payload p ltuId ↔ i < p.slice.numel ∧ i / p.ltuNumel + p.batchNumLtus = ltuId := by
  have hpos := hp.batch_pos
  rw [payload]
  split
  · rw [hp.indices (by omega), Chunks.mem_chunk hp.ltuNumel_pos]
    omega
  · generalize i / p.ltuNumel = l
    simp only [List.not_mem_nil, false_iff]
    omega

theorem preprocessSingle_entries (hf : p.slice.dataType = .float32) {i : ℕ} (hi : i ∈ payload p ltuId) :
    (p.preprocessSingle ops mem ltuId pkt).1.entries (i % p.ltuNumel) =
      htonl (Ppp.quantized ops (p.input mem i) (p.scalingFactors (ltuId - p.batchNumLtus))) := by
  rw [payload] at hi
  split at hi
  · rename_i hb
    obtain ⟨k, hk, rfl⟩ := List.mem_map.mp hi
    rw [List.mem_range] at hk
    have h1 : (p.quantizeLtu ops mem (ltuId - p.batchNumLtus) pkt).1.entries k = _ := Ppp.quantizeLtu_entries hk
    rw [Ppp.add_mod_ltuNumel (lt_of_lt_of_le hk (min_le_left _ _))]
    unfold Ppp.preprocessSingle
    simp only [hf, if_pos hb]
    split
    · exact h1
    · exact h1
  · cases hi

theorem preprocessSingle_exponent (hf : p.slice.dataType = .float32) (hl : ltuId < p.totalMainNumLtus) :
    (p.preprocessSingle ops mem ltuId pkt).1.exponent = exponentOf (absMax ((p.indices ltuId).map (p.input mem))) := by
  unfold Ppp.preprocessSingle
  simp only [hf, if_pos hl]
  rfl

theorem postprocessSingle_memory (hf : p.slice.dataType = .float32) {i : ℕ} (hi : i ∈ payload p ltuId) :
    (p.postprocessSingle ops mem ltuId pkt).2.1 (p.slice.outPtr + 4 * i) =
      Ppp.dequantized ops (htonl (pkt.entries (i % p.ltuNumel))) (p.scalingFactors (ltuId - p.batchNumLtus)) := by
  rw [payload] at hi
  split at hi
  · rename_i hb
    obtain ⟨k, hk, rfl⟩ := List.mem_map.mp hi
    rw [List.mem_range] at hk
    have h1 : (p.dequantizeLtu ops mem (ltuId - p.batchNumLtus) pkt).1
        (p.slice.outPtr + 4 * ((ltuId - p.batchNumLtus) * p.ltuNumel + k)) = _ :=
      Ppp.output_self (f := fun i => Ppp.dequantized ops (htonl (pkt.entries i))
        (p.scalingFactors (ltuId - p.batchNumLtus))) hk
    rw [Ppp.add_mod_ltuNumel (lt_of_lt_of_le hk (min_le_left _ _))]
    unfold Ppp.postprocessSingle
    simp only [hf, if_pos hb]
    split
    · exact h1
    · exact h1
  · cases hi

theorem postprocessSingle_memory_of_ne (hf : p.slice.dataType = .float32) {addr : ℕ}
    (h : ∀ i ∈ payload p ltuId, addr ≠ p.slice.outPtr + 4 * i) :
    (p.postprocessSingle ops mem ltuId pkt).2.1 addr = mem addr := by
  unfold Ppp.postprocessSingle
  by_cases hb : p.batchNumLtus ≤ ltuId
  · rw [payload, if_pos hb] at h
    have h1 : (p.dequantizeLtu ops mem (ltuId - p.batchNumLtus) pkt).1 addr = mem addr :=
      Ppp.output_of_ne (f := fun i => Ppp.dequantized ops (htonl (pkt.entries i))
        (p.scalingFactors (ltuId - p.batchNumLtus))) fun k hk => h _ (Ppp.mem_indices hk)
    simp only [hf, if_pos hb]
    split
    · exact h1
    · exact h1
  · simp only [hf, if_neg hb]
    split <;> rfl

/-- An element that was not written is as it was in the input. -/
theorem Values.input (h : Values ops p s) (hsep : p.slice.Separate) {i : ℕ} (hi : i < p.slice.numel)
    (hnot : i / p.ltuNumel + p.batchNumLtus ∉ s.post) : p.input s.memory i = p.input s.start i := by
  refine h.kept _ fun j hj haddr => ?_
  rcases hsep with heq | hlt | hlt
  · obtain rfl : i = j := by omega
    exact hnot
  · omega
  · omega

theorem Values.init (memory : Memory) : Values ops p (new p memory) := by
  constructor <;> simp [new]

/-- The factor the elements of the packet with an id need was received. -/
theorem Inv.factor_of_mem (h : Inv ops p s) (hp : p.SetUp) (hl : ltuId < p.totalMainNumLtus + p.batchNumLtus)
    (hpost : ltuId - p.batchNumLtus ∈ s.post) {i : ℕ} (hi : i < p.slice.numel)
    (h1 : i / p.ltuNumel + p.batchNumLtus = ltuId) :
    ∃ e, s.received (i / p.ltuNumel) = some e ∧
      s.ppp.scalingFactors (ltuId - s.ppp.batchNumLtus) = some (ops.scalingFactor p.numWorkers e) := by
  have hb : p.batchNumLtus ≤ ltuId := h1 ▸ Nat.le_add_left _ _
  have hmem : i ∈ payload p ltuId := (mem_payload hp hl).mpr ⟨hi, h1⟩
  rw [payload, if_pos hb] at hmem
  obtain ⟨-, hsub, -, e, he, hfac⟩ := h.factor hp hl hb hpost hmem
  rw [show s.ppp.batchNumLtus = p.batchNumLtus by rw [h.ppp]]
  exact ⟨e, hsub ▸ he, hfac⟩

theorem Values.preprocess (h : Values ops p s) (hI : Inv ops p s) (hp : p.SetUp) (hf : p.slice.dataType = .float32)
    (hl : ltuId < p.totalMainNumLtus + p.batchNumLtus) (hnew : ltuId ∉ s.pre)
    (hafter : ltuId < p.batchNumLtus ∨ ltuId - p.batchNumLtus ∈ s.post) :
    Values ops p (s.preprocess ops ltuId pkt) := by
  have hff : s.ppp.slice.dataType = .float32 := by rw [hI.ppp]; exact hf
  have hnumel : s.ppp.ltuNumel = p.ltuNumel := by rw [hI.ppp]; rfl
  have hinput : s.ppp.input = p.input := by rw [hI.ppp]; rfl
  refine ⟨fun l => ?_, h.unpacked, h.written, h.kept, fun hsep i hi pkt' hpkt => ?_, fun hsep l ht pkt' hpkt => ?_⟩
  · show (Function.update s.packed ltuId _ l).isSome ↔ l ∈ s.pre ++ [ltuId]
    by_cases h1 : l = ltuId
    · simp [h1]
    · simp [h1, h.packed]
  · change Function.update s.packed ltuId _ _ = _ at hpkt
    by_cases h1 : i / p.ltuNumel + p.batchNumLtus = ltuId
    · have hb : p.batchNumLtus ≤ ltuId := h1 ▸ Nat.le_add_left _ _
      have hmem : i ∈ payload s.ppp ltuId := by rw [hI.ppp]; exact (mem_payload hp hl).mpr ⟨hi, h1⟩
      have hent : (s.ppp.preprocessSingle ops s.memory ltuId pkt).1.entries (i % s.ppp.ltuNumel) = _ :=
        preprocessSingle_entries hff hmem
      obtain ⟨e, he, hfac⟩ := hI.factor_of_mem hp hl (hafter.resolve_left (not_lt.mpr hb)) hi h1
      rw [h1, Function.update_self, Option.some.injEq] at hpkt
      subst hpkt
      refine ⟨e, he, ?_⟩
      rw [← hnumel, hent, hinput, h.input hsep hi fun hm => hnew (hI.post_subset (h1 ▸ hm)), hfac]
      rfl
    · rw [Function.update_of_ne h1] at hpkt
      exact h.quantized hsep i hi pkt' hpkt
  · change Function.update s.packed ltuId _ _ = _ at hpkt
    by_cases h1 : l = ltuId
    · subst h1
      rw [Function.update_self, Option.some.injEq] at hpkt
      subst hpkt
      rw [preprocessSingle_exponent hff (by rw [hI.ppp]; exact ht), show s.ppp.indices l = p.indices l by rw [hI.ppp]; rfl,
        hp.indices ht, hinput]
      congr 2
      refine List.map_congr_left fun i hi => ?_
      rw [Chunks.mem_chunk hp.ltuNumel_pos] at hi
      refine h.input hsep hi.1 fun hm => hnew (hI.post_subset ?_)
      -- the packet with these elements is a batch later
      have h2 := hI.pre_after _ (hI.post_subset hm) (Nat.le_add_left _ _)
      rwa [Nat.add_sub_cancel, hi.2] at h2
    · rw [Function.update_of_ne h1] at hpkt
      exact h.exponent hsep l ht pkt' hpkt

theorem Values.postprocess (h : Values ops p s) (hI : Inv ops p s) (hp : p.SetUp) (hf : p.slice.dataType = .float32)
    (hpre : ltuId ∈ s.pre) (hnew : ltuId ∉ s.post) : Values ops p (s.postprocess ops ltuId pkt) := by
  have hff : s.ppp.slice.dataType = .float32 := by rw [hI.ppp]; exact hf
  have hslice : s.ppp.slice = p.slice := by rw [hI.ppp]
  have hnumel : s.ppp.ltuNumel = p.ltuNumel := by rw [hI.ppp]; rfl
  have hl := hI.pre_lt _ hpre
  have hmem : ∀ i, i ∈ payload s.ppp ltuId ↔ i < p.slice.numel ∧ i / p.ltuNumel + p.batchNumLtus = ltuId := by
    intro i
    rw [← mem_payload hp hl, hI.ppp]
    rfl
  -- an exponent that was received stays
  have hrec : ∀ {l e}, s.received l = some e → (s.postprocess ops ltuId pkt).received l = some e := by
    intro l e he
    rw [received_postprocess, Function.update_of_ne]
    · exact he
    · rintro rfl
      rw [hI.received_eq_none hnew] at he
      cases he
  refine ⟨h.packed, fun l => ?_, fun i hi pkt' hpkt => ?_, fun addr haddr => ?_, fun hsep i hi pkt' hpkt => ?_,
    h.exponent⟩
  · show (Function.update s.unpacked ltuId _ l).isSome ↔ l ∈ s.post ++ [ltuId]
    by_cases h1 : l = ltuId
    · simp [h1]
    · simp [h1, h.unpacked]
  · change Function.update s.unpacked ltuId _ _ = _ at hpkt
    show ∃ e, _ ∧ (s.ppp.postprocessSingle ops s.memory ltuId pkt).2.1 _ = _
    by_cases h1 : i / p.ltuNumel + p.batchNumLtus = ltuId
    · have hb : p.batchNumLtus ≤ ltuId := h1 ▸ Nat.le_add_left _ _
      obtain ⟨e, he, hfac⟩ := hI.factor_of_mem hp hl (hI.pre_after _ hpre hb) hi h1
      rw [h1, Function.update_self, Option.some.injEq] at hpkt
      subst hpkt
      refine ⟨e, hrec he, ?_⟩
      rw [← hslice, ← hnumel, postprocessSingle_memory hff ((hmem i).mpr ⟨hi, h1⟩), hfac]
      rfl
    · rw [Function.update_of_ne h1] at hpkt
      obtain ⟨e, he, hval⟩ := h.written i hi pkt' hpkt
      refine ⟨e, hrec he, ?_⟩
      rw [postprocessSingle_memory_of_ne hff, hval]
      intro j hj heq
      rw [hslice] at heq
      obtain rfl : i = j := by omega
      exact h1 ((hmem i).mp hj).2
  · show (s.ppp.postprocessSingle ops s.memory ltuId pkt).2.1 addr = s.start addr
    rw [postprocessSingle_memory_of_ne hff, h.kept addr]
    · exact fun i hi heq hm => haddr i hi heq (List.mem_append_left _ hm)
    · intro i hi heq
      rw [hslice] at heq
      rw [hmem] at hi
      exact haddr i hi.1 heq (hi.2 ▸ List.mem_append_right _ (List.mem_singleton_self _))
  · obtain ⟨e, he, hval⟩ := h.quantized hsep i hi pkt' hpkt
    exact ⟨e, hrec he, hval⟩

theorem Values.of_reachable (hp : p.SetUp) (hf : p.slice.dataType = .float32)
    (hfree : p.scalingFactors = fun _ => none) (h : (machine ops p).Reachable s) : Values ops p s := by
  refine Machine.Reachable.invariant_of (fun s => Inv.of_reachable hp hf hfree) (fun s hs => ?_)
    (fun s e s' hI hV hn => ?_) h
  · obtain ⟨memory, rfl⟩ := hs
    exact Values.init memory
  obtain ⟨ltuId, pkt, h1, h2, h3, rfl⟩ | ⟨ltuId, pkt, h1, h2, rfl⟩ := hI.next_cases hn
  · exact hV.preprocess hI hp hf h1 h2 h3
  · exact hV.postprocess hI hp hf h1 h2

/-! ## The whole slice -/

theorem flatMap_payload (hp : p.SetUp) :
    (List.range (p.totalMainNumLtus + p.batchNumLtus)).flatMap (payload p) = List.range p.slice.numel := by
  have h1 : (List.range p.batchNumLtus).flatMap (payload p) = [] := by
    rw [List.flatMap_eq_nil_iff]
    intro l hl
    rw [List.mem_range] at hl
    exact if_neg (by omega)
  have h2 : ∀ l ∈ List.range p.totalMainNumLtus,
      payload p (p.batchNumLtus + l) = Chunks.chunk p.slice.numel p.ltuNumel l := by
    intro l hl
    rw [List.mem_range] at hl
    rw [payload, if_pos (Nat.le_add_right _ _), Nat.add_sub_cancel_left, hp.indices hl]
  rw [Nat.add_comm, List.range_add, List.flatMap_append, h1, List.nil_append, List.flatMap_map,
    List.flatMap_congr h2, hp.total, Chunks.flatMap_count hp.ltuNumel_pos]

theorem flatMap_computes (total batch : ℕ) :
    ((List.range (total + batch)).flatMap fun l => if l < total then [l] else []) = List.range total := by
  have h1 : ((List.range total).flatMap fun l => if l < total then [l] else []) = List.range total := by
    rw [List.flatMap_congr (g := fun l => [l]) fun l hl => if_pos (List.mem_range.mp hl)]
    simp
  have h2 : (((List.range batch).map (total + ·)).flatMap fun l => if l < total then [l] else []) = [] := by
    rw [List.flatMap_eq_nil_iff]
    intro l hl
    obtain ⟨k, -, rfl⟩ := List.mem_map.mp hl
    exact if_neg (by omega)
  rw [List.range_add, List.flatMap_append, h1, h2, List.append_nil]

/-- Once every id was postprocessed the lists of ids are those of all of them. -/
theorem Inv.perm (h : Inv ops p s) (hall : ∀ l < p.totalMainNumLtus + p.batchNumLtus, l ∈ s.post) :
    s.pre.Perm (List.range (p.totalMainNumLtus + p.batchNumLtus)) ∧
      s.post.Perm (List.range (p.totalMainNumLtus + p.batchNumLtus)) := by
  constructor
  · rw [List.perm_ext_iff_of_nodup h.pre_nodup List.nodup_range]
    intro l
    rw [List.mem_range]
    exact ⟨h.pre_lt l, fun hl => h.post_subset (hall l hl)⟩
  · rw [List.perm_ext_iff_of_nodup h.post_nodup List.nodup_range]
    intro l
    rw [List.mem_range]
    exact ⟨fun hl => h.pre_lt l (h.post_subset hl), hall l⟩

theorem quantizer_covers {cfg : Ppp K} {slice : Tensor} (hnumel : 1 ≤ slice.numel) (hf : slice.dataType = .float32)
    (h4 : 4 ∣ cfg.ltuSize) (hsize : 0 < cfg.ltuSize) (hmax : 1 ≤ cfg.batchMaxNumLtus)
    (h : (machine ops (cfg.setupJobSlice slice)).Reachable s) :
    (∀ e s', next ops s e = some s' → Performs ops s s' e) ∧
    (∀ a ∈ s.log, a.Sound ops (cfg.setupJobSlice slice) s.received) ∧
    Values ops (cfg.setupJobSlice slice) s ∧
    ((∀ l < (cfg.setupJobSlice slice).totalMainNumLtus + (cfg.setupJobSlice slice).batchNumLtus, l ∈ s.post) →
      (s.log.filterMap Access.computes).Perm (List.range (cfg.setupJobSlice slice).totalMainNumLtus) ∧
      (s.log.filterMap Access.quantizes).Perm (List.range slice.numel) ∧
      (s.log.filterMap Access.writes).Perm (List.range slice.numel)) := by
  have hp : (cfg.setupJobSlice slice).SetUp := Ppp.setUp h4 hsize hmax hnumel
  have hI := Inv.of_reachable hp hf rfl h
  refine ⟨fun e s' hn => performs hn, hI.sound, Values.of_reachable hp hf rfl h, fun hall => ?_⟩
  obtain ⟨hpre, hpost⟩ := hI.perm hall
  refine ⟨?_, ?_, ?_⟩
  · rw [hI.computes]
    exact (hpre.flatMap_right _).trans (by rw [flatMap_computes])
  · rw [hI.quantizes]
    exact (hpre.flatMap_right _).trans (by rw [flatMap_payload hp]; rfl)
  · rw [hI.writes]
    exact (hpost.flatMap_right _).trans (by rw [flatMap_payload hp]; rfl)

/-- LTUs of two elements, with a window of one, for two workers. -/
def smallPpp : Ppp ℕ where
  ltuSize := 8
  batchMaxNumLtus := 1
  numWorkers := 2
  slice := { inPtr := 0, outPtr := 0, numel := 0, dataType := .int32 }
  totalMainNumLtus := 0
  batchNumLtus := 0
  scalingFactors _ := none

def smallSlice : Tensor := { inPtr := 0, outPtr := 64, numel := 3, dataType := .float32 }

/-- What the switch sends back; the exponents of the two LTUs are 3 and 5. -/
def smallPacket : ℕ → Packet
  | 0 => { entries := fun _ => 0, exponent := 3 }
  | 1 => { entries := fun i => htonl (BitVec.ofNat 32 (10 + i)), exponent := 5 }
  | _ => { entries := fun i => htonl (BitVec.ofNat 32 (20 + i)), exponent := 0 }

def smallEvents : List Event :=
  [0, 1, 2].flatMap fun l => [.preprocess l { entries := fun _ => 0, exponent := 0 }, .postprocess l (smallPacket l)]

theorem quantizer_covers_small : ∃ s : QuantizerRun ℕ, s.post = [0, 1, 2] ∧
    (s.log.filterMap Access.writes).Perm [0, 1, 2] ∧
    s.memory 64 = 16#32 ∧ s.memory 68 = 17#32 ∧ s.memory 72 = 30#32 ∧ s.memory 76 = 0#32 := by
  have hrun : ((machine exampleOps (smallPpp.setupJobSlice smallSlice)).run
      (new (smallPpp.setupJobSlice smallSlice) fun _ => 0) smallEvents).map
      (fun s => (s.post, s.start 76, s.unpacked 0, s.unpacked 1, s.unpacked 2)) =
      some ([0, 1, 2], 0, some (smallPacket 0), some (smallPacket 1), some (smallPacket 2)) := rfl
  obtain ⟨s, hr, hs⟩ := Option.map_eq_some_iff.mp hrun
  simp only [Prod.mk.injEq] at hs
  obtain ⟨hpost, hstart, hu0, hu1, hu2⟩ := hs
  have hreach : (machine exampleOps (smallPpp.setupJobSlice smallSlice)).Reachable s :=
    Machine.Reachable.run (.init ⟨_, rfl⟩) hr
  obtain ⟨-, -, hval, hall⟩ := quantizer_covers (by decide) rfl (by decide) (by decide) (by decide) hreach
  have hr0 : s.received 0 = some 3 := by rw [received, hu0]; rfl
  have hr1 : s.received 1 = some 5 := by rw [received, hu1]; rfl
  refine ⟨s, hpost, (hall fun l hl => ?_).2.2, ?_, ?_, ?_, ?_⟩
  · replace hl : l < 3 := hl
    rw [hpost]
    simp
    omega
  · obtain ⟨e, he, hw⟩ := hval.written 0 (by decide) _ hu1
    obtain rfl : 3 = e := Option.some.inj (hr0.symm.trans he)
    exact hw.trans (by decide +kernel)
  · obtain ⟨e, he, hw⟩ := hval.written 1 (by decide) _ hu1
    obtain rfl : 3 = e := Option.some.inj (hr0.symm.trans he)
    exact hw.trans (by decide +kernel)
  · obtain ⟨e, he, hw⟩ := hval.written 2 (by decide) _ hu2
    obtain rfl : 5 = e := Option.some.inj (hr1.symm.trans he)
    exact hw.trans (by decide +kernel)
  · refine (hval.kept 76 fun i hi haddr => ?_).trans hstart
    replace hi : i < 3 := hi
    replace haddr : 76 = 64 + 4 * i := haddr
    omega

end QuantizerRun

end SwitchML.Client
