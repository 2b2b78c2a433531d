/-
The controller's broadcasts. The lists hold the operations that were not
removed: entry `i` is operation `base + i`, its bitmap says which workers have
their answer, and its value is what the root has passed in its own call of
that number.

A call removes the complete operations in a loop over the indices there were
before, so that it runs out of the list as soon as it removes one of two or
more. In the runs where no call finds a complete operation with another one
behind it, no call raises an exception and all workers are given the values of
the root in order.
-/
import SwitchML.Controller.GRPCServer
import Mathlib.Data.List.OfFn

namespace SwitchML.Controller

/-! ## Lists over a range -/

theorem getIndex_map_range {α : Type} {L i : ℕ} (f : ℕ → α) (h : i < L) :
    getIndex ((List.range L).map f) i = .ok (f i) := by
  refine getIndex_some ?_
  simp [h]

theorem set_map_range {α : Type} {L i : ℕ} (f : ℕ → α) (x : α) :
    ((List.range L).map f).set i x = (List.range L).map (Function.update f i x) := by
  refine List.ext_getElem (by simp) fun j h1 h2 => ?_
  rw [List.getElem_set]
  by_cases hij : i = j
  · simp [hij]
  · simp [hij, Function.update_of_ne (Ne.symm hij)]

theorem set_ofFn {n : ℕ} {α : Type} (f : Fin n → α) (r : Fin n) (x : α) :
    (List.ofFn f).set r x = List.ofFn (Function.update f r x) := by
  refine List.ext_getElem (by simp) fun j h1 h2 => ?_
  rw [List.getElem_set, List.getElem_ofFn, List.getElem_ofFn]
  by_cases hij : (r : ℕ) = j
  · subst hij
    simp
  · have hne : (⟨j, by simpa using h2⟩ : Fin n) ≠ r := fun he => hij (congrArg Fin.val he).symm
    simp [hij, Function.update_of_ne hne]

namespace Broadcast

variable {V : Type} {n : ℕ}

/-- The lists hold the operations from `base` on, where worker `r` has its
answer of the first `done r` and the root has passed `sent`. -/
structure Shape (b : Broadcast V) (base L : ℕ) (done : Fin n → ℕ) (sent : List V) : Prop where
  bitmap : b.bitmap = (List.range L).map fun i => List.ofFn fun r => decide (base + i < done r)
  values : b.values = (List.range L).map fun i => sent[base + i]?
  events : b.events = (List.range L).map (base + ·)
  isSet : b.isSet = (List.range (base + L)).map fun j => decide (j < sent.length)

variable {b : Broadcast V} {base L : ℕ} {done : Fin n → ℕ} {sent : List V} {r : Fin n} {idx : ℕ}

theorem Shape.getBits (h : Shape b base L done sent) (hi : idx < L) :
    getIndex b.bitmap idx = .ok (List.ofFn fun r => decide (base + idx < done r)) := by
  rw [h.bitmap, getIndex_map_range _ hi]

theorem getBit (r : Fin n) (f : Fin n → Bool) : getIndex (List.ofFn f) r = .ok (f r) :=
  getIndex_some (by simp)

/-! ## Old operations -/

/-- Where no operation is complete, none is removed. -/
theorem Shape.removeOld_keep (h : Shape b base L done sent) (hopen : ∃ r, done r ≤ base) (idxs : List ℕ)
    (hidx : ∀ i ∈ idxs, i < L) : b.removeOld idxs = .ok b := by
  induction idxs with
  | nil => rfl
  | cons i rest ih =>
    obtain ⟨r, hr⟩ := hopen
    have hbits : ((List.ofFn fun r => decide (base + i < done r)).all id) = false := by
      rw [List.all_eq_false]
      refine ⟨false, ?_, by simp⟩
      rw [List.mem_ofFn]
      exact ⟨r, by simp; omega⟩
    rw [removeOld, h.getBits (hidx i (by simp))]
    simp only [bind, Except.bind, hbits, Bool.false_eq_true, if_false]
    exact ih fun j hj => hidx j (by simp [hj])

/-- A complete operation that is alone is removed. -/
theorem Shape.removeOld_alone (h : Shape b base 1 done sent) (hc : ∀ r, base < done r) :
    ∃ b', b.removeOld [0] = .ok b' ∧ Shape b' (base + 1) 0 done sent := by
  have hb : b.bitmap = [List.ofFn fun r => decide (base + 0 < done r)] := by rw [h.bitmap]; rfl
  have hv : b.values = [sent[base + 0]?] := by rw [h.values]; rfl
  have he : b.events = [base + 0] := by rw [h.events]; rfl
  have hbits : ((List.ofFn fun r => decide (base + 0 < done r)).all id) = true := by
    rw [List.all_eq_true]
    intro x hx
    rw [List.mem_ofFn] at hx
    obtain ⟨r, rfl⟩ := hx
    have h1 := hc r
    simp [h1]
  refine ⟨{ b with bitmap := [], values := [], events := [] }, ?_, ⟨rfl, rfl, rfl, h.isSet⟩⟩
  rw [removeOld, h.getBits (by omega)]
  simp only [bind, Except.bind, hbits, if_true]
  rw [hb, hv, he]
  rfl

/-- A loop over more indices than there are operations runs out of the list. -/
theorem removeOld_error (b : Broadcast V) (m a : ℕ) (hm : 0 < m) (hlen : b.bitmap.length < a + m) :
    ∃ f, b.removeOld (List.range' a m) = .error f := by
  induction m generalizing a b with
  | zero => omega
  | succ m ih =>
    rw [List.range'_succ, removeOld]
    by_cases ha : b.bitmap.length ≤ a
    · rw [getIndex_none ha]
      exact ⟨_, rfl⟩
    · rw [getIndex_some (List.getElem?_eq_getElem (by omega))]
      simp only [bind, Except.bind]
      split
      · rw [delIndex_of_lt (by omega)]
        cases hv : delIndex b.values a with
        | error f => exact ⟨f, rfl⟩
        | ok values =>
          cases he : delIndex b.events a with
          | error f => exact ⟨f, rfl⟩
          | ok events =>
            refine ih _ (a + 1) (by omega) ?_
            rw [List.length_eraseIdx_of_lt (by omega)]
            omega
      · exact ih b (a + 1) (by omega) (by omega)

theorem Shape.removeOld_backlog (h : Shape b base L done sent) (hL : 2 ≤ L) (hc : ∀ r, base < done r) :
    ∃ f, b.removeOld (List.range L) = .error f := by
  obtain ⟨m, rfl⟩ : ∃ m, L = m + 1 := ⟨L - 1, by omega⟩
  have hbits : ((List.ofFn fun r => decide (base + 0 < done r)).all id) = true := by
    rw [List.all_eq_true]
    intro x hx
    rw [List.mem_ofFn] at hx
    obtain ⟨r, rfl⟩ := hx
    have h1 := hc r
    simp [h1]
  have hlb : b.bitmap.length = m + 1 := by rw [h.bitmap]; simp
  have hlv : b.values.length = m + 1 := by rw [h.values]; simp
  have hle : b.events.length = m + 1 := by rw [h.events]; simp
  rw [List.range_eq_range', List.range'_succ, removeOld, h.getBits (by omega)]
  simp only [bind, Except.bind, hbits, if_true]
  rw [delIndex_of_lt (by omega), delIndex_of_lt (by omega), delIndex_of_lt (by omega)]
  refine removeOld_error _ m 1 (by omega) ?_
  show (b.bitmap.eraseIdx 0).length < 1 + m
  rw [List.length_eraseIdx_of_lt (by omega)]
  omega

/-! ## The operation of a call -/

theorem scan_eq {bitmap : List (List Bool)} {rank : ℕ} (f : ℕ → Bool) (idxs : List ℕ) (acc : Option ℕ)
    (hf : ∀ i ∈ idxs, ∃ bits, getIndex bitmap i = .ok bits ∧ getIndex bits rank = .ok (f i)) :
    scan bitmap rank idxs acc = .ok ((idxs.find? fun i => !f i).or (idxs.getLast?.or acc)) := by
  induction idxs generalizing acc with
  | nil => simp [scan]
  | cons i rest ih =>
    obtain ⟨bits, h1, h2⟩ := hf i (by simp)
    rw [scan, h1]
    simp only [bind, Except.bind, h2]
    cases hi : f i with
    | false => simp [hi]
    | true =>
      rw [if_neg (by simp), ih _ fun j hj => hf j (by simp [hj])]
      cases hrest : rest with
      | nil => simp [hi]
      | cons j rest' =>
        rw [← hrest]
        have h3 : ((i :: rest).getLast?).or acc = rest.getLast?.or (some i) := by
          rw [hrest, List.getLast?_cons_cons]
          simp [List.getLast?_cons]
        rw [h3, List.find?_cons]
        simp [hi]

theorem Shape.scan (h : Shape b base L done sent) :
    scan b.bitmap r (List.range b.bitmap.length) none =
      .ok (((List.range L).find? fun i => !decide (base + i < done r)).or ((List.range L).getLast?.or none)) := by
  have hlen : b.bitmap.length = L := by rw [h.bitmap]; simp
  rw [hlen]
  refine scan_eq _ _ _ fun i hi => ⟨_, h.getBits (List.mem_range.mp hi), ?_⟩
  exact getBit r _

/-- The call belongs to the operation after those the worker is done with. -/
theorem Shape.operation (h : Shape b base L done sent) (hbase : base ≤ done r) (hdone : ∀ v, done v ≤ base + L)
    (hsent : sent.length ≤ base + L) : ∃ b' L', b.operation n r = .ok (b', done r - base) ∧
      Shape b' base L' done sent ∧ L ≤ L' ∧ done r - base < L' ∧ base + L' ≤ max (base + L) (done r + 1) := by
  by_cases hr : done r < base + L
  · have hfind : (List.range L).find? (fun i => !decide (base + i < done r)) = some (done r - base) := by
      rw [List.find?_range_eq_some]
      refine ⟨by simp; omega, by rw [List.mem_range]; omega, fun j hj => ?_⟩
      simp
      omega
    refine ⟨b, L, ?_, h, le_rfl, by omega, by omega⟩
    have hbit : getIndex (List.ofFn fun v => decide (base + (done r - base) < done v)) r = .ok false := by
      rw [getBit]
      simp
      omega
    simp only [Broadcast.operation, h.scan, hfind, Option.some_or, bind, Except.bind,
      h.getBits (show done r - base < L by omega), hbit, Bool.false_eq_true, if_false, Option.elim, id]
  · have hr' : done r = base + L := by have h1 := hdone r; omega
    have hfind : (List.range L).find? (fun i => !decide (base + i < done r)) = none := by
      rw [List.find?_eq_none]
      intro i hi
      rw [List.mem_range] at hi
      simp
      omega
    refine ⟨{
      bitmap := b.bitmap ++ [List.replicate n false]
      values := b.values ++ [none]
      events := b.events ++ [b.isSet.length]
      isSet := b.isSet ++ [false] }, L + 1, ?_, ⟨?_, ?_, ?_, ?_⟩, by omega, by omega, by omega⟩
    · simp only [Broadcast.operation, h.scan, hfind, Option.none_or, Option.or_none, bind, Except.bind]
      cases hL : (List.range L).getLast? with
      | none =>
        have h0 : L = 0 := by simpa [List.getLast?_eq_none_iff] using hL
        simp only [if_true, Option.elim]
        rw [show done r - base = 0 by omega]
      | some i =>
        have hi : i + 1 = L := by
          rw [List.getLast?_range] at hL
          split at hL
          · cases hL
          · simp only [Option.some.injEq] at hL; omega
        have hbit : getIndex (List.ofFn fun v => decide (base + i < done v)) r = .ok true := by
          rw [getBit]
          simp
          omega
        simp only [h.getBits (show i < L by omega), hbit, if_true, Option.elim]
        rw [show done r - base = i + 1 by omega]
    · show b.bitmap ++ [List.replicate n false] = _
      rw [h.bitmap, List.range_succ, List.map_append, List.map_singleton]
      congr 2
      refine List.ext_getElem (by simp) fun j h1 h2 => ?_
      have h3 := hdone ⟨j, by simpa using h1⟩
      simp
      omega
    · show b.values ++ [none] = _
      rw [h.values, List.range_succ, List.map_append, List.map_singleton, List.getElem?_eq_none hsent]
    · show b.events ++ [b.isSet.length] = _
      rw [h.events, h.isSet, List.range_succ, List.map_append, List.map_singleton]
      simp
    · show b.isSet ++ [false] = _
      rw [h.isSet, ← Nat.add_assoc, List.range_succ, List.map_append, List.map_singleton]
      simp
      omega

/-! ## Writing and answering -/

/-- What the root's call does to its operation. -/
def write (b : Broadcast V) (idx : ℕ) (value : V) : Except PyError (Broadcast V) := do
  let b := { b with values := ← setIndex b.values idx (some value) }
  let event ← getIndex b.events idx
  .ok { b with isSet := ← setIndex b.isSet event true }

/-- A call, once its operation is known. -/
theorem start_eq {b0 b1 : Broadcast V} {rank root : ℕ} {value : V}
    (h0 : b.removeOld (List.range b.bitmap.length) = .ok b0) (h1 : b0.operation n rank = .ok (b1, idx)) :
    b.start n rank root value =
      if rank = root then (b1.write idx value).bind (·.resume rank idx)
      else (getIndex b1.values idx).bind fun v =>
        if v.isNone then (getIndex b1.events idx).bind fun event => .ok (b1, .waits idx event)
        else b1.resume rank idx := by
  simp only [start, h0, h1, bind, Except.bind, write, resume]
  split
  · cases setIndex b1.values idx (some value) with
    | error f => rfl
    | ok values =>
      dsimp only
      cases getIndex b1.events idx with
      | error f => rfl
      | ok event =>
        dsimp only
        cases setIndex b1.isSet event true <;> rfl
  · cases getIndex b1.values idx with
    | error f => rfl
    | ok v => cases v <;> simp

/-- The root passes the value of the next operation. -/
theorem Shape.write (h : Shape b base L done sent) (hidx : base + idx = sent.length) (hlt : idx < L) (v : V) :
    ∃ b', b.write idx v = .ok b' ∧ Shape b' base L done (sent ++ [v]) := by
  have hv : idx < b.values.length := by rw [h.values]; simpa using hlt
  have he : getIndex b.events idx = .ok (base + idx) := by rw [h.events, getIndex_map_range _ hlt]
  have hs : base + idx < b.isSet.length := by rw [h.isSet]; simpa using hlt
  refine ⟨{ b with values := b.values.set idx (some v), isSet := b.isSet.set (base + idx) true }, ?_,
    ⟨h.bitmap, ?_, h.events, ?_⟩⟩
  · simp [Broadcast.write, setIndex_of_lt hv, setIndex_of_lt hs, he, bind, Except.bind]
  · show b.values.set idx (some v) = _
    rw [h.values, set_map_range]
    refine List.map_congr_left fun i _ => ?_
    by_cases hi : i = idx
    · rw [hi, Function.update_self, hidx, List.getElem?_append_right le_rfl]
      simp
    · rw [Function.update_of_ne hi]
      rcases Nat.lt_or_gt_of_ne hi with h1 | h1
      · rw [List.getElem?_append_left (by omega)]
      · rw [List.getElem?_eq_none (by omega), List.getElem?_eq_none (by simp; omega)]
  · show b.isSet.set (base + idx) true = _
    rw [h.isSet, set_map_range]
    refine List.map_congr_left fun j _ => ?_
    rw [List.length_append, List.length_singleton]
    by_cases hj : j = base + idx
    · rw [hj, Function.update_self]
      simp
      omega
    · rw [Function.update_of_ne hj]
      simp
      omega

/-- The worker's bit is set in the operation it is answered. -/
theorem Shape.setBit (h : Shape b base L done sent) (hidx : base + idx = done r) (hlt : idx < L) :
    ∃ b', b.setBit idx r = .ok b' ∧ Shape b' base L (Function.update done r (done r + 1)) sent ∧
      b'.values = b.values := by
  have hb : idx < b.bitmap.length := by rw [h.bitmap]; simpa using hlt
  have hr : (r : ℕ) < (List.ofFn fun v : Fin n => decide (base + idx < done v)).length := by simp
  refine ⟨{ b with
    bitmap := b.bitmap.set idx ((List.ofFn fun v : Fin n => decide (base + idx < done v)).set r true) },
    ?_, ⟨?_, h.values, h.events, h.isSet⟩, rfl⟩
  · simp only [Broadcast.setBit, h.getBits hlt, setIndex_of_lt hr, setIndex_of_lt hb, bind, Except.bind]
  · show b.bitmap.set idx _ = _
    rw [h.bitmap, set_map_range]
    refine List.map_congr_left fun i _ => ?_
    by_cases hi : i = idx
    · rw [hi, Function.update_self, set_ofFn]
      congr 1
      funext v
      by_cases hv : v = r
      · rw [hv, Function.update_self, Function.update_self]
        simp
        omega
      · rw [Function.update_of_ne hv, Function.update_of_ne hv]
    · rw [Function.update_of_ne hi]
      congr 1
      funext v
      by_cases hv : v = r
      · rw [hv, Function.update_self]
        simp
        omega
      · rw [Function.update_of_ne hv]

/-- What the end of a handler answers. -/
theorem Shape.resume (h : Shape b base L done sent) (hidx : base + idx = done r) (hlt : idx < L) :
    ∃ b', b.resume r idx = .ok (b', .value sent[done r]?) ∧
      Shape b' base L (Function.update done r (done r + 1)) sent := by
  obtain ⟨b', hb', hsh, hval⟩ := h.setBit hidx hlt
  refine ⟨b', ?_, hsh⟩
  have hv : getIndex b'.values idx = .ok sent[base + idx]? := by rw [hval, h.values, getIndex_map_range _ hlt]
  simp only [Broadcast.resume, hb', answer, hv, bind, Except.bind, hidx]

end Broadcast

namespace BroadcastRun

variable {V : Type} {n : ℕ}

/-- How many calls of a worker have returned. -/
def done (s : BroadcastRun V n) (r : Fin n) : ℕ := (s.results r).length

/-- No call begins while the first operation there is complete and another is
behind it. -/
def noBacklog (s : BroadcastRun V n) : Event V n → Bool
  | .call _ _ =>
    match s.broadcast.bitmap with
    | bits :: _ :: _ => !bits.all id
    | _ => true
  | .resume _ => true

/-- The lists hold the operations from `base` on, and every call waits for the
next operation of its worker. -/
structure At (root : Fin n) (s : BroadcastRun V n) (base L : ℕ) : Prop where
  shape : s.broadcast.Shape base L s.done s.sent
  base_le : ∀ r, base ≤ s.done r
  le : ∀ r, s.done r ≤ base + L
  sent : s.sent.length = s.done root
  root_free : s.waits root = none
  waits : ∀ r idx event, s.waits r = some (idx, event) → base + idx = s.done r ∧ idx < L ∧ event = base + idx
  results : ∀ r (k : ℕ) v, (s.results r)[k]? = some v → ∃ x, s.sent[k]? = some x ∧ v = some x
  fault : s.fault = none

variable {root r : Fin n} {s : BroadcastRun V n} {base L : ℕ}

/-- The backlog, in terms of the operations. -/
theorem At.noBacklog_iff (h : At root s base L) (v : V) :
    s.noBacklog (.call r v) = true ↔ (∃ r, s.done r ≤ base) ∨ L ≤ 1 := by
  simp only [noBacklog, h.shape.bitmap]
  match L with
  | 0 => simp
  | 1 => simp
  | L + 2 =>
    rw [List.range_succ_eq_map, List.range_succ_eq_map]
    simp only [List.map_cons, Nat.add_zero, Bool.not_eq_true', List.all_eq_false, List.mem_ofFn]
    constructor
    · rintro ⟨x, ⟨r, rfl⟩, hx⟩
      exact .inl ⟨r, by simpa using hx⟩
    · rintro (⟨r, hr⟩ | h1)
      · exact ⟨false, ⟨r, by simpa using hr⟩, by simp⟩
      · omega

/-- After the old operations are removed the lists are in order, and the first one
is not complete. -/
theorem At.removeOld (h : At root s base L) (hok : (∃ r, s.done r ≤ base) ∨ L ≤ 1) :
    ∃ b base' L', s.broadcast.removeOld (List.range s.broadcast.bitmap.length) = .ok b ∧
      At root { s with broadcast := b } base' L' ∧ base' + L' = base + L ∧ ((∃ r, s.done r ≤ base') ∨ L' = 0) := by
  have hlen : s.broadcast.bitmap.length = L := by rw [h.shape.bitmap]; simp
  rw [hlen]
  by_cases hopen : ∃ r, s.done r ≤ base
  · exact ⟨s.broadcast, base, L, h.shape.removeOld_keep hopen _ fun i hi => List.mem_range.mp hi, h, rfl,
      .inl hopen⟩
  have hc : ∀ r, base < s.done r := fun v => by
    by_contra hv
    exact hopen ⟨v, by omega⟩
  have hL : L = 1 := by
    have h1 := hc root
    have h2 := h.le root
    have h3 := hok.resolve_left hopen
    omega
  subst hL
  obtain ⟨b, hb, hsh⟩ := h.shape.removeOld_alone hc
  refine ⟨b, base + 1, 0, hb, ⟨hsh, hc, fun v => ?_, h.sent, h.root_free, fun v idx event hv => ?_, h.results, h.fault⟩,
    rfl, .inr rfl⟩
  · exact h.le v
  · -- a call that waits is not answered, so its operation is not complete
    have h1 := (h.waits v idx event hv)
    have h2 := hc v
    omega

theorem handled_done (b : Broadcast V) (v : Option V) :
    (s.handled r (.ok (b, .value v))).done = Function.update s.done r (s.done r + 1) := by
  funext w
  simp only [done, handled]
  by_cases hw : w = r
  · rw [hw, Function.update_self, Function.update_self, List.length_append, List.length_singleton]
  · rw [Function.update_of_ne hw, Function.update_of_ne hw]
    rfl

/-- The end of a handler gives the worker its answer. -/
theorem At.answer {b : Broadcast V} {sent : List V} (h : At root s base L) (hlt : s.done r < base + L)
    (hsh : b.Shape base L (Function.update s.done r (s.done r + 1)) sent)
    (hsent : sent.length = Function.update s.done r (s.done r + 1) root)
    (hpre : ∀ (k : ℕ) x, s.sent[k]? = some x → sent[k]? = some x) {x : V} (hx : sent[s.done r]? = some x) :
    At root ({ s with sent }.handled r (.ok (b, .value (some x)))) base L := by
  have hdone : ({ s with sent }.handled r (.ok (b, .value (some x)))).done = Function.update s.done r (s.done r + 1) :=
    handled_done b _
  refine ⟨by rw [hdone]; exact hsh, fun v => ?_, fun v => ?_, by rw [hdone]; exact hsent, ?_, fun v idx event hv => ?_,
    fun v k y hy => ?_, h.fault⟩
  · rw [hdone]
    by_cases hv : v = r
    · have h1 := h.base_le r
      rw [hv, Function.update_self]
      omega
    · rw [Function.update_of_ne hv]; exact h.base_le v
  · rw [hdone]
    by_cases hv : v = r
    · rw [hv, Function.update_self]
      omega
    · rw [Function.update_of_ne hv]; exact h.le v
  · show Function.update s.waits r none root = none
    by_cases hv : root = r
    · rw [hv, Function.update_self]
    · rw [Function.update_of_ne hv]; exact h.root_free
  · change Function.update s.waits r none v = some (idx, event) at hv
    rw [hdone]
    by_cases hvr : v = r
    · rw [hvr, Function.update_self] at hv; cases hv
    · rw [Function.update_of_ne hvr] at hv ⊢
      exact h.waits v idx event hv
  · change (Function.update s.results r (s.results r ++ [some x]) v)[k]? = some y at hy
    by_cases hvr : v = r
    · rw [hvr, Function.update_self] at hy
      rcases Nat.lt_or_ge k (s.results r).length with hk | hk
      · rw [List.getElem?_append_left hk] at hy
        obtain ⟨z, hz, rfl⟩ := h.results r k y hy
        exact ⟨z, hpre k z hz, rfl⟩
      · rw [List.getElem?_append_right hk] at hy
        have hk0 : k = s.done r := by
          have h1 := (List.getElem?_eq_some_iff.mp hy).1
          simp only [List.length_singleton] at h1
          show k = (s.results r).length
          omega
        rw [hk0] at hy ⊢
        rw [show s.done r - (s.results r).length = 0 from Nat.sub_self _] at hy
        simp only [List.getElem?_cons_zero, Option.some.injEq] at hy
        exact ⟨x, hx, hy.symm⟩
    · rw [Function.update_of_ne hvr] at hy
      obtain ⟨z, hz, rfl⟩ := h.results v k y hy
      exact ⟨z, hpre k z hz, rfl⟩

/-- A worker that is not the root and whose value is there. -/
theorem At.resume (h : At root s base L) (hr : r ≠ root) {idx : ℕ} (hidx : base + idx = s.done r) (hlt : idx < L)
    (hval : s.done r < s.sent.length) :
    At root (s.handled r (s.broadcast.resume r idx)) base L := by
  obtain ⟨b, hb, hsh⟩ := h.shape.resume hidx hlt
  rw [hb, List.getElem?_eq_getElem hval]
  refine h.answer (by omega) hsh ?_ (fun _ _ hk => hk) (List.getElem?_eq_getElem hval)
  rw [Function.update_of_ne (Ne.symm hr)]
  exact h.sent

/-- The operation a call belongs to, once the old ones are removed. -/
theorem At.operation (h : At root s base L) (r : Fin n) (hok : (∃ r, s.done r ≤ base) ∨ L ≤ 1) :
    ∃ b0 b1 base' L', s.broadcast.removeOld (List.range s.broadcast.bitmap.length) = .ok b0 ∧
      b0.operation n r = .ok (b1, s.done r - base') ∧ At root { s with broadcast := b1 } base' L' ∧
      base' + (s.done r - base') = s.done r ∧ s.done r - base' < L' ∧ base' + L' ≤ max (base + L) (s.done r + 1) ∧
      ((∃ w, s.done w ≤ base') ∨ base' = base + L) := by
  obtain ⟨b0, base0, L0, hb0, h0, hsum, hopen⟩ := h.removeOld hok
  have hsent0 : s.sent.length ≤ base0 + L0 := h.sent.trans_le (h0.le root)
  obtain ⟨b1, L1, hb1, hsh1, hL1, hlt1, hmax⟩ := h0.shape.operation (h0.base_le r) h0.le hsent0
  have hbase0 : base0 ≤ s.done r := h0.base_le r
  refine ⟨b0, b1, base0, L1, hb0, hb1, ?_, by omega, hlt1, hsum ▸ hmax, hopen.imp_right fun h0 => by omega⟩
  refine ⟨hsh1, h0.base_le, fun v => (h0.le v).trans (by omega), h0.sent, h0.root_free, fun v idx event hv => ?_,
    h0.results, h0.fault⟩
  have h2 := h0.waits v idx event hv
  exact ⟨h2.1, by omega, h2.2.2⟩

section OfOperation

variable {b1 : Broadcast V} {idx : ℕ} {v : V} (h : At root { s with broadcast := b1 } base L)
  (hidx : base + idx = s.done r) (hlt : idx < L)
include h hidx hlt

/-- The root writes its value and is answered it. -/
theorem At.call_root (hstart : s.broadcast.start n root root v = (b1.write idx v).bind (·.resume root idx))
    (hr : r = root) : At root (s.call root root v) base L ∧ (s.call root root v).waits root = none := by
  subst hr
  have hsent : s.sent.length = s.done r := h.sent
  obtain ⟨b2, hb2, hsh2⟩ := h.shape.write (hidx.trans hsent.symm) hlt v
  obtain ⟨b3, hb3, hsh3⟩ := hsh2.resume (r := r) hidx hlt
  have hx : (s.sent ++ [v])[s.done r]? = some v := by simp [← hsent]
  have hb3' : b2.resume r idx = .ok (b3, .value (some v)) := hx ▸ hb3
  have hcall : s.call r r v = { s with sent := s.sent ++ [v] }.handled r (.ok (b3, .value (some v))) := by
    rw [hb2] at hstart
    rw [BroadcastRun.call, hstart, if_pos rfl]
    exact congrArg _ hb3'
  have hA : At r ({ s with sent := s.sent ++ [v] }.handled r (.ok (b3, .value (some v)))) base L := by
    refine h.answer (b := b3) (by show s.done r < base + L; omega) hsh3 ?_ (fun k x hk => ?_) hx
    · show (s.sent ++ [v]).length = Function.update s.done r (s.done r + 1) r
      simp [hsent]
    · have hk' := (List.getElem?_eq_some_iff.mp hk).1
      change k < s.sent.length at hk'
      rw [List.getElem?_append_left hk']
      exact hk
  rw [hcall]
  exact ⟨hA, hA.root_free⟩

/-- Another worker is answered the root's value if it is there. -/
theorem At.call_answers (hstart : s.broadcast.start n r root v = b1.resume r idx) (hr : r ≠ root) {x : V}
    (hx : s.sent[s.done r]? = some x) :
    At root (s.call root r v) base L ∧ (s.call root r v).waits r = none := by
  obtain ⟨b2, hb2, hsh2⟩ := h.shape.resume hidx hlt
  have hb2' : b1.resume r idx = .ok (b2, .value (some x)) := hx ▸ hb2
  have hcall : s.call root r v = s.handled r (.ok (b2, .value (some x))) := by
    rw [BroadcastRun.call, if_neg hr, hstart, hb2']
  rw [hcall]
  refine ⟨h.answer (b := b2) (by show s.done r < base + L; omega) hsh2 ?_ (fun _ _ hk => hk) hx,
    Function.update_self ..⟩
  exact h.sent.trans (Function.update_of_ne (Ne.symm hr) ..).symm

/-- Else it waits for it. -/
theorem At.call_waits (hstart : s.broadcast.start n r root v = .ok (b1, .waits idx (s.done r))) (hr : r ≠ root) :
    At root (s.call root r v) base L ∧ (s.call root r v).waits r = some (idx, s.done r) := by
  have hcall : s.call root r v = s.handled r (.ok (b1, .waits idx (s.done r))) := by
    rw [BroadcastRun.call, if_neg hr, hstart]
  rw [hcall]
  refine ⟨⟨h.shape, h.base_le, h.le, h.sent, ?_, fun w i event hw => ?_, h.results, h.fault⟩, Function.update_self ..⟩
  · exact (Function.update_of_ne (Ne.symm hr) ..).trans h.root_free
  · change Function.update s.waits r (some (idx, s.done r)) w = some (i, event) at hw
    by_cases hwr : w = r
    · subst hwr
      rw [Function.update_self] at hw
      simp only [Option.some.injEq, Prod.mk.injEq] at hw
      obtain ⟨rfl, rfl⟩ := hw
      exact ⟨hidx, hlt, hidx.symm⟩
    · rw [Function.update_of_ne hwr] at hw
      exact h.waits w i event hw

end OfOperation

/-- A call, which operations there are after it, and that it waits only for a value
that the root has not passed. -/
theorem At.call_bounds (h : At root s base L) (r : Fin n) (v : V) (hok : (∃ r, s.done r ≤ base) ∨ L ≤ 1) :
    ∃ base' L', At root (s.call root r v) base' L' ∧ base' + L' ≤ max (base + L) (s.done r + 1) ∧
      ((∃ w, s.done w ≤ base') ∨ base' = base + L) ∧
      ((s.call root r v).waits r = none ↔ s.done r < (s.call root r v).sent.length) := by
  obtain ⟨b0, b1, base', L', h0, h1, hA, hidx, hlt, hmax, hopen⟩ := h.operation r hok
  have hstart : s.broadcast.start n r root v = _ := Broadcast.start_eq h0 h1
  by_cases hr : r = root
  · subst hr
    rw [if_pos rfl] at hstart
    obtain ⟨hA', hfree⟩ := hA.call_root hidx hlt hstart rfl
    have hsent : (s.call r r v).sent.length = s.done r + 1 := by
      have hhandled (t : BroadcastRun V n) (res) : (t.handled r res).sent = t.sent := by
        unfold handled
        split <;> rfl
      rw [BroadcastRun.call, hhandled, if_pos rfl, List.length_append, List.length_singleton, h.sent]
    exact ⟨base', L', hA', hmax, hopen, iff_of_true hfree (by omega)⟩
  rw [if_neg fun he => hr (Fin.ext he)] at hstart
  have hvalue : getIndex b1.values (s.done r - base') = .ok s.sent[s.done r]? := by
    rw [hA.shape.values, getIndex_map_range _ hlt, hidx]
  have hevent : getIndex b1.events (s.done r - base') = .ok (s.done r) := by
    rw [hA.shape.events, getIndex_map_range _ hlt, hidx]
  have hsent : (s.call root r v).sent = s.sent := by
    unfold call handled
    rw [if_neg hr]
    split <;> rfl
  rw [hvalue, hevent] at hstart
  rw [hsent]
  cases hx : s.sent[s.done r]? with
  | none =>
    rw [hx] at hstart
    obtain ⟨hA', hwaits⟩ := hA.call_waits hidx hlt hstart hr
    refine ⟨base', L', hA', hmax, hopen, iff_of_false (by rw [hwaits]; simp) ?_⟩
    rw [Nat.not_lt]
    exact List.getElem?_eq_none_iff.mp hx
  | some x =>
    rw [hx] at hstart
    obtain ⟨hA', hwaits⟩ := hA.call_answers hidx hlt hstart hr hx
    exact ⟨base', L', hA', hmax, hopen, iff_of_true hwaits (List.getElem?_eq_some_iff.mp hx).1⟩

theorem At.call (h : At root s base L) (r : Fin n) (v : V)
    (hok : (∃ r, s.done r ≤ base) ∨ L ≤ 1) : ∃ base' L', At root (s.call root r v) base' L' := by
  obtain ⟨base', L', hA, -⟩ := h.call_bounds r v hok
  exact ⟨base', L', hA⟩

/-! ## Every run without a backlog -/

theorem At.init (root : Fin n) : At root (new V n) 0 0 :=
  ⟨⟨rfl, rfl, rfl, rfl⟩, fun _ => le_rfl, fun _ => le_rfl, rfl, rfl, fun _ _ _ h => (by cases h),
    fun r k v h => (by simp [new] at h), rfl⟩

/-- A call that has waited goes on. -/
theorem At.resumed {s' : BroadcastRun V n} (h : At root s base L) (hn : s.next root (.resume r) = some s') :
    At root s' base L := by
  simp only [next] at hn
  split at hn
  · cases hn
  split at hn
  · rename_i idx event hw
    simp only [Option.ite_none_right_eq_some, Option.some.injEq] at hn
    obtain ⟨hset, rfl⟩ := hn
    obtain ⟨hidx, hlt, rfl⟩ := h.waits r idx event hw
    have hroot : r ≠ root := by
      rintro rfl
      rw [h.root_free] at hw
      cases hw
    refine h.resume hroot hidx hlt ?_
    rw [h.shape.isSet, List.getElem?_map, List.getElem?_range (by omega)] at hset
    simpa [hidx] using hset
  · cases hn

theorem At.step {e : Event V n} {s' : BroadcastRun V n} (h : At root s base L) (hok : s.noBacklog e = true)
    (hn : (machine V root).next s e = some s') : ∃ base' L', At root s' base' L' := by
  cases e with
  | call r v =>
    simp only [machine, next] at hn
    split at hn
    · cases hn
    simp only [Option.ite_none_right_eq_some, Option.some.injEq] at hn
    obtain ⟨-, rfl⟩ := hn
    exact h.call r v ((h.noBacklog_iff v).mp hok)
  | resume r => exact ⟨base, L, h.resumed hn⟩

theorem At.of_reach (h : (machine V root).Reach (fun s e => s.noBacklog e = true) s) :
    ∃ base L, At root s base L := by
  refine Machine.Reach.invariant (I := fun s => ∃ base L, At root s base L) (fun s hs => ?_) (fun s e s' hI hok hn => ?_) h
  · rw [show s = new V n from hs]
    exact ⟨0, 0, At.init root⟩
  · obtain ⟨base, L, hI⟩ := hI
    exact hI.step hok hn

/-- A call that finds a backlog raises an exception. -/
theorem At.fault_of_backlog (h : At root s base L) (v : V) (hbad : s.noBacklog (.call r v) = false) :
    (s.call root r v).fault.isSome := by
  have h1 : ¬((∃ r, s.done r ≤ base) ∨ L ≤ 1) := fun hor => by
    rw [(h.noBacklog_iff v).mpr hor] at hbad
    cases hbad
  have hlen : s.broadcast.bitmap.length = L := by rw [h.shape.bitmap]; simp
  simp only [not_or, not_exists, not_le] at h1
  obtain ⟨f, hf⟩ := h.shape.removeOld_backlog h1.2 h1.1
  rw [← hlen] at hf
  simp [BroadcastRun.call, Broadcast.start, hf, bind, Except.bind, handled]

/-! ## What the calls return -/

/-- A call that does not wait has returned. -/
theorem call_returned {v : V} (hf : (s.call root r v).fault = none) (hw : (s.call root r v).waits r = none) :
    ∃ y, (s.call root r v).results r = s.results r ++ [y] := by
  unfold call handled at hf hw ⊢
  split at hf
  · cases hf
  · rename_i hstart
    simp [hstart] at hw
  · exact ⟨_, Function.update_self ..⟩

/-- A call returns the root's value of its number, or waits as long as the root has not
passed it. -/
theorem At.call_result (h : At root s base L) (v : V) (hok : (∃ r, s.done r ≤ base) ∨ L ≤ 1) :
    match (s.call root r v).sent[s.done r]? with
    | some x => (s.call root r v).results r = s.results r ++ [some x]
    | none => (s.call root r v).waits r ≠ none := by
  obtain ⟨base', L', hA, -, -, hwaits⟩ := h.call_bounds r v hok
  split
  · rename_i x hx
    obtain ⟨y, hy⟩ := call_returned hA.fault (hwaits.mpr (List.getElem?_eq_some_iff.mp hx).1)
    obtain ⟨x', hx', rfl⟩ := hA.results r (s.done r) y (by simp [hy, done])
    rw [hy, Option.some.inj (hx'.symm.trans hx)]
  · rename_i hx
    rw [Ne, hwaits, Nat.not_lt]
    exact List.getElem?_eq_none_iff.mp hx

/-- A worker that waits for a value that the root has passed gets it. -/
theorem At.resume_result (h : At root s base L) (hw : s.waits r ≠ none) {x : V} (hx : s.sent[s.done r]? = some x) :
    ∃ s', next root s (.resume r) = some s' ∧ s'.fault = none ∧ s'.waits r = none ∧
      s'.results r = s.results r ++ [some x] := by
  obtain ⟨⟨idx, event⟩, hidx⟩ := Option.ne_none_iff_exists'.mp hw
  obtain ⟨hop, hlt, rfl⟩ := h.waits r idx event hidx
  have hlen := (List.getElem?_eq_some_iff.mp hx).1
  have hset : s.broadcast.isSet[base + idx]? = some true := by
    rw [h.shape.isSet, List.getElem?_map, List.getElem?_range (by omega)]
    simp only [Option.map_some, Option.some.injEq, decide_eq_true_eq]
    omega
  obtain ⟨b, hb, -⟩ := h.shape.resume hop hlt
  rw [hx] at hb
  refine ⟨s.handled r (.ok (b, .value (some x))), ?_, h.fault, Function.update_self .., Function.update_self ..⟩
  simp [next, h.fault, hidx, hset, hb]

/-- In the runs in which no call finds a backlog, no call raises an exception and the
`k`-th call of each worker returns what the root passes in its `k`-th: the root's own
and those that come after it at once, and those that wait for it can go on then. And a
call that finds a backlog in such a run raises an exception. -/
theorem broadcast_agrees (h : (machine V root).Reach (fun s e => s.noBacklog e = true) s) :
    s.fault = none ∧ (∀ r (k : ℕ) v, (s.results r)[k]? = some v → ∃ x, s.sent[k]? = some x ∧ v = some x) ∧
    (s.waits root = none ∧ (s.results root).length = s.sent.length) ∧
    (∀ r v, s.noBacklog (.call r v) = true →
      match (s.call root r v).sent[(s.results r).length]? with
      | some x => (s.call root r v).results r = s.results r ++ [some x]
      | none => (s.call root r v).waits r ≠ none) ∧
    (∀ r x, s.waits r ≠ none → s.sent[(s.results r).length]? = some x → ∃ s', next root s (.resume r) = some s' ∧
      s'.fault = none ∧ s'.waits r = none ∧ s'.results r = s.results r ++ [some x]) ∧
    ∀ r v, ((s.call root r v).fault = none ↔ s.noBacklog (.call r v) = true) := by
  obtain ⟨base, L, hA⟩ := At.of_reach h
  refine ⟨hA.fault, hA.results, ⟨hA.root_free, hA.sent.symm⟩,
    fun r v hok => hA.call_result v ((hA.noBacklog_iff v).mp hok), fun r x hw hx => hA.resume_result hw hx,
    fun r v => ⟨fun hf => ?_, fun hok => ?_⟩⟩
  · by_contra hbad
    have h1 := hA.fault_of_backlog v (by simpa using hbad)
    rw [hf] at h1
    cases h1
  · obtain ⟨base', L', h1⟩ := hA.call r v ((hA.noBacklog_iff v).mp hok)
    exact h1.fault

/-- The root broadcasts twice before the other worker's first call, whose second
call then removes the first operation and runs out of the list. -/
theorem broadcast_raises : ∃ s, (machine ℕ (0 : Fin 2)).Reachable s ∧ s.fault = some (.indexError 1) := by
  obtain ⟨s, hr, hf⟩ :
      ∃ s, (machine ℕ (0 : Fin 2)).run (new ℕ 2) [.call 0 7, .call 0 8, .call 1 0, .call 1 0] = some s ∧
      s.fault = some (.indexError 1) := by
    refine ⟨_, rfl, ?_⟩
    decide +kernel
  exact ⟨s, Machine.Reachable.run (.init rfl) hr, hf⟩

/-- Two workers call before the root. Once the root has called, the first one is
answered and the other one can be. -/
theorem broadcast_agrees_three : ∃ s s' : BroadcastRun ℕ 3, s.results 1 = [some 7] ∧ s.fault = none ∧
    s.sent[0]? = some 7 ∧ next 0 s (.resume 2) = some s' ∧ s'.results 2 = [some 7] := by
  obtain ⟨s, hr, h1, hw, h2, hsent⟩ :
      ∃ s, (machine ℕ (0 : Fin 3)).runWhile (fun s e => s.noBacklog e = true) (new ℕ 3)
        [.call 1 0, .call 2 0, .call 0 7, .resume 1] = some s ∧ s.results 1 = [some 7] ∧
      s.waits 2 = some (0, 0) ∧ s.results 2 = [] ∧ s.sent = [7] := by
    refine ⟨_, rfl, ?_⟩
    decide +kernel
  obtain ⟨hf, hres, -, -, hresume, -⟩ := broadcast_agrees (Machine.Reach.runWhile (.init rfl) hr)
  obtain ⟨s', hn, -, -, h3⟩ := hresume 2 7 (by rw [hw]; simp) (by rw [h2, hsent]; rfl)
  rw [h2] at h3
  obtain ⟨x, hx, h7⟩ := hres 1 0 (some 7) (by rw [h1]; rfl)
  exact ⟨s, s', h1, hf, hx.trans h7.symm, hn, h3⟩

end BroadcastRun

end SwitchML.Controller
