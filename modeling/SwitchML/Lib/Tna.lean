/-
The parts of a match-action switch architecture every program for it shares:
register arrays with one read-modify-write per packet, ternary match keys,
tables whose first matching entry wins, and ports that belong to a pipe.
-/
import Mathlib.Logic.Function.Basic
import Mathlib.Data.List.Basic

namespace Tna

/-! ## Registers -/

/-- A register array, one cell for each index. -/
abbrev Register (w : Nat) (α : Type) := BitVec w → α

/-- What a register action does to a cell: the new contents and the value read. -/
abbrev RegisterAction (α β : Type) := α → α × β

/-- Run a register action on one cell. -/
def Register.execute {w : Nat} {α β : Type} (r : Register w α) (idx : BitVec w) (act : RegisterAction α β) :
    Register w α × β :=
  (Function.update r idx (act (r idx)).1, (act (r idx)).2)

variable {w : Nat} {α β : Type}

@[simp] theorem Register.execute_read (r : Register w α) (idx : BitVec w) (act : RegisterAction α β) :
    (r.execute idx act).2 = (act (r idx)).2 := rfl

@[simp] theorem Register.execute_self (r : Register w α) (idx : BitVec w) (act : RegisterAction α β) :
    (r.execute idx act).1 idx = (act (r idx)).1 := by
  simp [Register.execute]

theorem Register.execute_other (r : Register w α) {idx i : BitVec w} (act : RegisterAction α β) (h : i ≠ idx) :
    (r.execute idx act).1 i = r i := by
  simp [Register.execute, h]

/-- An action that keeps the contents leaves the whole array alone. -/
theorem Register.execute_readonly (r : Register w α) (idx : BitVec w) (act : RegisterAction α β)
    (h : (act (r idx)).1 = r idx) : (r.execute idx act).1 = r := by
  simp [Register.execute, h]

/-! ## Match keys -/

/-- A ternary key over bits: the bits under `mask` must be those of `value`. -/
structure Tern (w : Nat) where
  value : BitVec w
  mask : BitVec w
  deriving DecidableEq

/-- The key that matches everything. -/
def Tern.any : Tern w := ⟨0, 0⟩

/-- The key that matches one value. -/
def Tern.exactly (v : BitVec w) : Tern w := ⟨v, BitVec.allOnes w⟩

/-- Whether a value matches a ternary key. -/
def Tern.hits (t : Tern w) (k : BitVec w) : Bool := k &&& t.mask == t.value &&& t.mask

@[simp] theorem Tern.hits_any (k : BitVec w) : (Tern.any : Tern w).hits k = true := by
  simp [Tern.hits, Tern.any]

@[simp] theorem Tern.hits_exactly (v k : BitVec w) : (Tern.exactly v).hits k = decide (k = v) := by
  simp [Tern.hits, Tern.exactly, Bool.beq_eq_decide_eq]

/-- A key over values without bits: `none` is the don't-care. -/
def hits [DecidableEq α] : Option α → α → Bool
  | none, _ => true
  | some a, k => decide (k = a)

@[simp] theorem hits_none [DecidableEq α] (k : α) : hits none k = true := rfl

@[simp] theorem hits_some [DecidableEq α] (a k : α) : hits (some a) k = decide (k = a) := rfl

/-! ## Tables -/

/-- The action of the first entry, in priority order, that matches. -/
def lookup {κ : Type} (entries : List κ) (matches? : κ → Bool) (action : κ → α) : Option α :=
  (entries.find? matches?).map action

/-- In a run of entries, one for each number below `m`, only the entry of `i` can match. -/
theorem find?_map_range {m i : Nat} {f : Nat → α} {p : α → Bool} {c : Prop} [Decidable c] (hi : i < m)
    (h : ∀ j < m, p (f j) = true ↔ j = i ∧ c) :
    ((List.range m).map f).find? p = if c then some (f i) else none := by
  rw [List.find?_map]
  split
  · rename_i hc
    have hfind : (List.range m).find? (p ∘ f) = some i := by
      rw [List.find?_range_eq_some]
      refine ⟨(h i hi).mpr ⟨rfl, hc⟩, List.mem_range.mpr hi, fun j hj => ?_⟩
      have hj' := h j (by omega)
      simp only [Function.comp_apply, Bool.not_eq_true']
      grind
    rw [hfind, Option.map_some]
  · rename_i hc
    rw [Option.map_eq_none_iff, List.find?_eq_none]
    intro j hj hp
    exact hc ((h j (List.mem_range.mp hj)).mp hp).2

/-- Where only one entry matches, it is the first one. -/
theorem find?_unique {κ : Type} {entries : List κ} {p : κ → Bool} {e : κ} (he : e ∈ entries) (hp : p e = true)
    (huniq : ∀ e' ∈ entries, p e' = true → e' = e) : entries.find? p = some e := by
  cases hf : entries.find? p with
  | none => exact absurd hp (List.find?_eq_none.mp hf e he)
  | some e' => rw [huniq e' (List.mem_of_find?_eq_some hf) (List.find?_some hf)]

/-- Install entries one after the other; the driver refuses a key it holds
already, or one that does not fit the key's fields (`none`), and keeps what it
installed until then. -/
def entryAdd {κ η : Type} [DecidableEq η] (key : κ → η) : List κ → List (Option κ) → Bool × List κ
  | entries, [] => (true, entries)
  | entries, none :: _ => (false, entries)
  | entries, some e :: es => if key e ∈ entries.map key then (false, entries) else entryAdd key (entries ++ [e]) es

/-- What is installed is the first part of the entries. -/
theorem entryAdd_append {κ η : Type} [DecidableEq η] (key : κ → η) (es : List (Option κ)) :
    ∀ entries : List κ, ∃ new, (entryAdd key entries es).2 = entries ++ new ∧ new.map some <+: es := by
  induction es with
  | nil =>
    intro entries
    exact ⟨[], (List.append_nil _).symm, List.prefix_rfl⟩
  | cons e es ih =>
    intro entries
    cases e with
    | none => exact ⟨[], (List.append_nil _).symm, ⟨_, rfl⟩⟩
    | some e =>
      unfold entryAdd
      split
      · exact ⟨[], (List.append_nil _).symm, ⟨_, rfl⟩⟩
      · obtain ⟨new, heq, hpre⟩ := ih (entries ++ [e])
        refine ⟨e :: new, by rw [heq, List.append_assoc]; rfl, ?_⟩
        exact List.prefix_cons_inj _ |>.mpr hpre

/-- Where entries are made by a function of their place, so are those installed. -/
theorem getElem?_of_prefix_mapIdx {α κ : Type} {l : List α} {f : Nat → α → Option κ} {new : List κ}
    (h : new.map some <+: l.mapIdx f) {i : Nat} {e : κ} (he : new[i]? = some e) :
    ∃ a, l[i]? = some a ∧ f i a = some e := by
  have hmap : (new.map some)[i]? = some (some e) := by rw [List.getElem?_map, he]; rfl
  obtain ⟨rest, hrest⟩ := h
  have hidx : (l.mapIdx f)[i]? = some (some e) := by
    rw [← hrest, List.getElem?_append_left]
    · exact hmap
    · exact (List.getElem?_eq_some_iff.mp hmap).1
  rw [List.getElem?_mapIdx, Option.map_eq_some_iff] at hidx
  exact hidx

/-- What was installed before stays. -/
theorem entryAdd_prefix {κ η : Type} [DecidableEq η] {key : κ → η} {es : List (Option κ)} {entries : List κ} :
    entries <+: (entryAdd key entries es).2 := by
  obtain ⟨new, heq, -⟩ := entryAdd_append key es entries
  rw [heq]
  exact List.prefix_append _ _

/-- The first entry is installed if its key is new. -/
theorem entryAdd_cons_ne {κ η : Type} [DecidableEq η] {key : κ → η} {e : κ} {es : List (Option κ)} {entries : List κ}
    (h : key e ∉ entries.map key) : (entryAdd key entries (some e :: es)).2 ≠ entries := by
  rw [entryAdd, if_neg h]
  intro heq
  obtain ⟨new, hnew, -⟩ := entryAdd_append key es (entries ++ [e])
  have hlen := congrArg List.length (hnew.symm.trans heq)
  simp at hlen

theorem mem_entryAdd {κ η : Type} [DecidableEq η] {key : κ → η} {es : List (Option κ)} {x : κ} {entries : List κ}
    (hx : x ∈ (entryAdd key entries es).2) : x ∈ entries ∨ some x ∈ es := by
  obtain ⟨new, heq, hpre⟩ := entryAdd_append key es entries
  rw [heq] at hx
  rcases List.mem_append.mp hx with hx | hx
  · exact .inl hx
  · exact .inr (hpre.subset (List.mem_map_of_mem hx))

/-- Entries are new together if each is new when it is its turn. -/
theorem fresh_cons {κ η : Type} {key : κ → η} {e : κ} {new entries : List κ} :
    (∀ e' ∈ e :: new, key e' ∉ entries.map key) ∧ ((e :: new).map key).Nodup ↔
      key e ∉ entries.map key ∧ (∀ e' ∈ new, key e' ∉ (entries ++ [e]).map key) ∧ (new.map key).Nodup := by
  have hsplit (e' : κ) : key e' ∈ (entries ++ [e]).map key ↔ key e' ∈ entries.map key ∨ key e' = key e := by
    rw [List.map_append, List.mem_append, List.map_singleton, List.mem_singleton]
  rw [List.map_cons, List.nodup_cons]
  constructor
  · rintro ⟨hfresh, hnot, hnodup⟩
    refine ⟨hfresh e List.mem_cons_self, fun e' he' hm => ?_, hnodup⟩
    rcases (hsplit e').mp hm with hm | hm
    · exact hfresh e' (List.mem_cons_of_mem _ he') hm
    · exact hnot (List.mem_map.mpr ⟨e', he', hm⟩)
  · rintro ⟨hfirst, hrest, hnodup⟩
    refine ⟨fun e' he' hm => ?_, fun hm => ?_, hnodup⟩
    · rcases List.mem_cons.mp he' with rfl | he'
      · exact hfirst hm
      · exact hrest e' he' ((hsplit e').mpr (.inl hm))
    · obtain ⟨e', he', heq⟩ := List.mem_map.mp hm
      exact hrest e' he' ((hsplit e').mpr (.inr heq))

/-- With keys that are new, the entries are installed up to the first one that does
not fit. -/
theorem entryAdd_fresh {κ η : Type} [DecidableEq η] {key : κ → η} {es : List (Option κ)} {entries : List κ}
    (hnodup : ((es.filterMap id).map key).Nodup) (hfresh : ∀ e ∈ es.filterMap id, key e ∉ entries.map key) :
    ∃ new, entryAdd key entries es = (es.all Option.isSome, entries ++ new) ∧
      new.map some = es.takeWhile Option.isSome := by
  induction es generalizing entries with
  | nil => exact ⟨[], by rw [List.append_nil]; rfl, rfl⟩
  | cons e es ih =>
    cases e with
    | none => exact ⟨[], by rw [List.append_nil]; rfl, rfl⟩
    | some e =>
      have hcons : (some e :: es).filterMap id = e :: es.filterMap id := rfl
      rw [hcons] at hnodup hfresh
      obtain ⟨hfirst, hrest, hnodup⟩ := fresh_cons.mp ⟨hfresh, hnodup⟩
      obtain ⟨new, heq, hnew⟩ := ih hnodup hrest
      refine ⟨e :: new, ?_, ?_⟩
      · rw [entryAdd, if_neg hfirst, heq, List.append_assoc]
        rfl
      · rw [List.map_cons, hnew]
        rfl

theorem entryAdd_map_some {κ η : Type} [DecidableEq η] {key : κ → η} {new entries : List κ}
    (hnodup : (new.map key).Nodup) (hfresh : ∀ e ∈ new, key e ∉ entries.map key) :
    entryAdd key entries (new.map some) = (true, entries ++ new) := by
  induction new generalizing entries with
  | nil => rw [List.append_nil]; rfl
  | cons e new ih =>
    obtain ⟨hfirst, hrest, hnodup⟩ := fresh_cons.mp ⟨hfresh, hnodup⟩
    rw [List.map_cons, entryAdd, if_neg hfirst, ih hnodup hrest, List.append_assoc]
    rfl

/-- They are all installed if they fit and bring keys that are new. -/
theorem entryAdd_true_iff {κ η : Type} [DecidableEq η] {key : κ → η} {es : List (Option κ)} :
    ∀ {entries : List κ}, (entryAdd key entries es).1 = true ↔
      ∃ new : List κ, es = new.map some ∧ (new.map key).Nodup ∧ ∀ e ∈ new, key e ∉ entries.map key := by
  intro entries
  constructor
  · intro h
    induction es generalizing entries with
    | nil => exact ⟨[], rfl, List.nodup_nil, by simp⟩
    | cons e es ih =>
      cases e with
      | none => cases h
      | some e =>
        unfold entryAdd at h
        split at h
        · cases h
        · rename_i hfirst
          obtain ⟨new, rfl, hnodup, hrest⟩ := ih h
          obtain ⟨hfresh, hnodup⟩ := fresh_cons.mpr ⟨hfirst, hrest, hnodup⟩
          exact ⟨e :: new, rfl, hnodup, hfresh⟩
  · rintro ⟨new, rfl, hnodup, hfresh⟩
    rw [entryAdd_map_some hnodup hfresh]

theorem entryAdd_true {κ η : Type} [DecidableEq η] {key : κ → η} {es : List (Option κ)} {entries : List κ}
    (h : (entryAdd key entries es).1 = true) :
    ∃ new, es = new.map some ∧ (entryAdd key entries es).2 = entries ++ new ∧
      ((entries.map key).Nodup → ((entries ++ new).map key).Nodup) := by
  obtain ⟨new, rfl, hnodup, hfresh⟩ := entryAdd_true_iff.mp h
  refine ⟨new, rfl, by rw [entryAdd_map_some hnodup hfresh], fun hold => ?_⟩
  rw [List.map_append, List.nodup_append]
  refine ⟨hold, hnodup, fun a ha b hb hab => ?_⟩
  obtain ⟨e, he, rfl⟩ := List.mem_map.mp hb
  exact hfresh e he (hab ▸ ha)

/-- Where only the entry at one place matches, it is all that matches. -/
theorem filter_unique {κ : Type} {entries : List κ} {p : κ → Bool} :
    ∀ {i : Nat} {e : κ}, entries[i]? = some e → (∀ j e', entries[j]? = some e' → (p e' = true ↔ j = i)) →
      entries.filter p = [e] := by
  induction entries with
  | nil =>
    intro i e he _
    simp at he
  | cons a entries ih =>
    intro i e he h
    cases i with
    | zero =>
      have ha : a = e := by simpa using he
      have hp : p a = true := (h 0 a rfl).mpr rfl
      have hrest : entries.filter p = [] := by
        rw [List.filter_eq_nil_iff]
        intro e' he' hpe
        obtain ⟨j, hj⟩ := List.mem_iff_getElem?.mp he'
        exact absurd ((h (j + 1) e' hj).mp hpe) (Nat.succ_ne_zero j)
      rw [List.filter_cons_of_pos hp, hrest, ha]
    | succ i =>
      have hp : ¬p a = true := fun hpa => absurd ((h 0 a rfl).mp hpa) (Nat.succ_ne_zero i).symm
      rw [List.filter_cons_of_neg hp]
      refine ih he fun j e' hj => ?_
      rw [h (j + 1) e' hj, Nat.succ_inj]

/-! ## Ports -/

/-- Bits [8:7] of a port are its pipe. -/
def pipeOf (port : BitVec 9) : Fin 4 := ⟨port.toNat / 128, by have := port.isLt; omega⟩

end Tna
