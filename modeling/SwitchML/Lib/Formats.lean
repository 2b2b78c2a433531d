/-
How values are laid out in bits. A format has a fixed width, and reads back what
it has written. One that is `Full` has a value for all bits of its width, so that
nothing is lost when they are read and written again.

Bits are in the order in which they are sent: the greatest one of a number is the
first.
-/
import Mathlib.Data.Fin.Tuple.Basic
import Mathlib.Logic.Equiv.Defs
import Mathlib.Tactic.Ring

namespace Formats

abbrev Bits := List Bool

structure Format (α : Type) where
  width : ℕ
  emit : α → Bits
  /-- The value in front of bits that are long enough. -/
  read : Bits → α
  length_emit : ∀ a, (emit a).length = width
  read_emit : ∀ a rest, read (emit a ++ rest) = a

namespace Format

variable {α β : Type} {f : Format α} {g : Format β} {a : α} {bits rest : Bits}

/-- All bits of the width are those of a value. -/
def Full (f : Format α) : Prop := ∀ bits, f.width ≤ bits.length → f.emit (f.read bits) = bits.take f.width

/-- Take a value off the front; there have to be bits enough. -/
def extract (f : Format α) (bits : Bits) : Option (α × Bits) :=
  if f.width ≤ bits.length then some (f.read bits, bits.drop f.width) else none

/-- A header that is not there is not written. -/
def emitOption (f : Format α) (a : Option α) : Bits := a.elim [] f.emit

@[simp] theorem emitOption_none : f.emitOption none = [] := rfl

@[simp] theorem emitOption_some : f.emitOption (some a) = f.emit a := rfl

@[simp] theorem extract_emit (f : Format α) (a : α) (rest : Bits) : f.extract (f.emit a ++ rest) = some (a, rest) := by
  rw [extract, if_pos (by rw [List.length_append, f.length_emit]; omega), f.read_emit]
  congr 2
  exact List.drop_left' (f.length_emit a)

/-- What is taken off, written in front of the rest, is what was there. -/
theorem Full.emit_extract (hf : f.Full) (h : f.extract bits = some (a, rest)) : bits = f.emit a ++ rest := by
  simp only [extract, Option.ite_none_right_eq_some, Option.some.injEq, Prod.mk.injEq] at h
  obtain ⟨hle, rfl, rfl⟩ := h
  rw [hf bits hle, List.take_append_drop]

theorem Full.bind_extract {γ : Type} {k : α × Bits → Option γ} {c : γ} (hf : f.Full)
    (h : (f.extract bits).bind k = some c) : ∃ a rest, bits = f.emit a ++ rest ∧ k (a, rest) = some c := by
  obtain ⟨⟨a, rest⟩, he, hk⟩ := Option.bind_eq_some_iff.mp h
  exact ⟨a, rest, hf.emit_extract he, hk⟩

/-! ## Numbers -/

def emitBits : (w : ℕ) → BitVec w → Bits
  | 0, _ => []
  | w + 1, x => x.msb :: emitBits w (x.setWidth w)

def readBits : (w : ℕ) → Bits → BitVec w
  | 0, _ => 0#0
  | w + 1, bits => .cons (bits.headD false) (readBits w bits.tail)

theorem readBits_emitBits (w : ℕ) (x : BitVec w) (rest : Bits) : readBits w (emitBits w x ++ rest) = x := by
  induction w with
  | zero => exact BitVec.eq_of_toNat_eq (by omega)
  | succ w ih =>
    rw [emitBits, List.cons_append, readBits, List.headD_cons, List.tail_cons, ih, BitVec.cons_msb_setWidth]

theorem emitBits_readBits (w : ℕ) (bits : Bits) (h : w ≤ bits.length) : emitBits w (readBits w bits) = bits.take w := by
  induction w generalizing bits with
  | zero => rfl
  | succ w ih =>
    cases bits with
    | nil => simp at h
    | cons b bits =>
      have hle : w ≤ bits.length := by simpa using h
      rw [readBits, emitBits, BitVec.msb_cons, BitVec.setWidth_cons, List.headD_cons, List.tail_cons, ih bits hle,
        List.take_succ_cons]

/-- A number of `w` bits. -/
def bit (w : ℕ) : Format (BitVec w) where
  width := w
  emit := emitBits w
  read := readBits w
  length_emit x := by
    induction w with
    | zero => rfl
    | succ w ih => rw [emitBits, List.length_cons, ih]
  read_emit := readBits_emitBits w

theorem bit_full (w : ℕ) : (bit w).Full := emitBits_readBits w

/-! ## Values of several parts -/

def pair (f : Format α) (g : Format β) : Format (α × β) where
  width := f.width + g.width
  emit a := f.emit a.1 ++ g.emit a.2
  read bits := (f.read bits, g.read (bits.drop f.width))
  length_emit a := by rw [List.length_append, f.length_emit, g.length_emit]
  read_emit a rest := by
    rw [List.append_assoc, f.read_emit, List.drop_left' (f.length_emit a.1), g.read_emit]

theorem Full.pair (hf : f.Full) (hg : g.Full) : (f.pair g).Full := by
  intro bits hle
  have hle' : f.width + g.width ≤ bits.length := hle
  show f.emit (f.read bits) ++ g.emit (g.read (bits.drop f.width)) = bits.take (f.width + g.width)
  rw [hf bits (by omega), hg _ (by rw [List.length_drop]; omega), List.take_add]

/-- The values of another type, as those that stand for them. -/
def retract (f : Format α) (encode : β → α) (decode : α → β) (h : ∀ b, decode (encode b) = b) : Format β where
  width := f.width
  emit b := f.emit (encode b)
  read bits := decode (f.read bits)
  length_emit b := f.length_emit _
  read_emit b rest := by rw [f.read_emit, h]

/-- The same values under other names. -/
def equiv (f : Format α) (e : α ≃ β) : Format β := f.retract e.symm e e.apply_symm_apply

theorem Full.equiv (hf : f.Full) (e : α ≃ β) : (f.equiv e).Full := by
  intro bits hle
  show f.emit (e.symm (e (f.read bits))) = _
  rw [Equiv.symm_apply_apply]
  exact hf bits hle

/-- One after the other, `n` values. -/
def tuple (f : Format α) : (n : ℕ) → Format (Fin n → α)
  | 0 => {
      width := 0
      emit _ := []
      read _ := Fin.elim0
      length_emit _ := rfl
      read_emit _ _ := funext fun i => i.elim0 }
  | n + 1 => (f.pair (f.tuple n)).equiv (Fin.consEquiv fun _ => α)

theorem Full.tuple (hf : f.Full) : ∀ n, (f.tuple n).Full
  | 0 => fun _ _ => rfl
  | n + 1 => (hf.pair (hf.tuple n)).equiv _

theorem width_tuple (f : Format α) (n : ℕ) : (f.tuple n).width = n * f.width := by
  induction n with
  | zero => exact (Nat.zero_mul _).symm
  | succ n ih =>
    show f.width + (f.tuple n).width = _
    rw [ih]
    ring

/-! ## Blocks -/

/-- The first `n` values. -/
def cut (f : Format α) : ℕ → Bits → List α
  | 0, _ => []
  | n + 1, bits => f.read bits :: cut f n (bits.drop f.width)

theorem Full.emit_cut (hf : f.Full) (n : ℕ) (bits : Bits) (h : n * f.width ≤ bits.length) :
    (f.cut n bits).flatMap f.emit = bits.take (n * f.width) := by
  induction n generalizing bits with
  | zero => simp [cut]
  | succ n ih =>
    have hring : (n + 1) * f.width = f.width + n * f.width := by ring
    rw [cut, List.flatMap_cons, hf bits (by omega), ih _ (by rw [List.length_drop]; omega), hring, List.take_add]

/-- The values that fit into the bits. -/
def blocks (f : Format α) (bits : Bits) : List α := f.cut (bits.length / f.width) bits

/-- What is left behind them. -/
def remainder (f : Format α) (bits : Bits) : Bits := bits.drop (bits.length / f.width * f.width)

theorem Full.blocks_remainder (hf : f.Full) (bits : Bits) :
    (f.blocks bits).flatMap f.emit ++ f.remainder bits = bits := by
  rw [blocks, hf.emit_cut _ _ (Nat.div_mul_le_self ..), remainder, List.take_append_drop]

end Format

end Formats
