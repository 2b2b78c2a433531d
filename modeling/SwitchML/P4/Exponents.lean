/-
`exponents.p4`: the running maximum of both exponents of a slot. An `out`
parameter the selected action does not assign keeps its old value, and the
control is applied with the same variables in and out.
-/
import SwitchML.P4.Headers

namespace SwitchML.P4

open Tna

/-- Write both exponents and read the first one. -/
def exponentsWriteRead0 (exponent0 exponent1 : Exponent) : RegisterAction (Pair Exponent) Exponent :=
  fun _ => (⟨exponent0, exponent1⟩, exponent0)

/-- Compute the max of both exponents and read the first one. -/
def exponentsMaxRead0 (exponent0 exponent1 : Exponent) : RegisterAction (Pair Exponent) Exponent :=
  fun value => (⟨max value.first exponent0, max value.second exponent1⟩, max value.first exponent0)

/-- Read the first max register. -/
def exponentsRead0 : RegisterAction (Pair Exponent) Exponent := fun value => (value, value.first)

/-- Read the second max register. -/
def exponentsRead1 : RegisterAction (Pair Exponent) Exponent := fun value => (value, value.second)

inductive ExponentAction
  | writeRead0 | maxRead0 | read0 | read1 | noAction
  deriving DecidableEq

/-- The entries of `exponent_max`: worker bitmap before, map result, packet type. -/
def exponentMaxEntries : List (Option WorkerBitmap × Option WorkerBitmap × PacketType × ExponentAction) :=
  [ (some 0, none, .CONSUME0, .writeRead0),
    (none, some 0, .CONSUME0, .maxRead0),
    (none, none, .CONSUME0, .read0),
    (none, none, .HARVEST7, .read1) ]

/-- The action `exponent_max` selects. -/
def exponentAction (md : SwitchmlMd) : ExponentAction :=
  (lookup exponentMaxEntries
    (fun e => hits e.1 md.workerBitmapBefore && hits e.2.1 md.mapResult && decide (md.packetType = e.2.2.1))
    (·.2.2.2)).getD .noAction

theorem exponentAction_CONSUME0 {md : SwitchmlMd} (h : md.packetType = .CONSUME0) :
    exponentAction md =
      if md.workerBitmapBefore = 0 then .writeRead0 else if md.mapResult = 0 then .maxRead0 else .read0 := by
  unfold exponentAction lookup exponentMaxEntries
  simp only [BitVec.ofNat_eq_ofNat, h]
  by_cases hb : md.workerBitmapBefore = 0#32 <;> by_cases hm : md.mapResult = 0#32 <;> simp [hb, hm]

/-- Outside CONSUME0 the exponents are only read, and only in the last pass. -/
theorem exponentAction_other {md : SwitchmlMd} (h0 : md.packetType ≠ .CONSUME0) :
    exponentAction md = if md.packetType = .HARVEST7 then .read1 else .noAction := by
  unfold exponentAction lookup exponentMaxEntries
  by_cases h7 : md.packetType = .HARVEST7 <;> simp [h0, h7]

namespace Exponents

/-- The new register array and the outputs `max_exponent0`, `max_exponent1`. -/
def apply (exponents : Register 15 (Pair Exponent)) (exponent0 exponent1 : Exponent) (md : SwitchmlMd) :
    Register 15 (Pair Exponent) × Exponent × Exponent :=
  match exponentAction md with
  | .writeRead0 =>
    let r := exponents.execute md.poolIndex (exponentsWriteRead0 exponent0 exponent1)
    (r.1, r.2, exponent1)
  | .maxRead0 =>
    let r := exponents.execute md.poolIndex (exponentsMaxRead0 exponent0 exponent1)
    (r.1, r.2, exponent1)
  | .read0 =>
    let r := exponents.execute md.poolIndex exponentsRead0
    (r.1, r.2, exponent1)
  | .read1 =>
    let r := exponents.execute md.poolIndex exponentsRead1
    (r.1, exponent0, r.2)
  | .noAction => (exponents, exponent0, exponent1)

variable {exponents : Register 15 (Pair Exponent)} {e0 e1 : Exponent} {md : SwitchmlMd}

theorem apply_CONSUME0 (h : md.packetType = .CONSUME0) :
    apply exponents e0 e1 md =
      let cell := md.absorb (Pair.map₂ max) (exponents md.poolIndex) ⟨e0, e1⟩
      (Function.update exponents md.poolIndex cell, cell.first, e1) := by
  unfold apply SwitchmlMd.absorb
  rw [exponentAction_CONSUME0 h]
  by_cases hb : md.workerBitmapBefore = 0
  · simp only [if_pos hb]; rfl
  · by_cases hm : md.mapResult = 0
    · simp only [if_neg hb, if_pos hm]; rfl
    · simp only [if_neg hb, if_neg hm]; rfl

theorem apply_other (h0 : md.packetType ≠ .CONSUME0) :
    apply exponents e0 e1 md =
      (exponents, e0, if md.packetType = .HARVEST7 then (exponents md.poolIndex).second else e1) := by
  unfold apply
  rw [exponentAction_other h0]
  by_cases h7 : md.packetType = .HARVEST7
  · rw [if_pos h7, if_pos h7]
    show ((exponents.execute md.poolIndex exponentsRead1).1, _, _) = _
    rw [Register.execute_readonly _ _ _ rfl]
    rfl
  · rw [if_neg h7, if_neg h7]

end Exponents

end SwitchML.P4
