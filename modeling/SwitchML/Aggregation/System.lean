/-
The system around one slot: the workers of a job, the packets between two
passes, and the registers of the four pipes.

A worker sends the packet of its next phase once it has accepted a response for
the phase before, and sends copies of its last packet at any time (`send`,
`resend`). The packets of one worker reach a consume pass in the order they were
put on their way to it; packets of different workers, and packets on their way
to harvest passes, overtake each other freely, and any packet may be lost.
Traffic of other slots runs through the pipes at any time (`other`).

What the program does in a pass is `Ingress.process` on the registers of the
pipe the packet's port belongs to. Everything that is only history is kept
beside it: which phases of a worker a pipe has seen, what was lost, and the
phases for which a broadcast candidate left the last consume pass.
-/
import SwitchML.Aggregation.Pipe
import SwitchML.Lib.Machine
import SwitchML.Lib.Queues

namespace SwitchML.Aggregation

open P4 Tna Phases

instance : Fintype PacketType where
  elems :=
    { .MIRROR, .BROADCAST, .RETRANSMIT, .IGNORE, .CONSUME0, .CONSUME1, .CONSUME2, .CONSUME3, .HARVEST0, .HARVEST1,
      .HARVEST2, .HARVEST3, .HARVEST4, .HARVEST5, .HARVEST6, .HARVEST7 }
  complete t := by cases t <;> decide

/-- A packet on its way to the pass its type names. -/
structure Flight (n : ℕ) where
  phase : ℕ
  /-- 0 for the original, then the retransmissions -/
  copy : ℕ
  /-- the port it will be received on -/
  port : PortId
  wire : Wire
  /-- whether it was the first of its phase and worker in some pipe -/
  novel : Bool
  /-- the workers pipe 0 had counted for the phase when the packet left it -/
  counted : Finset (Fin n)

/-- A BROADCAST, or a RETRANSMIT to the worker whose packet it was. -/
structure Response (n : ℕ) where
  broadcast : Bool
  worker : Fin n
  phase : ℕ
  wire : Wire
  counted : Finset (Fin n)

structure State (n : ℕ) where
  regs : Fin 4 → Regs
  flight : Queues (Fin n × PacketType) (Flight n)
  /-- how many phases a worker has begun -/
  sent : Fin n → ℕ
  /-- how many copies of its last packet a worker has sent -/
  copies : Fin n → ℕ
  accepted : Fin n → ℕ → Option (Response n)
  responses : List (Response n)
  /-- how many phases of a worker a pipe has seen -/
  seen : Fin 4 → Fin n → ℕ
  lost : List (Fin n × Flight n)
  candidates : List ℕ

/-- What a pass finds beside the packet: the port metadata, whether egress
will simulate a drop, and what the data headers hold before they are set. -/
structure PassInputs where
  portMetadata : PortMetadata
  simulateEgressDrop : Bool
  u0 : DataH
  u1 : DataH

/-- Nothing is simulated to be dropped. -/
def PassInputs.quiet : PassInputs := ⟨⟨0, 0⟩, false, fun _ => 0, fun _ => 0⟩

inductive Event (n : ℕ)
  | send (w : Fin n)
  | resend (w : Fin n)
  /-- the `i`-th packet of worker `w` on its way to pass `t` makes that pass -/
  | pass (w : Fin n) (t : PacketType) (i : ℕ) (inp : PassInputs)
  | lose (w : Fin n) (t : PacketType) (i : ℕ)
  /-- worker `w` accepts the `i`-th response -/
  | accept (w : Fin n) (i : ℕ)
  | other (p : Fin 4) (ig : Ig)

def State.init (n : ℕ) : State n where
  regs _ := Regs.zero
  flight _ := []
  sent _ := 0
  copies _ := 0
  accepted _ _ := none
  responses := []
  seen _ _ := 0
  lost := []
  candidates := []

/-- A broadcast candidate: LAST and not seen before. -/
def isCandidate (md : SwitchmlMd) : Bool :=
  decide (md.firstLastFlag = Controller.Flag.LAST) && decide (md.mapResult = 0)

/-- The first half of a pass: the packet leaves its queue, its pipe has the
registers `regs` and has seen it, if this is a consume pass. -/
def State.takeOff {n : ℕ} (s : State n) (w : Fin n) (t : PacketType) (i : ℕ) (f : Flight n) (regs : Regs) : State n :=
  { s with
    regs := Function.update s.regs (pipeOf f.port) regs
    seen :=
      if t.isConsume then Function.update s.seen (pipeOf f.port) (visit (s.seen (pipeOf f.port)) w f.phase)
      else s.seen
    flight := s.flight.take (w, t) i }

/-- The packet's history after a pass in a pipe that had seen `seen`. -/
def Flight.after {n : ℕ} (f : Flight n) (w : Fin n) (t : PacketType) (seen : Fin n → ℕ) : Flight n :=
  { f with
    novel := f.novel || (t.isConsume && decide (seen w = f.phase))
    counted := if t = .CONSUME0 then through (visit seen w f.phase) f.phase else f.counted }

/-- The second half: what becomes of the packet `f` after pass `t`. -/
def State.land {n : ℕ} (s : State n) (w : Fin n) (t : PacketType) (f : Flight n) : Outcome → State n
  | .gone => s
  | .response broadcast wire =>
    { s with responses := s.responses ++ [⟨broadcast, w, f.phase, wire, f.counted⟩] }
  | .recirculate port wire =>
    { s with
      flight := s.flight.put (w, wire.md.packetType) { f with port := port, wire := wire }
      candidates :=
        if t.isConsume && !wire.md.packetType.isConsume && isCandidate wire.md then f.phase :: s.candidates
        else s.candidates }

/-- A pass that leaves the registers `r.1` and the packet `r.2`. -/
def State.passed {n : ℕ} (s : State n) (w : Fin n) (t : PacketType) (i : ℕ) (f : Flight n) (r : Regs × Ig) :
    State n :=
  (s.takeOff w t i f r.1).land w t (f.after w t (s.seen (pipeOf f.port))) (outcome r.2)

namespace Session

variable {n : ℕ} (J : Session n)

/-- The packet of a phase as the worker puts it on the wire. -/
def launch (w : Fin n) (k copy : ℕ) : Flight n := ⟨k, copy, J.port w, J.packet w k, false, ∅⟩

/-- The start of a pass: parse the packet, and know its worker's bitmap, from
the receivers in the first pass and from the worker id afterwards. -/
def enter (w : Fin n) (inp : PassInputs) (f : Flight n) : Option Ig :=
  (parseRecirculate inp.u0 inp.u1 (Ig.ofWire inp.portMetadata f.port f.wire)).map fun ig =>
    if ig.md.packetType = .CONSUME0 then
      { ig with
        workerBitmap := J.bit w
        md := { ig.md with simulateEgressDrop := inp.simulateEgressDrop } }
    else Ingress.rebuild ig

/-- Whether a pass may be made now: consume passes are made in order, and a
packet the drop simulator takes is lost instead. -/
def mayPass (t : PacketType) (i : ℕ) (inp : PassInputs) : Bool :=
  !t.isConsume || (decide (i = 0) &&
    !(decide (t = .CONSUME0) && decide (inp.portMetadata.ingressDropProbability = 0xffff)))

def next (s : State n) : Event n → Option (State n)
  | .send w =>
    if s.sent w = 0 ∨ (s.accepted w (s.sent w - 1)).isSome then
      some { s with
        sent := Function.update s.sent w (s.sent w + 1)
        copies := Function.update s.copies w 1
        flight := s.flight.put (w, .CONSUME0) (J.launch w (s.sent w) 0) }
    else none
  | .resend w =>
    if 0 < s.sent w then
      some { s with
        copies := Function.update s.copies w (s.copies w + 1)
        flight := s.flight.put (w, .CONSUME0) (J.launch w (s.sent w - 1) (s.copies w)) }
    else none
  | .pass w t i inp =>
    if mayPass t i inp then
      (s.flight (w, t))[i]?.bind fun f =>
        (J.enter w inp f).map fun ig =>
          s.passed w t i f (Ingress.process J.tables (s.regs (pipeOf f.port)) ig)
    else none
  | .lose w t i =>
    (s.flight (w, t))[i]?.map fun f =>
      { s with flight := s.flight.take (w, t) i, lost := (w, f) :: s.lost }
  | .accept w i =>
    s.responses[i]?.bind fun r =>
      if (r.broadcast = true ∨ r.worker = w) ∧ r.phase + 1 = s.sent w ∧ s.accepted w r.phase = none then
        some { s with accepted := Function.update s.accepted w (Function.update (s.accepted w) r.phase (some r)) }
      else none
  | .other p ig =>
    if slotOf ig.md.poolIndex = J.slot then none
    else some { s with regs := Function.update s.regs p (Ingress.process J.tables (s.regs p) ig).1 }

def machine : Machine (State n) (Event n) where
  init s := s = State.init n
  next := J.next

end Session

end SwitchML.Aggregation
