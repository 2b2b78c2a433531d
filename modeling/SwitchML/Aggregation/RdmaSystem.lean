/-
The workers of an RDMA session, with the switch between them.

Each worker's thread posts the messages of its queue pairs, and its network card
reads a message from the buffer when it sends it, packet by packet. A packet has
a slot of its own, and what becomes of it there is the system around this slot
(`Session.next`), now with the data, the ids and the exponents that the packet
has. A response is written over the buffer where it arrives, whatever message is
there by then, and the last packet of a message completes a receive request if
one is posted. Requests and responses may be lost, and responses may be late by
any time. The network card is not relied on to send the packets of different
slots in order, nor to notice that a packet of a response is missing.

It is only history that a thread's buffer was `written` since the message in it
was preprocessed, and which packets are `stale`, as they were read from such a
buffer or from the one of a later message.
-/
import SwitchML.Aggregation.QueuePairs
import SwitchML.Aggregation.SlotPass
import SwitchML.Client.RdmaPosts
import SwitchML.P4.RDMASender

namespace SwitchML.Aggregation

open P4 Tna Phases Controller Client

/-- The workers of one session of the RoCE protocol, with one thread each. The
registered buffers are at the same address on all of them. -/
structure RdmaSession (n : ℕ) where
  config : RdmaConfig
  pos : 0 < n
  id : Fin n → Fin 32
  id_injective : Function.Injective id
  packetSize : PacketSize
  foldedPipe : Bool
  supported : ∀ w, Supported packetSize foldedPipe (id w)
  /-- A packet has as many elements as the pipes take. -/
  packetNumel : config.packetNumel = if packetSize = .MTU_256 then 64 else 256
  /-- All queue pairs have slots. -/
  fits : ∀ q : config.Qpn, (config.globalIndex q + 1) * config.numPktsPerMsg * 2 ≤ 2 ^ 15
  port : Fin n → PortId
  pipeOf_port : ∀ w, pipeOf (port w) = 0
  receivedMd : Fin n → SwitchmlMd
  /-- The address of a queue pair's buffer. -/
  rdmaAddr : config.Qpn → BitVec 64
  arpIcmp : List ArpIcmpEntry
  forward : ForwardTable

namespace RdmaSession

variable {n : ℕ} (S : RdmaSession n)

/-- A packet's place in the messages of a queue pair, which is its part of the
buffer and its slot. -/
abbrev Place := S.config.Qpn × Fin S.config.numPktsPerMsg

def isLast (x : S.Place) : Bool := decide (x.2.val + 1 = S.config.numPktsPerMsg)

/-- The slot of a place, for packets that carry nothing. -/
def job (x : S.Place) : Job n where
  pos := S.pos
  id := S.id
  id_injective := S.id_injective
  packetSize := S.packetSize
  foldedPipe := S.foldedPipe
  supported := S.supported
  slot := slotOf (advance (S.config.initialRkey x.1) x.2)
  firstSet := false
  port := S.port
  pipeOf_port := S.pipeOf_port
  receivedMd w _ :=
    { blankMd (S.receivedMd w) with firstPacket := decide (x.2.val = 0), lastPacket := S.isLast x }
  rdmaAddr _ _ := S.rdmaAddr x.1
  contribution _ _ _ := blankData
  arpIcmp := S.arpIcmp
  forward := S.forward

/-! ## Packets -/

/-- The word of a message at which slice `j` of a packet has its `i`-th. -/
def wordAt (x : S.Place) (j : ℕ) (i : Fin 32) : ℕ := x.2.val * S.config.packetNumel + (32 * j + i.val)

/-- The data of a packet, as it is read from memory. -/
def slices (x : S.Place) (words : ℕ → Word) : List DataH :=
  (List.range (if S.packetSize = .MTU_256 then 2 else 8)).map fun j i => htonl (words (S.wordAt x j i))

/-- The metadata of a request's packet after the receiver. The last packet has
the immediate, whose bytes are those of `imm_data` in memory. -/
def requestMd (w : Fin n) (x : S.Place) (wr : SendWr) : SwitchmlMd :=
  let immediate := if S.isLast x then htonl wr.immData else 0
  { S.receivedMd w with
    packetSize := S.packetSize
    workerId := BitVec.ofNat 16 (S.id w)
    packetType := .CONSUME0
    poolIndex := advance wr.rkey x.2
    numWorkers := BitVec.ofNat 8 n
    ingressPort := S.port w
    firstPacket := decide (x.2.val = 0)
    lastPacket := S.isLast x
    msgId := immediate.extractLsb' 16 16
    e0 := .ofBitVec (immediate.extractLsb' 8 8)
    e1 := .ofBitVec (immediate.extractLsb' 0 8) }

/-- A packet of a posted request, where the buffer holds `words`. -/
def request (w : Fin n) (x : S.Place) (wr : SendWr) (copy : ℕ) (words : ℕ → Word) : Flight n where
  phase := wr.no - 1
  copy := copy
  port := S.port w
  wire := { md := S.requestMd w x wr, rdmaAddr := S.rdmaAddr x.1, payload := S.slices x words }
  novel := false
  counted := ∅

/-- A response's data is written over its part of the buffer. -/
def write (x : S.Place) (payload : List DataH) (words : ℕ → Word) : ℕ → Word := fun k =>
  let i := k - x.2.val * S.config.packetNumel
  if x.2.val * S.config.packetNumel ≤ k ∧ i < S.config.packetNumel then
    htonl (payload.getD (i / 32) blankData ⟨i % 32, Nat.mod_lt _ (by decide)⟩)
  else words k

end RdmaSession

/-- The immediate of a response. -/
def responseImmediate (md : SwitchmlMd) : BitVec 32 := md.msgId ++ md.e0.toBitVec ++ md.e1.toBitVec

/-- The id the worker finds in a packet's response. -/
def shortIdOf (md : SwitchmlMd) : BitVec 16 := shortMsgId (htonl (responseImmediate md))

/-! ## The system -/

structure RdmaState {n : ℕ} (S : RdmaSession n) (K : Type) where
  threads : Fin n → RdmaWorkerThread S.config K
  /-- how many of the requests posted on a queue pair were sent, by the packet's place -/
  emitted : Fin n → S.Place → ℕ
  slots : S.Place → State n
  /-- the responses on their way to a worker -/
  inbox : Queues (S.Place × Fin n) (Response n)
  /-- the completions of receive requests that were not polled yet -/
  completions : Queues (S.config.Qpn × Fin n) (Response n)
  written : Fin n → S.Place → Bool
  stale : List (Fin n × S.Place × ℕ × ℕ)

inductive RdmaEvent {n : ℕ} (S : RdmaSession n)
  | thread (w : Fin n) (e : RdmaWorkerThread.Event S.config)
  /-- the network card sends a packet of the next request -/
  | emit (w : Fin n) (x : S.Place)
  | slot (x : S.Place) (e : Event n)
  /-- the `i`-th response on its way to worker `w` is lost -/
  | lose (x : S.Place) (w : Fin n) (i : ℕ)
  | deliver (x : S.Place) (w : Fin n) (i : ℕ)
  /-- the thread gets the next completion of a queue pair -/
  | poll (q : S.config.Qpn) (w : Fin n)

def Response.goesTo {n : ℕ} (r : Response n) (w : Fin n) : Bool := r.broadcast || decide (r.worker = w)

namespace RdmaState

variable {n : ℕ} {S : RdmaSession n} {K : Type} (s : RdmaState S K)

def init (memory : Fin n → Memory) (buffers : Fin n → S.config.Qpn → ℕ → Word) : RdmaState S K where
  threads w := .new S.config (memory w) (buffers w)
  emitted _ _ := 0
  slots _ := State.init n
  inbox _ := []
  completions _ := []
  written _ _ := false
  stale := []

/-- A step of a thread. A new message is one that was preprocessed into the buffer. -/
def setThread (w : Fin n) (t : RdmaWorkerThread S.config K) : RdmaState S K :=
  { s with
    threads := Function.update s.threads w t
    written := fun v x =>
      if v = w ∧ (t.sendWrs x.1).no ≠ ((s.threads w).sendWrs x.1).no then false else s.written v x }

def emit (w : Fin n) (x : S.Place) (p : Post) : RdmaState S K :=
  let copy := if p.isRetransmission then (s.slots x).copies w else 0
  { s with
    emitted := Function.update s.emitted w (Function.update (s.emitted w) x (s.emitted w x + 1))
    slots := Function.update s.slots x
      { s.slots x with
        sent := Function.update (s.slots x).sent w p.wr.no
        copies := Function.update (s.slots x).copies w (copy + 1)
        flight := (s.slots x).flight.put (w, .CONSUME0)
          (S.request w x p.wr copy ((s.threads w).buffers x.1)) }
    stale :=
      if s.written w x = true ∨ p.wr.no ≠ ((s.threads w).sendWrs x.1).no then (w, x, p.wr.no - 1, copy) :: s.stale
      else s.stale }

/-- A step at a place; a broadcast goes to all workers. -/
def stepSlot (x : S.Place) (t : State n) : RdmaState S K :=
  { s with
    slots := Function.update s.slots x t
    inbox := fun key =>
      if key.1 = x then s.inbox key ++ (t.responses.drop (s.slots x).responses.length).filter (·.goesTo key.2)
      else s.inbox key }

/-- The network card writes the data to memory, and completes a receive request
with the last packet of a message. -/
def deliver (x : S.Place) (w : Fin n) (i : ℕ) (r : Response n) : RdmaState S K :=
  let t := s.threads w
  { s with
    threads := Function.update s.threads w
      { t with buffers := Function.update t.buffers x.1 (S.write x r.wire.payload (t.buffers x.1)) }
    inbox := s.inbox.take (x, w) i
    completions :=
      if S.isLast x = true ∧ (s.completions (x.1, w)).length < t.recvWrs x.1 then s.completions.put (x.1, w) r
      else s.completions
    written := Function.update s.written w (Function.update (s.written w) x true) }

/-- The completion the thread gets. -/
def completion (q : S.config.Qpn) (r : Response n) : Completion S.config where
  qpn := q
  immData := htonl (responseImmediate r.wire.md)

variable (ops : FloatOps K)

def next (s : RdmaState S K) : RdmaEvent S → Option (RdmaState S K)
  | .thread w e => if e.isOwn then ((s.threads w).next ops e).map (s.setThread w) else none
  | .emit w x => (((s.threads w).posts x.1)[s.emitted w x]?).map (s.emit w x)
  | .slot x e => if e.ofSwitch then ((S.job x).next (s.slots x) e).map (s.stepSlot x) else none
  | .lose x w i => ((s.inbox (x, w))[i]?).map fun _ => { s with inbox := s.inbox.take (x, w) i }
  | .deliver x w i => ((s.inbox (x, w))[i]?).map (s.deliver x w i)
  | .poll q w =>
    ((s.completions (q, w))[0]?).bind fun r =>
      ((s.threads w).next ops (.complete (completion q r))).map fun t =>
        { s.setThread w t with completions := s.completions.take (q, w) 0 }

/-- The session, from where the threads enter their main loops. -/
def machine : Machine (RdmaState S K) (RdmaEvent S) where
  init s := ∃ memory buffers, s = init memory buffers
  next := next ops

end RdmaState

end SwitchML.Aggregation
