/-
`grpc_server.py`: the handlers `Barrier` and `Broadcast` of the Sync service,
which workers call to agree on a session. The event loop runs one handler at a
time up to its `await`, so a handler is cut there into what it does when the
request arrives and what it does when the event it waits for is set; the lock
is reentrant and taken by one thread only, so it never blocks.

An `asyncio.Event` is an index into the list of all events made so far, and
the list says which are set.
-/
import SwitchML.Lib.Machine
import Mathlib.Data.Finset.Card
import Mathlib.Data.Fintype.Basic
import Mathlib.Logic.Function.Basic

namespace SwitchML.Controller

/-- What ends a handler with an exception. -/
inductive PyError
  | keyError (key : ℕ)
  | indexError (index : ℕ)
  deriving DecidableEq

/-- A lookup in a dictionary. -/
def getItem {α : Type} (d : ℕ → Option α) (key : ℕ) : Except PyError α :=
  match d key with
  | some v => .ok v
  | none => .error (.keyError key)

/-- `del d[key]`. -/
def delItem {α : Type} (d : ℕ → Option α) (key : ℕ) : Except PyError (ℕ → Option α) := do
  let _ ← getItem d key
  .ok (Function.update d key none)

/-- A lookup in a list. -/
def getIndex {α : Type} (l : List α) (index : ℕ) : Except PyError α :=
  match l[index]? with
  | some v => .ok v
  | none => .error (.indexError index)

/-- `del l[index]`. -/
def delIndex {α : Type} (l : List α) (index : ℕ) : Except PyError (List α) := do
  let _ ← getIndex l index
  .ok (l.eraseIdx index)

/-- `l[index] = v`. -/
def setIndex {α : Type} (l : List α) (index : ℕ) (v : α) : Except PyError (List α) := do
  let _ ← getIndex l index
  .ok (l.set index v)

/-! ## Barrier -/

structure Barrier where
  /-- Incrementing operation id. -/
  opId : ℕ
  ctrs : ℕ → Option ℤ
  /-- The release event of an operation. -/
  events : ℕ → Option ℕ
  isSet : List Bool

namespace Barrier

/-- As `_serve` sets it up. -/
def new : Barrier where
  opId := 0
  ctrs := Function.update (fun _ => none) 0 (some 0)
  events := Function.update (fun _ => none) 0 (some 0)
  isSet := [false]

/-- `Barrier` up to its `await`: the operation and the event it waits for, or
`none` where the handler returns. -/
def start (s : Barrier) (numWorkers : ℕ) : Except PyError (Barrier × Option (ℕ × ℕ)) := do
  let ctr := (← getItem s.ctrs s.opId) + 1
  let s := { s with ctrs := Function.update s.ctrs s.opId (some ctr) }
  let event ← getItem s.events s.opId
  if ctr < numWorkers then
    .ok (s, some (s.opId, event))
  else
    let ctrs := Function.update s.ctrs s.opId (some (ctr - 1))
    .ok ({
      opId := s.opId + 1
      ctrs := Function.update ctrs (s.opId + 1) (some 0)
      events := Function.update s.events (s.opId + 1) (some s.isSet.length)
      isSet := s.isSet.set event true ++ [false] }, none)

/-- The rest of `Barrier` once the event is set. -/
def resume (s : Barrier) (tmpId : ℕ) : Except PyError Barrier := do
  let ctr := (← getItem s.ctrs tmpId) - 1
  let s := { s with ctrs := Function.update s.ctrs tmpId (some ctr) }
  if ctr = 0 then
    .ok { s with ctrs := ← delItem s.ctrs tmpId, events := ← delItem s.events tmpId }
  else
    .ok s

end Barrier

/-- The barrier and the clients that call it, each with at most one call. -/
structure BarrierRun (n : ℕ) where
  barrier : Barrier
  /-- The operation and event a client's call waits for. -/
  waits : Fin n → Option (ℕ × ℕ)
  fault : Option PyError
  /-- How many calls a client has begun. -/
  started : Fin n → ℕ
  /-- How many of them have returned. -/
  returned : Fin n → ℕ
  /-- How many calls an operation has let return. -/
  released : ℕ → ℕ

namespace BarrierRun

variable {n : ℕ}

def new (n : ℕ) : BarrierRun n where
  barrier := Barrier.new
  waits _ := none
  fault := none
  started _ := 0
  returned _ := 0
  released _ := 0

inductive Event (n : ℕ)
  | call (c : Fin n)
  | resume (c : Fin n)

/-- Operation `op` lets the call of client `c` return. -/
def release (s : BarrierRun n) (c : Fin n) (op : ℕ) : BarrierRun n :=
  { s with
    waits := Function.update s.waits c none
    returned := Function.update s.returned c (s.returned c + 1)
    released := Function.update s.released op (s.released op + 1) }

def call (s : BarrierRun n) (c : Fin n) : BarrierRun n :=
  match s.barrier.start n with
  | .error f => { s with fault := some f }
  | .ok (barrier, some w) =>
    { s with
      barrier
      waits := Function.update s.waits c (some w)
      started := Function.update s.started c (s.started c + 1) }
  | .ok (barrier, none) =>
    { s.release c s.barrier.opId with
      barrier
      started := Function.update s.started c (s.started c + 1) }

def resume (s : BarrierRun n) (c : Fin n) (tmpId : ℕ) : BarrierRun n :=
  match s.barrier.resume tmpId with
  | .error f => { s with fault := some f }
  | .ok barrier => { s.release c tmpId with barrier }

/-- A client without a call begins one, or a call whose event is set goes on. -/
def next (s : BarrierRun n) (e : Event n) : Option (BarrierRun n) :=
  if s.fault.isSome then none
  else match e with
    | .call c => if s.waits c = none then some (s.call c) else none
    | .resume c =>
      match s.waits c with
      | some (tmpId, event) => if s.barrier.isSet[event]? = some true then some (s.resume c tmpId) else none
      | none => none

def machine (n : ℕ) : Machine (BarrierRun n) (Event n) where
  init s := s = new n
  next := next

end BarrierRun

/-! ## Broadcast -/

structure Broadcast (V : Type) where
  values : List (Option V)
  bitmap : List (List Bool)
  events : List ℕ
  isSet : List Bool

namespace Broadcast

variable {V : Type}

def new : Broadcast V where
  values := []
  bitmap := []
  events := []
  isSet := []

/-- The loop that removes old operations, over the indices it was begun with. -/
def removeOld (s : Broadcast V) : List ℕ → Except PyError (Broadcast V)
  | [] => .ok s
  | idx :: rest => do
    let bits ← getIndex s.bitmap idx
    if bits.all id then
      removeOld { s with
        bitmap := ← delIndex s.bitmap idx
        values := ← delIndex s.values idx
        events := ← delIndex s.events idx } rest
    else
      removeOld s rest

/-- The loop that looks for an operation without the worker's bit: the last
index it has seen, or `none` for -1. -/
def scan (bitmap : List (List Bool)) (rank : ℕ) : List ℕ → Option ℕ → Except PyError (Option ℕ)
  | [], idx => .ok idx
  | i :: rest, _ => do
    let bit ← getIndex (← getIndex bitmap i) rank
    if !bit then .ok (some i) else scan bitmap rank rest (some i)

/-- The operation a request belongs to, which is a new one if the worker's bit
is set in all there are. -/
def operation (s : Broadcast V) (numWorkers rank : ℕ) : Except PyError (Broadcast V × ℕ) := do
  let idx ← scan s.bitmap rank (List.range s.bitmap.length) none
  let isNew ← match idx with
    | none => .ok true
    | some i => getIndex (← getIndex s.bitmap i) rank
  if isNew then
    .ok ({
      bitmap := s.bitmap ++ [List.replicate numWorkers false]
      values := s.values ++ [none]
      events := s.events ++ [s.isSet.length]
      isSet := s.isSet ++ [false] }, idx.elim 0 (· + 1))
  else
    .ok (s, idx.elim 0 id)

/-- `self._bcast_bitmap[idx][request.rank] = True`. -/
def setBit (s : Broadcast V) (idx rank : ℕ) : Except PyError (Broadcast V) := do
  let bits ← setIndex (← getIndex s.bitmap idx) rank true
  .ok { s with bitmap := ← setIndex s.bitmap idx bits }

/-- What a handler comes to: it returns a value, or waits for an event with
an index. -/
inductive Outcome (V : Type)
  | value (v : Option V)
  | waits (idx event : ℕ)

/-- The end of a handler. -/
def answer (s : Broadcast V) (idx : ℕ) : Except PyError (Broadcast V × Outcome V) := do
  let v ← getIndex s.values idx
  .ok (s, .value v)

/-- `Broadcast` up to its `await`, or to its end where it has none. -/
def start (s : Broadcast V) (numWorkers rank root : ℕ) (value : V) : Except PyError (Broadcast V × Outcome V) := do
  let s ← removeOld s (List.range s.bitmap.length)
  let (s, idx) ← operation s numWorkers rank
  if rank = root then
    let s := { s with values := ← setIndex s.values idx (some value) }
    let event ← getIndex s.events idx
    let s := { s with isSet := ← setIndex s.isSet event true }
    let s ← setBit s idx rank
    answer s idx
  else if (← getIndex s.values idx).isNone then
    let event ← getIndex s.events idx
    .ok (s, .waits idx event)
  else
    let s ← setBit s idx rank
    answer s idx

/-- The rest of `Broadcast` once the event is set. -/
def resume (s : Broadcast V) (rank idx : ℕ) : Except PyError (Broadcast V × Outcome V) := do
  let s ← setBit s idx rank
  answer s idx

end Broadcast

/-- The broadcasts of a group of `n` workers, each with at most one call. -/
structure BroadcastRun (V : Type) (n : ℕ) where
  broadcast : Broadcast V
  /-- The index and event a worker's call waits with. -/
  waits : Fin n → Option (ℕ × ℕ)
  fault : Option PyError
  /-- The values the root has passed, in order. -/
  sent : List V
  /-- What the calls of a worker have returned, in order. -/
  results : Fin n → List (Option V)

namespace BroadcastRun

variable {V : Type} {n : ℕ}

def new (V : Type) (n : ℕ) : BroadcastRun V n where
  broadcast := Broadcast.new
  waits _ := none
  fault := none
  sent := []
  results _ := []

inductive Event (V : Type) (n : ℕ)
  /-- A worker calls `Broadcast` with a value, which only the root's matters. -/
  | call (rank : Fin n) (value : V)
  | resume (rank : Fin n)

/-- A handler of worker `rank` has come so far. -/
def handled (s : BroadcastRun V n) (rank : Fin n) (r : Except PyError (Broadcast V × Broadcast.Outcome V)) :
    BroadcastRun V n :=
  match r with
  | .error f => { s with fault := some f }
  | .ok (broadcast, .waits idx event) =>
    { s with broadcast, waits := Function.update s.waits rank (some (idx, event)) }
  | .ok (broadcast, .value v) =>
    { s with
      broadcast
      waits := Function.update s.waits rank none
      results := Function.update s.results rank (s.results rank ++ [v]) }

def call (s : BroadcastRun V n) (root rank : Fin n) (value : V) : BroadcastRun V n :=
  { s with sent := if rank = root then s.sent ++ [value] else s.sent }.handled rank
    (s.broadcast.start n rank root value)

def next (root : Fin n) (s : BroadcastRun V n) (e : Event V n) : Option (BroadcastRun V n) :=
  if s.fault.isSome then none
  else match e with
    | .call rank value => if s.waits rank = none then some (s.call root rank value) else none
    | .resume rank =>
      match s.waits rank with
      | some (idx, event) =>
        if s.broadcast.isSet[event]? = some true then some (s.handled rank (s.broadcast.resume rank idx)) else none
      | none => none

/-- A group with a fixed root. -/
def machine (V : Type) (root : Fin n) : Machine (BroadcastRun V n) (Event V n) where
  init s := s = new V n
  next := next root

end BroadcastRun

/-! ## What the operations on dictionaries and lists do when they do not fault -/

theorem getItem_some {α : Type} {d : ℕ → Option α} {key : ℕ} {v : α} (h : d key = some v) : getItem d key = .ok v := by
  simp [getItem, h]

theorem getIndex_some {α : Type} {l : List α} {index : ℕ} {v : α} (h : l[index]? = some v) :
    getIndex l index = .ok v := by
  simp [getIndex, h]

theorem getIndex_none {α : Type} {l : List α} {index : ℕ} (h : l.length ≤ index) :
    getIndex l index = .error (.indexError index) := by
  simp [getIndex, List.getElem?_eq_none h]

theorem setIndex_of_lt {α : Type} {l : List α} {index : ℕ} (h : index < l.length) (v : α) :
    setIndex l index v = .ok (l.set index v) := by
  simp [setIndex, getIndex_some (List.getElem?_eq_getElem h), bind, Except.bind]

theorem delIndex_of_lt {α : Type} {l : List α} {index : ℕ} (h : index < l.length) :
    delIndex l index = .ok (l.eraseIdx index) := by
  simp [delIndex, getIndex_some (List.getElem?_eq_getElem h), bind, Except.bind]

end SwitchML.Controller
