/-
`GRPCServer.reset`, which the command line calls from its own thread, against
the handlers, which all run on the thread of the event loop. A handler takes
the server's lock, and keeps it over its `await`: the lock is reentrant, so
that the other handlers are not kept out, but `reset` is, as long as one of
them waits.

A reset that does get the lock finds no handler inside it. What it leaves is a
server as it was set up, next to the events and the responses of the past,
which nothing refers to any more.
-/
import SwitchML.Controller.SyncHandlers
import SwitchML.Lib.Machine
import SwitchML.Lib.ReentrantLock

namespace SwitchML.Controller

open Raising

/-! ## The server -/

/-- The threads that take the server's lock. -/
inductive Thread
  /-- It runs all handlers. -/
  | eventLoop
  /-- It runs `reset_workers`. -/
  | cli
  deriving DecidableEq

/-- A handler at its `await`, with what it goes on with and the event. -/
inductive Await
  | barrier (tmpId event : ℕ)
  | broadcast (rank idx event : ℕ)

inductive Response (V : Type)
  | barrier
  | broadcast (value : Option V)
  | error (e : PyError)
  /-- The client has given up on a handler at its `await`. -/
  | cancelled

structure GRPCServer (V : Type) where
  lock : ReentrantLock Thread
  barrier : Barrier
  broadcast : Broadcast V
  /-- The handlers at their `await`. -/
  suspended : List Await
  /-- A `Broadcast` that has left the lock, and has to read the value at this
  index before it returns. -/
  returning : Option ℕ
  /-- `reset` is inside the lock. -/
  resetting : Bool
  /-- What the calls have returned so far, in order. -/
  responses : List (Response V)

namespace GRPCServer

variable {V : Type}

/-- As `_serve` sets it up. -/
def new (V : Type) : GRPCServer V where
  lock := .free
  barrier := Barrier.new
  broadcast := Broadcast.new
  suspended := []
  returning := none
  resetting := false
  responses := []

inductive Event (V : Type)
  | barrier (numWorkers : ℕ)
  | broadcast (numWorkers rank root : ℕ) (value : V)
  /-- The `i`-th of the handlers that wait goes on. -/
  | resume (i : ℕ)
  /-- It is cancelled. -/
  | cancel (i : ℕ)
  /-- The handler outside the lock returns. -/
  | answer
  | resetEnter
  | resetLeave

def callBarrier (s : GRPCServer V) (numWorkers : ℕ) : Option (GRPCServer V) := do
  let lock ← s.lock.acquire .eventLoop
  match Barrier.enter numWorkers s.barrier with
  | .ok (some (tmpId, event)) barrier =>
    some { s with lock, barrier, suspended := s.suspended ++ [.barrier tmpId event] }
  | .ok none barrier =>
    (lock.release .eventLoop).map fun lock => { s with lock, barrier, responses := s.responses ++ [.barrier] }
  | .error e barrier =>
    (lock.release .eventLoop).map fun lock => { s with lock, barrier, responses := s.responses ++ [.error e] }

def callBroadcast (s : GRPCServer V) (numWorkers rank root : ℕ) (value : V) : Option (GRPCServer V) := do
  let lock ← s.lock.acquire .eventLoop
  match Broadcast.enter numWorkers rank root value s.broadcast with
  | .ok (idx, some event) broadcast =>
    some { s with lock, broadcast, suspended := s.suspended ++ [.broadcast rank idx event] }
  | .ok (idx, none) broadcast =>
    (lock.release .eventLoop).map fun lock => { s with lock, broadcast, returning := some idx }
  | .error e broadcast =>
    (lock.release .eventLoop).map fun lock => { s with lock, broadcast, responses := s.responses ++ [.error e] }

/-- A handler at its `await` goes on if its event is set, to where it has left
the lock. -/
def resume (s : GRPCServer V) (i : ℕ) : Option (GRPCServer V) :=
  match s.suspended[i]? with
  | none => none
  | some (.barrier tmpId event) =>
    if s.barrier.isSet[event]? = some true then
      (s.lock.release .eventLoop).map fun lock =>
        match Barrier.leave tmpId s.barrier with
        | .ok _ barrier =>
          { s with lock, barrier, suspended := s.suspended.eraseIdx i, responses := s.responses ++ [.barrier] }
        | .error e barrier =>
          { s with lock, barrier, suspended := s.suspended.eraseIdx i, responses := s.responses ++ [.error e] }
    else none
  | some (.broadcast rank idx event) =>
    if s.broadcast.isSet[event]? = some true then
      (s.lock.release .eventLoop).map fun lock =>
        match Broadcast.leave rank idx s.broadcast with
        | .ok _ broadcast =>
          { s with lock, broadcast, suspended := s.suspended.eraseIdx i, returning := some idx }
        | .error e broadcast =>
          { s with lock, broadcast, suspended := s.suspended.eraseIdx i, responses := s.responses ++ [.error e] }
    else none

def cancel (s : GRPCServer V) (i : ℕ) : Option (GRPCServer V) :=
  match s.suspended[i]? with
  | none => none
  | some _ =>
    (s.lock.release .eventLoop).map fun lock =>
      { s with lock, suspended := s.suspended.eraseIdx i, responses := s.responses ++ [.cancelled] }

/-- `return BroadcastResponse(value=self._bcast_values[idx])`. -/
def answer (s : GRPCServer V) : Option (GRPCServer V) :=
  s.returning.map fun idx =>
    match getIndex s.broadcast.values idx with
    | .ok value => { s with returning := none, responses := s.responses ++ [.broadcast value] }
    | .error e => { s with returning := none, responses := s.responses ++ [.error e] }

def resetEnter (s : GRPCServer V) : Option (GRPCServer V) :=
  if s.resetting then none
  else (s.lock.acquire .cli).map fun lock => { s with lock, resetting := true }

def resetLeave (s : GRPCServer V) : Option (GRPCServer V) :=
  if s.resetting then
    (s.lock.release .cli).map fun lock =>
      { s with lock, barrier := s.barrier.reset, broadcast := s.broadcast.reset, resetting := false }
  else none

/-- One step of the event loop, which does nothing else before a handler that
has left the lock returns, or of the command line. -/
def next (s : GRPCServer V) (e : Event V) : Option (GRPCServer V) :=
  match e with
  | .barrier numWorkers => if s.returning.isSome then none else s.callBarrier numWorkers
  | .broadcast numWorkers rank root value =>
    if s.returning.isSome then none else s.callBroadcast numWorkers rank root value
  | .resume i => if s.returning.isSome then none else s.resume i
  | .cancel i => if s.returning.isSome then none else s.cancel i
  | .answer => s.answer
  | .resetEnter => s.resetEnter
  | .resetLeave => s.resetLeave

def machine (V : Type) : Machine (GRPCServer V) (Event V) where
  init s := s = new V
  next := next

/-! ## The lock -/

/-- What a step does to the lock and to the handlers that wait. -/
inductive Moved (s s' : GRPCServer V) : Prop
  | suspends (a : Await) : s.lock.acquire .eventLoop = some s'.lock → s'.suspended = s.suspended ++ [a] →
      s'.resetting = s.resetting → Moved s s'
  | passes (lock : ReentrantLock Thread) : s.lock.acquire .eventLoop = some lock →
      lock.release .eventLoop = some s'.lock → s'.suspended = s.suspended → s'.resetting = s.resetting → Moved s s'
  | leaves (i : ℕ) : i < s.suspended.length → s.lock.release .eventLoop = some s'.lock →
      s'.suspended = s.suspended.eraseIdx i → s'.resetting = s.resetting → Moved s s'
  | answers : s'.lock = s.lock → s'.suspended = s.suspended → s'.resetting = s.resetting → Moved s s'
  | resetEnter : s.resetting = false → s.lock.acquire .cli = some s'.lock → s'.suspended = s.suspended →
      s'.resetting = true → Moved s s'
  | resetLeave : s.resetting = true → s.lock.release .cli = some s'.lock → s'.suspended = s.suspended →
      s'.resetting = false → Moved s s'

variable {s s' : GRPCServer V}

theorem moved_callBarrier {numWorkers : ℕ} (h : s.callBarrier numWorkers = some s') : Moved s s' := by
  obtain ⟨lock, hacq, h⟩ := Option.bind_eq_some_iff.mp h
  split at h
  · rename_i tmpId event barrier _
    cases h
    exact .suspends _ hacq rfl rfl
  · obtain ⟨lock', hrel, rfl⟩ := Option.map_eq_some_iff.mp h
    exact .passes lock hacq hrel rfl rfl
  · obtain ⟨lock', hrel, rfl⟩ := Option.map_eq_some_iff.mp h
    exact .passes lock hacq hrel rfl rfl

theorem moved_callBroadcast {numWorkers rank root : ℕ} {value : V}
    (h : s.callBroadcast numWorkers rank root value = some s') : Moved s s' := by
  obtain ⟨lock, hacq, h⟩ := Option.bind_eq_some_iff.mp h
  split at h
  · cases h
    exact .suspends _ hacq rfl rfl
  · obtain ⟨lock', hrel, rfl⟩ := Option.map_eq_some_iff.mp h
    exact .passes lock hacq hrel rfl rfl
  · obtain ⟨lock', hrel, rfl⟩ := Option.map_eq_some_iff.mp h
    exact .passes lock hacq hrel rfl rfl

theorem lt_of_getElem?_some {α : Type} {l : List α} {i : ℕ} {a : α} (h : l[i]? = some a) : i < l.length :=
  (List.getElem?_eq_some_iff.mp h).1

theorem moved_resume {i : ℕ} (h : s.resume i = some s') : Moved s s' := by
  unfold resume at h
  split at h
  · cases h
  · rename_i tmpId event ha
    simp only [Option.ite_none_right_eq_some] at h
    obtain ⟨lock, hrel, h⟩ := Option.map_eq_some_iff.mp h.2
    split at h
    · subst h
      exact .leaves i (lt_of_getElem?_some ha) hrel rfl rfl
    · subst h
      exact .leaves i (lt_of_getElem?_some ha) hrel rfl rfl
  · rename_i rank idx event ha
    simp only [Option.ite_none_right_eq_some] at h
    obtain ⟨lock, hrel, h⟩ := Option.map_eq_some_iff.mp h.2
    split at h
    · subst h
      exact .leaves i (lt_of_getElem?_some ha) hrel rfl rfl
    · subst h
      exact .leaves i (lt_of_getElem?_some ha) hrel rfl rfl

theorem moved {e : Event V} (h : next s e = some s') : Moved s s' := by
  cases e with
  | barrier numWorkers =>
    simp only [next, Option.ite_none_left_eq_some] at h
    exact moved_callBarrier h.2
  | broadcast numWorkers rank root value =>
    simp only [next, Option.ite_none_left_eq_some] at h
    exact moved_callBroadcast h.2
  | resume i =>
    simp only [next, Option.ite_none_left_eq_some] at h
    exact moved_resume h.2
  | cancel i =>
    simp only [next, Option.ite_none_left_eq_some] at h
    have hc := h.2
    unfold cancel at hc
    split at hc
    · cases hc
    · rename_i ha
      obtain ⟨lock, hrel, rfl⟩ := Option.map_eq_some_iff.mp hc
      exact .leaves i (lt_of_getElem?_some ha) hrel rfl rfl
  | answer =>
    obtain ⟨idx, -, h⟩ := Option.map_eq_some_iff.mp h
    split at h
    · subst h
      exact .answers rfl rfl rfl
    · subst h
      exact .answers rfl rfl rfl
  | resetEnter =>
    simp only [next, resetEnter, Option.ite_none_left_eq_some] at h
    obtain ⟨hr, h⟩ := h
    obtain ⟨lock, hacq, rfl⟩ := Option.map_eq_some_iff.mp h
    exact .resetEnter (by simpa using hr) hacq rfl rfl
  | resetLeave =>
    simp only [next, resetLeave, Option.ite_none_right_eq_some] at h
    obtain ⟨hr, h⟩ := h
    obtain ⟨lock, hrel, rfl⟩ := Option.map_eq_some_iff.mp h
    exact .resetLeave hr hrel rfl rfl

/-- The event loop has taken the lock once for every handler that waits. -/
structure Inv (s : GRPCServer V) : Prop where
  running : s.resetting = false → s.lock = .taken .eventLoop s.suspended.length
  resetting : s.resetting = true → s.lock = .taken .cli 1 ∧ s.suspended = []

theorem Inv.moved (h : Inv s) (hm : Moved s s') : Inv s' := by
  have hblocked : ∀ (k : ℕ) (t u : Thread), t ≠ u → (ReentrantLock.taken t (k + 1)).acquire u = none := by
    intro k t u htu
    have h1 := ReentrantLock.acquire_taken_of_ne htu (k + 1)
    simpa using h1
  cases hr : s.resetting with
  | true =>
    obtain ⟨hlock, hempty⟩ := h.resetting hr
    cases hm with
    | suspends a hacq => rw [hlock, hblocked 0 _ _ (by decide)] at hacq; cases hacq
    | passes lock hacq => rw [hlock, hblocked 0 _ _ (by decide)] at hacq; cases hacq
    | leaves i hi => rw [hempty] at hi; simp at hi
    | answers hl hs hr' =>
      refine ⟨fun hf => ?_, fun _ => ⟨hl.trans hlock, hs.trans hempty⟩⟩
      rw [hr', hr] at hf
      cases hf
    | resetEnter hf => rw [hr] at hf; cases hf
    | resetLeave _ hrel hs hr' =>
      rw [hlock, ReentrantLock.release_taken] at hrel
      refine ⟨fun _ => ?_, fun ht => ?_⟩
      · rw [hs, hempty]
        exact (Option.some.inj hrel).symm
      · rw [hr'] at ht
        cases ht
  | false =>
    have hlock := h.running hr
    cases hm with
    | suspends a hacq hs hr' =>
      rw [hlock, ReentrantLock.acquire_taken] at hacq
      refine ⟨fun _ => ?_, fun ht => ?_⟩
      · rw [hs, List.length_append]
        exact (Option.some.inj hacq).symm
      · rw [hr', hr] at ht
        cases ht
    | passes lock hacq hrel hs hr' =>
      rw [hlock, ReentrantLock.acquire_taken] at hacq
      cases hacq
      rw [ReentrantLock.release_taken] at hrel
      refine ⟨fun _ => ?_, fun ht => ?_⟩
      · rw [hs]
        exact (Option.some.inj hrel).symm
      · rw [hr', hr] at ht
        cases ht
    | leaves i hi hrel hs hr' =>
      obtain ⟨k, hk⟩ : ∃ k, s.suspended.length = k + 1 := ⟨s.suspended.length - 1, by omega⟩
      rw [hlock, hk, ReentrantLock.release_taken] at hrel
      refine ⟨fun _ => ?_, fun ht => ?_⟩
      · rw [hs, List.length_eraseIdx_of_lt hi, hk]
        exact (Option.some.inj hrel).symm
      · rw [hr', hr] at ht
        cases ht
    | answers hl hs hr' =>
      refine ⟨fun _ => ?_, fun ht => ?_⟩
      · rw [hl, hs]
        exact hlock
      · rw [hr', hr] at ht
        cases ht
    | resetEnter _ hacq hs hr' =>
      -- the lock is free, so that no handler is inside it
      have hempty : s.suspended.length = 0 := by
        rw [hlock] at hacq
        have hne : Thread.eventLoop ≠ Thread.cli := by decide
        exact (ReentrantLock.acquire_taken_of_ne hne _).mp (by rw [hacq]; rfl)
      refine ⟨fun hf => ?_, fun _ => ⟨?_, hs.trans (List.length_eq_zero_iff.mp hempty)⟩⟩
      · rw [hr'] at hf
        cases hf
      · rw [hlock, hempty] at hacq
        exact (Option.some.inj hacq).symm
    | resetLeave ht => rw [hr] at ht; cases ht

theorem Inv.of_reachable (h : (machine V).Reachable s) : Inv s := by
  refine h.invariant (fun s hs => ?_) fun s e s' hI hn => hI.moved (GRPCServer.moved hn)
  rw [show s = new V from hs]
  exact ⟨fun _ => rfl, fun ht => (by cases ht)⟩

/-- While no reset is inside the lock, it is free if and only if no handler
waits, and only then can a reset enter it. -/
theorem Inv.free_iff (h : Inv s) (hr : s.resetting = false) :
    (s.lock = .free ↔ s.suspended = []) ∧ ((next s .resetEnter).isSome ↔ s.suspended = []) := by
  have hlock := h.running hr
  have hne : Thread.eventLoop ≠ Thread.cli := by decide
  refine ⟨?_, ?_⟩
  · rw [hlock, ReentrantLock.taken_eq_free, List.length_eq_zero_iff]
  · simp only [next, resetEnter, hr, Bool.false_eq_true, if_false, Option.isSome_map]
    rw [hlock, ReentrantLock.acquire_taken_of_ne hne, List.length_eq_zero_iff]

/-! ## After a reset -/

/-- What there was before a reset: which events were set, and the responses. -/
structure Past (V : Type) where
  barrier : List Bool
  broadcast : List Bool
  responses : List (Response V)

def Await.after (p : Past V) : Await → Await
  | .barrier tmpId event => .barrier tmpId (p.barrier.length + event)
  | .broadcast rank idx event => .broadcast rank idx (p.broadcast.length + event)

/-- The server with such a past. -/
def after (p : Past V) (s : GRPCServer V) : GRPCServer V :=
  { s with
    barrier := s.barrier.shift p.barrier
    broadcast := s.broadcast.shift p.broadcast
    suspended := s.suspended.map (Await.after p)
    responses := p.responses ++ s.responses }

variable (p : Past V)

theorem getElem?_after (earlier l : List Bool) (ev : ℕ) : (earlier ++ l)[earlier.length + ev]? = l[ev]? := by
  rw [List.getElem?_append_right (Nat.le_add_right ..), Nat.add_sub_cancel_left]

theorem callBarrier_after (s : GRPCServer V) (numWorkers : ℕ) :
    (s.after p).callBarrier numWorkers = (s.callBarrier numWorkers).map (after p) := by
  unfold callBarrier
  have hrun := Barrier.renames_enter p.barrier numWorkers s.barrier
  change (s.lock.acquire .eventLoop).bind _ = Option.map _ ((s.lock.acquire .eventLoop).bind _)
  cases s.lock.acquire .eventLoop with
  | none => rfl
  | some lock =>
    simp only [Option.bind_some, after, hrun]
    cases Barrier.enter numWorkers s.barrier with
    | ok w barrier =>
      cases w with
      | none => cases lock.release .eventLoop <;> simp [Result.map, after]
      | some w => simp [Result.map, after, Await.after]
    | error e barrier => cases lock.release .eventLoop <;> simp [Result.map, after]

theorem callBroadcast_after (s : GRPCServer V) (numWorkers rank root : ℕ) (value : V) :
    (s.after p).callBroadcast numWorkers rank root value =
      (s.callBroadcast numWorkers rank root value).map (after p) := by
  unfold callBroadcast
  have hrun := Broadcast.renames_enter p.broadcast numWorkers rank root value s.broadcast
  change (s.lock.acquire .eventLoop).bind _ = Option.map _ ((s.lock.acquire .eventLoop).bind _)
  cases s.lock.acquire .eventLoop with
  | none => rfl
  | some lock =>
    simp only [Option.bind_some, after, hrun]
    cases Broadcast.enter numWorkers rank root value s.broadcast with
    | ok w broadcast =>
      obtain ⟨idx, event⟩ := w
      cases event with
      | none => cases lock.release .eventLoop <;> simp [Result.map, after]
      | some event => simp [Result.map, after, Await.after]
    | error e broadcast => cases lock.release .eventLoop <;> simp [Result.map, after]

theorem resume_after (s : GRPCServer V) (i : ℕ) : (s.after p).resume i = (s.resume i).map (after p) := by
  unfold resume
  have hget : (s.after p).suspended[i]? = (s.suspended[i]?).map (Await.after p) := List.getElem?_map ..
  rw [hget]
  cases s.suspended[i]? with
  | none => rfl
  | some a =>
    cases a with
    | barrier tmpId event =>
      have hrun := Barrier.renames_leave p.barrier tmpId s.barrier
      have hset : (s.after p).barrier.isSet[p.barrier.length + event]? = s.barrier.isSet[event]? :=
        getElem?_after p.barrier s.barrier.isSet event
      simp only [Option.map_some, Await.after, hset]
      split
      · simp only [after, hrun]
        cases Barrier.leave tmpId s.barrier with
        | ok u barrier => cases s.lock.release .eventLoop <;> simp [Result.map, after, List.eraseIdx_map]
        | error e barrier => cases s.lock.release .eventLoop <;> simp [Result.map, after, List.eraseIdx_map]
      · rfl
    | broadcast rank idx event =>
      have hrun := Broadcast.renames_leave p.broadcast rank idx s.broadcast
      have hset : (s.after p).broadcast.isSet[p.broadcast.length + event]? = s.broadcast.isSet[event]? :=
        getElem?_after p.broadcast s.broadcast.isSet event
      simp only [Option.map_some, Await.after, hset]
      split
      · simp only [after, hrun]
        cases Broadcast.leave rank idx s.broadcast with
        | ok u broadcast => cases s.lock.release .eventLoop <;> simp [Result.map, after, List.eraseIdx_map]
        | error e broadcast => cases s.lock.release .eventLoop <;> simp [Result.map, after, List.eraseIdx_map]
      · rfl

theorem cancel_after (s : GRPCServer V) (i : ℕ) : (s.after p).cancel i = (s.cancel i).map (after p) := by
  unfold cancel
  have hget : (s.after p).suspended[i]? = (s.suspended[i]?).map (Await.after p) := List.getElem?_map ..
  rw [hget]
  cases s.suspended[i]? with
  | none => rfl
  | some a =>
    simp only [after, Option.map_some]
    cases s.lock.release .eventLoop <;> simp [after, List.eraseIdx_map]

theorem answer_after (s : GRPCServer V) : (s.after p).answer = s.answer.map (after p) := by
  unfold answer
  simp only [after, Broadcast.shift]
  cases s.returning with
  | none => rfl
  | some idx =>
    simp only [Option.map_some]
    cases getIndex s.broadcast.values idx with
    | ok value => simp [after, Broadcast.shift]
    | error e => simp [after, Broadcast.shift]

theorem resetLeave_after (s : GRPCServer V) : (s.after p).resetLeave = s.resetLeave.map (after p) := by
  have hbarrier : (s.barrier.shift p.barrier).reset = s.barrier.reset.shift p.barrier := by
    unfold Barrier.reset Barrier.shift
    simp only [List.append_assoc, List.length_append, Barrier.mk.injEq, true_and, and_true]
    funext key
    by_cases hkey : key = 0
    · simp [hkey]
    · simp [Function.update_of_ne hkey]
  have hbroadcast : (s.broadcast.shift p.broadcast).reset = s.broadcast.reset.shift p.broadcast := rfl
  unfold resetLeave
  simp only [after, hbarrier, hbroadcast]
  split
  · cases s.lock.release .cli <;> simp [after]
  · rfl

/-- The past makes no difference to a step. -/
theorem next_after (s : GRPCServer V) (e : Event V) : next (s.after p) e = (next s e).map (after p) := by
  have hret : (s.after p).returning = s.returning := rfl
  cases e with
  | barrier numWorkers =>
    simp only [next, hret]
    split
    · rfl
    · exact callBarrier_after p s numWorkers
  | broadcast numWorkers rank root value =>
    simp only [next, hret]
    split
    · rfl
    · exact callBroadcast_after p s numWorkers rank root value
  | resume i =>
    simp only [next, hret]
    split
    · rfl
    · exact resume_after p s i
  | cancel i =>
    simp only [next, hret]
    split
    · rfl
    · exact cancel_after p s i
  | answer => exact answer_after p s
  | resetEnter =>
    simp only [next, resetEnter, after]
    by_cases hr : s.resetting = true
    · simp [hr]
    · cases s.lock.acquire .cli <;> simp [hr, after]
  | resetLeave => exact resetLeave_after p s

theorem run_after (s : GRPCServer V) (es : List (Event V)) :
    (machine V).run (s.after p) es = ((machine V).run s es).map (after p) := by
  induction es generalizing s with
  | nil => rfl
  | cons e es ih =>
    change (next (s.after p) e).bind _ = Option.map _ ((next s e).bind _)
    rw [next_after]
    cases next s e with
    | none => rfl
    | some s' => exact ih s'

/-- A reset leaves the server as it was set up, with what was there as its
past. A `Broadcast` that had left the lock is still to return. -/
theorem Inv.resetLeave (h : Inv s) (hn : next s .resetLeave = some s') :
    s' = after ⟨s.barrier.isSet, s.broadcast.isSet, s.responses⟩ { new V with returning := s.returning } := by
  simp only [next, GRPCServer.resetLeave, Option.ite_none_right_eq_some] at hn
  obtain ⟨hr, hn⟩ := hn
  obtain ⟨hlock, hempty⟩ := h.resetting hr
  rw [hlock, ReentrantLock.release_taken] at hn
  simp only [Option.map_some, Option.some.injEq] at hn
  rw [← hn, Barrier.reset_eq, Broadcast.reset_eq, hempty]
  simp [after, new]

/-- A reset can run if and only if no handler waits. After it, whatever is
called, the server does what it would have done if it had just been set up. -/
theorem reset_iff (V : Type) (s : GRPCServer V) (h : (machine V).Reachable s) :
    (s.resetting = false →
      (s.lock = .free ↔ s.suspended = []) ∧ ((next s .resetEnter).isSome ↔ s.suspended = [])) ∧
    ∀ s', next s .resetLeave = some s' → ∀ es, (machine V).run s' es =
      ((machine V).run { new V with returning := s.returning } es).map
        (after ⟨s.barrier.isSet, s.broadcast.isSet, s.responses⟩) := by
  have hI := Inv.of_reachable h
  refine ⟨hI.free_iff, fun s' hn es => ?_⟩
  rw [hI.resetLeave hn, run_after]

/-- The first client of a barrier of two gives up, and its count is reset. -/
def cancelledEvents : List (Event ℕ) := [.barrier 2, .cancel 0, .resetEnter]

theorem reset_iff_cancelled : ∃ s s' : GRPCServer ℕ, (machine ℕ).Reachable s ∧ next s .resetLeave = some s' ∧
    (machine ℕ).run s' [.barrier 2] =
      ((machine ℕ).run (new ℕ) [.barrier 2]).map (after ⟨s.barrier.isSet, s.broadcast.isSet, s.responses⟩) := by
  have hrun : ((machine ℕ).run (new ℕ) cancelledEvents).map
      (fun s => (s.returning, (next s .resetLeave).isSome)) = some (none, true) := by
    decide +kernel
  obtain ⟨s, hr, hs⟩ := Option.map_eq_some_iff.mp hrun
  simp only [Prod.mk.injEq] at hs
  obtain ⟨hret, hleave⟩ := hs
  obtain ⟨s', hn⟩ := Option.isSome_iff_exists.mp hleave
  have hreach : (machine ℕ).Reachable s := Machine.Reachable.run (.init rfl) hr
  have hafter := (reset_iff ℕ s hreach).2 s' hn [.barrier 2]
  rw [hret] at hafter
  exact ⟨s, s', hreach, hn, hafter⟩

/-- One client of a barrier of two has called it. -/
theorem not_resettable : ¬ ∀ s : GRPCServer ℕ, (machine ℕ).Reachable s → s.resetting = false → s.returning = none →
    s.lock = .free ∧ (next s .resetEnter).isSome := by
  intro hclaim
  have hrun : ((machine ℕ).run (new ℕ) [.barrier 2]).map (fun s => (s.resetting, s.returning, s.lock)) =
      some (false, none, .held .eventLoop 0) := by
    decide +kernel
  obtain ⟨s, hr, hs⟩ := Option.map_eq_some_iff.mp hrun
  simp only [Prod.mk.injEq] at hs
  obtain ⟨h1, h2, h3⟩ := hs
  have hfree := (hclaim s (Machine.Reachable.run (.init rfl) hr) h1 h2).1
  rw [h3] at hfree
  cases hfree

end GRPCServer

end SwitchML.Controller
