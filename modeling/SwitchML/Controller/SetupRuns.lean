/-
How the workers of a group set up their sessions, one after the other:
`ExchangeConnectionInfo` of `rdma_connection.cc` and `SetupSwitch` of
`dpdk_backend.cc`. All get the session ID of the first worker. Then the first
worker asks for the session and meets the others at a barrier, which ask after
it, as the first request clears out what the controller holds. A second barrier
makes sure that the switch has gotten all requests.

A worker waits for each of its calls to return. The controller serves a request
for a session in one step, and `serve` says what it does with it.
-/
import Mathlib.Algebra.Order.BigOperators.Group.Finset
import SwitchML.Controller.BarrierRounds
import SwitchML.Controller.BroadcastRuns

namespace SwitchML.Controller

/-! ## The calls -/

inductive Call
  | broadcast
  | createSession
  | barrier
  deriving DecidableEq

/-- The call a worker makes after `pos` calls. It makes four for each session. -/
def setupCall (rank pos : ℕ) : Call :=
  match pos % 4 with
  | 0 => .broadcast
  -- First worker clears switch state before processing the request;
  -- remaining workers process switch state after the first one is done
  | 1 => if rank = 0 then .createSession else .barrier
  | 2 => if rank = 0 then .barrier else .createSession
  -- Ensure switch has gotten all workers' job state before proceeding
  | _ => .barrier

/-- How many of a worker's first `pos` calls are of a kind. -/
def calls (kind : Call) (rank pos : ℕ) : ℕ := (List.range pos).countP fun i => decide (setupCall rank i = kind)

theorem calls_succ (kind : Call) (rank pos : ℕ) :
    calls kind rank (pos + 1) = calls kind rank pos + if setupCall rank pos = kind then 1 else 0 := by
  unfold calls
  rw [List.range_succ, List.countP_append]
  by_cases h : setupCall rank pos = kind <;> simp [h]

theorem setupCall_eq_broadcast {rank pos : ℕ} : setupCall rank pos = .broadcast ↔ pos % 4 = 0 := by
  unfold setupCall
  have hlt : pos % 4 < 4 := Nat.mod_lt _ (Nat.succ_pos 3)
  generalize pos % 4 = i at hlt ⊢
  match i with
  | 0 => simp
  | 1 => by_cases h0 : rank = 0 <;> simp [h0]
  | 2 => by_cases h0 : rank = 0 <;> simp [h0]
  | 3 => simp

theorem setupCall_eq_createSession {rank pos : ℕ} :
    setupCall rank pos = .createSession ↔ pos % 4 = if rank = 0 then 1 else 2 := by
  unfold setupCall
  have hlt : pos % 4 < 4 := Nat.mod_lt _ (Nat.succ_pos 3)
  generalize pos % 4 = i at hlt ⊢
  match i with
  | 0 => by_cases h0 : rank = 0 <;> simp [h0]
  | 1 => by_cases h0 : rank = 0 <;> simp [h0]
  | 2 => by_cases h0 : rank = 0 <;> simp [h0]
  | 3 => by_cases h0 : rank = 0 <;> simp [h0]

theorem setupCall_eq_barrier {rank pos : ℕ} :
    setupCall rank pos = .barrier ↔ pos % 4 = 3 ∨ pos % 4 = if rank = 0 then 2 else 1 := by
  unfold setupCall
  have hlt : pos % 4 < 4 := Nat.mod_lt _ (Nat.succ_pos 3)
  generalize pos % 4 = i at hlt ⊢
  match i with
  | 0 => by_cases h0 : rank = 0 <;> simp [h0]
  | 1 => by_cases h0 : rank = 0 <;> simp [h0]
  | 2 => by_cases h0 : rank = 0 <;> simp [h0]
  | 3 => simp

theorem calls_broadcast (rank pos : ℕ) : calls .broadcast rank pos = (pos + 3) / 4 := by
  induction pos with
  | zero => rfl
  | succ pos ih =>
    rw [calls_succ, ih]
    simp only [setupCall_eq_broadcast]
    split <;> omega

theorem calls_createSession (rank pos : ℕ) :
    calls .createSession rank pos = if rank = 0 then (pos + 2) / 4 else (pos + 1) / 4 := by
  induction pos with
  | zero => simp [calls]
  | succ pos ih =>
    rw [calls_succ, ih]
    simp only [setupCall_eq_createSession]
    split <;> split <;> omega

theorem calls_barrier (rank pos : ℕ) :
    calls .barrier rank pos = pos / 4 + if rank = 0 then (pos + 1) / 4 else (pos + 2) / 4 := by
  induction pos with
  | zero => simp [calls]
  | succ pos ih =>
    rw [calls_succ, ih]
    simp only [setupCall_eq_barrier]
    split <;> split <;> omega

/-! ## The system -/

structure SetupRun (n : ℕ) (C R : Type) where
  broadcast : BroadcastRun ℕ n
  barrier : BarrierRun n
  ctrl : C
  /-- How many calls of a worker have returned. -/
  returned : Fin n → ℕ
  /-- The requests that were served: the number of the session, the worker and the reply. -/
  served : List (ℕ × Fin n × R)

namespace SetupRun

variable {n : ℕ} {C R : Type}

def new (n : ℕ) (R : Type) (ctrl : C) : SetupRun n C R where
  broadcast := BroadcastRun.new ℕ n
  barrier := BarrierRun.new n
  ctrl := ctrl
  returned _ := 0
  served := []

inductive Event (n : ℕ)
  /-- A worker makes its next call; the value is the session ID it would choose. -/
  | call (w : Fin n) (value : ℕ)
  /-- The call of a worker goes on. -/
  | resume (w : Fin n)

def Event.worker : Event n → Fin n
  | .call w _ => w
  | .resume w => w

def Event.toBroadcast : Event n → BroadcastRun.Event ℕ n
  | .call w value => .call w value
  | .resume w => .resume w

def Event.toBarrier : Event n → BarrierRun.Event n
  | .call w _ => .call w
  | .resume w => .resume w

/-- The call of a worker has returned if it raised no exception and does not wait. -/
def advance (s : SetupRun n C R) (w : Fin n) (fault : Option PyError) (waits : Option (ℕ × ℕ)) : Fin n → ℕ :=
  if fault = none ∧ waits = none then Function.update s.returned w (s.returned w + 1) else s.returned

def createSession (serve : ℕ → Fin n → C → R × C) (s : SetupRun n C R) (w : Fin n) : SetupRun n C R :=
  let session := s.returned w / 4
  let r := serve session w s.ctrl
  { s with
    ctrl := r.2
    returned := Function.update s.returned w (s.returned w + 1)
    served := s.served ++ [(session, w, r.1)] }

def next [NeZero n] (serve : ℕ → Fin n → C → R × C) (s : SetupRun n C R) (e : Event n) : Option (SetupRun n C R) :=
  let w := e.worker
  match setupCall w (s.returned w) with
  | .broadcast =>
    -- all of them name the first worker as the root
    (s.broadcast.next 0 e.toBroadcast).map fun b =>
      { s with broadcast := b, returned := s.advance w b.fault (b.waits w) }
  | .barrier =>
    (s.barrier.next e.toBarrier).map fun b =>
      { s with barrier := b, returned := s.advance w b.fault (b.waits w) }
  | .createSession =>
    match e with
    | .call _ _ => some (s.createSession serve w)
    | .resume _ => none

/-- The workers and the controller, from where its server was started. -/
def machine [NeZero n] (serve : ℕ → Fin n → C → R × C) (ctrl : C) : Machine (SetupRun n C R) (Event n) where
  init s := s = new n R ctrl
  next := next serve

/-! ## One worker's call -/

/-- In one step of the server, the call of worker `w` has begun or ended. -/
structure Handled (waits waits' : Fin n → Option (ℕ × ℕ)) (count count' : Fin n → ℕ) (w : Fin n) : Prop where
  own : waits w = none ∨ waits' w = none
  others : ∀ v ≠ w, waits' v = waits v
  count : ∀ v, count' v = count v + if v = w ∧ waits' w = none then 1 else 0

variable {serve : ℕ → Fin n → C → R × C} {s s' : SetupRun n C R} {w : Fin n}

theorem handled_broadcast {b : BroadcastRun ℕ n} {r : Except PyError (Broadcast ℕ × Broadcast.Outcome ℕ)}
    (hown : b.waits w = none ∨ ∀ b' idx event, r ≠ .ok (b', .waits idx event)) (hf : (b.handled w r).fault = none) :
    Handled b.waits (b.handled w r).waits b.done (b.handled w r).done w := by
  unfold BroadcastRun.handled at hf ⊢
  split at hf
  · cases hf
  · refine ⟨.inl ?_, fun v hv => Function.update_of_ne hv .., fun v => ?_⟩
    · exact hown.resolve_right fun hvalue => hvalue _ _ _ rfl
    · simp [BroadcastRun.done]
  · refine ⟨.inr (Function.update_self ..), fun v hv => Function.update_of_ne hv .., fun v => ?_⟩
    by_cases hv : v = w
    · subst hv
      simp [BroadcastRun.done]
    · simp [BroadcastRun.done, hv]

theorem broadcast_resume (b b' : Broadcast ℕ) (rank idx idx' event : ℕ) :
    b.resume rank idx ≠ .ok (b', .waits idx' event) := by
  intro h
  simp only [Broadcast.resume, Broadcast.answer, bind, Except.bind] at h
  split at h
  · cases h
  · split at h <;> cases h

theorem broadcast_handled [NeZero n] {e : Event n} {b b' : BroadcastRun ℕ n} (hn : b.next 0 e.toBroadcast = some b')
    (hf : b'.fault = none) : Handled b.waits b'.waits b.done b'.done e.worker := by
  unfold BroadcastRun.next at hn
  split at hn
  · cases hn
  cases e with
  | call w value =>
    simp only [Event.toBroadcast, Option.ite_none_right_eq_some, Option.some.injEq] at hn
    obtain ⟨hwaits, rfl⟩ := hn
    exact handled_broadcast (b := { b with sent := if w = 0 then b.sent ++ [value] else b.sent }) (.inl hwaits) hf
  | resume w =>
    simp only [Event.toBroadcast] at hn
    split at hn
    · simp only [Option.ite_none_right_eq_some, Option.some.injEq] at hn
      obtain ⟨-, rfl⟩ := hn
      exact handled_broadcast (.inr (broadcast_resume _ · _ _ · ·)) hf
    · cases hn

theorem barrier_handled {e : Event n} {b b' : BarrierRun n} (hn : b.next e.toBarrier = some b')
    (hf : b'.fault = none) : Handled b.waits b'.waits b.returned b'.returned e.worker := by
  -- the call returns
  have hreleased (b' : BarrierRun n) (w : Fin n) (hw : b'.waits = Function.update b.waits w none)
      (hr : b'.returned = Function.update b.returned w (b.returned w + 1)) :
      Handled b.waits b'.waits b.returned b'.returned w := by
    refine ⟨.inr (by rw [hw, Function.update_self]), fun v hv => by rw [hw, Function.update_of_ne hv], fun v => ?_⟩
    rw [hr, hw]
    by_cases hv : v = w
    · subst hv
      simp
    · simp [hv]
  unfold BarrierRun.next at hn
  split at hn
  · cases hn
  cases e with
  | call w value =>
    simp only [Event.toBarrier, Option.ite_none_right_eq_some, Option.some.injEq] at hn
    obtain ⟨hwaits, rfl⟩ := hn
    unfold BarrierRun.call at hf ⊢
    split at hf
    · cases hf
    · refine ⟨.inl hwaits, fun v hv => Function.update_of_ne hv .., fun v => ?_⟩
      simp [Event.worker]
    · exact hreleased _ w rfl rfl
  | resume w =>
    simp only [Event.toBarrier] at hn
    split at hn
    · simp only [Option.ite_none_right_eq_some, Option.some.injEq] at hn
      obtain ⟨-, rfl⟩ := hn
      unfold BarrierRun.resume at hf ⊢
      split at hf
      · cases hf
      · exact hreleased _ w rfl rfl
    · cases hn

/-- The calls of each kind, after a call has returned or waits. -/
theorem calls_advance {kind : Call} (hkind : setupCall w (s.returned w) = kind) (waits : Option (ℕ × ℕ)) (kind' : Call)
    (v : Fin n) : calls kind' v (s.advance w none waits v) =
      calls kind' v (s.returned v) + if v = w ∧ waits = none ∧ kind = kind' then 1 else 0 := by
  unfold advance
  by_cases hw : waits = none
  · rw [if_pos ⟨rfl, hw⟩]
    by_cases hv : v = w
    · subst hv
      rw [Function.update_self, calls_succ, hkind]
      simp [hw]
    · rw [Function.update_of_ne hv]
      simp [hv]
  · rw [if_neg fun h => hw h.2]
    simp [hw]

theorem advance_of_ne {v : Fin n} (hv : v ≠ w) (fault : Option PyError) (waits : Option (ℕ × ℕ)) :
    s.advance w fault waits v = s.returned v := by
  unfold advance
  split
  · rw [Function.update_of_ne hv]
  · rfl

/-- The calls that wait, where one of them was handled. -/
theorem Handled.setupCall {kind : Call} {waits waits' : Fin n → Option (ℕ × ℕ)} {count count' : Fin n → ℕ}
    (h : Handled waits waits' count count' w) (hin : ∀ v, waits v ≠ none → setupCall v (s.returned v) = kind)
    (hcall : Controller.setupCall w (s.returned w) = kind) {v : Fin n} (hv : waits' v ≠ none) :
    Controller.setupCall v (s.advance w none (waits' w) v) = kind := by
  by_cases hvw : v = w
  · subst hvw
    rw [advance, if_neg fun hc => hv hc.2]
    exact hcall
  · rw [h.others v hvw] at hv
    rw [advance_of_ne hvw]
    exact hin v hv

/-- The calls that wait, where one of another kind was handled. -/
theorem setupCall_advance {kind kind' : Call} {waits : Fin n → Option (ℕ × ℕ)}
    (hin : ∀ v, waits v ≠ none → setupCall v (s.returned v) = kind) (hcall : setupCall w (s.returned w) = kind')
    (hne : kind' ≠ kind) (own : Option (ℕ × ℕ)) {v : Fin n} (hv : waits v ≠ none) :
    setupCall v (s.advance w none own v) = kind := by
  have hvw : v ≠ w := by
    rintro rfl
    exact hne (hcall.symm.trans (hin v hv))
  rw [advance_of_ne hvw]
  exact hin v hv

/-! ## Every run -/

/-- A request that was served: its session and its worker. -/
def key (e : ℕ × Fin n × R) : ℕ × Fin n := (e.1, e.2.1)

/-- What may be served after what: a later session, or another worker than the first one. -/
def After [NeZero n] (a b : ℕ × Fin n) : Prop := a.1 < b.1 ∨ a.1 = b.1 ∧ a.2 ≠ b.2 ∧ b.2 ≠ 0

variable [NeZero n]

structure Inv (s : SetupRun n C R) : Prop where
  broadcast : ∃ base L, BroadcastRun.At 0 s.broadcast base L ∧ L ≤ 1
  barrier : BarrierRun.Inv s.barrier
  answered : ∀ w, s.broadcast.done w = calls .broadcast w (s.returned w)
  left : ∀ w, s.barrier.returned w = calls .barrier w (s.returned w)
  inBroadcast : ∀ w, s.broadcast.waits w ≠ none → setupCall w (s.returned w) = .broadcast
  inBarrier : ∀ w, s.barrier.waits w ≠ none → setupCall w (s.returned w) = .barrier
  served : ∀ k w, (k, w) ∈ s.served.map key ↔ k < calls .createSession w (s.returned w)
  order : (s.served.map key).Pairwise After

/-- No worker has left a barrier that another has not reached. -/
theorem Inv.near (h : Inv s) (v w : Fin n) :
    calls .barrier v (s.returned v) ≤
      calls .barrier w (s.returned w) + if setupCall w (s.returned w) = .barrier then 1 else 0 := by
  have hle : s.barrier.returned v ≤ s.barrier.barrier.opId := by
    cases hv : s.barrier.waits v with
    | none =>
      obtain ⟨h1, h2⟩ := h.barrier.idle v hv
      rcases h.barrier.near v with h3 | h3 <;> omega
    | some op =>
      obtain ⟨-, h1, h2⟩ := h.barrier.busy v op.1 op.2 hv
      rcases h.barrier.near v with h3 | h3 <;> omega
  rw [← h.left v, ← h.left w]
  cases hw : s.barrier.waits w with
  | none =>
    obtain ⟨h1, h2⟩ := h.barrier.idle w hw
    omega
  | some op =>
    rw [if_pos (h.inBarrier w (by rw [hw]; exact Option.some_ne_none _))]
    obtain ⟨-, h1, h2⟩ := h.barrier.busy w op.1 op.2 hw
    rcases h.barrier.near w with h3 | h3 <;> omega

/-- A worker that asks for a session is the first one, or the others are at most as far. -/
theorem Inv.sessions_le (h : Inv s) (hw : setupCall w (s.returned w) = .createSession) (v : Fin n) :
    calls .createSession v (s.returned v) ≤ s.returned w / 4 + if (w : ℕ) = 0 then 0 else 1 := by
  have hnear := h.near v w
  rw [hw, if_neg (by decide), calls_barrier, calls_barrier] at hnear
  rw [setupCall_eq_createSession] at hw
  rw [calls_createSession]
  by_cases hvw : v = w
  · subst hvw
    split at hw <;> rename_i h0 <;> simp only [h0, if_true, if_false] <;> omega
  by_cases hw0 : (w : ℕ) = 0 <;> by_cases hv0 : (v : ℕ) = 0
  · exact absurd (Fin.ext (hv0.trans hw0.symm)) hvw
  all_goals
    simp only [hw0, hv0, if_true, if_false] at hnear hw ⊢
    omega

/-- No request is served before the first worker's one. -/
theorem Inv.first_served (h : Inv s) {k : ℕ} (hk : k < calls .createSession w (s.returned w)) :
    k < calls .createSession (0 : Fin n) (s.returned 0) := by
  have hnear := h.near w 0
  have h0 : ((0 : Fin n) : ℕ) = 0 := Fin.val_zero _
  rw [calls_createSession] at hk ⊢
  rw [calls_barrier, calls_barrier] at hnear
  simp only [setupCall_eq_barrier, h0, if_true] at hnear ⊢
  by_cases hw0 : (w : ℕ) = 0
  · have hw : w = 0 := Fin.ext (hw0.trans h0.symm)
    subst hw
    rw [if_pos h0] at hk
    exact hk
  · simp only [hw0, if_false] at hnear hk
    split at hnear <;> omega

/-- Who has set up a session has seen all requests for it served. -/
theorem Inv.all_served (h : Inv s) {k : ℕ} (hk : 4 * (k + 1) ≤ s.returned w) (v : Fin n) :
    k < calls .createSession v (s.returned v) := by
  have hnear := h.near w v
  rw [calls_barrier, calls_barrier] at hnear
  simp only [setupCall_eq_barrier] at hnear
  rw [calls_createSession]
  by_cases hw0 : (w : ℕ) = 0 <;> by_cases hv0 : (v : ℕ) = 0 <;>
    simp only [hw0, hv0, if_true, if_false] at hnear ⊢ <;> split at hnear <;> omega

/-- Who asks for a session ID finds all others past the session before. -/
theorem Inv.all_answered (h : Inv s) (hw : setupCall w (s.returned w) = .broadcast) (v : Fin n) :
    s.broadcast.done w ≤ s.broadcast.done v := by
  have hnear := h.near w v
  rw [calls_barrier, calls_barrier] at hnear
  simp only [setupCall_eq_barrier] at hnear
  rw [setupCall_eq_broadcast] at hw
  rw [h.answered, h.answered, calls_broadcast, calls_broadcast]
  by_cases hw0 : (w : ℕ) = 0 <;> by_cases hv0 : (v : ℕ) = 0 <;>
    simp only [hw0, hv0, if_true, if_false] at hnear ⊢ <;> split at hnear <;> omega

/-! ## The steps -/

/-- The steps of the system, by the call they are in. -/
inductive Step (serve : ℕ → Fin n → C → R × C) (s : SetupRun n C R) (e : Event n) : SetupRun n C R → Prop
  | broadcast (b : BroadcastRun ℕ n) : setupCall e.worker (s.returned e.worker) = .broadcast →
      s.broadcast.next 0 e.toBroadcast = some b →
      Step serve s e { s with broadcast := b, returned := s.advance e.worker b.fault (b.waits e.worker) }
  | barrier (b : BarrierRun n) : setupCall e.worker (s.returned e.worker) = .barrier →
      s.barrier.next e.toBarrier = some b →
      Step serve s e { s with barrier := b, returned := s.advance e.worker b.fault (b.waits e.worker) }
  | createSession : setupCall e.worker (s.returned e.worker) = .createSession →
      Step serve s e (s.createSession serve e.worker)

theorem step {e : Event n} (hn : s.next serve e = some s') : Step serve s e s' := by
  unfold next at hn
  dsimp only at hn
  split at hn
  · rename_i hcall
    obtain ⟨b, hb, rfl⟩ := Option.map_eq_some_iff.mp hn
    exact .broadcast b hcall hb
  · rename_i hcall
    obtain ⟨b, hb, rfl⟩ := Option.map_eq_some_iff.mp hn
    exact .barrier b hcall hb
  · rename_i hcall
    cases e with
    | call w value =>
      cases hn
      exact .createSession hcall
    | resume w => cases hn

/-- Only the latest operation of the broadcasts is there. -/
theorem Inv.at_broadcast (h : Inv s) {e : Event n} {b : BroadcastRun ℕ n}
    (hcall : setupCall e.worker (s.returned e.worker) = .broadcast) (hn : s.broadcast.next 0 e.toBroadcast = some b) :
    ∃ base L, BroadcastRun.At 0 b base L ∧ L ≤ 1 := by
  obtain ⟨base, L, hA, hL⟩ := h.broadcast
  cases e with
  | resume w => exact ⟨base, L, hA.resumed hn, hL⟩
  | call w value =>
    have hb : b = s.broadcast.call 0 w value := by
      simp only [Event.toBroadcast, BroadcastRun.next, hA.fault, Option.isSome_none, Bool.false_eq_true, if_false,
        Option.ite_none_right_eq_some, Option.some.injEq] at hn
      exact hn.2.symm
    obtain ⟨base', L', hA', hmax, hopen, -⟩ := hA.call_bounds w value (.inr hL)
    refine ⟨base', L', hb ▸ hA', ?_⟩
    -- all others are done with the operation before, so it has been removed
    have hbase := hA.base_le w
    have hge : s.broadcast.done w ≤ base' := by
      rcases hopen with ⟨v, hv⟩ | heq
      · exact (h.all_answered hcall v).trans hv
      · rw [heq]
        exact hA.le w
    omega

theorem Inv.of_broadcast (h : Inv s) {e : Event n} {b : BroadcastRun ℕ n}
    (hcall : setupCall e.worker (s.returned e.worker) = .broadcast) (hn : s.broadcast.next 0 e.toBroadcast = some b) :
    Inv { s with broadcast := b, returned := s.advance e.worker b.fault (b.waits e.worker) } := by
  obtain ⟨base, L, hA, hL⟩ := h.at_broadcast hcall hn
  have hhandled := broadcast_handled hn hA.fault
  rw [hA.fault]
  have hcalls := calls_advance (s := s) hcall (b.waits e.worker)
  refine ⟨⟨base, L, hA, hL⟩, h.barrier, fun v => ?_, fun v => ?_, fun v hv => ?_, fun v hv => ?_, fun k v => ?_, h.order⟩
  · rw [hcalls, ← h.answered v, hhandled.count]
    simp
  · rw [hcalls, ← h.left v]
    simp
  · exact hhandled.setupCall h.inBroadcast hcall hv
  · exact setupCall_advance h.inBarrier hcall (by decide) _ hv
  · rw [hcalls]
    simpa using h.served k v

theorem Inv.of_barrier (h : Inv s) {e : Event n} {b : BarrierRun n}
    (hcall : setupCall e.worker (s.returned e.worker) = .barrier) (hn : s.barrier.next e.toBarrier = some b) :
    Inv { s with barrier := b, returned := s.advance e.worker b.fault (b.waits e.worker) } := by
  have hI : BarrierRun.Inv b := h.barrier.step hn
  have hhandled := barrier_handled hn hI.fault
  rw [hI.fault]
  have hcalls := calls_advance (s := s) hcall (b.waits e.worker)
  refine ⟨h.broadcast, hI, fun v => ?_, fun v => ?_, fun v hv => ?_, fun v hv => ?_, fun k v => ?_, h.order⟩
  · rw [hcalls, ← h.answered v]
    simp
  · rw [hcalls, ← h.left v, hhandled.count]
    simp
  · exact setupCall_advance h.inBroadcast hcall (by decide) _ hv
  · exact hhandled.setupCall h.inBarrier hcall hv
  · rw [hcalls]
    simpa using h.served k v

theorem Inv.of_createSession (h : Inv s) (hcall : setupCall w (s.returned w) = .createSession) :
    Inv (s.createSession serve w) := by
  have hreturned : (s.createSession serve w).returned = s.advance w none none := (if_pos ⟨rfl, rfl⟩).symm
  have hcalls (kind : Call) (v : Fin n) : calls kind v ((s.createSession serve w).returned v) =
      calls kind v (s.returned v) + if v = w ∧ Call.createSession = kind then 1 else 0 := by
    rw [hreturned, calls_advance hcall]
    simp
  have hkeys : (s.createSession serve w).served.map key = s.served.map key ++ [(s.returned w / 4, w)] := by
    simp [createSession, key]
  -- it is the request for the session after those the worker has asked for
  have hown : calls .createSession w (s.returned w) = s.returned w / 4 := by
    have hpos := setupCall_eq_createSession.mp hcall
    rw [calls_createSession]
    by_cases h0 : (w : ℕ) = 0 <;> simp only [h0, if_true, if_false] at hpos ⊢ <;> omega
  refine ⟨h.broadcast, h.barrier, fun v => ?_, fun v => ?_, fun v hv => ?_, fun v hv => ?_, fun k v => ?_, ?_⟩
  · refine (h.answered v).trans ?_
    rw [hcalls]
    simp
  · refine (h.left v).trans ?_
    rw [hcalls]
    simp
  · rw [hreturned]
    exact setupCall_advance h.inBroadcast hcall (by decide) _ hv
  · rw [hreturned]
    exact setupCall_advance h.inBarrier hcall (by decide) _ hv
  · rw [hkeys, List.mem_append, h.served, List.mem_singleton, Prod.mk.injEq, hcalls]
    by_cases hv : v = w
    · subst hv
      simp only [and_true, if_true]
      omega
    · simp [hv]
  · rw [hkeys, List.pairwise_append]
    refine ⟨h.order, List.pairwise_singleton .., fun a ha b hb => ?_⟩
    rw [List.mem_singleton.mp hb]
    have hlt := (h.served a.1 a.2).mp ha
    have hle := h.sessions_le hcall a.2
    unfold After
    dsimp only
    by_cases h0 : (w : ℕ) = 0
    · rw [if_pos h0] at hle
      exact .inl (by omega)
    · rw [if_neg h0] at hle
      by_cases heq : a.1 = s.returned w / 4
      · refine .inr ⟨heq, fun haw => ?_, fun hw => h0 (by rw [hw]; exact Fin.val_zero _)⟩
        rw [haw, hown] at hlt
        omega
      · exact .inl (by omega)

theorem Inv.init (ctrl : C) : Inv (new n R ctrl) where
  broadcast := ⟨0, 0, .init 0, Nat.zero_le 1⟩
  barrier := .init (Nat.pos_of_neZero n)
  answered _ := rfl
  left _ := rfl
  inBroadcast _ hv := absurd rfl hv
  inBarrier _ hv := absurd rfl hv
  served k w := by simp [new, calls]
  order := List.Pairwise.nil

theorem Inv.next (h : Inv s) {e : Event n} (hn : s.next serve e = some s') : Inv s' := by
  cases step hn with
  | broadcast b hcall hb => exact h.of_broadcast hcall hb
  | barrier b hcall hb => exact h.of_barrier hcall hb
  | createSession hcall => exact h.of_createSession hcall

theorem Inv.of_reachable {ctrl : C} (h : (machine serve ctrl).Reachable s) : Inv s :=
  h.invariant (fun s hs => by rw [show s = new n R ctrl from hs]; exact .init ctrl) fun _ _ _ hI hn => hI.next hn

/-- Setting up sessions raises no exception, and all workers go by the session IDs
of the first one. The requests for a session are served after those for the
sessions before, the first worker's one first, and all of them once any worker
has set up the session. -/
theorem setup_agrees {ctrl : C} (h : (machine serve ctrl).Reachable s) :
    s.broadcast.fault = none ∧ s.barrier.fault = none ∧
      (∀ w (k : ℕ) v, (s.broadcast.results w)[k]? = some v → ∃ id, s.broadcast.sent[k]? = some id ∧ v = some id) ∧
      (s.served.map key).Pairwise After ∧ (∀ k w, (k, w) ∈ s.served.map key → (k, 0) ∈ s.served.map key) ∧
      ∀ k w, 4 * (k + 1) ≤ s.returned w → ∀ v, (k, v) ∈ s.served.map key := by
  have hI := Inv.of_reachable h
  obtain ⟨base, L, hA, -⟩ := hI.broadcast
  refine ⟨hA.fault, hI.barrier.fault, hA.results, hI.order, fun k w hk => ?_, fun k w hk v => ?_⟩
  · exact (hI.served k 0).mpr (hI.first_served ((hI.served k w).mp hk))
  · exact (hI.served k v).mpr (hI.all_served hk v)

/-- Two workers, of which the second one is the first to make a call. -/
theorem setup_agrees_two : ∃ s : SetupRun 2 ℕ ℕ, s.returned 0 = 4 ∧ s.broadcast.results 1 = [some 7] ∧
    (∃ id, s.broadcast.sent[0]? = some id ∧ some 7 = some id) ∧ (0, 1) ∈ s.served.map key := by
  have hrun : ((machine (n := 2) (fun _ w c => (c, c + w.val)) 0).run (new 2 ℕ 0)
      [.call 1 5, .call 0 7, .resume 1, .call 1 0, .call 0 0, .call 0 0, .resume 1, .call 1 0, .call 0 0, .call 1 0,
        .resume 0]).map (fun s => (s.returned 0, s.broadcast.results 1)) = some (4, [some 7]) := by
    decide +kernel
  obtain ⟨s, hs, heq⟩ := Option.map_eq_some_iff.mp hrun
  rw [Prod.mk.injEq] at heq
  obtain ⟨-, -, hids, -, -, hall⟩ := setup_agrees (Machine.Reachable.run (.init rfl) hs)
  exact ⟨s, heq.1, heq.2, hids 1 0 _ (by rw [heq.2]; rfl), hall 0 0 (by omega) 1⟩

/-! ## Every run ends -/

/-- How far a worker is: a call that waits has been begun. -/
def progress (s : SetupRun n C R) (w : Fin n) : ℕ :=
  2 * s.returned w + if s.broadcast.waits w = none ∧ s.barrier.waits w = none then 0 else 1

/-- In one step one worker gets farther, by one call at most. -/
structure Moved (s s' : SetupRun n C R) (w : Fin n) : Prop where
  others : ∀ v ≠ w, s'.progress v = s.progress v
  lt : s.progress w < s'.progress w
  le : s'.progress w ≤ 2 * s.returned w + 2

omit [NeZero n] in
theorem Handled.own_moved {waits waits' : Fin n → Option (ℕ × ℕ)} {count count' : Fin n → ℕ}
    (h : Handled waits waits' count count' w) :
    2 * s.returned w + (if waits w = none then 0 else 1) <
        2 * s.advance w none (waits' w) w + (if waits' w = none then 0 else 1) ∧
      2 * s.advance w none (waits' w) w + (if waits' w = none then 0 else 1) ≤ 2 * s.returned w + 2 := by
  by_cases hw' : waits' w = none
  · have hreturned : s.advance w none (waits' w) w = s.returned w + 1 := by
      rw [advance, if_pos ⟨rfl, hw'⟩, Function.update_self]
    rw [hreturned, if_pos hw']
    split <;> omega
  · have hreturned : s.advance w none (waits' w) w = s.returned w := by
      rw [advance, if_neg fun hc => hw' hc.2]
    rw [hreturned, if_neg hw', if_pos (h.own.resolve_right hw')]
    omega

theorem Inv.moved_broadcast (h : Inv s) {e : Event n} {b : BroadcastRun ℕ n}
    (hcall : setupCall e.worker (s.returned e.worker) = .broadcast) (hn : s.broadcast.next 0 e.toBroadcast = some b) :
    Moved s { s with broadcast := b, returned := s.advance e.worker b.fault (b.waits e.worker) } e.worker := by
  obtain ⟨base, L, hA, -⟩ := h.at_broadcast hcall hn
  have hhandled := broadcast_handled hn hA.fault
  have hbarrier : s.barrier.waits e.worker = none := by
    by_contra hwaits
    exact absurd (hcall.symm.trans (h.inBarrier _ hwaits)) (by decide)
  obtain ⟨hlt, hle⟩ := hhandled.own_moved (s := s)
  rw [hA.fault]
  refine ⟨fun v hv => ?_, ?_, ?_⟩
  · simp only [progress, advance_of_ne hv, hhandled.others v hv]
  · simpa only [progress, hbarrier, and_true] using hlt
  · simpa only [progress, hbarrier, and_true] using hle

theorem Inv.moved_barrier (h : Inv s) {e : Event n} {b : BarrierRun n}
    (hcall : setupCall e.worker (s.returned e.worker) = .barrier) (hn : s.barrier.next e.toBarrier = some b) :
    Moved s { s with barrier := b, returned := s.advance e.worker b.fault (b.waits e.worker) } e.worker := by
  have hI : BarrierRun.Inv b := h.barrier.step hn
  have hhandled := barrier_handled hn hI.fault
  have hbroadcast : s.broadcast.waits e.worker = none := by
    by_contra hwaits
    exact absurd (hcall.symm.trans (h.inBroadcast _ hwaits)) (by decide)
  obtain ⟨hlt, hle⟩ := hhandled.own_moved (s := s)
  rw [hI.fault]
  refine ⟨fun v hv => ?_, ?_, ?_⟩
  · simp only [progress, advance_of_ne hv, hhandled.others v hv]
  · simpa only [progress, hbroadcast, true_and] using hlt
  · simpa only [progress, hbroadcast, true_and] using hle

theorem Inv.moved_createSession (h : Inv s) (hcall : setupCall w (s.returned w) = .createSession) :
    Moved s (s.createSession serve w) w := by
  have hbroadcast : s.broadcast.waits w = none := by
    by_contra hwaits
    exact absurd (hcall.symm.trans (h.inBroadcast _ hwaits)) (by decide)
  have hbarrier : s.barrier.waits w = none := by
    by_contra hwaits
    exact absurd (hcall.symm.trans (h.inBarrier _ hwaits)) (by decide)
  refine ⟨fun v hv => ?_, ?_, ?_⟩
  · rw [progress, progress, show (s.createSession serve w).returned v = s.returned v from Function.update_of_ne hv ..]
    rfl
  all_goals
    simp only [progress, createSession, Function.update_self, hbroadcast, hbarrier, and_self, if_true]
    omega

theorem Inv.moved (h : Inv s) {e : Event n} (hn : s.next serve e = some s') : Moved s s' e.worker := by
  cases step hn with
  | broadcast b hcall hb => exact h.moved_broadcast hcall hb
  | barrier b hcall hb => exact h.moved_barrier hcall hb
  | createSession hcall => exact h.moved_createSession hcall

/-! ## No run gets stuck -/

/-- A worker whose calls are not enabled waits for the others. -/
inductive Stuck (s : SetupRun n C R) (w : Fin n) : Prop
  /-- The first worker has not sent the session ID. -/
  | broadcast : setupCall w (s.returned w) = .broadcast → s.broadcast.done 0 ≤ s.broadcast.done w → w ≠ 0 →
      s.barrier.waits w = none → Stuck s w
  /-- Not all have reached the barrier. -/
  | barrier : setupCall w (s.returned w) = .barrier → s.barrier.returned w = s.barrier.barrier.opId →
      s.barrier.started w = s.barrier.barrier.opId + 1 → Stuck s w

theorem Inv.stuck (h : Inv s) (hw : ∀ e : Event n, e.worker = w → s.next serve e = none) : Stuck s w := by
  have hcall := hw (.call w 0) rfl
  have hresume := hw (.resume w) rfl
  obtain ⟨base, L, hA, hL⟩ := h.broadcast
  unfold SetupRun.next at hcall hresume
  dsimp only [Event.worker] at hcall hresume
  split at hcall <;> rename_i hkind
  · simp only [hkind, Option.map_eq_none_iff, BroadcastRun.next, Event.toBroadcast, hA.fault, Option.isSome_none,
      Bool.false_eq_true, if_false] at hcall hresume
    cases hwaits : s.broadcast.waits w with
    | none => simp [hwaits] at hcall
    | some op =>
      obtain ⟨idx, event⟩ := op
      obtain ⟨hidx, hlt, rfl⟩ := hA.waits w idx event hwaits
      simp only [hwaits, hA.shape.isSet, List.getElem?_map, List.getElem?_range (show base + idx < base + L by omega),
        Option.map_some] at hresume
      have hsent := hA.sent
      refine .broadcast hkind ?_ ?_ ?_
      · simp only [Option.some.injEq, decide_eq_true_eq, ite_eq_right_iff, reduceCtorEq, imp_false] at hresume
        omega
      · rintro rfl
        rw [hA.root_free] at hwaits
        cases hwaits
      · by_contra hbar
        have hbar := h.inBarrier w hbar
        rw [hkind] at hbar
        cases hbar
  · simp only [hkind, Option.map_eq_none_iff, BarrierRun.next, Event.toBarrier, h.barrier.fault, Option.isSome_none,
      Bool.false_eq_true, if_false] at hcall hresume
    cases hwaits : s.barrier.waits w with
    | none => simp [hwaits] at hcall
    | some op =>
      obtain ⟨op, event⟩ := op
      obtain ⟨-, hstarted, hreturned⟩ := h.barrier.busy w op event hwaits
      have hge : s.barrier.barrier.opId ≤ op := by
        by_contra hlt
        simp [hwaits, h.barrier.can_resume hwaits (Nat.lt_of_not_le hlt)] at hresume
      have hnear := h.barrier.near w
      exact .barrier hkind (by omega) (by omega)
  · cases hcall

/-- Where the workers that are not done with `k` sessions are all stuck, none of them is at a barrier. -/
theorem Inv.not_stuck (h : Inv s) {k : ℕ} (hall : ∀ w, s.returned w < 4 * k → Stuck s w) (w : Fin n) :
    4 * k ≤ s.returned w := by
  have h0 : ((0 : Fin n) : ℕ) = 0 := Fin.val_zero _
  have hroot (hlt : s.returned 0 < 4 * k) : setupCall (0 : Fin n) (s.returned 0) = .barrier ∧
      calls .barrier (0 : Fin n) (s.returned 0) = s.barrier.barrier.opId := by
    cases hall 0 hlt with
    | broadcast _ _ hne _ => exact absurd rfl hne
    | barrier hcall hreturned _ => exact ⟨hcall, by rw [← h.left, hreturned]⟩
  -- a worker that waits for the session ID waits for the first one
  have hbroadcast (v : Fin n) (hlt : s.returned v < 4 * k) (hcall : setupCall v (s.returned v) = .broadcast)
      (hdone : s.broadcast.done 0 ≤ s.broadcast.done v) : s.returned 0 ≤ s.returned v ∧ s.returned v % 4 = 0 := by
    rw [h.answered, h.answered, calls_broadcast, calls_broadcast] at hdone
    have hpos := setupCall_eq_broadcast.mp hcall
    omega
  -- a worker at the barrier waits for one that waits for the session ID
  have hbarrier (v : Fin n) (hlt : s.returned v < 4 * k) (hcall : setupCall v (s.returned v) = .barrier)
      (hreturned : s.barrier.returned v = s.barrier.barrier.opId) : False := by
    obtain ⟨u, hu⟩ : ∃ u, s.barrier.started u ≤ s.barrier.barrier.opId := by
      by_contra hnone
      push Not at hnone
      have huniv : aheadOf s.barrier.started s.barrier.barrier.opId = Finset.univ := by
        ext u
        simpa using hnone u
      have hopen := h.barrier.open_
      rw [huniv, Finset.card_univ, Fintype.card_fin] at hopen
      exact Nat.lt_irrefl n hopen
    have hle : calls .barrier u (s.returned u) ≤ calls .barrier v (s.returned v) := by
      rw [← h.left, ← h.left, hreturned]
      cases hwaits : s.barrier.waits u with
      | none =>
        have := h.barrier.idle u hwaits
        omega
      | some op =>
        have := h.barrier.busy u op.1 op.2 hwaits
        omega
    have hult : s.returned u < 4 * k := by
      rw [calls_barrier, calls_barrier] at hle
      rw [setupCall_eq_barrier] at hcall
      by_cases hv0 : (v : ℕ) = 0 <;> by_cases hu0 : (u : ℕ) = 0 <;>
        simp only [hv0, hu0, if_true, if_false] at hle hcall <;> omega
    cases hall u hult with
    | barrier _ _ hstarted => omega
    | broadcast hucall hdone hne hwaits =>
      obtain ⟨hle0, hmod⟩ := hbroadcast u hult hucall hdone
      obtain ⟨hcall0, hop⟩ := hroot (by omega)
      have hidle := h.barrier.idle u hwaits
      rw [h.left u] at hidle
      rw [setupCall_eq_barrier, if_pos h0] at hcall0
      have hne0 : (u : ℕ) ≠ 0 := fun hu0 => hne (Fin.ext (hu0.trans h0.symm))
      rw [calls_barrier, if_pos h0] at hop
      rw [calls_barrier, if_neg hne0] at hidle
      omega
  by_contra hlt
  rw [Nat.not_le] at hlt
  cases hall w hlt with
  | barrier hcall hreturned _ => exact hbarrier w hlt hcall hreturned
  | broadcast hcall hdone _ _ =>
    obtain ⟨hle0, -⟩ := hbroadcast w hlt hcall hdone
    have hlt0 : s.returned 0 < 4 * k := by omega
    obtain ⟨hcall0, hop⟩ := hroot hlt0
    exact hbarrier 0 hlt0 hcall0 (by rw [h.left, hop])

omit [NeZero n] in
/-- A step of a worker that is not done with `k` sessions. -/
theorem Moved.sum_lt {k : ℕ} (h : Moved s s' w) (hw : s.returned w < 4 * k) :
    ∑ v, min (s.progress v) (8 * k) < ∑ v, min (s'.progress v) (8 * k) := by
  refine Finset.sum_lt_sum (fun v _ => ?_) ⟨w, Finset.mem_univ w, ?_⟩
  · by_cases hv : v = w
    · subst hv
      have hlt := h.lt
      omega
    · rw [h.others v hv]
  · have hlt := h.lt
    have hle := h.le
    omega

theorem Inv.length_le {ctrl : C} {k : ℕ} {es : List (Event n)} (h : Inv s)
    (hr : (machine serve ctrl).runWhile (fun s e => s.returned e.worker < 4 * k) s es = some s') :
    es.length + ∑ v, min (s.progress v) (8 * k) ≤ ∑ v, min (s'.progress v) (8 * k) := by
  induction es generalizing s with
  | nil =>
    simp only [Machine.runWhile, Option.some.injEq] at hr
    rw [hr, List.length_nil, Nat.zero_add]
  | cons e es ih =>
    simp only [Machine.runWhile, Option.ite_none_right_eq_some, Option.bind_eq_some_iff] at hr
    obtain ⟨hw, t, hn, hr⟩ := hr
    have hrest := ih (h.next hn) hr
    have hlt := (h.moved hn).sum_lt hw
    rw [List.length_cons]
    omega

/-- However the calls of the workers are interleaved, they set up `k` sessions. The
workers that are not done with them make eight steps each for a session at most,
and while there are such workers, one of them can go on. -/
theorem setup_completes {ctrl : C} {k : ℕ} {es : List (Event n)} (h : (machine serve ctrl).Reachable s)
    (hr : (machine serve ctrl).runWhile (fun s e => s.returned e.worker < 4 * k) s es = some s') :
    es.length ≤ 8 * k * n ∧
      ((∀ w, 4 * k ≤ s'.returned w) ∨ ∃ e, s'.returned e.worker < 4 * k ∧ (s'.next serve e).isSome) := by
  have hI := Inv.of_reachable h
  refine ⟨?_, ?_⟩
  · have hlen := hI.length_le hr
    have hsum : ∑ v, min (s'.progress v) (8 * k) ≤ ∑ _v : Fin n, 8 * k :=
      Finset.sum_le_sum fun v _ => Nat.min_le_right ..
    rw [Finset.sum_const_nat fun _ _ => rfl, Finset.card_univ, Fintype.card_fin, Nat.mul_comm n] at hsum
    omega
  · have hI' : Inv s' := Inv.of_reachable (h.run (Machine.run_of_runWhile hr))
    by_contra hnone
    push Not at hnone
    obtain ⟨⟨w, hw⟩, hstuck⟩ := hnone
    have hall (v : Fin n) (hv : s'.returned v < 4 * k) : Stuck s' v := by
      have hnext (e : Event n) (he : e.worker = v) : s'.next serve e = none := by
        have hev := hstuck e (by rw [he]; exact hv)
        simpa using hev
      exact hI'.stuck hnext
    exact absurd (hI'.not_stuck hall w) (Nat.not_le.mpr hw)

/-- Two workers set up a session. -/
theorem setup_completes_two : ∃ s : SetupRun 2 ℕ ℕ, s.returned 0 = 4 ∧ (11 ≤ 8 * 1 * 2) ∧
    ((∀ w, 4 * 1 ≤ s.returned w) ∨ ∃ e, s.returned e.worker < 4 * 1 ∧ (s.next (fun _ w c => (c, c + w.val)) e).isSome) := by
  have hrun : ((machine (n := 2) (fun _ w c => (c, c + w.val)) 0).runWhile (fun s e => s.returned e.worker < 4 * 1)
      (new 2 ℕ 0)
      [.call 1 5, .call 0 7, .resume 1, .call 1 0, .call 0 0, .call 0 0, .resume 1, .call 1 0, .call 0 0, .call 1 0,
        .resume 0]).map (fun s => s.returned 0) = some 4 := by
    decide +kernel
  obtain ⟨s, hs, heq⟩ := Option.map_eq_some_iff.mp hrun
  exact ⟨s, heq, setup_completes (.init rfl) hs⟩

end SetupRun

end SwitchML.Controller
