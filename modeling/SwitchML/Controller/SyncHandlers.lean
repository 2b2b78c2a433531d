/-
The handlers of the Sync service statement by statement. A handler that raises
has done what comes before the statement that raised, which the sections of
`GRPCServer` leave out; where no statement raises, the two agree.

`reset` makes new dictionaries, lists and events. The events made before stay
where they are in the lists of events, and a handler does with the events made
after them what it does where there are no others.
-/
import SwitchML.Controller.GRPCServer
import SwitchML.Lib.Raising
import Mathlib.Algebra.Ring.Int.Defs

namespace SwitchML.Controller

open Raising

/-! ## Barrier -/

namespace Barrier

/-- `self._barrier_ctrs[key] += d`. -/
def addCtr (key : ℕ) (d : ℤ) : EStateM PyError Barrier PUnit :=
  writes fun s => do
    let ctr ← getItem s.ctrs key
    .ok { s with ctrs := Function.update s.ctrs key (some (ctr + d)) }

def ctr (key : ℕ) : EStateM PyError Barrier ℤ := reads fun s => getItem s.ctrs key

def event (key : ℕ) : EStateM PyError Barrier ℕ := reads fun s => getItem s.events key

def setEvent (event : ℕ) : EStateM PyError Barrier PUnit :=
  writes fun s => .ok { s with isSet := s.isSet.set event true }

/-- The entries of the next operation. -/
def nextOp : EStateM PyError Barrier PUnit :=
  writes fun s => .ok {
    opId := s.opId + 1
    ctrs := Function.update s.ctrs (s.opId + 1) (some 0)
    events := Function.update s.events (s.opId + 1) (some s.isSet.length)
    isSet := s.isSet ++ [false] }

/-- `Barrier` up to its `await`: the operation and the event it waits for, or
`none` where it leaves the lock. -/
def enter (numWorkers : ℕ) : EStateM PyError Barrier (Option (ℕ × ℕ)) := do
  let opId ← reads fun s => .ok s.opId
  addCtr opId 1
  if (← ctr opId) < numWorkers then
    return some (opId, ← event opId)
  else
    setEvent (← event opId)
    addCtr opId (-1)
    nextOp
    return none

/-- `Barrier` from its `await` on. -/
def leave (tmpId : ℕ) : EStateM PyError Barrier PUnit := do
  addCtr tmpId (-1)
  if (← ctr tmpId) = 0 then
    writes fun s => do .ok { s with ctrs := ← delItem s.ctrs tmpId }
    writes fun s => do .ok { s with events := ← delItem s.events tmpId }

/-- The barrier's part of `reset`. -/
def reset (s : Barrier) : Barrier where
  opId := 0
  ctrs := Function.update (fun _ => none) 0 (some 0)
  events := Function.update (fun _ => none) 0 (some s.isSet.length)
  isSet := s.isSet ++ [false]

theorem getItem_update {α : Type} (d : ℕ → Option α) (key : ℕ) (v : α) :
    getItem (Function.update d key (some v)) key = .ok v :=
  getItem_some (Function.update_self ..)

theorem outcome_enter (s : Barrier) (numWorkers : ℕ) : outcome (enter numWorkers s) = s.start numWorkers := by
  unfold enter addCtr ctr event setEvent nextOp Barrier.start
  simp only [outcome_bind, outcome_reads, outcome_writes, outcome_ite, outcome_pure]
  cases hc : getItem s.ctrs s.opId with
  | error e => simp [hc, bind, Except.bind, Except.map]
  | ok v =>
    cases he : getItem s.events s.opId with
    | error e => simp [hc, he, getItem_update, bind, Except.bind, Except.map]
    | ok ev => simp [hc, he, getItem_update, bind, Except.bind, Except.map]

theorem outcome_leave (s : Barrier) (tmpId : ℕ) :
    outcome (leave tmpId s) = (s.resume tmpId).map (·, ⟨⟩) := by
  unfold leave addCtr ctr Barrier.resume
  simp only [outcome_bind, outcome_reads, outcome_writes, outcome_ite, outcome_pure]
  cases hc : getItem s.ctrs tmpId with
  | error e => simp [bind, Except.bind, Except.map]
  | ok v =>
    by_cases hv : v + -1 = 0
    · cases he : getItem s.events tmpId with
      | error e => simp [he, hv, delItem, getItem_update, bind, Except.bind, Except.map, Int.sub_eq_add_neg]
      | ok ev => simp [he, hv, delItem, getItem_update, bind, Except.bind, Except.map, Int.sub_eq_add_neg]
    · simp [hv, getItem_update, bind, Except.bind, Except.map, Int.sub_eq_add_neg]

/-! The events made earlier -/

/-- The barrier where events were made before: `earlier` says which are set. -/
def shift (earlier : List Bool) (s : Barrier) : Barrier :=
  { s with
    events := fun key => (s.events key).map (earlier.length + ·)
    isSet := earlier ++ s.isSet }

theorem reset_eq (s : Barrier) : s.reset = shift s.isSet new := by
  unfold reset shift new
  simp only [Barrier.mk.injEq, true_and, and_true]
  funext key
  by_cases hkey : key = 0
  · simp [hkey]
  · simp [Function.update_of_ne hkey]

variable (earlier : List Bool)

theorem renames_addCtr (key : ℕ) (d : ℤ) : Renames (shift earlier) id (addCtr key d) (addCtr key d) := by
  refine Renames.writes fun s => ?_
  change (getItem s.ctrs key).bind _ = Except.map _ ((getItem s.ctrs key).bind _)
  cases getItem s.ctrs key with
  | error e => rfl
  | ok v => rfl

theorem renames_ctr (key : ℕ) : Renames (shift earlier) id (ctr key) (ctr key) := by
  refine Renames.reads fun s => ?_
  change getItem s.ctrs key = Except.map id (getItem s.ctrs key)
  cases getItem s.ctrs key with
  | error e => rfl
  | ok v => rfl

theorem renames_event (key : ℕ) : Renames (shift earlier) (earlier.length + ·) (event key) (event key) := by
  refine Renames.reads fun s => ?_
  unfold getItem shift
  simp only
  cases s.events key with
  | none => rfl
  | some ev => rfl

theorem renames_setEvent (ev : ℕ) :
    Renames (shift earlier) id (setEvent ev) (setEvent (earlier.length + ev)) := by
  refine Renames.writes fun s => ?_
  simp only [shift, Except.map, List.set_append_right _ _ (Nat.le_add_right ..), Nat.add_sub_cancel_left]

theorem renames_nextOp : Renames (shift earlier) id nextOp nextOp := by
  refine Renames.writes fun s => ?_
  simp only [shift, Except.map, List.append_assoc, List.length_append, Except.ok.injEq, Barrier.mk.injEq, true_and,
    and_true]
  funext key
  by_cases hkey : key = s.opId + 1
  · simp [hkey]
  · simp [Function.update_of_ne hkey]

theorem renames_enter (numWorkers : ℕ) :
    Renames (shift earlier) (Option.map (Prod.map id (earlier.length + ·))) (enter numWorkers) (enter numWorkers) := by
  unfold enter
  refine Renames.bind (g := id) (Renames.reads fun s => rfl) fun opId => ?_
  refine Renames.bind (renames_addCtr earlier opId 1) fun _ => ?_
  refine Renames.bind (renames_ctr earlier opId) fun ctr => Renames.ite ?_ ?_
  · exact Renames.bind (renames_event earlier opId) fun ev => Renames.pure _
  · refine Renames.bind (renames_event earlier opId) fun ev => ?_
    refine Renames.bind (renames_setEvent earlier ev) fun _ => ?_
    refine Renames.bind (renames_addCtr earlier opId (-1)) fun _ => ?_
    exact Renames.bind (renames_nextOp earlier) fun _ => Renames.pure _

theorem renames_leave (tmpId : ℕ) : Renames (shift earlier) id (leave tmpId) (leave tmpId) := by
  unfold leave
  refine Renames.bind (renames_addCtr earlier tmpId (-1)) fun _ => ?_
  refine Renames.bind (renames_ctr earlier tmpId) fun ctr => Renames.ite ?_ (Renames.pure _)
  refine Renames.bind (Renames.writes fun s => ?_) fun _ => Renames.writes fun s => ?_
  · change (getItem s.ctrs tmpId >>= _) >>= _ = Except.map _ ((getItem s.ctrs tmpId >>= _) >>= _)
    cases getItem s.ctrs tmpId with
    | error e => rfl
    | ok v => rfl
  · unfold delItem getItem shift
    simp only
    cases s.events tmpId with
    | none => rfl
    | some ev =>
      simp only [Option.map_some, bind, Except.bind, Except.map, Except.ok.injEq, Barrier.mk.injEq, true_and,
        and_true]
      funext key
      by_cases hkey : key = tmpId
      · simp [hkey]
      · simp [Function.update_of_ne hkey]

end Barrier

/-! ## Broadcast -/

namespace Broadcast

variable {V : Type}

/-- The loop that removes old operations. -/
def dropOld : List ℕ → EStateM PyError (Broadcast V) PUnit
  | [] => pure ⟨⟩
  | idx :: rest => do
    if (← reads fun s => getIndex s.bitmap idx).all id then
      writes fun s => do .ok { s with bitmap := ← delIndex s.bitmap idx }
      writes fun s => do .ok { s with values := ← delIndex s.values idx }
      writes fun s => do .ok { s with events := ← delIndex s.events idx }
    dropOld rest

/-- The index of the operation a request belongs to. Nothing is changed before
the last statement that can raise. -/
def index (numWorkers rank : ℕ) : EStateM PyError (Broadcast V) ℕ :=
  statement fun s => (s.operation numWorkers rank).map Prod.swap

def event (idx : ℕ) : EStateM PyError (Broadcast V) ℕ := reads fun s => getIndex s.events idx

def setEvent (event : ℕ) : EStateM PyError (Broadcast V) PUnit :=
  writes fun s => .ok { s with isSet := s.isSet.set event true }

/-- `Broadcast` up to its `await`: the index of its operation, with the event
it waits for if it has to. -/
def enter (numWorkers rank root : ℕ) (value : V) : EStateM PyError (Broadcast V) (ℕ × Option ℕ) := do
  dropOld (← reads fun s => .ok (List.range s.bitmap.length))
  let idx ← index numWorkers rank
  if rank = root then
    writes fun s => do .ok { s with values := ← setIndex s.values idx (some value) }
    setEvent (← event idx)
    writes fun s => s.setBit idx rank
    return (idx, none)
  else if (← reads fun s => getIndex s.values idx).isNone then
    return (idx, some (← event idx))
  else
    writes fun s => s.setBit idx rank
    return (idx, none)

/-- `Broadcast` from its `await` to where it leaves the lock. -/
def leave (rank idx : ℕ) : EStateM PyError (Broadcast V) PUnit := writes fun s => s.setBit idx rank

/-- The broadcast's part of `reset`. -/
def reset (s : Broadcast V) : Broadcast V where
  values := []
  bitmap := []
  events := []
  isSet := s.isSet

theorem outcome_dropOld (s : Broadcast V) (idxs : List ℕ) :
    outcome (dropOld idxs s) = (s.removeOld idxs).map (·, ⟨⟩) := by
  induction idxs generalizing s with
  | nil => rfl
  | cons idx rest ih =>
    unfold dropOld removeOld
    simp only [outcome_bind, outcome_reads, outcome_writes, outcome_ite, ih]
    cases hb : getIndex s.bitmap idx with
    | error e => simp [bind, Except.bind, Except.map]
    | ok bits =>
      cases hall : bits.all id with
      | false => simp [hall, bind, Except.bind, Except.map]
      | true =>
        cases h1 : delIndex s.bitmap idx with
        | error e => simp [hall, h1, bind, Except.bind, Except.map]
        | ok bitmap =>
          cases h2 : delIndex s.values idx with
          | error e => simp [hall, h1, h2, bind, Except.bind, Except.map]
          | ok values =>
            cases h3 : delIndex s.events idx with
            | error e => simp [hall, h1, h2, h3, bind, Except.bind, Except.map]
            | ok events => simp [hall, h1, h2, h3, bind, Except.bind, Except.map]

theorem setIndex_ok {α : Type} {l l' : List α} {i : ℕ} {v : α} (h : setIndex l i v = .ok l') : l' = l.set i v := by
  unfold setIndex at h
  cases hi : getIndex l i with
  | error e => simp [hi, bind, Except.bind] at h
  | ok w =>
    simp only [hi, bind, Except.bind, Except.ok.injEq] at h
    exact h.symm

/-- What `GRPCServer` has a handler come to. -/
def ends (s : Broadcast V) : ℕ × Option ℕ → Except PyError (Broadcast V × Outcome V)
  | (idx, some event) => .ok (s, .waits idx event)
  | (idx, none) => s.answer idx

/-- Where no statement raises, the handler does what its section does. -/
theorem enter_of_start {s : Broadcast V} {numWorkers rank root : ℕ} {value : V} {r : Broadcast V × Outcome V}
    (h : s.start numWorkers rank root value = .ok r) :
    (outcome (enter numWorkers rank root value s)).bind (fun r => ends r.1 r.2) = .ok r := by
  unfold start at h
  unfold enter index event setEvent
  simp only [outcome_bind, outcome_reads, outcome_writes, outcome_ite, outcome_pure, outcome_statement, Except.map,
    outcome_dropOld, Except.bind]
  simp only [bind, Except.bind] at h
  cases h1 : s.removeOld (List.range s.bitmap.length) with
  | error e => simp [h1] at h
  | ok s1 =>
    simp only [h1] at h ⊢
    cases h2 : s1.operation numWorkers rank with
    | error e => simp [h2] at h
    | ok r2 =>
      obtain ⟨s2, idx⟩ := r2
      simp only [h2, Prod.swap_prod_mk] at h ⊢
      by_cases hroot : rank = root
      · rw [if_pos hroot] at h ⊢
        cases h3 : setIndex s2.values idx (some value) with
        | error e => simp [h3] at h
        | ok values =>
          cases h4 : getIndex s2.events idx with
          | error e => simp [h3, h4] at h
          | ok ev =>
            cases h5 : setIndex s2.isSet ev true with
            | error e => simp [h3, h4, h5] at h
            | ok isSet =>
              have hset := setIndex_ok h5
              subst hset
              simp only [h3, h4, h5, bind, Except.bind] at h ⊢
              cases h6 : setBit { s2 with values, isSet := s2.isSet.set ev true } idx rank with
              | error e => simp [h6] at h
              | ok s3 =>
                simp only [h6] at h ⊢
                exact h
      · rw [if_neg hroot] at h ⊢
        cases h3 : getIndex s2.values idx with
        | error e => simp [h3] at h
        | ok v =>
          simp only [h3] at h ⊢
          by_cases hv : v.isNone = true
          · rw [if_pos hv] at h ⊢
            cases h4 : getIndex s2.events idx with
            | error e => simp [h4] at h
            | ok ev =>
              simp only [h4] at h ⊢
              exact h
          · rw [if_neg hv] at h ⊢
            cases h4 : s2.setBit idx rank with
            | error e => simp [h4] at h
            | ok s3 =>
              simp only [h4] at h ⊢
              exact h

theorem leave_of_resume {s : Broadcast V} {rank idx : ℕ} :
    (outcome (leave rank idx s)).bind (fun r => r.1.answer idx) = s.resume rank idx := by
  unfold leave resume
  rw [outcome_writes]
  cases s.setBit idx rank with
  | error e => rfl
  | ok s' => rfl

/-! The events made earlier -/

/-- The broadcasts where events were made before. -/
def shift (earlier : List Bool) (s : Broadcast V) : Broadcast V :=
  { s with
    events := s.events.map (earlier.length + ·)
    isSet := earlier ++ s.isSet }

theorem reset_eq (s : Broadcast V) : s.reset = shift s.isSet new := by
  simp [reset, shift, new]

variable (earlier : List Bool)

theorem getIndex_map {α β : Type} (f : α → β) (l : List α) (i : ℕ) : getIndex (l.map f) i = (getIndex l i).map f := by
  unfold getIndex
  rw [List.getElem?_map]
  cases l[i]? with
  | none => rfl
  | some v => rfl

theorem delIndex_map {α β : Type} (f : α → β) (l : List α) (i : ℕ) :
    delIndex (l.map f) i = (delIndex l i).map (List.map f) := by
  unfold delIndex
  rw [getIndex_map]
  cases getIndex l i with
  | error e => rfl
  | ok v => simp [bind, Except.bind, Except.map, List.eraseIdx_map]

theorem renames_event (idx : ℕ) :
    Renames (shift (V := V) earlier) (earlier.length + ·) (event idx) (event idx) :=
  Renames.reads fun s => getIndex_map (earlier.length + ·) s.events idx

theorem renames_setEvent (ev : ℕ) :
    Renames (shift (V := V) earlier) id (setEvent ev) (setEvent (earlier.length + ev)) := by
  refine Renames.writes fun s => ?_
  simp only [shift, Except.map, List.set_append_right _ _ (Nat.le_add_right ..), Nat.add_sub_cancel_left]

/-- The rest of the state has nothing to do with the events. -/
theorem renames_bitmap {α : Type} (F : List (List Bool) → Except PyError α) :
    Renames (shift (V := V) earlier) id (reads fun s => F s.bitmap) (reads fun s => F s.bitmap) := by
  refine Renames.reads fun s => ?_
  change F s.bitmap = Except.map id (F s.bitmap)
  cases F s.bitmap with
  | error e => rfl
  | ok v => rfl

theorem renames_setBit (rank idx : ℕ) :
    Renames (shift (V := V) earlier) id (writes fun s => s.setBit idx rank) (writes fun s => s.setBit idx rank) := by
  refine Renames.writes fun s => ?_
  unfold setBit
  change (getIndex s.bitmap idx).bind _ = Except.map _ ((getIndex s.bitmap idx).bind _)
  cases getIndex s.bitmap idx with
  | error e => rfl
  | ok bits =>
    change (setIndex bits rank true).bind _ = Except.map _ ((setIndex bits rank true).bind _)
    cases setIndex bits rank true with
    | error e => rfl
    | ok bits' =>
      change (setIndex s.bitmap idx bits').bind _ = Except.map _ ((setIndex s.bitmap idx bits').bind _)
      cases setIndex s.bitmap idx bits' with
      | error e => rfl
      | ok bitmap => rfl

theorem renames_dropOld (idxs : List ℕ) :
    Renames (shift (V := V) earlier) id (dropOld idxs) (dropOld idxs) := by
  induction idxs with
  | nil => exact Renames.pure _
  | cons idx rest ih =>
    unfold dropOld
    refine Renames.bind (renames_bitmap earlier fun bitmap => getIndex bitmap idx) fun bits => Renames.ite ?_ ih
    refine Renames.bind (Renames.writes fun s => ?_) fun _ => ?_
    · change (delIndex s.bitmap idx).bind _ = Except.map _ ((delIndex s.bitmap idx).bind _)
      cases delIndex s.bitmap idx with
      | error e => rfl
      | ok v => rfl
    refine Renames.bind (Renames.writes fun s => ?_) fun _ => ?_
    · change (delIndex s.values idx).bind _ = Except.map _ ((delIndex s.values idx).bind _)
      cases delIndex s.values idx with
      | error e => rfl
      | ok v => rfl
    refine Renames.bind (Renames.writes fun s => ?_) fun _ => ih
    change (delIndex (s.events.map _) idx).bind _ = Except.map _ ((delIndex s.events idx).bind _)
    rw [delIndex_map]
    cases delIndex s.events idx with
    | error e => rfl
    | ok v => rfl

/-- A new operation at the end of the lists. -/
theorem operation_new_shift (s : Broadcast V) (numWorkers : ℕ) :
    ({ bitmap := s.bitmap ++ [List.replicate numWorkers false]
       values := s.values ++ [none]
       events := s.events.map (earlier.length + ·) ++ [(earlier ++ s.isSet).length]
       isSet := earlier ++ s.isSet ++ [false] } : Broadcast V) =
      shift earlier {
        bitmap := s.bitmap ++ [List.replicate numWorkers false]
        values := s.values ++ [none]
        events := s.events ++ [s.isSet.length]
        isSet := s.isSet ++ [false] } := by
  simp [shift]

theorem renames_index (numWorkers rank : ℕ) :
    Renames (shift (V := V) earlier) id (index numWorkers rank) (index numWorkers rank) := by
  refine Renames.statement fun s => ?_
  have hnew := operation_new_shift earlier s numWorkers
  unfold operation
  change Except.map _ ((scan s.bitmap rank (List.range s.bitmap.length) none).bind _) =
    Except.map _ (Except.map _ ((scan s.bitmap rank (List.range s.bitmap.length) none).bind _))
  cases scan s.bitmap rank (List.range s.bitmap.length) none with
  | error e => rfl
  | ok idx =>
    cases idx with
    | none =>
      refine congrArg (fun b => Except.ok (0, b)) ?_
      exact hnew
    | some i =>
      change Except.map _ ((getIndex s.bitmap i).bind _) =
        Except.map _ (Except.map _ ((getIndex s.bitmap i).bind _))
      cases getIndex s.bitmap i with
      | error e => rfl
      | ok bits =>
        change Except.map _ ((getIndex bits rank).bind _) = Except.map _ (Except.map _ ((getIndex bits rank).bind _))
        cases getIndex bits rank with
        | error e => rfl
        | ok bit =>
          cases bit with
          | false => rfl
          | true =>
            refine congrArg (fun b => Except.ok (i + 1, b)) ?_
            exact hnew

theorem renames_enter (numWorkers rank root : ℕ) (value : V) :
    Renames (shift earlier) (Prod.map id (Option.map (earlier.length + ·))) (enter numWorkers rank root value)
      (enter numWorkers rank root value) := by
  unfold enter
  refine Renames.bind (renames_bitmap earlier fun bitmap => .ok (List.range bitmap.length)) fun idxs => ?_
  refine Renames.bind (renames_dropOld earlier idxs) fun _ => ?_
  refine Renames.bind (renames_index earlier numWorkers rank) fun idx => Renames.ite ?_ ?_
  · refine Renames.bind (Renames.writes fun s => ?_) fun _ => ?_
    · change (setIndex s.values idx (some value)).bind _ = Except.map _ ((setIndex s.values idx (some value)).bind _)
      cases setIndex s.values idx (some value) with
      | error e => rfl
      | ok v => rfl
    refine Renames.bind (renames_event earlier idx) fun ev => ?_
    refine Renames.bind (renames_setEvent earlier ev) fun _ => ?_
    exact Renames.bind (renames_setBit earlier rank idx) fun _ => Renames.pure _
  · refine Renames.bind (g := id) (Renames.reads fun s => ?_) fun v => Renames.ite ?_ ?_
    · change getIndex s.values idx = Except.map id (getIndex s.values idx)
      cases getIndex s.values idx with
      | error e => rfl
      | ok v => rfl
    · exact Renames.bind (renames_event earlier idx) fun ev => Renames.pure _
    · exact Renames.bind (renames_setBit earlier rank idx) fun _ => Renames.pure _

theorem renames_leave (rank idx : ℕ) : Renames (shift (V := V) earlier) id (leave rank idx) (leave rank idx) :=
  renames_setBit earlier rank idx

end Broadcast

end SwitchML.Controller
