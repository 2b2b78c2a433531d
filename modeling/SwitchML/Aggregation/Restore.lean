/-
Packets that carry other words than their worker's contribution. Where each pipe
has seen the worker's packet of the phase before, such a packet adds nothing: the
slot goes on as if the packet carried the contribution (`Restores.pass`).
-/
import SwitchML.Aggregation.SlotPass

namespace SwitchML.Aggregation

open P4 Tna Phases Controller

variable {n : ℕ} {J : Job n} {s s' v v' : State n} {w : Fin n} {t : PacketType} {p : Fin 4} {f : Flight n}
  {inp : PassInputs} {k : ℕ}

/-! ## With the words of the contribution -/

/-- The pipe of a consume pass. -/
def consumePipe : PacketType → Option (Fin 4)
  | .CONSUME0 => some 0
  | .CONSUME1 => some 1
  | .CONSUME2 => some 2
  | .CONSUME3 => some 3
  | _ => none

@[simp] theorem consumePipe_consumeType : ∀ p, consumePipe (consumeType p) = some p := by decide

theorem consumePipe_of_not_isConsume (h : t.isConsume = false) : consumePipe t = none := by
  cases t <;> first | rfl | cases h

/-- The packet on its way to pass `t`, with the words of its worker's contribution. -/
def Job.restoreWire (J : Job n) (w : Fin n) (k : ℕ) (t : PacketType) (wire : Wire) : Wire :=
  match consumePipe t with
  | some p => { wire with payload := J.slicesFrom w k (2 * p) }
  | none => wire

theorem restoreWire_consumeType (wire : Wire) :
    J.restoreWire w k (consumeType p) wire = { wire with payload := J.slicesFrom w k (2 * p) } := by
  unfold Job.restoreWire
  rw [consumePipe_consumeType]

theorem restoreWire_of_not_isConsume (ht : t.isConsume = false) (wire : Wire) : J.restoreWire w k t wire = wire := by
  unfold Job.restoreWire
  rw [consumePipe_of_not_isConsume ht]

@[simp] theorem restoreWire_md (wire : Wire) : (J.restoreWire w k t wire).md = wire.md := by
  unfold Job.restoreWire
  split <;> rfl

def Job.restore (J : Job n) (w : Fin n) (t : PacketType) (f : Flight n) : Flight n :=
  { f with wire := J.restoreWire w f.phase t f.wire }

def Job.restoreOutcome (J : Job n) (w : Fin n) (k : ℕ) : Outcome → Outcome
  | .gone => .gone
  | .response broadcast wire => .response broadcast wire
  | .recirculate port wire => .recirculate port (J.restoreWire w k wire.md.packetType wire)

/-- Every pipe of the job has seen worker `w`'s packet of the phase. -/
def Repeated (J : Job n) (s : State n) (w : Fin n) (k : ℕ) : Prop := ∀ q : Fin 4, q.val < J.pipes → k < s.seen q w

/-- The packet carries the contribution's words, or as many other ones and is a repeated packet. -/
def Harmless (J : Job n) (s : State n) (w : Fin n) (k : ℕ) (wire : Wire) : Prop :=
  J.restoreWire w k wire.md.packetType wire = wire ∨
    wire.payload.length = (J.restoreWire w k wire.md.packetType wire).payload.length ∧ Repeated J s w k

theorem AtPass.restore_eq (h : AtPass J w t f) : J.restore w t f = f := by
  unfold Job.restore
  cases ht : t.isConsume with
  | true =>
    obtain ⟨p, rfl⟩ := exists_of_isConsume ht
    rw [restoreWire_consumeType, ← (h.consume p rfl).payload]
  | false => rw [restoreWire_of_not_isConsume ht]

theorem Harmless.mono {wire : Wire} (h : Harmless J s w k wire) (hseen : ∀ q, s.seen q w ≤ s'.seen q w) :
    Harmless J s' w k wire :=
  h.imp_right fun hrep => ⟨hrep.1, fun q hq => (hrep.2 q hq).trans_le (hseen q)⟩

/-! ## A repeated packet -/

/-- What a repeated packet carries does not matter to the cells. -/
theorem PipeOK.consume_repeated {seen : Fin n → ℕ} {c : Cells} {md : SwitchmlMd} {d0 d1 d0' d1' : DataH}
    (h : PipeOK J p seen c) (ha : Arrives seen w k) (hidx : md.poolIndex = J.poolIndex k) (hw : seen w = k + 1) :
    c.consume (J.bit w) md d0 d1 = c.consume (J.bit w) md d0' d1' := by
  have hvalues : (c.consume (J.bit w) md d0 d1).values = (c.consume (J.bit w) md d0' d1').values := by
    rw [h.consume_values_repeated ha hidx hw, h.consume_values_repeated ha hidx hw]
  exact Cells.mk.injEq .. |>.mpr ⟨rfl, rfl, rfl, hvalues⟩

/-- The job whose contributions are the words of a packet on its way to pipe `p`. -/
def Job.carrying (J : Job n) (p : Fin 4) (payload : List DataH) : Job n :=
  { J with contribution := fun _ _ slice => payload.getD (slice - 2 * p) blankData }

theorem Job.carrying_slicesFrom {payload : List DataH} (hlen : payload.length = (J.slicesFrom w k (2 * p)).length) :
    (J.carrying p payload).slicesFrom w k (2 * p) = payload := by
  have hlen' : payload.length = 2 * J.pipes - 2 * p.val := by
    rw [hlen, Job.slicesFrom, List.length_map, List.length_drop, List.length_range]
  have hpipes : (J.carrying p payload).pipes = J.pipes := rfl
  unfold Job.slicesFrom
  rw [hpipes]
  refine List.ext_getElem ?_ fun i h1 h2 => ?_
  · rw [List.length_map, List.length_drop, List.length_range, hlen']
  · rw [List.getElem_map, List.getElem_drop, List.getElem_range]
    show payload.getD (2 * p + i - 2 * p) blankData = _
    rw [Nat.add_sub_cancel_left, List.getD_eq_getElem?_getD, List.getElem?_eq_getElem h2, Option.getD_some]

/-- A packet on its way to a pipe, whatever it carries. -/
theorem AtConsume.carrying (h : AtConsume J w p (J.restore w (consumeType p) f))
    (hlen : f.wire.payload.length = (J.restore w (consumeType p) f).wire.payload.length) :
    AtConsume (J.carrying p f.wire.payload) w p f := by
  unfold Job.restore at h hlen
  rw [restoreWire_consumeType] at h hlen
  exact ⟨h.type, h.fixed, (Job.carrying_slicesFrom hlen).symm, h.lt, h.port, h.e0, h.e1⟩

/-- Where a consume pass sends a packet does not depend on what the packet
carries; on the way to the next pipe it carries as many words. -/
theorem consumeOutcome_carrying (payload : List DataH) (wire : Wire) (md : SwitchmlMd) (d1 : DataH)
    (haddr : wire.rdmaAddr = f.wire.rdmaAddr) :
    J.consumeOutcome w p { f with wire := wire } md d1 =
        J.restoreOutcome w f.phase ((J.carrying p payload).consumeOutcome w p f md d1) ∧
      ∀ port wire', (J.carrying p payload).consumeOutcome w p f md d1 = .recirculate port wire' →
        wire'.payload.length = (J.restoreWire w f.phase wire'.md.packetType wire').payload.length := by
  have hpipes : (J.carrying p payload).pipes = J.pipes := rfl
  have hid : (J.carrying p payload).id = J.id := rfl
  have hfirst : (J.carrying p payload).firstHarvest = J.firstHarvest := rfl
  unfold Job.consumeOutcome
  rw [hpipes, hid, hfirst, haddr]
  by_cases hp : p.val + 1 < J.pipes
  · have hle := J.pipes_le
    have hval : (p + 1).val = p.val + 1 := by
      rw [Fin.val_add]
      show (p.val + 1) % 4 = p.val + 1
      omega
    rw [if_pos hp, if_pos hp]
    split
    · exact ⟨rfl, fun _ _ ho => by cases ho⟩
    · refine ⟨congrArg (Outcome.recirculate _) ?_, fun port wire' ho => ?_⟩
      · rw [restoreWire_consumeType, hval]
        rfl
      · simp only [Outcome.recirculate.injEq] at ho
        obtain ⟨-, rfl⟩ := ho
        rw [restoreWire_consumeType, hval]
        unfold Job.slicesFrom
        rw [List.length_map, List.length_map, hpipes]
        rfl
  · rw [if_neg hp, if_neg hp]
    have hnot : J.firstHarvest.isConsume = false := by
      unfold Job.firstHarvest
      split <;> rfl
    split
    · refine ⟨congrArg (Outcome.recirculate _) (restoreWire_of_not_isConsume hnot _).symm, fun port wire' ho => ?_⟩
      simp only [Outcome.recirculate.injEq] at ho
      obtain ⟨-, rfl⟩ := ho
      rw [restoreWire_of_not_isConsume hnot]
    · exact ⟨rfl, fun _ _ ho => by cases ho⟩

/-- A pass makes of a repeated packet what it makes of the one with the words of the contribution. -/
theorem AtConsume.pass_restored {i : ℕ} {ig : Ig} {regs : Regs} {seen : Fin n → ℕ}
    (h : AtConsume J w p (J.restore w (consumeType p) f))
    (hlen : f.wire.payload.length = (J.restore w (consumeType p) f).wire.payload.length)
    (hcells : PipeOK J p seen (Cells.of regs J.slot)) (ha : Arrives seen w f.phase) (hseen : seen w = f.phase + 1)
    (hmay : Session.mayPass (consumeType p) i inp = true) (hig : J.enter w inp f = some ig) :
    ∃ ig₀, J.enter w inp (J.restore w (consumeType p) f) = some ig₀ ∧
      (Ingress.process J.tables regs ig₀).1 = (Ingress.process J.tables regs ig).1 ∧
      outcome (Ingress.process J.tables regs ig₀).2 =
        J.restoreOutcome w f.phase (outcome (Ingress.process J.tables regs ig).2) ∧
      ∀ port wire, outcome (Ingress.process J.tables regs ig).2 = .recirculate port wire →
        wire.payload.length = (J.restoreWire w f.phase wire.md.packetType wire).payload.length := by
  have hcarry := h.carrying hlen
  -- the job of the packet's own words has the same tables, cells and packets but for the words
  obtain rfl : (J.carrying p f.wire.payload).entered w p inp f = ig := by
    have henter : J.enter w inp f = some ((J.carrying p f.wire.payload).entered w p inp f) := hcarry.enter
    rw [hig, Option.some.injEq] at henter
    exact henter.symm
  simp only [Session.mayPass, isConsume_consumeType, Bool.not_true, Bool.false_or, Bool.and_eq_true,
    decide_eq_true_eq, consumeType_eq_CONSUME0, Bool.not_eq_true', Bool.and_eq_false_imp,
    decide_eq_false_iff_not] at hmay
  have hrestore : J.restore w (consumeType p) f =
      { f with wire := { f.wire with payload := J.slicesFrom w f.phase (2 * p) } } := by
    rw [Job.restore, restoreWire_consumeType]
  rw [hrestore] at h ⊢
  have hidx : (J.entered w p inp f).md.poolIndex = J.poolIndex f.phase := hcarry.entered_poolIndex
  have hsame : (Cells.of regs J.slot).consume (J.bit w) (J.entered w p inp f).md (J.contribution w f.phase (2 * p))
        (J.contribution w f.phase (2 * p + 1)) =
      (Cells.of regs J.slot).consume (J.bit w) (J.entered w p inp f).md
        ((J.carrying p f.wire.payload).contribution w f.phase (2 * p))
        ((J.carrying p f.wire.payload).contribution w f.phase (2 * p + 1)) :=
    hcells.consume_repeated ha hidx hseen
  refine ⟨_, h.enter, ?_, ?_⟩
  · have hprocess : (Ingress.process J.tables regs (J.entered w p inp _)).1 = _ := congrArg Prod.fst (h.process hmay.2)
    have hprocess' : (Ingress.process J.tables regs ((J.carrying p f.wire.payload).entered w p inp f)).1 = _ :=
      congrArg Prod.fst (hcarry.process hmay.2)
    exact hprocess.trans ((congrArg (Cells.store · regs J.slot) hsame).trans hprocess'.symm)
  · have hgo : outcome (Ingress.process J.tables regs (J.entered w p inp _)).2 = _ := h.outcome_process hmay.2
    have hgo' : outcome (Ingress.process J.tables regs ((J.carrying p f.wire.payload).entered w p inp f)).2 = _ :=
      hcarry.outcome_process hmay.2
    let md := ((J.carrying p f.wire.payload).entered w p inp f).md
    have hmd := congrArg (fun c' : Cells => { (Cells.of regs J.slot).readMd (J.bit w) md with
      e0 := if md.lastPacket ∧ md.packetType = PacketType.CONSUME0 then (c'.exponents (setBit md.poolIndex)).first
        else md.e0 }) hsame
    have hd1 := congrArg (fun (c' : Cells) i => (c'.values (J.set f.phase) i).second) hsame
    obtain ⟨hout, hwords⟩ := consumeOutcome_carrying (J := J) (w := w) (p := p) (f := f) f.wire.payload
      { f.wire with payload := J.slicesFrom w f.phase (2 * p) } _ _ rfl
    refine ⟨hgo.trans ?_, fun port wire ho => hwords port wire (hgo'.symm.trans ho)⟩
    refine Eq.trans ?_ (hout.trans (congrArg (J.restoreOutcome w f.phase) hgo'.symm))
    exact congrArg₂ (J.consumeOutcome w p _) hmd hd1

/-! ## The slot -/

/-- The slot in `v` is the one in `s`, but for the words of repeated packets and for
what the workers have accepted. -/
structure Restores (J : Job n) (s v : State n) : Prop where
  regs : v.regs = s.regs
  flight : ∀ w t, v.flight (w, t) = (s.flight (w, t)).map (J.restore w t)
  sent : v.sent = s.sent
  copies : v.copies = s.copies
  seen : v.seen = s.seen
  responses : v.responses = s.responses
  harmless : ∀ w t, ∀ f ∈ s.flight (w, t), Harmless J s w f.phase f.wire

theorem Restores.init (J : Job n) : Restores J (State.init n) (State.init n) where
  regs := rfl
  flight _ _ := rfl
  sent := rfl
  copies := rfl
  seen := rfl
  responses := rfl
  harmless _ _ _ hf := by cases hf

theorem restore_take {Q Q₀ : Queues (Fin n × PacketType) (Flight n)}
    (h : ∀ w t, Q₀ (w, t) = (Q (w, t)).map (J.restore w t)) (key : Fin n × PacketType) (i : ℕ) (w : Fin n)
    (t : PacketType) : Q₀.take key i (w, t) = (Q.take key i (w, t)).map (J.restore w t) := by
  by_cases hk : (w, t) = key
  · subst hk
    rw [Queues.take_self, Queues.take_self, h, List.eraseIdx_map]
  · rw [Queues.take_of_ne hk, Queues.take_of_ne hk, h]

theorem restore_put {Q Q₀ : Queues (Fin n × PacketType) (Flight n)}
    (h : ∀ w t, Q₀ (w, t) = (Q (w, t)).map (J.restore w t)) (v : Fin n) (u : PacketType) (f : Flight n) (w : Fin n)
    (t : PacketType) : Q₀.put (v, u) (J.restore v u f) (w, t) = (Q.put (v, u) f (w, t)).map (J.restore w t) := by
  by_cases hk : (w, t) = (v, u)
  · cases hk
    rw [Queues.put_self, Queues.put_self, h, List.map_append, List.map_singleton]
  · rw [Queues.put_of_ne hk, Queues.put_of_ne hk, h]

/-- A packet is put on its way. -/
theorem Restores.put (h : Restores J s v) (w : Fin n) (f : Flight n) (sent copies : Fin n → ℕ)
    (hf : Harmless J s w f.phase f.wire) :
    Restores J { s with sent := sent, copies := copies, flight := s.flight.put (w, .CONSUME0) f }
      { v with sent := sent, copies := copies, flight := v.flight.put (w, .CONSUME0) (J.restore w .CONSUME0 f) } where
  regs := h.regs
  flight := restore_put h.flight w .CONSUME0 f
  sent := rfl
  copies := rfl
  seen := h.seen
  responses := h.responses
  harmless w' t' g hg := by
    rcases Queues.mem_put.mp hg with hg | ⟨hkey, rfl⟩
    · exact h.harmless w' t' g hg
    · cases hkey
      exact hf

/-- What becomes of a packet after a pass. -/
theorem Restores.land (h : Restores J s v) (w : Fin n) (t : PacketType) (f : Flight n) (o : Outcome)
    (hgo : ∀ port wire, o = .recirculate port wire → Harmless J s w f.phase wire) :
    Restores J (s.land w t f o) (v.land w t f (J.restoreOutcome w f.phase o)) := by
  cases o with
  | gone => exact h
  | response broadcast wire =>
    refine { h with responses := ?_ }
    show v.responses ++ [_] = s.responses ++ [_]
    rw [h.responses]
  | recirculate port wire =>
    have htype : (J.restoreWire w f.phase wire.md.packetType wire).md.packetType = wire.md.packetType := by
      rw [restoreWire_md]
    refine { h with flight := fun w' t' => ?_, harmless := fun w' t' g hg => ?_ }
    · show v.flight.put (w, (J.restoreWire w f.phase wire.md.packetType wire).md.packetType) _ (w', t') = _
      rw [htype]
      exact restore_put h.flight w wire.md.packetType { f with port := port, wire := wire } w' t'
    · rcases Queues.mem_put.mp hg with hg | ⟨hkey, rfl⟩
      · exact h.harmless w' t' g hg
      · cases hkey
        exact hgo port wire rfl

theorem seen_takeOff {i : ℕ} {regs : Regs} (hseen : t.isConsume = true → s.seen (pipeOf f.port) w ≤ f.phase + 1)
    {w' : Fin n} (q : Fin 4) : s.seen q w' ≤ (s.takeOff w t i f regs).seen q w' := by
  unfold State.takeOff
  dsimp only
  split
  · rename_i hc
    by_cases hq : q = pipeOf f.port
    · subst hq
      rw [Function.update_self]
      exact le_visit (hseen hc) w'
    · rw [Function.update_of_ne hq]
  · exact le_rfl

theorem Restores.takeOff (h : Restores J s v) (w : Fin n) (t : PacketType) (i : ℕ) (f : Flight n) (regs : Regs)
    (hseen : t.isConsume = true → s.seen (pipeOf f.port) w ≤ f.phase + 1) :
    Restores J (s.takeOff w t i f regs) (v.takeOff w t i (J.restore w t f) regs) where
  regs := by
    unfold State.takeOff
    rw [h.regs]
    rfl
  flight := restore_take h.flight (w, t) i
  sent := h.sent
  copies := h.copies
  seen := by
    unfold State.takeOff
    rw [h.seen]
    rfl
  responses := h.responses
  harmless w' t' g hg := (h.harmless w' t' g (Queues.mem_of_mem_take hg)).mono (seen_takeOff hseen)

/-- Passes that send both packets the same way. -/
theorem Restores.passed (h : Restores J s v) {i : ℕ} {r r₀ : Regs × Ig}
    (hseen : t.isConsume = true → s.seen (pipeOf f.port) w ≤ f.phase + 1) (hregs : r₀.1 = r.1)
    (hout : outcome r₀.2 = J.restoreOutcome w f.phase (outcome r.2))
    (hgo : ∀ port wire, outcome r.2 = .recirculate port wire → Harmless J s w f.phase wire) :
    Restores J (s.passed w t i f r) (v.passed w t i (J.restore w t f) r₀) := by
  have htake := h.takeOff w t i f r.1 hseen
  have hland := htake.land w t (f.after w t (s.seen (pipeOf f.port))) (outcome r.2)
    fun port wire ho => (hgo port wire ho).mono (seen_takeOff hseen)
  unfold State.passed
  rw [hregs, hout]
  have hafter : (J.restore w t f).after w t (v.seen (pipeOf (J.restore w t f).port)) =
      { f.after w t (s.seen (pipeOf f.port)) with wire := (J.restore w t f).wire } := by
    rw [h.seen]
    rfl
  rw [hafter]
  cases ho : outcome r.2 <;> rw [ho] at hland <;> exact hland

/-- Where a packet carries the words of the contribution, so does what a pass makes of it. -/
theorem restoreOutcome_eq {i : ℕ} {r : Regs × Ig} (hr : J.machine.Reachable (v.passed w t i f r)) :
    J.restoreOutcome w f.phase (outcome r.2) = outcome r.2 ∧
      ∀ port wire, outcome r.2 = .recirculate port wire → J.restoreWire w f.phase wire.md.packetType wire = wire := by
  have hwire (port : PortId) (wire : Wire) (ho : outcome r.2 = .recirculate port wire) :
      J.restoreWire w f.phase wire.md.packetType wire = wire := by
    have hmem : { f.after w t (v.seen (pipeOf f.port)) with port := port, wire := wire } ∈
        (v.passed w t i f r).flight (w, wire.md.packetType) := by
      unfold State.passed
      rw [ho]
      exact Queues.mem_put.mpr (.inr ⟨rfl, rfl⟩)
    exact congrArg Flight.wire ((Inv.of_reachable hr).atPass hmem).restore_eq
  refine ⟨?_, hwire⟩
  cases ho : outcome r.2 with
  | gone => rfl
  | response broadcast wire => rfl
  | recirculate port wire => exact congrArg (Outcome.recirculate port) (hwire port wire ho)

/-- A pass of the slot with the words of the contributions. -/
theorem Restores.pass {i : ℕ} (h : Restores J s v) (hr : J.machine.Reachable v)
    (hn : J.next s (.pass w t i inp) = some s') :
    ∃ v', J.next v (.pass w t i inp) = some v' ∧ Restores J s' v' := by
  have hI := Inv.of_reachable hr
  simp only [Session.next, Option.ite_none_right_eq_some, Option.bind_eq_some_iff, Option.map_eq_some_iff] at hn
  obtain ⟨hmay, f, hat, ig, hig, rfl⟩ := hn
  have hat₀ : (v.flight (w, t))[i]? = some (J.restore w t f) := by
    rw [h.flight, List.getElem?_map, hat]
    rfl
  have hmem₀ := List.mem_of_getElem? hat₀
  have hnext (ig₀ : Ig) (henter : J.enter w inp (J.restore w t f) = some ig₀) : J.next v (.pass w t i inp) =
      some (v.passed w t i (J.restore w t f) (Ingress.process J.tables (s.regs (pipeOf f.port)) ig₀)) := by
    simp only [Session.next]
    rw [if_pos hmay, hat₀, Option.bind_some, henter, h.regs]
    rfl
  have hseen (ht : t.isConsume = true) : s.seen (pipeOf f.port) w ≤ f.phase + 1 := by
    obtain ⟨p, rfl⟩ := exists_of_isConsume ht
    have hok := hI.consume w p _ hmem₀
    have hport : pipeOf f.port = p := hok.place.pipeOf_port
    rw [hport, ← h.seen]
    exact hok.ahead p le_rfl
  by_cases heq : J.restore w t f = f
  · rw [heq] at hnext
    have hn' : J.machine.next v (.pass w t i inp) =
        some (v.passed w t i f (Ingress.process J.tables (s.regs (pipeOf f.port)) ig)) := hnext ig hig
    have hstep := hr.step hn'
    obtain ⟨hout, hwire⟩ := restoreOutcome_eq hstep
    have hpassed := h.passed (i := i) (r := Ingress.process J.tables (s.regs (pipeOf f.port)) ig) hseen rfl hout.symm
      fun port wire ho => .inl (hwire port wire ho)
    rw [heq] at hpassed
    exact ⟨_, hn', hpassed⟩
  · -- it is a repeated packet on its way to a consume pass
    have ht : t.isConsume = true := by
      by_contra hnot
      rw [Bool.not_eq_true] at hnot
      exact heq (congrArg (fun wire => { f with wire := wire }) (restoreWire_of_not_isConsume hnot f.wire))
    obtain ⟨p, rfl⟩ := exists_of_isConsume ht
    have hok := hI.consume w p _ hmem₀
    have htype : f.wire.md.packetType = consumeType p := by
      rw [← hok.place.type]
      exact (congrArg SwitchmlMd.packetType (restoreWire_md f.wire)).symm
    have hport : pipeOf f.port = p := hok.place.pipeOf_port
    rcases h.harmless w _ f (List.mem_of_getElem? hat) with hsame | ⟨hlen, hrep⟩
    · rw [htype] at hsame
      exact absurd (congrArg (fun wire => { f with wire := wire }) hsame) heq
    · rw [htype] at hlen
      have hrep := hrep p hok.place.lt
      rw [← h.seen] at hrep
      have hahead : v.seen p w ≤ f.phase + 1 := hok.ahead p le_rfl
      have harrives := hI.arrives hok
      have hpipe : PipeOK J p (v.seen p) (Cells.of (s.regs (pipeOf f.port)) J.slot) := by
        rw [hport, ← h.regs]
        exact hI.pipe p
      have hphase : v.seen p w = f.phase + 1 := by omega
      obtain ⟨ig₀, henter, hregs, hout, hwords⟩ := hok.place.pass_restored hlen hpipe harrives hphase hmay hig
      refine ⟨_, hnext ig₀ henter, h.passed hseen hregs hout fun port wire ho => .inr ⟨hwords port wire ho, ?_⟩⟩
      exact (h.harmless w _ f (List.mem_of_getElem? hat)).elim
        (fun hsame => absurd (by rw [htype] at hsame; exact congrArg (fun wire => { f with wire := wire }) hsame) heq)
        (·.2)

/-- A step in the switch. -/
theorem Restores.next {e : Event n} (h : Restores J s v) (hr : J.machine.Reachable v) (he : e.ofSwitch = true)
    (hn : J.next s e = some s') : ∃ v', J.machine.Reachable v' ∧ Restores J s' v' ∧ v'.accepted = v.accepted := by
  cases e with
  | pass w t i inp =>
    obtain ⟨v', hn', hrestores⟩ := h.pass hr hn
    exact ⟨v', hr.step (e := .pass w t i inp) hn', hrestores, (workers_next he hn').2.2⟩
  | lose w t i =>
    simp only [Session.next, Option.map_eq_some_iff] at hn
    obtain ⟨f, hat, rfl⟩ := hn
    have hn' : J.next v (.lose w t i) =
        some { v with flight := v.flight.take (w, t) i, lost := (w, J.restore w t f) :: v.lost } := by
      simp only [Session.next]
      rw [h.flight, List.getElem?_map, hat]
      rfl
    refine ⟨_, hr.step (e := .lose w t i) hn', { h with flight := ?_, harmless := ?_ }, rfl⟩
    · exact restore_take h.flight (w, t) i
    · exact fun w' t' g hg => h.harmless w' t' g (Queues.mem_of_mem_take hg)
  | other p ig =>
    simp only [Session.next, Option.ite_none_left_eq_some, Option.some.injEq] at hn
    obtain ⟨hslot, rfl⟩ := hn
    have hn' : J.next v (.other p ig) =
        some { v with regs := Function.update v.regs p (Ingress.process J.tables (v.regs p) ig).1 } := by
      simp only [Session.next]
      rw [if_neg hslot]
    refine ⟨_, hr.step (e := .other p ig) hn', { h with regs := ?_ }, rfl⟩
    dsimp only
    rw [h.regs]
  | _ => cases he

end SwitchML.Aggregation
