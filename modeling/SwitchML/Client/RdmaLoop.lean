/-
The bookkeeping of the RDMA receive loop. A queue pair of the batch waits for a
message, with one receive request posted and one timer running, or it is
finished, with neither. What a queue pair is told by a completion decides only
which of its branches is taken; a completion is there only for a posted receive
request, so a finished queue pair gets none.
-/
import SwitchML.Client.RdmaWorkerThread
import Mathlib.Data.Finset.Card
import Mathlib.Data.Finset.Dedup
import Mathlib.Data.Finset.Range
import Mathlib.Data.List.Chain

namespace SwitchML.Client

/-! ## The requests of a queue pair -/

/-- What is posted after `a`: the same request again, or one for a later message
with the pool bit flipped. -/
def Post.Follows (a b : Post) : Prop :=
  if b.isRetransmission then b.wr = a.wr
  else b.wr.rkey = a.wr.rkey ^^^ 1#32 ∧
    (a.wr.slice < b.wr.slice ∨ a.wr.slice = b.wr.slice ∧ a.wr.msgId < b.wr.msgId)

/-- The pool bit of the requests posted on a queue pair is flipped once for each
new message and never for a retransmission, starting from `rkey`. -/
structure FlipsPoolBit (rkey : BitVec 32) (posts : List Post) : Prop where
  first : ∀ b, posts.head? = some b → b.isRetransmission = false ∧ b.wr.rkey = rkey ^^^ 1#32
  chain : posts.IsChain Post.Follows

theorem FlipsPoolBit.concat {rkey : BitVec 32} {posts : List Post} (h : FlipsPoolBit rkey posts) {b : Post}
    (hfirst : posts = [] → b.isRetransmission = false ∧ b.wr.rkey = rkey ^^^ 1#32)
    (hnext : ∀ a, posts.getLast? = some a → a.Follows b) : FlipsPoolBit rkey (posts ++ [b]) := by
  constructor
  · intro b' hb'
    cases posts with
    | nil =>
      simp only [List.nil_append, List.head?_cons, Option.some.injEq] at hb'
      subst hb'
      exact hfirst rfl
    | cons a posts =>
      refine h.first b' ?_
      simpa using hb'
  · refine h.chain.append (List.isChain_singleton b) fun a ha b' hb' => ?_
    simp only [List.head?_cons, Option.mem_def, Option.some.injEq] at hb'
    subst hb'
    exact hnext a ha

theorem FlipsPoolBit.rkey {rkey : BitVec 32} {posts : List Post} (h : FlipsPoolBit rkey posts) {p : Post}
    (hp : p ∈ posts) : p.wr.rkey = rkey ∨ p.wr.rkey = rkey ^^^ 1#32 := by
  have hchain (a : Post) (l : List Post) (hl : (a :: l).IsChain Post.Follows)
      (ha : a.wr.rkey = rkey ∨ a.wr.rkey = rkey ^^^ 1#32) :
      ∀ p ∈ a :: l, p.wr.rkey = rkey ∨ p.wr.rkey = rkey ^^^ 1#32 := by
    induction l generalizing a with
    | nil =>
      intro p hp
      rw [List.mem_singleton.mp hp]
      exact ha
    | cons b l ih =>
      intro p hp
      rw [List.isChain_cons_cons] at hl
      rcases List.mem_cons.mp hp with rfl | hp
      · exact ha
      · refine ih b hl.2 ?_ p hp
        have hfollows := hl.1
        unfold Post.Follows at hfollows
        split at hfollows
        · rw [hfollows]
          exact ha
        · rw [hfollows.1]
          rcases ha with ha | ha
          · exact .inr (by rw [ha])
          · exact .inl (by rw [ha, BitVec.xor_assoc, BitVec.xor_self, BitVec.xor_zero])
  cases posts with
  | nil => cases hp
  | cons a l => exact hchain a l h.chain (.inr (h.first a rfl).2) p hp

namespace RdmaWorkerThread

variable {c : RdmaConfig} {K : Type} {ops : FloatOps K} {s s' : RdmaWorkerThread c K} {sl : RdmaSlice c}
  {l ready : List c.Qpn} {q : c.Qpn}

/-! ## One queue pair -/

/-- The ids postprocessed on a queue pair, and the one it goes on with. -/
def Progress (s : RdmaWorkerThread c K) (sl : RdmaSlice c) (q : c.Qpn) : Prop :=
  ∃ k, s.msgIds q = q.val + k * sl.batchNumMsgs ∧ (∀ i < k, q.val + i * sl.batchNumMsgs < sl.totalNumMsgs) ∧
    (sl.postprocessed.filter (·.1 = q)).map (·.2) = (List.range k).map (q.val + · * sl.batchNumMsgs)

/-- The queue pair waits for the message it has sent last. -/
structure Outstanding (s : RdmaWorkerThread c K) (l : List c.Qpn) (q : c.Qpn) : Prop where
  recv : s.recvWrs q = 1
  timer : q ∈ l
  slice : (s.sendWrs q).slice = s.slices
  msgId : (s.sendWrs q).msgId = s.msgIds q
  immData : shortMsgId (s.sendWrs q).immData = BitVec.ofNat 16 (s.msgIds q)

/-- The queue pair waits for nothing. -/
structure Quiet (s : RdmaWorkerThread c K) (l : List c.Qpn) (q : c.Qpn) : Prop where
  recv : s.recvWrs q = 0
  timer : q ∉ l

/-- The message the queue pair has sent last was before the one it is to send. -/
def Older (s : RdmaWorkerThread c K) (q : c.Qpn) : Prop :=
  (s.sendWrs q).slice < s.slices ∨ (s.sendWrs q).slice = s.slices ∧ (s.sendWrs q).msgId < s.msgIds q

/-- What is kept in the receive loop, where the queue pairs of `ready` are about
to send. -/
structure InLoop (s : RdmaWorkerThread c K) (sl : RdmaSlice c) (l ready : List c.Qpn) : Prop where
  batch_pos : 0 < sl.batchNumMsgs
  batch_le : sl.batchNumMsgs ≤ c.maxOutstandingMsgs
  begun : 0 < s.slices
  count : sl.numReceivedMsgs = sl.postprocessed.length
  used : ∀ e ∈ sl.postprocessed, e.1.val < sl.batchNumMsgs
  nodup : (sl.postprocessed.map (·.2)).Nodup
  progress : ∀ q : c.Qpn, q.val < sl.batchNumMsgs → s.Progress sl q
  outstanding : ∀ q : c.Qpn, q.val < sl.batchNumMsgs → s.msgIds q < sl.totalNumMsgs → q ∉ ready → s.Outstanding l q
  finished : ∀ q : c.Qpn, q.val < sl.batchNumMsgs → sl.totalNumMsgs ≤ s.msgIds q → s.Quiet l q
  unused : ∀ q : c.Qpn, sl.batchNumMsgs ≤ q.val → s.Quiet l q
  quiet : ∀ q ∈ ready, s.Quiet l q
  older : ∀ q ∈ ready, s.Older q
  due : ∀ q ∈ ready, q.val < sl.batchNumMsgs ∧ s.msgIds q < sl.totalNumMsgs

/-- The requests posted on a queue pair, of which the last is the current one. -/
structure Posted (s : RdmaWorkerThread c K) (q : c.Qpn) : Prop where
  flips : FlipsPoolBit (c.initialRkey q) (s.posts q)
  last : ∀ p, (s.posts q).getLast? = some p → p.wr = s.sendWrs q
  none : s.posts q = [] → (s.sendWrs q).rkey = c.initialRkey q ∧ (s.sendWrs q).slice = 0
  slice_le : (s.sendWrs q).slice ≤ s.slices

/-- What is kept while the messages of `ready` are sent. -/
structure Sending (s : RdmaWorkerThread c K) (sl : RdmaSlice c) (l ready : List c.Qpn) : Prop where
  current : s.current = some sl
  queue : s.timeoutsQueue.Lists l
  posted : ∀ q, s.Posted q
  loop : s.InLoop sl l ready

/-! ## Posting -/

/-- The timer of a queue pair is started anew when it sends. -/
theorem mem_push {p : c.Qpn} (hl : l.Nodup) : p ∈ q :: l.erase q ↔ p = q ∨ p ∈ l := by
  rw [List.mem_cons, hl.mem_erase_iff]
  constructor
  · intro h
    exact h.imp_right And.right
  · intro h
    by_cases hpq : p = q
    · exact .inl hpq
    · exact .inr ⟨hpq, h.resolve_left hpq⟩

/-- A queue pair that posts nothing. -/
theorem Posted.congr (h : s.Posted q) (hposts : s'.posts q = s.posts q) (hwr : s'.sendWrs q = s.sendWrs q)
    (hslices : s.slices ≤ s'.slices) : s'.Posted q := by
  refine ⟨?_, ?_, ?_, ?_⟩
  · rw [hposts]
    exact h.flips
  · rw [hposts, hwr]
    exact h.last
  · rw [hposts, hwr]
    exact h.none
  · rw [hwr]
    exact h.slice_le.trans hslices

theorem Posted.resend (h : ∀ p, s.Posted p) (hsome : s.posts q ≠ []) (p : c.Qpn) :
    (s.postSendWr ops q true).Posted p := by
  by_cases hpq : p = q
  · subst hpq
    have hposts : (s.postSendWr ops p true).posts p = s.posts p ++ [{ wr := s.sendWrs p, isRetransmission := true }] :=
      Function.update_self ..
    refine ⟨?_, ?_, ?_, (h p).slice_le⟩
    · rw [hposts]
      refine (h p).flips.concat (fun he => absurd he hsome) fun a ha => ?_
      exact ((h p).last a ha).symm
    · intro a ha
      rw [hposts, List.getLast?_concat, Option.some.injEq] at ha
      rw [← ha]
      rfl
    · intro he
      rw [hposts] at he
      simp at he
  · exact (h p).congr (Function.update_of_ne hpq _ _) rfl le_rfl

theorem Posted.postMessage (h : ∀ p, s.Posted p) (hold : s.Older q) (p : c.Qpn) :
    (s.postMessage ops q).Posted p := by
  by_cases hpq : p = q
  · subst hpq
    have hposts : (s.postMessage ops p).posts p =
        s.posts p ++ [{ wr := (s.postMessage ops p).sendWrs p, isRetransmission := false }] := Function.update_self ..
    have hwr : (s.postMessage ops p).sendWrs p = _ := Function.update_self ..
    refine ⟨?_, ?_, ?_, ?_⟩
    · rw [hposts]
      refine (h p).flips.concat (fun he => ⟨rfl, ?_⟩) fun a ha => ?_
      · rw [hwr]
        show (s.sendWrs p).rkey ^^^ 1#32 = _
        rw [((h p).none he).1]
      · have halast := (h p).last a ha
        rw [Post.Follows, hwr, halast]
        exact ⟨rfl, hold⟩
    · intro a ha
      rw [hposts, List.getLast?_concat, Option.some.injEq] at ha
      rw [← ha]
    · intro he
      rw [hposts] at he
      simp at he
    · rw [hwr]
      exact le_rfl
  · exact (h p).congr (Function.update_of_ne hpq _ _) (Function.update_of_ne hpq _ _) le_rfl

theorem posts_ne_nil (h : s.Posted q) (hslice : 0 < (s.sendWrs q).slice) : s.posts q ≠ [] := by
  intro he
  rw [(h.none he).2] at hslice
  exact absurd hslice (Nat.lt_irrefl 0)

/-- A retransmission changes nothing but the timers. -/
theorem Sending.resend (h : s.Sending sl l ready) (hq : q ∈ l) :
    (s.postSendWr ops q true).Sending sl (q :: l.erase q) ready := by
  have hnodup := h.queue.links.nodup
  have hmem (p : c.Qpn) : p ∈ q :: l.erase q ↔ p ∈ l := by
    rw [mem_push hnodup]
    exact ⟨fun hp => hp.elim (fun he => he ▸ hq) id, .inr⟩
  have hL := h.loop
  -- what has a timer waits for a message
  have hout : s.Outstanding l q := by
    by_cases hbatch : q.val < sl.batchNumMsgs
    · refine hL.outstanding q hbatch (by_contra fun hle => ?_) fun hr => (hL.quiet q hr).timer hq
      exact (hL.finished q hbatch (Nat.le_of_not_lt hle)).timer hq
    · exact absurd hq (hL.unused q (Nat.le_of_not_lt hbatch)).timer
  have hquiet (p : c.Qpn) (hp : s.Quiet l p) : (s.postSendWr ops q true).Quiet (q :: l.erase q) p :=
    ⟨hp.recv, fun hm => hp.timer ((hmem p).mp hm)⟩
  refine ⟨h.current, h.queue.push q s.now, fun p => Posted.resend h.posted ?_ p, ?_⟩
  · refine posts_ne_nil (h.posted q) ?_
    rw [hout.slice]
    exact hL.begun
  · exact {
      batch_pos := hL.batch_pos
      batch_le := hL.batch_le
      begun := hL.begun
      count := hL.count
      used := hL.used
      nodup := hL.nodup
      progress := hL.progress
      outstanding := fun p hb hlt hr =>
        have ho := hL.outstanding p hb hlt hr
        ⟨ho.recv, (hmem p).mpr ho.timer, ho.slice, ho.msgId, ho.immData⟩
      finished := fun p hb hle => hquiet p (hL.finished p hb hle)
      unused := fun p hle => hquiet p (hL.unused p hle)
      quiet := fun p hp => hquiet p (hL.quiet p hp)
      older := hL.older
      due := hL.due }

/-- A new message is sent on a queue pair that is about to. -/
theorem Sending.postMessage (h : s.Sending sl l (q :: ready)) (hq : q ∉ ready) :
    (s.postMessage ops q).Sending sl (q :: l.erase q) ready := by
  have hL := h.loop
  have hmem (p : c.Qpn) : p ∈ q :: l.erase q ↔ p = q ∨ p ∈ l := mem_push h.queue.links.nodup
  have hself : q ∈ q :: ready := List.mem_cons_self
  -- the other queue pairs stay as they are
  have hrecv {p : c.Qpn} (hp : p ≠ q) : (s.postMessage ops q).recvWrs p = s.recvWrs p := Function.update_of_ne hp _ _
  have hwr {p : c.Qpn} (hp : p ≠ q) : (s.postMessage ops q).sendWrs p = s.sendWrs p := Function.update_of_ne hp _ _
  have hquiet (p : c.Qpn) (hp : p ≠ q) (hquiet : s.Quiet l p) : (s.postMessage ops q).Quiet (q :: l.erase q) p := by
    refine ⟨(hrecv hp).trans hquiet.recv, fun hm => ?_⟩
    exact ((hmem p).mp hm).elim hp hquiet.timer
  refine ⟨h.current, h.queue.push q s.now, Posted.postMessage h.posted (hL.older q hself), ?_⟩
  refine ⟨hL.batch_pos, hL.batch_le, hL.begun, hL.count, hL.used, hL.nodup, hL.progress, ?_, ?_, ?_, ?_, ?_,
    fun p hp => hL.due p (List.mem_cons_of_mem q hp)⟩
  · intro p hb hlt hr
    by_cases hp : p = q
    · subst hp
      have hnew : (s.postMessage ops p).sendWrs p = _ := Function.update_self ..
      refine ⟨?_, (hmem p).mpr (.inl rfl), ?_, ?_, ?_⟩
      · have hnone : s.recvWrs p = 0 := (hL.quiet p hself).recv
        exact (Function.update_self ..).trans (by rw [hnone])
      · rw [hnew]
        rfl
      · rw [hnew]
        rfl
      · rw [hnew]
        exact shortMsgId_immData _ _
    · have ho := hL.outstanding p hb hlt (by simp [hp, hr])
      refine ⟨(hrecv hp).trans ho.recv, (hmem p).mpr (.inr ho.timer), ?_, ?_, ?_⟩
      · rw [hwr hp]
        exact ho.slice
      · rw [hwr hp]
        exact ho.msgId
      · rw [hwr hp]
        exact ho.immData
  · intro p hb hle
    refine hquiet p (fun he => ?_) (hL.finished p hb hle)
    subst he
    exact Nat.not_lt_of_ge hle (hL.due p hself).2
  · intro p hle
    refine hquiet p (fun he => ?_) (hL.unused p hle)
    subst he
    exact Nat.not_lt_of_ge hle (hL.due p hself).1
  · intro p hp
    exact hquiet p (fun he => hq (he ▸ hp)) (hL.quiet p (List.mem_cons_of_mem q hp))
  · intro p hp
    have hne : p ≠ q := fun he => hq (he ▸ hp)
    rw [Older, hwr hne]
    exact hL.older p (List.mem_cons_of_mem q hp)

/-- The messages of all queue pairs that are about to send are sent. -/
theorem Sending.postMessages (ops : FloatOps K) (h : s.Sending sl l ready) (hnodup : ready.Nodup) :
    ∃ l, (ready.foldl (RdmaWorkerThread.postMessage ops) s).Sending sl l [] := by
  induction ready generalizing s l with
  | nil => exact ⟨l, h⟩
  | cons q ready ih =>
    rw [List.nodup_cons] at hnodup
    exact ih (h.postMessage hnodup.1) hnodup.2

/-! ## Receiving -/

/-- The frame of `InLoop`. -/
theorem InLoop.congr (h : s.InLoop sl l ready) (hslices : s'.slices = s.slices) (hmsgIds : s'.msgIds = s.msgIds)
    (hsendWrs : s'.sendWrs = s.sendWrs) (hrecvWrs : s'.recvWrs = s.recvWrs) : s'.InLoop sl l ready := by
  have hquiet {q : c.Qpn} (hq : s.Quiet l q) : s'.Quiet l q := ⟨by rw [hrecvWrs]; exact hq.recv, hq.timer⟩
  refine ⟨h.batch_pos, h.batch_le, ?_, h.count, h.used, h.nodup, ?_, ?_, ?_, fun q hq => hquiet (h.unused q hq),
    fun q hq => hquiet (h.quiet q hq), ?_, ?_⟩
  · rw [hslices]
    exact h.begun
  · rw [show s'.Progress = s.Progress by unfold Progress; rw [hmsgIds]]
    exact h.progress
  · intro q hb hlt hr
    rw [hmsgIds] at hlt
    have ho := h.outstanding q hb hlt hr
    exact ⟨by rw [hrecvWrs]; exact ho.recv, ho.timer, by rw [hsendWrs, hslices]; exact ho.slice,
      by rw [hsendWrs, hmsgIds]; exact ho.msgId, by rw [hsendWrs, hmsgIds]; exact ho.immData⟩
  · intro q hb hle
    rw [hmsgIds] at hle
    exact hquiet (h.finished q hb hle)
  · rw [show s'.Older = s.Older by unfold Older; rw [hsendWrs, hslices, hmsgIds]]
    exact h.older
  · rw [hmsgIds]
    exact h.due

/-- A queue pair with a receive request waits for a message. -/
theorem InLoop.outstanding_of_recv (h : s.InLoop sl l []) (hq : 0 < s.recvWrs q) :
    q.val < sl.batchNumMsgs ∧ s.msgIds q < sl.totalNumMsgs ∧ s.Outstanding l q := by
  have hnot (hquiet : s.Quiet l q) : False := by
    rw [hquiet.recv] at hq
    exact Nat.lt_irrefl 0 hq
  have hbatch : q.val < sl.batchNumMsgs := by
    by_contra hle
    exact hnot (h.unused q (Nat.le_of_not_lt hle))
  have hlt : s.msgIds q < sl.totalNumMsgs := by
    by_contra hle
    exact hnot (h.finished q hbatch (Nat.le_of_not_lt hle))
  exact ⟨hbatch, hlt, h.outstanding q hbatch hlt List.not_mem_nil⟩

/-- The ids of a queue pair are those with its residue, up to the one it goes on with. -/
theorem InLoop.mem_postprocessed (h : s.InLoop sl l ready) {id : ℕ} :
    (q, id) ∈ sl.postprocessed ↔ q.val < sl.batchNumMsgs ∧ id % sl.batchNumMsgs = q.val ∧ id < s.msgIds q := by
  have hB := h.batch_pos
  have hiff (hq : q.val < sl.batchNumMsgs) :
      (q, id) ∈ sl.postprocessed ↔ id % sl.batchNumMsgs = q.val ∧ id < s.msgIds q := by
    obtain ⟨k, hk, -, hlist⟩ := h.progress q hq
    have hmem : (q, id) ∈ sl.postprocessed ↔ id ∈ (sl.postprocessed.filter (·.1 = q)).map (·.2) := by
      simp
    rw [hmem, hlist, List.mem_map, hk]
    simp only [List.mem_range]
    constructor
    · intro ⟨i, hi, hid⟩
      have hle := Nat.mul_le_mul_right sl.batchNumMsgs (Nat.succ_le_of_lt hi)
      rw [Nat.succ_mul] at hle
      refine ⟨?_, by omega⟩
      rw [← hid, Nat.add_mul_mod_self_right, Nat.mod_eq_of_lt hq]
    · intro ⟨hmod, hlt⟩
      have hdiv := Nat.div_add_mod' id sl.batchNumMsgs
      refine ⟨id / sl.batchNumMsgs, ?_, by omega⟩
      rw [hmod] at hdiv
      exact Nat.lt_of_mul_lt_mul_right (a := sl.batchNumMsgs) (by omega)
  constructor
  · intro hm
    have hq := h.used _ hm
    exact ⟨hq, (hiff hq).mp hm⟩
  · intro ⟨hq, hid⟩
    exact (hiff hq).mpr hid

theorem InLoop.msgIds_mod (h : s.InLoop sl l ready) (hq : q.val < sl.batchNumMsgs) :
    s.msgIds q % sl.batchNumMsgs = q.val := by
  obtain ⟨k, hk, -, -⟩ := h.progress q hq
  rw [hk, Nat.add_mul_mod_self_right, Nat.mod_eq_of_lt hq]

theorem InLoop.not_mem_postprocessed (h : s.InLoop sl l ready) (hq : q.val < sl.batchNumMsgs) :
    s.msgIds q ∉ sl.postprocessed.map (·.2) := by
  intro hm
  obtain ⟨⟨p, id⟩, hp, hid⟩ := List.mem_map.mp hm
  obtain ⟨-, hmod, hlt⟩ := h.mem_postprocessed.mp hp
  rw [show id = s.msgIds q from hid, h.msgIds_mod hq] at hmod
  have hpq : q = p := Fin.ext hmod
  rw [show id = s.msgIds q from hid, hpq] at hlt
  exact Nat.lt_irrefl _ hlt

/-- The loop ends by count when all queue pairs are finished. -/
theorem InLoop.ends_iff (h : s.InLoop sl l ready) :
    ¬sl.numReceivedMsgs < sl.totalNumMsgs ↔
      ∀ q : c.Qpn, q.val < sl.batchNumMsgs → sl.totalNumMsgs ≤ s.msgIds q := by
  have hcard : (sl.postprocessed.map (·.2)).toFinset.card = sl.numReceivedMsgs := by
    rw [List.toFinset_card_of_nodup h.nodup, List.length_map, h.count]
  have hsub : (sl.postprocessed.map (·.2)).toFinset ⊆ Finset.range sl.totalNumMsgs := by
    intro id hid
    rw [List.mem_toFinset, List.mem_map] at hid
    obtain ⟨⟨q, id⟩, hm, rfl⟩ := hid
    obtain ⟨k, hk, hall, hlist⟩ := h.progress q (h.used _ hm)
    have hid : id ∈ (sl.postprocessed.filter (·.1 = q)).map (·.2) := by simpa using hm
    rw [hlist, List.mem_map] at hid
    obtain ⟨i, hi, rfl⟩ := hid
    exact Finset.mem_range.mpr (hall i (List.mem_range.mp hi))
  constructor
  · intro hend q hq
    by_contra hlt
    have hall := Finset.eq_of_subset_of_card_le hsub (by rw [hcard, Finset.card_range]; omega)
    have hm : s.msgIds q ∈ (sl.postprocessed.map (·.2)).toFinset := by
      rw [hall, Finset.mem_range]
      omega
    exact h.not_mem_postprocessed hq (List.mem_toFinset.mp hm)
  · intro hfin hlt
    have hle : Finset.range sl.totalNumMsgs ⊆ (sl.postprocessed.map (·.2)).toFinset := by
      intro id hid
      have hmod := Nat.mod_lt id h.batch_pos
      let q : c.Qpn := ⟨id % sl.batchNumMsgs, hmod.trans_le h.batch_le⟩
      have hm : (q, id) ∈ sl.postprocessed :=
        h.mem_postprocessed.mpr ⟨hmod, rfl, (Finset.mem_range.mp hid).trans_le (hfin q hmod)⟩
      exact List.mem_toFinset.mpr (List.mem_map.mpr ⟨_, hm, rfl⟩)
    have hge := Finset.card_le_card hle
    rw [hcard, Finset.card_range] at hge
    omega

theorem Progress.received (h : s.Progress sl q) (hlt : s.msgIds q < sl.totalNumMsgs)
    (hmsgId : s'.msgIds q = s.msgIds q + sl.batchNumMsgs) : s'.Progress (s.received q sl) q := by
  obtain ⟨k, hk, hall, hlist⟩ := h
  refine ⟨k + 1, ?_, fun i hi => ?_, ?_⟩
  · rw [hmsgId, hk]
    show q.val + k * sl.batchNumMsgs + sl.batchNumMsgs = q.val + (k + 1) * sl.batchNumMsgs
    ring
  · rcases Nat.lt_succ_iff_lt_or_eq.mp hi with hi | rfl
    · exact hall i hi
    · rw [hk] at hlt
      exact hlt
  · simp only [RdmaWorkerThread.received]
    rw [List.filter_append, List.map_append, hlist, List.range_succ, List.map_append]
    simp [hk]

theorem Progress.of_ne {p : c.Qpn} (h : s.Progress sl p) (hpq : p ≠ q) (hmsgId : s'.msgIds p = s.msgIds p) :
    s'.Progress (s.received q sl) p := by
  obtain ⟨k, hk, hall, hlist⟩ := h
  refine ⟨k, hmsgId.trans hk, hall, ?_⟩
  simp only [RdmaWorkerThread.received]
  rw [List.filter_append, List.map_append, hlist]
  simp [Ne.symm hpq]

/-- A message that was waited for is postprocessed, and its queue pair is about
to send the next one, if there is one. -/
theorem Sending.postprocess (ops : FloatOps K) (h : s.Sending sl l []) (completion : Completion c) (hq : completion.qpn = q)
    (hpos : 0 < s.recvWrs q) :
    ((s.completeRecvWr q).postprocess ops sl completion).Sending (s.received q sl) (l.erase q)
      (if s.msgIds q + sl.batchNumMsgs < sl.totalNumMsgs then [q] else []) := by
  subst hq
  generalize hq : completion.qpn = q at *
  generalize hs' : (s.completeRecvWr q).postprocess ops sl completion = s'
  have hL := h.loop
  obtain ⟨hbatch, hlt, ho⟩ := hL.outstanding_of_recv hpos
  have hslices : s'.slices = s.slices := by rw [← hs']; rfl
  have hsendWrs : s'.sendWrs = s.sendWrs := by rw [← hs']; rfl
  have hposts : s'.posts = s.posts := by rw [← hs']; rfl
  have htq : s'.timeoutsQueue = s.timeoutsQueue.remove q := by rw [← hs', ← hq]; rfl
  have hmsgIds : s'.msgIds = Function.update s.msgIds q (s.msgIds q + sl.batchNumMsgs) := by rw [← hs', ← hq]; rfl
  have hrecvWrs : s'.recvWrs = Function.update s.recvWrs q 0 := by
    rw [← hs']
    show Function.update s.recvWrs q (s.recvWrs q - 1) = _
    rw [ho.recv]
  have hself : s'.msgIds q = s.msgIds q + sl.batchNumMsgs := by rw [hmsgIds, Function.update_self]
  have hother {p : c.Qpn} (hp : p ≠ q) : s'.msgIds p = s.msgIds p := by rw [hmsgIds, Function.update_of_ne hp]
  have hmem {p : c.Qpn} (hp : p ≠ q) : p ∈ l.erase q ↔ p ∈ l := List.mem_erase_of_ne hp
  have hquiet : s'.Quiet (l.erase q) q :=
    ⟨by rw [hrecvWrs, Function.update_self], h.queue.links.nodup.not_mem_erase⟩
  have hquiet' {p : c.Qpn} (hp : p ≠ q) (h : s.Quiet l p) : s'.Quiet (l.erase q) p :=
    ⟨by rw [hrecvWrs, Function.update_of_ne hp]; exact h.recv, fun hm => h.timer ((hmem hp).mp hm)⟩
  have hready {p : c.Qpn} (hp : p ∈ if s.msgIds q + sl.batchNumMsgs < sl.totalNumMsgs then [q] else []) :
      p = q ∧ s.msgIds q + sl.batchNumMsgs < sl.totalNumMsgs := by
    split at hp
    · rename_i hnext
      exact ⟨List.mem_singleton.mp hp, hnext⟩
    · cases hp
  refine ⟨by rw [← hs', ← hq]; rfl, ?_, fun p => ?_, ?_⟩
  · rw [htq]
    exact h.queue.remove q
  · exact (h.posted p).congr (congrFun hposts p) (congrFun hsendWrs p) hslices.ge
  refine ⟨hL.batch_pos, hL.batch_le, by rw [hslices]; exact hL.begun, ?_, ?_, ?_, ?_, ?_, ?_, ?_, ?_, ?_, ?_⟩
  · show sl.numReceivedMsgs + 1 = (sl.postprocessed ++ _).length
    rw [hL.count, List.length_append, List.length_singleton]
  · intro e he
    rcases List.mem_append.mp he with he | he
    · exact hL.used e he
    · rw [List.mem_singleton] at he
      rw [he]
      exact hbatch
  · show ((sl.postprocessed ++ [(q, s.msgIds q)]).map (·.2)).Nodup
    rw [List.map_append, List.map_singleton]
    refine List.nodup_append.mpr ⟨hL.nodup, List.nodup_singleton _, fun a ha b hb => ?_⟩
    rw [List.mem_singleton] at hb
    intro hab
    rw [hab, hb] at ha
    exact hL.not_mem_postprocessed hbatch ha
  · intro p hp
    by_cases hpq : p = q
    · subst hpq
      exact (hL.progress p hbatch).received hlt hself
    · exact (hL.progress p hp).of_ne hpq (hother hpq)
  · intro p hp hplt hr
    by_cases hpq : p = q
    · subst hpq
      rw [hself] at hplt
      rw [if_pos (show _ < sl.totalNumMsgs from hplt)] at hr
      exact absurd (List.mem_singleton_self p) hr
    · rw [hother hpq] at hplt
      have hop := hL.outstanding p hp hplt List.not_mem_nil
      exact ⟨by rw [hrecvWrs, Function.update_of_ne hpq]; exact hop.recv, (hmem hpq).mpr hop.timer,
        by rw [hsendWrs, hslices]; exact hop.slice, by rw [hsendWrs, hother hpq]; exact hop.msgId,
        by rw [hsendWrs, hother hpq]; exact hop.immData⟩
  · intro p hp hle
    by_cases hpq : p = q
    · subst hpq
      exact hquiet
    · rw [hother hpq] at hle
      exact hquiet' hpq (hL.finished p hp hle)
  · intro p hle
    have hpq : p ≠ q := by
      rintro rfl
      exact Nat.not_lt_of_ge hle hbatch
    exact hquiet' hpq (hL.unused p hle)
  · intro p hp
    rw [(hready hp).1]
    exact hquiet
  · intro p hp
    rw [(hready hp).1, Older, hsendWrs, hslices, hself, ho.msgId]
    have hpos := hL.batch_pos
    exact .inr ⟨ho.slice, by omega⟩
  · intro p hp
    rw [(hready hp).1, hself]
    exact ⟨hbatch, (hready hp).2⟩

theorem Sending.congr (h : s.Sending sl l ready) (hcurrent : s'.current = s.current) (htq : s'.timeoutsQueue.Lists l)
    (hslices : s'.slices = s.slices) (hmsgIds : s'.msgIds = s.msgIds) (hsendWrs : s'.sendWrs = s.sendWrs)
    (hrecvWrs : s'.recvWrs = s.recvWrs) (hposts : s'.posts = s.posts) : s'.Sending sl l ready := by
  refine ⟨hcurrent.trans h.current, htq, fun q => ?_, h.loop.congr hslices hmsgIds hsendWrs hrecvWrs⟩
  exact (h.posted q).congr (congrFun hposts q) (congrFun hsendWrs q) hslices.ge

/-- A completion is accepted, or its receive request is posted again. -/
theorem Sending.receive (ops : FloatOps K) (h : s.Sending sl l []) (completion : Completion c)
    (hpos : 0 < s.recvWrs completion.qpn) :
    ∃ sl' l', (s.receive ops sl completion).Sending sl' l' [] := by
  obtain ⟨-, -, ho⟩ := h.loop.outstanding_of_recv hpos
  unfold RdmaWorkerThread.receive
  dsimp only
  split
  · have hpost := h.postprocess ops completion rfl hpos
    have hmsgId : ((s.completeRecvWr completion.qpn).postprocess ops sl completion).msgIds completion.qpn =
        s.msgIds completion.qpn + sl.batchNumMsgs := Function.update_self ..
    unfold RdmaWorkerThread.accept
    dsimp only
    rw [hmsgId]
    by_cases hnext : s.msgIds completion.qpn + sl.batchNumMsgs < sl.totalNumMsgs
    · rw [if_pos hnext] at hpost ⊢
      exact ⟨_, _, hpost.postMessage List.not_mem_nil⟩
    · rw [if_neg hnext] at hpost ⊢
      exact ⟨_, _, hpost⟩
  · refine ⟨sl, l, h.congr rfl h.queue rfl rfl rfl ?_ rfl⟩
    show Function.update (Function.update s.recvWrs _ _) _ (Function.update s.recvWrs _ _ _ + 1) = _
    rw [Function.update_self, Function.update_idem, Nat.sub_add_cancel hpos, Function.update_eq_self]

theorem Sending.checkTimeouts (ops : FloatOps K) (h : s.Sending sl l ready) : ∃ l, (s.checkTimeouts ops).Sending sl l ready := by
  have hchecked : ({ s with timeoutsQueue := (s.timeoutsQueue.check s.now).1 } :
      RdmaWorkerThread c K).Sending sl l ready := h.congr rfl (h.queue.check s.now) rfl rfl rfl rfl rfl
  unfold RdmaWorkerThread.checkTimeouts
  dsimp only
  split
  · rename_i q hq
    exact ⟨_, hchecked.resend (List.mem_of_getLast? (h.queue.check_eq_some hq))⟩
  · exact ⟨l, hchecked⟩

/-! ## From slice to slice -/

/-- What the prepostprocessor was created with. -/
structure Static (s : RdmaWorkerThread c K) : Prop where
  ltuSize : s.ppp.ltuSize = c.msgSize
  batchMaxNumLtus : s.ppp.batchMaxNumLtus = c.maxOutstandingMsgs

/-- Between two slices; no more slice is begun once the context has stopped. -/
structure Resting (s : RdmaWorkerThread c K) (l : List c.Qpn) : Prop where
  queue : s.timeoutsQueue.Lists l
  posted : ∀ q, s.Posted q
  quiet : s.running = true → ∀ q, s.Quiet l q

/-- A slice is set up with at least one message. -/
theorem Static.setUp (h : s.Static) {job : JobSlice} (hnumel : 0 < job.slice.numel) :
    (s.ppp.setupJobSlice job.slice).SetUp := by
  have hpos : 0 < c.numPktsPerMsg * c.packetNumel := Nat.mul_pos c.numPktsPerMsg_pos c.packetNumel_pos
  refine Ppp.setUp ?_ ?_ ?_ hnumel
  · rw [h.ltuSize]
    exact ⟨_, Nat.mul_comm _ _⟩
  · rw [h.ltuSize, RdmaConfig.msgSize]
    omega
  · rw [h.batchMaxNumLtus]
    exact c.maxOutstandingMsgs_pos

theorem Static.batch_pos (h : s.Static) {job : JobSlice} (hnumel : 0 < job.slice.numel) :
    0 < (s.prepare job).batchNumMsgs := by
  have hset := h.setUp hnumel
  have h1 := hset.batch_pos
  have h2 := hset.batch_le
  have h3 := c.maxOutstandingMsgs_pos
  show 0 < min c.maxOutstandingMsgs (s.ppp.setupJobSlice job.slice).totalMainNumLtus
  omega

theorem batchNumMsgs_le_total (s : RdmaWorkerThread c K) : s.batchNumMsgs ≤ s.totalNumMsgs := by
  rw [totalNumMsgs, batchNumMsgs]
  split <;> omega

theorem mem_batch {n : ℕ} : q ∈ batch c n ↔ q.val < n := by
  simp [batch]

/-- A slice is set up, and the first batch is about to be sent. -/
theorem Resting.prepare (h : s.Resting l) (hstatic : s.Static) (hrun : s.running = true) {job : JobSlice}
    (hnumel : 0 < job.slice.numel) :
    ∃ sl, (s.prepare job).Sending sl l (batch c (s.prepare job).batchNumMsgs) := by
  have hquiet (q : c.Qpn) : (s.prepare job).Quiet l q := ⟨(h.quiet hrun q).recv, (h.quiet hrun q).timer⟩
  have hmsgId {q : c.Qpn} (hq : q.val < (s.prepare job).batchNumMsgs) : (s.prepare job).msgIds q = q.val := if_pos hq
  refine ⟨_, rfl, h.queue, fun q => ?_, ?_⟩
  · exact (h.posted q).congr rfl rfl (Nat.le_succ _)
  refine ⟨hstatic.batch_pos hnumel, min_le_left _ _, Nat.succ_pos _, rfl, ?_, List.nodup_nil, ?_, ?_, fun q _ _ => hquiet q,
    fun q _ => hquiet q, fun q _ => hquiet q, fun q _ => ?_, fun q hq => ?_⟩
  · intro e he
    cases he
  · intro q hq
    refine ⟨0, ?_, fun i hi => absurd hi (Nat.not_lt_zero i), rfl⟩
    rw [hmsgId hq]
    show q.val = q.val + 0 * _
    omega
  · intro q hq _ hr
    exact absurd (mem_batch.mpr hq) hr
  · exact .inl (Nat.lt_succ_of_le (h.posted q).slice_le)
  · have hlt := mem_batch.mp hq
    rw [hmsgId hlt]
    exact ⟨hlt, hlt.trans_le (batchNumMsgs_le_total (s.prepare job))⟩

/-! ## Every run -/

/-- What the thread keeps, in the receive loop and between two slices. -/
structure Bookkeeping (s : RdmaWorkerThread c K) : Prop where
  static : s.Static
  loop : ∀ sl, s.current = some sl → ∃ l, s.Sending sl l []
  rest : s.current = none → ∃ l, s.Resting l

theorem Bookkeeping.init (memory : Memory) (buffers : c.Qpn → ℕ → Word) :
    (new c memory buffers : RdmaWorkerThread c K).Bookkeeping where
  static := ⟨rfl, rfl⟩
  loop _ hs := by cases hs
  rest _ := ⟨[], .new _ _ _, fun _ => ⟨⟨(fun _ hb => by cases hb), List.isChain_nil⟩, (fun _ hp => by cases hp),
    fun _ => ⟨rfl, rfl⟩, le_rfl⟩, fun _ _ => ⟨rfl, List.not_mem_nil⟩⟩

theorem Bookkeeping.of_sending (hstatic : s.Static) (h : s.Sending sl l []) : s.Bookkeeping where
  static := hstatic
  loop sl' hs := by
    rw [h.current, Option.some.injEq] at hs
    exact hs ▸ ⟨l, h⟩
  rest hs := by
    rw [h.current] at hs
    cases hs

/-- After the loop, where it has ended by count. -/
theorem Sending.rest (h : s.Sending sl l []) (hend : ¬(sl.numReceivedMsgs < sl.totalNumMsgs ∧ s.running = true)) :
    ({ s with current := none } : RdmaWorkerThread c K).Resting l := by
  refine ⟨h.queue, fun q => (h.posted q).congr rfl rfl le_rfl,
    fun hrun q => ?_⟩
  have hfin := h.loop.ends_iff.mp fun hlt => hend ⟨hlt, hrun⟩
  have hquiet : s.Quiet l q := by
    by_cases hq : q.val < sl.batchNumMsgs
    · exact h.loop.finished q hq (hfin q hq)
    · exact h.loop.unused q (Nat.le_of_not_lt hq)
  exact ⟨hquiet.recv, hquiet.timer⟩

/-- Steps that leave the requests, ids and timers as they are. -/
theorem Bookkeeping.congr (h : s.Bookkeeping) (hppp : s'.ppp = s.ppp) (hcurrent : s'.current = s.current)
    (hrun : s'.running = true → s.running = true) (htq : s'.timeoutsQueue = s.timeoutsQueue)
    (hslices : s'.slices = s.slices) (hmsgIds : s'.msgIds = s.msgIds) (hsendWrs : s'.sendWrs = s.sendWrs)
    (hrecvWrs : s'.recvWrs = s.recvWrs) (hposts : s'.posts = s.posts) : s'.Bookkeeping := by
  refine ⟨⟨by rw [hppp]; exact h.static.ltuSize, by rw [hppp]; exact h.static.batchMaxNumLtus⟩, fun sl hs => ?_,
    fun hs => ?_⟩
  · rw [hcurrent] at hs
    obtain ⟨l, hl⟩ := h.loop sl hs
    exact ⟨l, hl.congr hcurrent (by rw [htq]; exact hl.queue) hslices hmsgIds hsendWrs hrecvWrs hposts⟩
  · rw [hcurrent] at hs
    obtain ⟨l, hl⟩ := h.rest hs
    refine ⟨l, by rw [htq]; exact hl.queue, fun q => ?_, fun hr q => ?_⟩
    · exact (hl.posted q).congr (congrFun hposts q) (congrFun hsendWrs q) hslices.ge
    · have hq := hl.quiet (hrun hr) q
      exact ⟨by rw [hrecvWrs]; exact hq.recv, hq.timer⟩

theorem Static.postMessages (h : s.Static) (ready : List c.Qpn) :
    (ready.foldl (RdmaWorkerThread.postMessage ops) s).Static := by
  induction ready generalizing s with
  | nil => exact h
  | cons q ready ih => exact ih ⟨h.ltuSize, h.batchMaxNumLtus⟩

theorem Static.receive (h : s.Static) (completion : Completion c) : (s.receive ops sl completion).Static := by
  have hpost : ((s.completeRecvWr completion.qpn).postprocess ops sl completion).Static := by
    constructor
    · rw [RdmaWorkerThread.postprocess, Ppp.postprocessSingle_eq]
      exact h.ltuSize
    · rw [RdmaWorkerThread.postprocess, Ppp.postprocessSingle_eq]
      exact h.batchMaxNumLtus
  unfold RdmaWorkerThread.receive
  dsimp only
  split
  · unfold RdmaWorkerThread.accept
    dsimp only
    split
    · exact ⟨hpost.ltuSize, hpost.batchMaxNumLtus⟩
    · exact hpost
  · exact ⟨h.ltuSize, h.batchMaxNumLtus⟩

theorem Static.checkTimeouts (h : s.Static) : (s.checkTimeouts ops).Static := by
  unfold RdmaWorkerThread.checkTimeouts
  dsimp only
  split <;> exact ⟨h.ltuSize, h.batchMaxNumLtus⟩

theorem Bookkeeping.step (h : s.Bookkeeping) {e : Event c} (hn : s.next ops e = some s') : s'.Bookkeeping := by
  cases RdmaWorkerThread.step hn with
  | began job hs hrun hnumel hbatch =>
    obtain ⟨l, hl⟩ := h.rest hs
    obtain ⟨sl, hsl⟩ := hl.prepare h.static hrun hnumel
    obtain ⟨l', hl'⟩ := hsl.postMessages ops ((List.nodup_finRange _).filter _)
    have hstatic : (s.prepare job).Static := ⟨h.static.ltuSize, h.static.batchMaxNumLtus⟩
    exact .of_sending (hstatic.postMessages _) hl'
  | completed sl completion hs hpos =>
    obtain ⟨l, hl⟩ := h.loop sl hs
    obtain ⟨sl', l', hl'⟩ := hl.receive ops completion hpos
    exact .of_sending (h.static.receive completion) hl'
  | checked sl hs =>
    obtain ⟨l, hl⟩ := h.loop sl hs
    obtain ⟨l', hl'⟩ := hl.checkTimeouts ops
    exact .of_sending h.static.checkTimeouts hl'
  | finished sl hs hend =>
    obtain ⟨l, hl⟩ := h.loop sl hs
    exact ⟨⟨h.static.ltuSize, h.static.batchMaxNumLtus⟩, (fun _ hc => by cases hc), fun _ => ⟨l, hl.rest hend⟩⟩
  | stopped => exact h.congr rfl rfl (fun hr => by cases hr) rfl rfl rfl rfl rfl rfl
  | ticked => exact h.congr rfl rfl id rfl rfl rfl rfl rfl rfl
  | wrote => exact h.congr rfl rfl id rfl rfl rfl rfl rfl rfl
  | stored => exact h.congr rfl rfl id rfl rfl rfl rfl rfl rfl

theorem Bookkeeping.of_reachable (h : (machine ops).Reachable s) : s.Bookkeeping := by
  refine Machine.Reachable.invariant (fun s hs => ?_) (fun s e s' hI hn => hI.step hn) h
  obtain ⟨memory, buffers, rfl⟩ := hs
  exact Bookkeeping.init memory buffers

theorem flips_of_reachable (h : (machine ops).Reachable s) (q : c.Qpn) :
    FlipsPoolBit (c.initialRkey q) (s.posts q) := by
  have hI := Bookkeeping.of_reachable h
  cases hs : s.current with
  | none =>
    obtain ⟨l, hl⟩ := hI.rest hs
    exact (hl.posted q).flips
  | some sl =>
    obtain ⟨l, hl⟩ := hI.loop sl hs
    exact (hl.posted q).flips

/-- In every state of the receive loop: the timers that run are linked, each queue
pair of the batch is outstanding or finished, the ids postprocessed on it are
those of its residue in order, the pool bits alternate, and the loop ends by
count when all queue pairs are finished. -/
theorem loop_bookkeeping (h : (machine ops).Reachable s) (hs : s.current = some sl) :
    (∃ l, s.timeoutsQueue.Lists l) ∧
    (∀ q : c.Qpn, q.val < sl.batchNumMsgs →
      s.msgIds q < sl.totalNumMsgs ∧ s.recvWrs q = 1 ∧ s.timeoutsQueue.valid q = true ∨
      sl.totalNumMsgs ≤ s.msgIds q ∧ s.recvWrs q = 0 ∧ s.timeoutsQueue.valid q = false) ∧
    (∀ q : c.Qpn, q.val < sl.batchNumMsgs → ∃ k, s.msgIds q = q.val + k * sl.batchNumMsgs ∧
      (sl.postprocessed.filter (·.1 = q)).map (·.2) = (List.range k).map (q.val + · * sl.batchNumMsgs)) ∧
    (∀ q : c.Qpn, FlipsPoolBit (c.initialRkey q) (s.posts q)) ∧
    (¬sl.numReceivedMsgs < sl.totalNumMsgs ↔
      ∀ q : c.Qpn, q.val < sl.batchNumMsgs → sl.totalNumMsgs ≤ s.msgIds q) := by
  obtain ⟨l, hl⟩ := (Bookkeeping.of_reachable h).loop sl hs
  refine ⟨⟨l, hl.queue⟩, fun q hq => ?_, fun q hq => ?_, fun q => (hl.posted q).flips, hl.loop.ends_iff⟩
  · by_cases hlt : s.msgIds q < sl.totalNumMsgs
    · have ho := hl.loop.outstanding q hq hlt List.not_mem_nil
      exact .inl ⟨hlt, ho.recv, (hl.queue.valid q).mpr ho.timer⟩
    · have hle := Nat.le_of_not_lt hlt
      have hf := hl.loop.finished q hq hle
      refine .inr ⟨hle, hf.recv, ?_⟩
      rw [Bool.eq_false_iff]
      exact fun hv => hf.timer ((hl.queue.valid q).mp hv)
  · obtain ⟨k, hk, -, hlist⟩ := hl.loop.progress q hq
    exact ⟨k, hk, hlist⟩

/-- Two queue pairs with messages of one packet of one element. -/
def exampleRdmaConfig : RdmaConfig where
  tid := 0
  maxOutstandingMsgs := 2
  numPktsPerMsg := 1
  packetNumel := 1
  numWorkers := 2
  timeout := 1
  timeoutThreshold := 100
  timeoutThresholdIncrement := 100
  maxOutstandingMsgs_pos := Nat.two_pos
  numPktsPerMsg_pos := Nat.one_pos
  packetNumel_pos := Nat.one_pos

/-- Three messages and then two in another slice. One completion is of a message
nobody waits for, and one message is sent twice. -/
theorem loop_bookkeeping_twice : ∃ (s : RdmaWorkerThread exampleRdmaConfig ℕ) (sl : RdmaSlice exampleRdmaConfig),
    s.current = some sl ∧ (s.posts 0).length = 3 ∧ (s.posts 1).length = 3 ∧ FlipsPoolBit 1#32 (s.posts 0) ∧
    FlipsPoolBit 3#32 (s.posts 1) := by
  let completion (qpn : exampleRdmaConfig.Qpn) (msgId : ℕ) : Completion exampleRdmaConfig :=
    { qpn, immData := immData msgId 0 }
  have hrun : ((machine exampleOps).run
      (new exampleRdmaConfig (fun _ => 0) fun _ _ => 0)
      [.begin (exampleSlice 0 3 .int32), .complete (completion 0 0), .complete (completion 1 5),
        .tick (3 * 10 ^ 6), .checkTimeouts, .complete (completion 1 1), .complete (completion 0 2), .finish,
        .begin (exampleSlice 1 2 .int32)]).bind (fun s => s.current.map
      fun _ => ((s.posts 0).length, (s.posts 1).length)) = some (3, 3) := by
    decide +kernel
  obtain ⟨s, hr, hcur⟩ := Option.bind_eq_some_iff.mp hrun
  obtain ⟨sl, hs, heq⟩ := Option.map_eq_some_iff.mp hcur
  simp only [Prod.mk.injEq] at heq
  obtain ⟨-, -, -, hflips, -⟩ := loop_bookkeeping (Machine.Reachable.run (.init ⟨_, _, rfl⟩) hr) hs
  exact ⟨s, sl, hs, heq.1, heq.2, hflips 0, hflips 1⟩

end RdmaWorkerThread

end SwitchML.Client
