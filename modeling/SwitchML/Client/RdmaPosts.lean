/-
What the worker thread posts on one queue pair: in a step nothing, the current
request again, or the request of the next message (`Rests`, `Reposts`, `Sends`).
The messages are numbered in the order they are posted for the first time, and
the number tells the pool bit.
-/
import SwitchML.Client.RdmaLoop

namespace SwitchML.Client

/-- How many messages were posted. -/
def newCount (posts : List Post) : ℕ := posts.countP (!·.isRetransmission)

@[simp] theorem newCount_nil : newCount [] = 0 := rfl

theorem newCount_append (posts posts' : List Post) : newCount (posts ++ posts') = newCount posts + newCount posts' :=
  List.countP_append

theorem newCount_concat (posts : List Post) (p : Post) :
    newCount (posts ++ [p]) = newCount posts + if p.isRetransmission then 0 else 1 := by
  rw [newCount_append]
  cases hp : p.isRetransmission <;> simp [newCount, hp]

theorem newCount_take_le (posts : List Post) (k : ℕ) : newCount (posts.take k) ≤ newCount posts :=
  (List.take_sublist k posts).countP_le

theorem newCount_take_succ {posts : List Post} {k : ℕ} {p : Post} (hp : posts[k]? = some p) :
    newCount (posts.take (k + 1)) = newCount (posts.take k) + if p.isRetransmission then 0 else 1 := by
  rw [List.take_add_one, hp, Option.toList_some, newCount_concat]

namespace RdmaConfig

/-- The `rkey` of a queue pair's requests for the message of a number. -/
def messageRkey (c : RdmaConfig) (qpn no : ℕ) : BitVec 32 :=
  if no % 2 = 0 then c.initialRkey qpn else c.initialRkey qpn ^^^ 1#32

theorem messageRkey_succ (c : RdmaConfig) (qpn no : ℕ) : c.messageRkey qpn (no + 1) = c.messageRkey qpn no ^^^ 1#32 := by
  unfold messageRkey
  by_cases h : no % 2 = 0
  · rw [if_pos h, if_neg (by omega)]
  · rw [if_neg h, if_pos (by omega), BitVec.xor_assoc, BitVec.xor_self, BitVec.xor_zero]

end RdmaConfig

namespace RdmaWorkerThread

variable {c : RdmaConfig} {K : Type} {ops : FloatOps K} {s s' s'' : RdmaWorkerThread c K} {sl : RdmaSlice c}
  {l ready : List c.Qpn} {q : c.Qpn}

/-! ## A step on one queue pair -/

/-- Nothing is posted or received on the queue pair. -/
structure Rests (s s' : RdmaWorkerThread c K) (q : c.Qpn) : Prop where
  posts : s'.posts q = s.posts q
  sendWrs : s'.sendWrs q = s.sendWrs q
  recvWrs : s'.recvWrs q = s.recvWrs q
  buffers : s'.buffers q = s.buffers q

/-- The current request is posted again. -/
structure Reposts (s s' : RdmaWorkerThread c K) (q : c.Qpn) : Prop where
  posts : s'.posts q = s.posts q ++ [{ wr := s.sendWrs q, isRetransmission := true }]
  sendWrs : s'.sendWrs q = s.sendWrs q
  recvWrs : s'.recvWrs q = s.recvWrs q
  buffers : s'.buffers q = s.buffers q

/-- The request of a new message is posted, and a receive request for its result. -/
structure Sends (s s' : RdmaWorkerThread c K) (q : c.Qpn) : Prop where
  posts : s'.posts q = s.posts q ++ [{ wr := s'.sendWrs q, isRetransmission := false }]
  no : (s'.sendWrs q).no = (s.sendWrs q).no + 1
  rkey : (s'.sendWrs q).rkey = (s.sendWrs q).rkey ^^^ 1#32
  recvWrs : 0 < s'.recvWrs q
  buffers : s'.buffers q = (s'.sendWrs q).original

/-- A result was received, and nothing is left to send. -/
structure Ends (s s' : RdmaWorkerThread c K) (q : c.Qpn) : Prop where
  posts : s'.posts q = s.posts q
  sendWrs : s'.sendWrs q = s.sendWrs q
  recvWrs : s'.recvWrs q = s.recvWrs q - 1
  buffers : s'.buffers q = s.buffers q

theorem Rests.refl (s : RdmaWorkerThread c K) (q : c.Qpn) : Rests s s q := ⟨rfl, rfl, rfl, rfl⟩

theorem Rests.trans (h : Rests s s' q) (h' : Rests s' s'' q) : Rests s s'' q :=
  ⟨h'.posts.trans h.posts, h'.sendWrs.trans h.sendWrs, h'.recvWrs.trans h.recvWrs, h'.buffers.trans h.buffers⟩

theorem Sends.of_rests (h : Sends s' s'' q) (hr : Rests s s' q) : Sends s s'' q where
  posts := by rw [h.posts, hr.posts]
  no := by rw [h.no, hr.sendWrs]
  rkey := by rw [h.rkey, hr.sendWrs]
  recvWrs := h.recvWrs
  buffers := h.buffers

theorem Sends.rests (h : Sends s s' q) (hr : Rests s' s'' q) : Sends s s'' q where
  posts := by rw [hr.posts, h.posts, hr.sendWrs]
  no := by rw [hr.sendWrs, h.no]
  rkey := by rw [hr.sendWrs, h.rkey]
  recvWrs := by
    rw [hr.recvWrs]
    exact h.recvWrs
  buffers := by rw [hr.buffers, hr.sendWrs, h.buffers]

/-- The request that was posted last is the current one. -/
theorem Bookkeeping.last_post (h : s.Bookkeeping) {p : Post} (hp : (s.posts q).getLast? = some p) :
    p.wr = s.sendWrs q := by
  cases hs : s.current with
  | none =>
    obtain ⟨l, hl⟩ := h.rest hs
    exact (hl.posted q).last p hp
  | some sl =>
    obtain ⟨l, hl⟩ := h.loop sl hs
    exact (hl.posted q).last p hp

/-! ## What the functions do -/

theorem sends_postMessage (s : RdmaWorkerThread c K) (q : c.Qpn) : Sends s (s.postMessage ops q) q := by
  have hwr : (s.postMessage ops q).sendWrs q = _ := Function.update_self ..
  have hbuf : (s.postMessage ops q).buffers q = _ := Function.update_self ..
  have hrecv : (s.postMessage ops q).recvWrs q = _ := Function.update_self ..
  refine ⟨Function.update_self .., ?_, ?_, ?_, ?_⟩
  · rw [hwr]
    rfl
  · rw [hwr]
    rfl
  · rw [hrecv]
    exact Nat.succ_pos _
  · rw [hbuf, hwr]

theorem rests_postMessage (s : RdmaWorkerThread c K) {p : c.Qpn} (hpq : p ≠ q) : Rests s (s.postMessage ops q) p :=
  ⟨Function.update_of_ne hpq .., Function.update_of_ne hpq .., Function.update_of_ne hpq ..,
    Function.update_of_ne hpq ..⟩

theorem rests_postMessages (ops : FloatOps K) (s : RdmaWorkerThread c K) (hq : q ∉ ready) :
    Rests s (ready.foldl (postMessage ops) s) q := by
  induction ready generalizing s with
  | nil => exact .refl s q
  | cons p ready ih =>
    rw [List.mem_cons, not_or] at hq
    exact (rests_postMessage s hq.1).trans (ih _ hq.2)

theorem sends_postMessages (ops : FloatOps K) (s : RdmaWorkerThread c K) (hnodup : ready.Nodup) (hq : q ∈ ready) :
    Sends s (ready.foldl (postMessage ops) s) q := by
  induction ready generalizing s with
  | nil => cases hq
  | cons p ready ih =>
    rw [List.nodup_cons] at hnodup
    rcases List.mem_cons.mp hq with rfl | hq
    · exact (sends_postMessage s q).rests (rests_postMessages ops _ hnodup.1)
    · have hne : q ≠ p := fun h => hnodup.1 (h ▸ hq)
      exact (ih _ hnodup.2 hq).of_rests (rests_postMessage s hne)

/-- What a slice's first batch posts. -/
theorem Bookkeeping.begins (h : s.Bookkeeping) {job : JobSlice} (hn : s.next ops (.begin job) = some s') (q : c.Qpn) :
    Rests s s' q ∨ s.recvWrs q = 0 ∧ Sends s s' q := by
  cases RdmaWorkerThread.step hn with
  | began _ hs hrun hnumel hbatch =>
    obtain ⟨l, hrest⟩ := h.rest hs
    have hprepare : Rests s (s.prepare job) q := ⟨rfl, rfl, rfl, rfl⟩
    by_cases hq : q ∈ batch c (s.prepare job).batchNumMsgs
    · have hsends := sends_postMessages ops (s.prepare job) ((List.nodup_finRange _).filter _) hq
      exact .inr ⟨(hrest.quiet hrun q).recv, hsends.of_rests hprepare⟩
    · exact .inl (hprepare.trans (rests_postMessages ops _ hq))

/-- What a timeout posts; the request was posted before. -/
theorem Bookkeeping.checks (h : s.Bookkeeping) (hn : s.next ops .checkTimeouts = some s') (q : c.Qpn) :
    Rests s s' q ∨ s.posts q ≠ [] ∧ Reposts s s' q := by
  cases RdmaWorkerThread.step hn with
  | checked sl hs =>
    obtain ⟨l, hsend⟩ := h.loop sl hs
    unfold checkTimeouts
    dsimp only
    split
    · rename_i p hp
      by_cases hpq : q = p
      · subst hpq
        have hmem := List.mem_of_getLast? (hsend.queue.check_eq_some hp)
        refine .inr ⟨?_, ?_⟩
        · refine posts_ne_nil (hsend.posted q) ?_
          have hout : s.Outstanding l q := by
            by_cases hbatch : q.val < sl.batchNumMsgs
            · refine hsend.loop.outstanding q hbatch (by_contra fun hle => ?_) List.not_mem_nil
              exact (hsend.loop.finished q hbatch (Nat.le_of_not_lt hle)).timer hmem
            · exact absurd hmem (hsend.loop.unused q (Nat.le_of_not_lt hbatch)).timer
          rw [hout.slice]
          exact hsend.loop.begun
        · exact ⟨Function.update_self .., rfl, rfl, rfl⟩
      · exact .inl ⟨Function.update_of_ne hpq .., rfl, rfl, rfl⟩
    · exact .inl ⟨rfl, rfl, rfl, rfl⟩

/-- What a completion leads to: it is for the queue pair and accepted, or nothing is posted. -/
theorem completes {completion : Completion c} (hn : s.next ops (.complete completion) = some s') (q : c.Qpn) :
    Rests s s' q ∨ completion.qpn = q ∧ s.isExpected completion = true ∧ (Ends s s' q ∨ Sends s s' q) := by
  cases RdmaWorkerThread.step hn with
  | completed sl _ hs hpos =>
    unfold receive
    dsimp only
    have hexp : (s.completeRecvWr completion.qpn).isExpected completion = s.isExpected completion := rfl
    rw [hexp]
    by_cases hq : completion.qpn = q
    · subst hq
      split
      · rename_i hacc
        refine .inr ⟨rfl, hacc, ?_⟩
        have hends : Ends s ((s.completeRecvWr completion.qpn).postprocess ops sl completion) completion.qpn :=
          ⟨rfl, rfl, Function.update_self .., rfl⟩
        unfold accept
        dsimp only
        split
        · have hsends : Sends _ (postMessage ops _ completion.qpn) completion.qpn :=
            sends_postMessage ((s.completeRecvWr completion.qpn).postprocess ops sl completion) completion.qpn
          exact .inr ⟨hsends.posts, hsends.no, hsends.rkey, hsends.recvWrs, hsends.buffers⟩
        · exact .inl hends
      · refine .inl ⟨rfl, rfl, ?_, rfl⟩
        show Function.update (Function.update s.recvWrs _ _) _ (Function.update s.recvWrs _ _ _ + 1) _ = _
        rw [Function.update_self, Function.update_self, Nat.sub_add_cancel hpos]
    · have hne : q ≠ completion.qpn := Ne.symm hq
      refine .inl ?_
      split
      · have hrests : Rests s ((s.completeRecvWr completion.qpn).postprocess ops sl completion) q :=
          ⟨rfl, rfl, Function.update_of_ne hne .., rfl⟩
        unfold accept
        dsimp only
        split
        · exact hrests.trans (rests_postMessage _ hne)
        · exact hrests
      · refine ⟨rfl, rfl, ?_, rfl⟩
        show Function.update (Function.update s.recvWrs _ _) _ _ q = _
        rw [Function.update_of_ne hne, Function.update_of_ne hne]

/-- The other steps leave the queue pairs alone, but the network card writes to their buffers. -/
theorem idles {e : Event c} (hn : s.next ops e = some s')
    (he : e = .finish ∨ e = .stop ∨ (∃ nanoseconds, e = .tick nanoseconds) ∨ ∃ addr w, e = .store addr w) (q : c.Qpn) :
    Rests s s' q := by
  rcases he with rfl | rfl | ⟨nanoseconds, rfl⟩ | ⟨addr, w, rfl⟩ <;> cases RdmaWorkerThread.step hn <;>
    exact ⟨rfl, rfl, rfl, rfl⟩

/-- What the thread does by itself. -/
def Event.isOwn : Event c → Bool
  | .complete _ | .write _ _ => false
  | _ => true

theorem Bookkeeping.own (h : s.Bookkeeping) {e : Event c} (he : e.isOwn = true) (hn : s.next ops e = some s') (q : c.Qpn) :
    Rests s s' q ∨ s.posts q ≠ [] ∧ Reposts s s' q ∨ s.recvWrs q = 0 ∧ Sends s s' q := by
  cases e with
  | begin job => exact (h.begins hn q).imp_right .inr
  | complete completion => cases he
  | checkTimeouts => exact (h.checks hn q).imp_right .inl
  | finish => exact .inl (idles hn (.inl rfl) q)
  | stop => exact .inl (idles hn (.inr (.inl rfl)) q)
  | tick nanoseconds => exact .inl (idles hn (.inr (.inr (.inl ⟨_, rfl⟩))) q)
  | write p words => cases he
  | store addr w => exact .inl (idles hn (.inr (.inr (.inr ⟨_, _, rfl⟩))) q)

/-- In any step, the posts of a queue pair stay the same, or there is one more. -/
theorem Bookkeeping.moves (h : s.Bookkeeping) {e : Event c} (hn : s.next ops e = some s') (q : c.Qpn) :
    s'.posts q = s.posts q ∧ s'.sendWrs q = s.sendWrs q ∨ s.posts q ≠ [] ∧ Reposts s s' q ∨ Sends s s' q := by
  cases he : e.isOwn with
  | true =>
    rcases h.own he hn q with hr | hr | ⟨-, hs⟩
    · exact .inl ⟨hr.posts, hr.sendWrs⟩
    · exact .inr (.inl hr)
    · exact .inr (.inr hs)
  | false =>
    cases e with
    | complete completion =>
      rcases completes hn q with hr | ⟨-, -, hends | hs⟩
      · exact .inl ⟨hr.posts, hr.sendWrs⟩
      · exact .inl ⟨hends.posts, hends.sendWrs⟩
      · exact .inr (.inr hs)
    | write p words =>
      cases RdmaWorkerThread.step hn
      exact .inl ⟨rfl, rfl⟩
    | _ => cases he

/-- Nothing is taken back. -/
theorem Bookkeeping.posts_append (h : s.Bookkeeping) {e : Event c} (hn : s.next ops e = some s') (q : c.Qpn) :
    ∃ new, s'.posts q = s.posts q ++ new := by
  rcases h.moves hn q with ⟨hposts, -⟩ | ⟨-, hr⟩ | hs
  · exact ⟨[], by rw [hposts, List.append_nil]⟩
  · exact ⟨_, hr.posts⟩
  · exact ⟨_, hs.posts⟩

/-! ## The numbers of the messages -/

/-- The posts of a queue pair, numbered by their messages. -/
structure Numbered (s : RdmaWorkerThread c K) (q : c.Qpn) : Prop where
  no : (s.sendWrs q).no = newCount (s.posts q)
  rkey : (s.sendWrs q).rkey = c.messageRkey q (s.sendWrs q).no
  count : ∀ j p, (s.posts q)[j]? = some p → p.wr.no = newCount ((s.posts q).take (j + 1))
  pos : ∀ p ∈ s.posts q, 0 < p.wr.no
  rkeys : ∀ p ∈ s.posts q, p.wr.rkey = c.messageRkey q p.wr.no
  current : ∀ p ∈ s.posts q, p.wr.no = (s.sendWrs q).no → p.wr = s.sendWrs q
  same : ∀ p ∈ s.posts q, ∀ p' ∈ s.posts q, p.wr.no = p'.wr.no → p.wr = p'.wr

/-- No number is greater than the one of the current message. -/
theorem Numbered.le (h : s.Numbered q) {p : Post} (hp : p ∈ s.posts q) : p.wr.no ≤ (s.sendWrs q).no := by
  obtain ⟨j, hj⟩ := List.mem_iff_getElem?.mp hp
  rw [h.count j p hj, h.no]
  exact newCount_take_le _ _

theorem Numbered.congr (h : s.Numbered q) (hposts : s'.posts q = s.posts q) (hwr : s'.sendWrs q = s.sendWrs q) :
    s'.Numbered q := by
  constructor <;> simp only [hposts, hwr]
  · exact h.no
  · exact h.rkey
  · exact h.count
  · exact h.pos
  · exact h.rkeys
  · exact h.current
  · exact h.same

/-- A post is added, with the current request. -/
theorem Numbered.concat (h : s.Numbered q) {b : Bool}
    (hposts : s'.posts q = s.posts q ++ [{ wr := s'.sendWrs q, isRetransmission := b }])
    (hno : (s'.sendWrs q).no = (s.sendWrs q).no + if b then 0 else 1)
    (hrkey : (s'.sendWrs q).rkey = c.messageRkey q (s'.sendWrs q).no) (hpos : 0 < (s'.sendWrs q).no)
    (hsame : b = true → s'.sendWrs q = s.sendWrs q) : s'.Numbered q := by
  have hcount : newCount (s'.posts q) = (s'.sendWrs q).no := by
    rw [hposts, newCount_concat, hno, h.no]
  have hmem {p : Post} (hp : p ∈ s'.posts q) : p ∈ s.posts q ∨ p.wr = s'.sendWrs q := by
    rw [hposts, List.mem_append, List.mem_singleton] at hp
    exact hp.imp_right fun hp => by rw [hp]
  -- an older post has a smaller number, or the request is the same
  have hold {p : Post} (hp : p ∈ s.posts q) (heq : p.wr.no = (s'.sendWrs q).no) : p.wr = s'.sendWrs q := by
    have hle := h.le hp
    cases b with
    | true =>
      rw [hsame rfl] at heq ⊢
      exact h.current p hp heq
    | false =>
      rw [heq, hno, if_neg (by decide)] at hle
      omega
  refine ⟨hcount.symm, hrkey, ?_, ?_, ?_, ?_, ?_⟩
  · intro j p hj
    rw [hposts] at hj ⊢
    by_cases hlt : j < (s.posts q).length
    · rw [List.getElem?_append_left hlt] at hj
      rw [List.take_append_of_le_length (by omega)]
      exact h.count j p hj
    · rw [List.getElem?_append_right (Nat.le_of_not_lt hlt)] at hj
      have hp := List.mem_of_getElem? hj
      rw [List.mem_singleton] at hp
      rw [List.take_of_length_le (by rw [List.length_append, List.length_singleton]; omega), ← hposts, hcount, hp]
  · intro p hp
    rcases hmem hp with hp | hp
    · exact h.pos p hp
    · rw [hp]
      exact hpos
  · intro p hp
    rcases hmem hp with hp | hp
    · exact h.rkeys p hp
    · rw [hp]
      exact hrkey
  · intro p hp heq
    rcases hmem hp with hp | hp
    · exact hold hp heq
    · exact hp
  · intro p hp p' hp' heq
    rcases hmem hp with hp | hp <;> rcases hmem hp' with hp' | hp'
    · exact h.same p hp p' hp' heq
    · rw [hp'] at heq ⊢
      exact hold hp heq
    · rw [hp] at heq ⊢
      exact (hold hp' heq.symm).symm
    · rw [hp, hp']

theorem Numbered.sends (h : s.Numbered q) (hs : Sends s s' q) : s'.Numbered q := by
  refine h.concat hs.posts ?_ ?_ ?_ fun hb => by cases hb
  · rw [hs.no]
    rfl
  · rw [hs.rkey, h.rkey, hs.no, c.messageRkey_succ]
  · rw [hs.no]
    exact Nat.succ_pos _

theorem Numbered.reposts (h : s.Numbered q) (hne : s.posts q ≠ []) (hr : Reposts s s' q) : s'.Numbered q := by
  refine h.concat (b := true) ?_ ?_ ?_ ?_ fun _ => hr.sendWrs
  · rw [hr.posts, hr.sendWrs]
  · rw [hr.sendWrs]
    rfl
  · rw [hr.sendWrs]
    exact h.rkey
  · obtain ⟨p, hp⟩ := List.exists_mem_of_ne_nil _ hne
    rw [hr.sendWrs]
    exact (h.pos p hp).trans_le (h.le hp)

theorem Numbered.step (h : s.Numbered q) (hI : s.Bookkeeping) {e : Event c} (hn : s.next ops e = some s') :
    s'.Numbered q := by
  rcases hI.moves hn q with ⟨hposts, hwr⟩ | ⟨hne, hr⟩ | hs
  · exact h.congr hposts hwr
  · exact h.reposts hne hr
  · exact h.sends hs

theorem Numbered.init (memory : Memory) (buffers : c.Qpn → ℕ → Word) (q : c.Qpn) :
    (new c memory buffers : RdmaWorkerThread c K).Numbered q := by
  refine ⟨rfl, rfl, ?_, ?_, ?_, ?_, ?_⟩
  · intro j p hj
    cases hj
  all_goals
    intro p hp
    cases hp

theorem Numbered.of_reachable (h : (machine ops).Reachable s) (q : c.Qpn) : s.Numbered q := by
  induction h with
  | init hs =>
    obtain ⟨memory, buffers, rfl⟩ := hs
    exact .init memory buffers q
  | step hr _ hn hnum => exact hnum.step (Bookkeeping.of_reachable hr) hn

end RdmaWorkerThread

end SwitchML.Client
