/-
What an RDMA worker thread makes of its `INT32` slices. Threads that get slices
of the same sizes send the same elements with the message of a number, as the
number tells the slice and the id (`Placed`). While a thread works on a slice, the elements of
the ids it has postprocessed are their results and the others are as they were
submitted (`Reducing`).
-/
import SwitchML.Client.RdmaPosts
import SwitchML.Lib.Blocks

namespace SwitchML.Client

namespace RdmaConfig

variable (c : RdmaConfig)

/-! ## The messages of a slice -/

/-- The elements of a message. -/
def msgNumel : ℕ := c.numPktsPerMsg * c.packetNumel

theorem msgNumel_pos : 0 < c.msgNumel := Nat.mul_pos c.numPktsPerMsg_pos c.packetNumel_pos

/-- How many messages a slice of this size has, and how many of them go out first. -/
def sliceMsgs (numel : ℕ) : ℕ := Chunks.count numel c.msgNumel

def sliceBatch (numel : ℕ) : ℕ := min c.maxOutstandingMsgs (c.sliceMsgs numel)

/-- How many of them go over a queue pair. -/
def share (numel : ℕ) (q : c.Qpn) : ℕ :=
  if q.val < c.sliceBatch numel then (c.sliceMsgs numel - 1 - q) / c.sliceBatch numel + 1 else 0

variable {c}

theorem lt_share_iff {numel : ℕ} {q : c.Qpn} (hq : q.val < c.sliceBatch numel) {i : ℕ} :
    i < c.share numel q ↔ q + i * c.sliceBatch numel < c.sliceMsgs numel := by
  have hle : c.sliceBatch numel ≤ c.sliceMsgs numel := min_le_right _ _
  rw [share, if_pos hq, Nat.lt_succ_iff, Nat.le_div_iff_mul_le (by omega)]
  omega

variable (c) in
/-- How many messages go over a queue pair in the slices before `k`. -/
def before (numel : ℕ → ℕ) (q : c.Qpn) (k : ℕ) : ℕ := Blocks.start (fun j => c.share (numel j) q) k

theorem before_zero (numel : ℕ → ℕ) (q : c.Qpn) : c.before numel q 0 = 0 := Blocks.start_zero

theorem before_succ (numel : ℕ → ℕ) (q : c.Qpn) (k : ℕ) :
    c.before numel q (k + 1) = c.before numel q k + c.share (numel k) q := Blocks.start_succ ..

/-- After the last one there is no other. -/
theorem share_eq {numel : ℕ} {q : c.Qpn} (hq : q.val < c.sliceBatch numel) {i : ℕ}
    (hlt : q + i * c.sliceBatch numel < c.sliceMsgs numel)
    (hle : c.sliceMsgs numel ≤ q + i * c.sliceBatch numel + c.sliceBatch numel) : c.share numel q = i + 1 := by
  have h1 := (lt_share_iff hq).mpr hlt
  have h2 : ¬i + 1 < c.share numel q := by
    rw [lt_share_iff hq, Nat.succ_mul]
    omega
  omega

theorem share_eq_zero {numel : ℕ} {q : c.Qpn} (hq : ¬q.val < c.sliceBatch numel) : c.share numel q = 0 := if_neg hq

end RdmaConfig

namespace RdmaWorkerThread

variable {c : RdmaConfig} {K : Type} {ops : FloatOps K} {s s' : RdmaWorkerThread c K} {sl : RdmaSlice c} {q : c.Qpn}
  {ready : List c.Qpn}

/-! ## What is posted -/

/-- A message was preprocessed for the queue pair, and its request set up. -/
structure Preprocessed (ops : FloatOps K) (s s' : RdmaWorkerThread c K) (q : c.Qpn) : Prop where
  slice : (s'.sendWrs q).slice = s.slices
  msgId : (s'.sendWrs q).msgId = s.msgIds q
  original : (s'.sendWrs q).original =
    (s.ppp.preprocessSingle ops s.memory (s.msgIds q) { entries := s.buffers q, exponent := 0 }).1.entries

/-- What posting messages does not change. -/
structure Keeps (s s' : RdmaWorkerThread c K) : Prop where
  ppp : s'.ppp = s.ppp
  memory : s'.memory = s.memory
  msgIds : s'.msgIds = s.msgIds
  current : s'.current = s.current
  running : s'.running = s.running
  slices : s'.slices = s.slices

theorem Keeps.refl (s : RdmaWorkerThread c K) : Keeps s s := ⟨rfl, rfl, rfl, rfl, rfl, rfl⟩

theorem Keeps.trans {s'' : RdmaWorkerThread c K} (h : Keeps s s') (h' : Keeps s' s'') : Keeps s s'' :=
  ⟨h'.ppp.trans h.ppp, h'.memory.trans h.memory, h'.msgIds.trans h.msgIds, h'.current.trans h.current,
    h'.running.trans h.running, h'.slices.trans h.slices⟩

theorem keeps_postMessage (s : RdmaWorkerThread c K) (q : c.Qpn) : Keeps s (s.postMessage ops q) :=
  ⟨rfl, rfl, rfl, rfl, rfl, rfl⟩

theorem keeps_postMessages (ops : FloatOps K) (s : RdmaWorkerThread c K) (ready : List c.Qpn) :
    Keeps s (ready.foldl (postMessage ops) s) := by
  induction ready generalizing s with
  | nil => exact .refl s
  | cons q ready ih => exact (keeps_postMessage s q).trans (ih _)

theorem keeps_checkTimeouts (ops : FloatOps K) (s : RdmaWorkerThread c K) : Keeps s (s.checkTimeouts ops) := by
  unfold checkTimeouts
  dsimp only
  split <;> exact ⟨rfl, rfl, rfl, rfl, rfl, rfl⟩

theorem preprocessed_postMessage (s : RdmaWorkerThread c K) (q : c.Qpn) :
    Preprocessed ops s (s.postMessage ops q) q := by
  have hwr : (s.postMessage ops q).sendWrs q = _ := Function.update_self ..
  refine ⟨?_, ?_, ?_⟩ <;> rw [hwr] <;> rfl

theorem preprocessed_postMessages (ops : FloatOps K) (s : RdmaWorkerThread c K) (hnodup : ready.Nodup) (hq : q ∈ ready) :
    Preprocessed ops s (ready.foldl (postMessage ops) s) q := by
  induction ready generalizing s with
  | nil => cases hq
  | cons p ready ih =>
    rw [List.nodup_cons] at hnodup
    rw [List.foldl_cons]
    rcases List.mem_cons.mp hq with rfl | hq
    · have hrests := rests_postMessages ops (s.postMessage ops q) hnodup.1
      have hpre : Preprocessed ops s (s.postMessage ops q) q := preprocessed_postMessage s q
      exact ⟨by rw [hrests.sendWrs]; exact hpre.slice, by rw [hrests.sendWrs]; exact hpre.msgId,
        by rw [hrests.sendWrs]; exact hpre.original⟩
    · have hne : q ≠ p := fun h => hnodup.1 (h ▸ hq)
      have hpre := ih (s.postMessage ops p) hnodup.2 hq
      have hbuf : (s.postMessage ops p).buffers q = s.buffers q := (rests_postMessage s hne).buffers
      exact ⟨hpre.slice, hpre.msgId, by rw [hpre.original, hbuf]; rfl⟩

/-! ## The elements -/

variable {numel : ℕ → ℕ} {job : ℕ → JobSlice} {input result : ℕ → ℕ → Word} {k : ℕ}

/-- A request is for the message of its slice that its number tells, and carries
the elements of this message. -/
def Placed (numel : ℕ → ℕ) (input : ℕ → ℕ → Word) (q : c.Qpn) (wr : SendWr) : Prop :=
  ∃ k i, i < c.share (numel k) q ∧ wr.slice = k + 1 ∧ wr.msgId = q + i * c.sliceBatch (numel k) ∧
    wr.no = c.before numel q k + i + 1 ∧ ∀ j < c.msgNumel, wr.msgId * c.msgNumel + j < numel k →
      wr.original j = htonl (input k (wr.msgId * c.msgNumel + j))

/-- Requests of the same number are for the same message, of whichever thread they are. -/
theorem Placed.same {input' : ℕ → ℕ → Word} {wr wr' : SendWr} (h : Placed numel input q wr)
    (h' : Placed numel input' q wr') (hno : wr.no = wr'.no) :
    wr.slice = wr'.slice ∧ wr.msgId = wr'.msgId ∧ ∃ k, wr.slice = k + 1 ∧
      ∀ j < c.msgNumel, wr.msgId * c.msgNumel + j < numel k →
        wr'.original j = htonl (input' k (wr.msgId * c.msgNumel + j)) := by
  obtain ⟨k, i, hi, hslice, hid, hnum, -⟩ := h
  obtain ⟨k', i', hi', hslice', hid', hnum', hwords⟩ := h'
  let size : ℕ → ℕ := fun j => c.share (numel j) q
  have hi : i < size k := hi
  have hi' : i' < size k' := hi'
  have hplace : Blocks.start size k + i = Blocks.start size k' + i' :=
    Nat.succ.inj (hnum.symm.trans (hno.trans hnum'))
  obtain ⟨rfl, rfl⟩ := Blocks.place_unique hi hi' hplace
  refine ⟨by rw [hslice, hslice'], by rw [hid, hid'], k, hslice, ?_⟩
  rw [hid, ← hid']
  exact hwords

/-- What is in the buffers of slice `k` while the thread works on it. -/
structure Elements (job : ℕ → JobSlice) (numel : ℕ → ℕ) (input result : ℕ → ℕ → Word) (s : RdmaWorkerThread c K)
    (sl : RdmaSlice c) (k : ℕ) : Prop where
  slice : s.ppp.slice = (job k).slice
  dataType : s.ppp.slice.dataType = .int32
  size : s.ppp.slice.numel = numel k
  separate : s.ppp.slice.Separate
  setUp : s.ppp.SetUp
  done : ∀ i < numel k, i / c.msgNumel ∈ sl.postprocessed.map (·.2) →
    s.memory (s.ppp.slice.outPtr + 4 * i) = result k i
  left : ∀ i < numel k, i / c.msgNumel ∉ sl.postprocessed.map (·.2) → s.ppp.input s.memory i = input k i

/-- While the thread works on slice `k`: where its queue pairs are, and what is in the buffers. -/
structure Reducing (job : ℕ → JobSlice) (numel : ℕ → ℕ) (input result : ℕ → ℕ → Word) (s : RdmaWorkerThread c K)
    (sl : RdmaSlice c) (k : ℕ) : Prop where
  slices : s.slices = k + 1
  total : sl.totalNumMsgs = c.sliceMsgs (numel k)
  batch : sl.batchNumMsgs = c.sliceBatch (numel k)
  waiting : ∀ q : c.Qpn, q.val < sl.batchNumMsgs → s.msgIds q < sl.totalNumMsgs →
    ∃ i, s.msgIds q = q + i * sl.batchNumMsgs ∧ (s.sendWrs q).no = c.before numel q k + i + 1
  finished : ∀ q : c.Qpn, ¬(q.val < sl.batchNumMsgs ∧ s.msgIds q < sl.totalNumMsgs) →
    (s.sendWrs q).no = c.before numel q (k + 1)
  elements : s.Elements job numel input result sl k

/-- What the thread keeps of the slices it is given. -/
structure Plays (job : ℕ → JobSlice) (numel : ℕ → ℕ) (input result : ℕ → ℕ → Word) (s : RdmaWorkerThread c K) :
    Prop where
  posts : ∀ q, ∀ p ∈ s.posts q, Placed numel input q p.wr
  loop : ∀ sl, s.current = some sl → ∃ k, s.Reducing job numel input result sl k
  rest : s.current = none → s.running = true → ∀ q, (s.sendWrs q).no = c.before numel q s.slices

/-- The slices are those of `job`, with these elements when they are begun, and
nobody else writes to the output of the slice the thread works on. -/
def keepsBuffers (job : ℕ → JobSlice) (input : ℕ → ℕ → Word) (s : RdmaWorkerThread c K) : Event c → Bool
  | .begin j =>
    decide (j = job s.slices) &&
      decide (∀ i < j.slice.numel, s.memory (j.slice.inPtr + 4 * i) = input s.slices i)
  | .store addr _ => s.current.isNone || decide (∀ i < s.ppp.slice.numel, addr ≠ s.ppp.slice.outPtr + 4 * i)
  | _ => true

theorem Static.ltuNumel (h : s.Static) : s.ppp.ltuNumel = c.msgNumel := by
  rw [Ppp.ltuNumel, h.ltuSize, RdmaConfig.msgSize, Ppp.dataTypeSize_eq]
  exact Nat.mul_div_cancel _ (Nat.succ_pos 3)

/-- What an `INT32` message is preprocessed to. -/
theorem preprocessSingle_int32 {p : Ppp K} {mem : Memory} {ltuId : ℕ} {pkt : Packet} (hd : p.slice.dataType = .int32)
    {j : ℕ} (hj : j < p.numelToProcess ltuId) :
    (p.preprocessSingle ops mem ltuId pkt).1.entries j = htonl (p.input mem (ltuId * p.ltuNumel + j)) := by
  unfold Ppp.preprocessSingle
  rw [hd]
  exact if_pos hj

/-- A message whose elements are as they were submitted is posted. -/
theorem Preprocessed.placed (h : Preprocessed ops s s' q) (hstatic : s.Static) (hsetUp : s.ppp.SetUp)
    (hd : s.ppp.slice.dataType = .int32) (hslices : s.slices = k + 1) (hnumel : s.ppp.slice.numel = numel k) {i : ℕ}
    (hi : i < c.share (numel k) q) (hid : s.msgIds q = q + i * c.sliceBatch (numel k))
    (hno : (s'.sendWrs q).no = c.before numel q k + i + 1)
    (hleft : ∀ j < c.msgNumel, s.msgIds q * c.msgNumel + j < numel k →
      s.ppp.input s.memory (s.msgIds q * c.msgNumel + j) = input k (s.msgIds q * c.msgNumel + j)) :
    Placed numel input q (s'.sendWrs q) := by
  refine ⟨k, i, hi, h.slice.trans hslices, h.msgId.trans hid, hno, fun j hj hlt => ?_⟩
  rw [h.msgId] at hlt ⊢
  have hltu := hstatic.ltuNumel
  have htotal : s.msgIds q < s.ppp.totalMainNumLtus := by
    rw [hsetUp.lt_iff, hltu, hnumel]
    omega
  have hprocess : j < s.ppp.numelToProcess (s.msgIds q) := by
    rw [hsetUp.numelToProcess htotal, hltu, hnumel]
    omega
  rw [h.original, preprocessSingle_int32 hd hprocess, hltu, hleft j hj hlt]

/-! ## The steps -/

/-- Steps that leave the job's elements and the requests as they are. -/
theorem Elements.congr (h : s.Elements job numel input result sl k) (hppp : s'.ppp = s.ppp)
    (hmemory : s'.memory = s.memory) : s'.Elements job numel input result sl k := by
  obtain ⟨h1, h2, h3, h4, h5, h6, h7⟩ := h
  constructor <;> rw [hppp]
  · exact h1
  · exact h2
  · exact h3
  · exact h4
  · exact h5
  · rw [hmemory]
    exact h6
  · rw [hmemory]
    exact h7

theorem Plays.congr (h : s.Plays job numel input result) (hk : Keeps s s')
    (hwr : ∀ q, s'.sendWrs q = s.sendWrs q)
    (hposts : ∀ q, ∀ p ∈ s'.posts q, p ∈ s.posts q ∨ ∃ p' ∈ s.posts q, p.wr = p'.wr) :
    s'.Plays job numel input result where
  posts q p hp := by
    rcases hposts q p hp with hp | ⟨p', hp', heq⟩
    · exact h.posts q p hp
    · rw [heq]
      exact h.posts q p' hp'
  loop sl hs := by
    rw [hk.current] at hs
    obtain ⟨k, hr⟩ := h.loop sl hs
    refine ⟨k, hk.slices.trans hr.slices, hr.total, hr.batch, ?_, ?_, hr.elements.congr hk.ppp hk.memory⟩
    · simp only [hk.msgIds, hwr]
      exact hr.waiting
    · simp only [hk.msgIds, hwr]
      exact hr.finished
  rest hs hrun q := by
    rw [hk.current] at hs
    rw [hk.running] at hrun
    rw [hwr, hk.slices]
    exact h.rest hs hrun q

theorem Plays.of_reducing (hs : s.current = some sl) (hposts : ∀ q, ∀ p ∈ s.posts q, Placed numel input q p.wr)
    (h : s.Reducing job numel input result sl k) : s.Plays job numel input result where
  posts := hposts
  loop sl' hs' := by
    obtain rfl : sl = sl' := Option.some.inj (hs.symm.trans hs')
    exact ⟨k, h⟩
  rest hnone := by
    rw [hs] at hnone
    cases hnone

/-- How many messages an `INT32` slice has. -/
theorem Static.prepare_msgs (h : s.Static) {j : JobSlice} (hnumel : 0 < j.slice.numel) (hd : j.slice.dataType = .int32) :
    (s.prepare j).totalNumMsgs = c.sliceMsgs j.slice.numel ∧ (s.prepare j).batchNumMsgs = c.sliceBatch j.slice.numel := by
  have hstatic : (s.prepare j).Static := ⟨h.ltuSize, h.batchMaxNumLtus⟩
  have hcount : (s.prepare j).ppp.totalMainNumLtus = c.sliceMsgs j.slice.numel := by
    rw [RdmaConfig.sliceMsgs, ← hstatic.ltuNumel]
    exact (h.setUp hnumel).total
  have hextra : (s.prepare j).ppp.needsExtraBatch = false := by
    show decide (j.slice.dataType = .float32) = false
    rw [hd]
    rfl
  constructor
  · rw [totalNumMsgs, hextra, ← hcount, if_neg Bool.false_ne_true]
  · rw [batchNumMsgs, hcount]
    rfl

/-- No message has been postprocessed when a slice is begun. -/
theorem Elements.begin {j : JobSlice} (hs : (s.prepare j).current = some sl) (hsetUp : (s.prepare j).ppp.SetUp)
    (hj : j = job k) (hd : j.slice.dataType = .int32) (hsep : j.slice.Separate) (hsize : j.slice.numel = numel k)
    (hinput : ∀ i < j.slice.numel, s.memory (j.slice.inPtr + 4 * i) = input k i) :
    (s.prepare j).Elements job numel input result sl k := by
  obtain rfl := Option.some.inj hs
  exact ⟨congrArg JobSlice.slice hj, hd, hsize, hsep, hsetUp, (fun _ _ hi => by cases hi),
    fun i hi _ => hinput i (hi.trans_eq hsize.symm)⟩

/-- A slice is begun. -/
theorem Plays.begin (h : s.Plays job numel input result) (hB : s.Bookkeeping) {j : JobSlice}
    (hn : s.next ops (.begin j) = some s') (hj : j = job s.slices) (hd : j.slice.dataType = .int32) (hsep : j.slice.Separate)
    (hsize : j.slice.numel = numel s.slices)
    (hinput : ∀ i < j.slice.numel, s.memory (j.slice.inPtr + 4 * i) = input s.slices i) :
    s'.Plays job numel input result := by
  cases RdmaWorkerThread.step hn with
  | began _ hs hrun hnumel hlt =>
    have hset := hB.static.setUp hnumel
    have hstatic : (s.prepare j).Static := ⟨hB.static.ltuSize, hB.static.batchMaxNumLtus⟩
    obtain ⟨htotal, hbatch⟩ := hB.static.prepare_msgs hnumel hd
    rw [hsize] at htotal hbatch
    have hle : c.sliceBatch (numel s.slices) ≤ c.sliceMsgs (numel s.slices) := min_le_right _ _
    have hkeeps := keeps_postMessages ops (s.prepare j) (batch c (s.prepare j).batchNumMsgs)
    have hnodup : (batch c (s.prepare j).batchNumMsgs).Nodup := (List.nodup_finRange _).filter _
    have hid {q : c.Qpn} (hq : q.val < (s.prepare j).batchNumMsgs) : (s.prepare j).msgIds q = q.val := if_pos hq
    have hno (q : c.Qpn) : ((s.prepare j).sendWrs q).no = c.before numel q s.slices := h.rest hs hrun q
    have hsends {q : c.Qpn} (hq : q.val < (s.prepare j).batchNumMsgs) :=
      sends_postMessages ops (s.prepare j) hnodup (mem_batch.mpr hq)
    have hrests {q : c.Qpn} (hq : ¬q.val < (s.prepare j).batchNumMsgs) :=
      rests_postMessages ops (s.prepare j) (mem_batch.not.mpr hq)
    refine ⟨fun q p hp => ?_, fun sl hsl => ⟨s.slices, ?_⟩, fun hnone => ?_⟩
    · by_cases hq : q.val < (s.prepare j).batchNumMsgs
      · rw [(hsends hq).posts, List.mem_append, List.mem_singleton] at hp
        rcases hp with hp | rfl
        · exact h.posts q p hp
        · have hq' := hbatch ▸ hq
          refine (preprocessed_postMessages ops (s.prepare j) hnodup (mem_batch.mpr hq)).placed hstatic hset hd rfl hsize
            (i := 0) ((RdmaConfig.lt_share_iff hq').mpr (by omega)) ?_ ?_ fun i _ hi => ?_
          · rw [hid hq, Nat.zero_mul, Nat.add_zero]
          · rw [(hsends hq).no, hno]
          · exact hinput _ (hi.trans_eq hsize.symm)
      · rw [(hrests hq).posts] at hp
        exact h.posts q p hp
    · rw [hkeeps.current] at hsl
      have helements : (s.prepare j).Elements job numel input result sl s.slices := .begin hsl hset hj hd hsep hsize hinput
      obtain rfl := Option.some.inj hsl
      refine ⟨hkeeps.slices, htotal, hbatch, fun q hq _ => ⟨0, ?_, ?_⟩, fun q hq => ?_,
        helements.congr hkeeps.ppp hkeeps.memory⟩
      · rw [hkeeps.msgIds, hid hq, Nat.zero_mul, Nat.add_zero]
      · rw [(hsends hq).no, hno]
      · have hq' : ¬q.val < (s.prepare j).batchNumMsgs := by
          intro hlt'
          rw [hkeeps.msgIds, hid hlt'] at hq
          refine hq ⟨hlt', lt_of_lt_of_le hlt' ?_⟩
          show (s.prepare j).batchNumMsgs ≤ (s.prepare j).totalNumMsgs
          rw [hbatch, htotal]
          exact hle
        rw [(hrests hq').sendWrs, hno, RdmaConfig.before_succ, RdmaConfig.share_eq_zero (hbatch ▸ hq'), Nat.add_zero]
    · rw [hkeeps.current] at hnone
      cases hnone

theorem postprocessSingle_int32_ppp {p : Ppp K} {mem : Memory} {ltuId : ℕ} {pkt : Packet}
    (hd : p.slice.dataType = .int32) : (p.postprocessSingle ops mem ltuId pkt).1 = p := by
  unfold Ppp.postprocessSingle
  rw [hd]

/-- A message's results are stored. -/
theorem Elements.postprocess (h : s.Elements job numel input result sl k) (hstatic : s.Static) {completion : Completion c}
    (hq : completion.qpn = q) (hlt : s.msgIds q < s.ppp.totalMainNumLtus)
    (hnew : s.msgIds q ∉ sl.postprocessed.map (·.2))
    (hres : ∀ j < c.msgNumel, s.msgIds q * c.msgNumel + j < numel k →
      htonl (s.buffers q j) = result k (s.msgIds q * c.msgNumel + j)) :
    (s.postprocess ops sl completion).Elements job numel input result (s.received q sl) k := by
  subst hq
  have hppp : (s.postprocess ops sl completion).ppp = s.ppp := postprocessSingle_int32_ppp h.dataType
  have hmemory : (s.postprocess ops sl completion).memory = (s.ppp.postprocessSingle ops s.memory (s.msgIds completion.qpn)
      { entries := s.buffers completion.qpn, exponent := extraInfo completion.immData }).2.1 := rfl
  have hltu := hstatic.ltuNumel
  have hmem (i : ℕ) : i / c.msgNumel ∈ (s.received completion.qpn sl).postprocessed.map (·.2) ↔
      i / c.msgNumel ∈ sl.postprocessed.map (·.2) ∨ i / c.msgNumel = s.msgIds completion.qpn := by
    rw [received, List.map_append, List.mem_append, List.map_singleton, List.mem_singleton]
  have hindices (l : ℕ) (hl : l < s.ppp.totalMainNumLtus) (i : ℕ) :
      i ∈ s.ppp.indices l ↔ i < numel k ∧ i / c.msgNumel = l := by
    rw [h.setUp.indices hl, Chunks.mem_chunk h.setUp.ltuNumel_pos, hltu, h.size]
  have hpayload : s.ppp.payloadLtu (s.msgIds completion.qpn) = some (s.msgIds completion.qpn) := by
    unfold Ppp.payloadLtu
    rw [h.dataType]
  constructor <;> rw [hppp]
  · exact h.slice
  · exact h.dataType
  · exact h.size
  · exact h.separate
  · exact h.setUp
  · intro i hi hdone
    rw [hmemory]
    by_cases hid : i / c.msgNumel = s.msgIds completion.qpn
    · have hdiv := Nat.div_add_mod' i c.msgNumel
      have hmod := Nat.mod_lt i c.msgNumel_pos
      rw [hid] at hdiv
      have hprocess : i % c.msgNumel < s.ppp.numelToProcess (s.msgIds completion.qpn) := by
        rw [h.setUp.numelToProcess hlt, hltu, h.size]
        omega
      have hstore : (s.postprocess ops sl completion).memory (s.ppp.slice.outPtr +
            4 * (s.msgIds completion.qpn * s.ppp.ltuNumel + i % c.msgNumel)) =
          htonl (s.buffers completion.qpn (i % c.msgNumel)) :=
        Ppp.postprocessSingle_int32 h.dataType hprocess
      rw [hltu, hdiv] at hstore
      rw [← hmemory, hstore, hres _ hmod (by omega), hdiv]
    · rw [Ppp.postprocessSingle_int32_of_notMem h.dataType fun hin => hid ((hindices _ hlt i).mp hin).2]
      exact h.done i hi (((hmem i).mp hdone).resolve_right hid)
  · intro i hi hleft
    rw [hmem, not_or] at hleft
    have hl : i / c.msgNumel < s.ppp.totalMainNumLtus := by
      rw [h.setUp.lt_iff, hltu, h.size]
      exact (Nat.div_mul_le_self i c.msgNumel).trans_lt hi
    rw [hmemory, Ppp.postprocessSingle_input h.setUp h.separate hl (fun l' hl' => ?_) (fun heq => ?_)
      ((hindices _ hl i).mpr ⟨hi, rfl⟩)]
    · exact h.left i hi hleft.1
    · rw [hpayload, Option.some.injEq] at hl'
      rw [← hl']
      exact hlt
    · rw [hpayload, Option.some.injEq] at heq
      exact hleft.2 heq.symm

/-- The places of the queue pairs after a message of `q` was received. -/
theorem Reducing.received (h : s.Reducing job numel input result sl k) (hbatch : q.val < sl.batchNumMsgs)
    (hlt : s.msgIds q < sl.totalNumMsgs) (hslices : s'.slices = s.slices)
    (hmsgIds : s'.msgIds = Function.update s.msgIds q (s.msgIds q + sl.batchNumMsgs))
    (hother : ∀ p ≠ q, s'.sendWrs p = s.sendWrs p)
    (hno : (s'.sendWrs q).no =
      (s.sendWrs q).no + if s.msgIds q + sl.batchNumMsgs < sl.totalNumMsgs then 1 else 0)
    (helements : s'.Elements job numel input result (s.received q sl) k) :
    s'.Reducing job numel input result (s.received q sl) k := by
  have hself : s'.msgIds q = s.msgIds q + sl.batchNumMsgs := by rw [hmsgIds, Function.update_self]
  have hids {p : c.Qpn} (hp : p ≠ q) : s'.msgIds p = s.msgIds p := by rw [hmsgIds, Function.update_of_ne hp]
  obtain ⟨i, hi, hnum⟩ := h.waiting q hbatch hlt
  refine ⟨hslices.trans h.slices, h.total, h.batch, fun p hp hplt => ?_, fun p hp => ?_, helements⟩
  · by_cases hpq : p = q
    · subst hpq
      have hnext : s.msgIds p + sl.batchNumMsgs < sl.totalNumMsgs := by
        rw [← hself]
        exact hplt
      refine ⟨i + 1, ?_, ?_⟩
      · rw [hself, hi]
        show p.val + i * sl.batchNumMsgs + sl.batchNumMsgs = p.val + (i + 1) * sl.batchNumMsgs
        rw [Nat.succ_mul, Nat.add_assoc]
      · rw [hno, if_pos hnext, hnum]
        rfl
    · rw [hids hpq] at hplt ⊢
      rw [hother p hpq]
      exact h.waiting p hp hplt
  · by_cases hpq : p = q
    · subst hpq
      have hnext : ¬s.msgIds p + sl.batchNumMsgs < sl.totalNumMsgs := fun hlt' => hp ⟨hbatch, by rw [hself]; exact hlt'⟩
      have hshare : c.share (numel k) p = i + 1 := by
        have hbatch' : p.val < c.sliceBatch (numel k) := h.batch ▸ hbatch
        refine RdmaConfig.share_eq hbatch' ?_ ?_ <;> rw [← h.batch, ← h.total, ← hi]
        · exact hlt
        · exact Nat.le_of_not_lt hnext
      rw [hno, if_neg hnext, hnum, RdmaConfig.before_succ, hshare]
      rfl
    · rw [hids hpq] at hp
      rw [hother p hpq]
      exact h.finished p hp

/-- A completion is polled; where it is accepted, the buffer holds the results. -/
theorem Plays.complete (h : s.Plays job numel input result) (hB : s.Bookkeeping) {completion : Completion c}
    (hn : s.next ops (.complete completion) = some s')
    (hres : s.isExpected completion = true → ∀ k, s.slices = k + 1 → ∀ j < c.msgNumel,
      s.msgIds completion.qpn * c.msgNumel + j < numel k →
        htonl (s.buffers completion.qpn j) = result k (s.msgIds completion.qpn * c.msgNumel + j)) :
    s'.Plays job numel input result := by
  cases RdmaWorkerThread.step hn with
  | completed sl _ hs hpos =>
    obtain ⟨l, hl⟩ := hB.loop sl hs
    obtain ⟨k, hk⟩ := h.loop sl hs
    obtain ⟨hbatch, hlt, -⟩ := hl.loop.outstanding_of_recv hpos
    obtain ⟨q, hq⟩ : ∃ q, completion.qpn = q := ⟨_, rfl⟩
    rw [hq] at hbatch hlt hres hpos
    unfold receive
    dsimp only
    have hexp : (s.completeRecvWr completion.qpn).isExpected completion = s.isExpected completion := rfl
    rw [hexp, hq]
    split
    · rename_i hacc
      have hpost := hl.postprocess ops completion hq hpos
      have htotal : s.msgIds q < s.ppp.totalMainNumLtus := by
        rw [hk.elements.setUp.total, hB.static.ltuNumel, hk.elements.size]
        rw [hk.total] at hlt
        exact hlt
      have hcomplete : (s.completeRecvWr q).Elements job numel input result sl k := hk.elements.congr rfl rfl
      have helements : ((s.completeRecvWr q).postprocess ops sl completion).Elements job numel input result
          (s.received q sl) k :=
        hcomplete.postprocess ⟨hB.static.ltuSize, hB.static.batchMaxNumLtus⟩ hq htotal
          (hl.loop.not_mem_postprocessed hbatch) (hres hacc k hk.slices)
      have hmsgIds : ((s.completeRecvWr q).postprocess ops sl completion).msgIds =
          Function.update s.msgIds q (s.msgIds q + sl.batchNumMsgs) := by
        rw [← hq]
        rfl
      have hppp : ((s.completeRecvWr q).postprocess ops sl completion).ppp = s.ppp :=
        postprocessSingle_int32_ppp hk.elements.dataType
      have hself := congrFun hmsgIds q
      rw [Function.update_self] at hself
      obtain ⟨s₁, hs₁⟩ : ∃ s₁, (s.completeRecvWr q).postprocess ops sl completion = s₁ := ⟨_, rfl⟩
      have hslices : s₁.slices = s.slices := by rw [← hs₁]; rfl
      have hsendWrs : s₁.sendWrs = s.sendWrs := by rw [← hs₁]; rfl
      have hposts : s₁.posts = s.posts := by rw [← hs₁]; rfl
      unfold accept
      dsimp only
      rw [hq, hself]
      rw [hs₁] at hpost helements hmsgIds hppp hself ⊢
      by_cases hnext : s.msgIds q + sl.batchNumMsgs < sl.totalNumMsgs
      · rw [if_pos hnext]
        rw [if_pos hnext] at hpost
        have hsends : Sends s₁ (s₁.postMessage ops q) q := sends_postMessage s₁ q
        have hrests {p : c.Qpn} (hp : p ≠ q) : Rests s₁ (s₁.postMessage ops q) p := rests_postMessage s₁ hp
        have hreducing : (s₁.postMessage ops q).Reducing job numel input result (s.received q sl) k := by
          refine hk.received hbatch hlt hslices hmsgIds (fun p hp => ?_) ?_ (helements.congr rfl rfl)
          · rw [(hrests hp).sendWrs, hsendWrs]
          · rw [if_pos hnext, hsends.no, hsendWrs]
        obtain ⟨i, hi, hno⟩ := hreducing.waiting q hbatch (hself.trans_lt hnext)
        have hi : s₁.msgIds q = q + i * c.sliceBatch (numel k) := by
          rw [← hk.batch]
          exact hi
        refine .of_reducing hpost.current (fun p b hb => ?_) hreducing
        by_cases hp : p = q
        · subst hp
          rw [hsends.posts, hposts, List.mem_append, List.mem_singleton] at hb
          rcases hb with hb | rfl
          · exact h.posts p b hb
          · have hpre : Preprocessed ops s₁ (s₁.postMessage ops p) p := preprocessed_postMessage s₁ p
            have hstatic : s₁.Static :=
              ⟨by rw [hppp]; exact hB.static.ltuSize, by rw [hppp]; exact hB.static.batchMaxNumLtus⟩
            refine hpre.placed hstatic helements.setUp helements.dataType (hslices.trans hk.slices) helements.size ?_ hi hno
              fun j hj hjlt => helements.left _ hjlt ?_
            · rw [RdmaConfig.lt_share_iff (hk.batch ▸ hbatch), ← hi, hself, ← hk.total]
              exact hnext
            · rw [Nat.mul_comm, Nat.mul_add_div c.msgNumel_pos, Nat.div_eq_of_lt hj, Nat.add_zero]
              exact hpost.loop.not_mem_postprocessed hbatch
        · rw [(hrests hp).posts, hposts] at hb
          exact h.posts p b hb
      · rw [if_neg hnext]
        have hreducing : s₁.Reducing job numel input result (s.received q sl) k := by
          refine hk.received hbatch hlt hslices hmsgIds (fun p _ => congrFun hsendWrs p) ?_ helements
          rw [if_neg hnext, hsendWrs]
          rfl
        exact .of_reducing hpost.current (hposts ▸ h.posts) hreducing
    · refine h.congr ⟨rfl, rfl, rfl, rfl, rfl, rfl⟩ (fun _ => rfl) fun _ _ hp => .inl hp

/-- The current request is posted again. -/
theorem Plays.checkTimeouts (h : s.Plays job numel input result) (hB : s.Bookkeeping)
    (hn : s.next ops .checkTimeouts = some s') : s'.Plays job numel input result := by
  have hchecks := hB.checks hn
  cases RdmaWorkerThread.step hn with
  | checked sl hs =>
    refine h.congr (keeps_checkTimeouts ops s) (fun q => ?_) fun q p hp => ?_
    · exact (hchecks q).elim (·.sendWrs) (·.2.sendWrs)
    · rcases hchecks q with hrests | ⟨hne, hre⟩
      · rw [hrests.posts] at hp
        exact .inl hp
      · rw [hre.posts, List.mem_append, List.mem_singleton] at hp
        refine hp.imp_right fun hp => ⟨_, List.getLast_mem hne, ?_⟩
        rw [hp, hB.last_post (List.getLast?_eq_some_getLast hne)]

/-- All messages of the slice have been postprocessed, or the context has stopped. -/
theorem Plays.finish (h : s.Plays job numel input result) (hB : s.Bookkeeping) (hn : s.next ops .finish = some s') :
    s'.Plays job numel input result := by
  cases RdmaWorkerThread.step hn with
  | finished sl hs hend =>
    obtain ⟨l, hl⟩ := hB.loop sl hs
    obtain ⟨k, hk⟩ := h.loop sl hs
    refine ⟨h.posts, (fun _ hs' => by cases hs'), fun _ hrun q => ?_⟩
    have hall := hl.loop.ends_iff.mp fun hlt => hend ⟨hlt, hrun⟩
    have hfin := hk.finished q fun hwait => Nat.not_lt_of_ge (hall q hwait.1) hwait.2
    show (s.sendWrs q).no = c.before numel q s.slices
    rw [hfin, hk.slices]

/-- Memory is written that is not the slice's. -/
theorem Elements.store (h : s.Elements job numel input result sl k) (hs : s.current = some sl) {addr : ℕ} {w : Word}
    (hreads : ¬s.reads addr) (hout : ∀ i < s.ppp.slice.numel, addr ≠ s.ppp.slice.outPtr + 4 * i) :
    ({ s with memory := Function.update s.memory addr w } : RdmaWorkerThread c K).Elements job numel input result sl k where
  slice := h.slice
  dataType := h.dataType
  size := h.size
  separate := h.separate
  setUp := h.setUp
  done i hi hdone := by
    have hne := (hout i (hi.trans_eq h.size.symm)).symm
    exact (Function.update_of_ne hne ..).trans (h.done i hi hdone)
  left i hi hleft := by
    have hne : s.ppp.slice.inPtr + 4 * i ≠ addr := by
      intro heq
      refine hreads ⟨by rw [hs]; rfl, ?_, ?_⟩
      · omega
      · rw [h.size]
        omega
    exact (Function.update_of_ne hne ..).trans (h.left i hi hleft)

/-- Every step keeps what the thread makes of its slices; an accepted completion
has to come with the results. -/
theorem Plays.step (h : s.Plays job numel input result) (hB : s.Bookkeeping) {e : Event c} (hn : s.next ops e = some s')
    (hjobs : ∀ k, (job k).slice.dataType = .int32 ∧ (job k).slice.numel = numel k ∧ (job k).slice.Separate)
    (hkeeps : keepsBuffers job input s e = true)
    (hres : ∀ completion, e = .complete completion → s.isExpected completion = true → ∀ k, s.slices = k + 1 →
      ∀ j < c.msgNumel, s.msgIds completion.qpn * c.msgNumel + j < numel k →
        htonl (s.buffers completion.qpn j) = result k (s.msgIds completion.qpn * c.msgNumel + j)) :
    s'.Plays job numel input result := by
  cases e with
  | begin j =>
    simp only [keepsBuffers, Bool.and_eq_true, decide_eq_true_eq] at hkeeps
    obtain ⟨rfl, hinput⟩ := hkeeps
    obtain ⟨hd, hsize, hsep⟩ := hjobs s.slices
    exact h.begin hB hn rfl hd hsep hsize hinput
  | complete completion => exact h.complete hB hn (hres completion rfl)
  | checkTimeouts => exact h.checkTimeouts hB hn
  | finish => exact h.finish hB hn
  | stop =>
    cases RdmaWorkerThread.step hn
    refine ⟨h.posts, fun sl hs => ?_, fun _ hrun => by cases hrun⟩
    obtain ⟨k, hk⟩ := h.loop sl hs
    exact ⟨k, hk.slices, hk.total, hk.batch, hk.waiting, hk.finished, hk.elements.congr rfl rfl⟩
  | tick nanoseconds =>
    cases RdmaWorkerThread.step hn
    exact h.congr ⟨rfl, rfl, rfl, rfl, rfl, rfl⟩ (fun _ => rfl) fun _ _ hp => .inl hp
  | write p words =>
    cases RdmaWorkerThread.step hn
    exact h.congr ⟨rfl, rfl, rfl, rfl, rfl, rfl⟩ (fun _ => rfl) fun _ _ hp => .inl hp
  | store addr w =>
    cases RdmaWorkerThread.step hn with
    | stored _ _ hreads =>
      refine ⟨h.posts, fun sl hs => ?_, h.rest⟩
      obtain ⟨k, hk⟩ := h.loop sl hs
      simp only [keepsBuffers, Bool.or_eq_true, decide_eq_true_eq] at hkeeps
      have hout := hkeeps.resolve_left fun hnone => by
        rw [hs] at hnone
        cases hnone
      exact ⟨k, hk.slices, hk.total, hk.batch, hk.waiting, hk.finished, hk.elements.store hs hreads hout⟩

theorem Plays.init (memory : Memory) (buffers : c.Qpn → ℕ → Word) :
    (new c memory buffers : RdmaWorkerThread c K).Plays job numel input result where
  posts _ _ hp := by cases hp
  loop _ hs := by cases hs
  rest _ _ q := (c.before_zero numel q).symm

/-- When the loop has ended by count, the output is the result. -/
theorem Plays.output (h : s.Plays job numel input result) (hB : s.Bookkeeping) (hs : s.current = some sl)
    (hend : ¬sl.numReceivedMsgs < sl.totalNumMsgs) : ∃ k, s.slices = k + 1 ∧
      ∀ i < numel k, s.memory ((job k).slice.outPtr + 4 * i) = result k i := by
  obtain ⟨l, hl⟩ := hB.loop sl hs
  obtain ⟨k, hk⟩ := h.loop sl hs
  refine ⟨k, hk.slices, fun i hi => ?_⟩
  rw [← hk.elements.slice]
  refine hk.elements.done i hi ?_
  have hlt : i / c.msgNumel < sl.totalNumMsgs := by
    rw [hk.total]
    exact (Chunks.lt_count_iff c.msgNumel_pos).mpr ((Nat.div_mul_le_self i c.msgNumel).trans_lt hi)
  have hmod := Nat.mod_lt (i / c.msgNumel) hl.loop.batch_pos
  let q : c.Qpn := ⟨i / c.msgNumel % sl.batchNumMsgs, hmod.trans_le hl.loop.batch_le⟩
  have hmem : (q, i / c.msgNumel) ∈ sl.postprocessed :=
    hl.loop.mem_postprocessed.mpr ⟨hmod, rfl, hlt.trans_le (hl.loop.ends_iff.mp hend q hmod)⟩
  exact List.mem_map.mpr ⟨_, hmem, rfl⟩

end RdmaWorkerThread

end SwitchML.Client
