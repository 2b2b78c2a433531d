/-
What an RDMA session request leaves behind. The controller adds the receiver's
entries, the sender's and the multicast node one after the other and does not
take back what it has added when a later step fails. The sender's own failure is
not even looked at: the request then succeeds with no entries for its queue
pairs. And the switch keeps its per-queue-pair state in a register that is indexed
with nine bits of the queue pair number, of which the response may use sixteen.
-/
import SwitchML.Controller.ResponseStreams
import Mathlib.Data.List.Nodup
import Mathlib.Data.List.TakeWhile

namespace SwitchML.Controller

open P4 Tna

/-! ## Register cells -/

theorem switchQpn_toNat {rank index : ℕ} (hr : rank < 32) (hi : index < 2 ^ 16) :
    (switchQpn rank index).toNat = 2 ^ 23 + rank * 2 ^ 16 + index := by
  change (0x800000#24 ||| (BitVec.ofNat 24 rank <<< 16) ||| BitVec.ofNat 24 index).toNat = _
  have hrank : (BitVec.ofNat 24 rank <<< 16).toNat = rank * 2 ^ 16 := by
    rw [BitVec.toNat_shiftLeft, BitVec.toNat_ofNat, Nat.shiftLeft_eq, Nat.mod_eq_of_lt (a := rank) (by omega),
      Nat.mod_eq_of_lt (by omega)]
  have hindex : (BitVec.ofNat 24 index).toNat = index := by
    rw [BitVec.toNat_ofNat, Nat.mod_eq_of_lt (by omega)]
  have htop : (0x800000#24).toNat = 2 ^ 23 * 1 := rfl
  -- the three parts have no bit in common
  have hhigh := Nat.two_pow_add_eq_or_of_lt (i := 23) (b := rank * 2 ^ 16) (by omega) 1
  have hlow := Nat.two_pow_add_eq_or_of_lt (i := 16) hi (2 ^ 7 + rank)
  have hsum : 2 ^ 23 * 1 + rank * 2 ^ 16 = 2 ^ 16 * (2 ^ 7 + rank) := by omega
  have hval : 2 ^ 16 * (2 ^ 7 + rank) + index = 2 ^ 23 + rank * 2 ^ 16 + index := by omega
  refine Eq.trans ?_ hval
  rw [BitVec.toNat_or, BitVec.toNat_or, hrank, hindex, htop, ← hhigh, hsum, ← hlow]

/-- The cell of a queue pair in the receiver's registers. -/
theorem qpIndex_switchQpn {rank index : ℕ} (hr : rank < 32) (hi : index < 2 ^ 16) :
    (qpIndex (switchQpn rank index)).toNat = rank * 512 + index % 512 := by
  rw [qpIndex, BitVec.toNat_append, BitVec.extractLsb'_toNat, BitVec.extractLsb'_toNat, switchQpn_toNat hr hi,
    Nat.shiftRight_zero, Nat.shiftRight_eq_div_pow, ← Nat.shiftLeft_add_eq_or_of_lt (by omega), Nat.shiftLeft_eq]
  omega

/-! ## The setup of a session -/

/-- The data plane that a request which succeeded has to find: the egress tables
have an entry for the worker and one for each of its queue pairs, which matches
all pool indices of the queue pair, and no two queue pairs of the session share a
cell. The other workers may have any queue pairs that the response has bits for. -/
structure Usable (c : Ctrl) (req : SessionRequest) (packetsPerMessage : ℕ) : Prop where
  create : ⟨req.rank, BitVec.ofNat 48 req.mac, req.ipv4, req.rkey⟩ ∈ c.createRocePacket
  fillIn : ∀ i qpn, req.qpns[i]? = some qpn → ∃ e, (c.queuePairEntries req.rank)[i]? = some e ∧ e.qpn = qpn ∧
    ∀ k : PoolIndex, k.toNat / (packetsPerMessage * 2) = i → e.poolIndex.hits k = true
  cells : ∀ i < req.qpns.length, ∀ rank' < 32, ∀ i' < (if rank' = req.rank then req.qpns.length else 2 ^ 16),
    (rank', i') ≠ (req.rank, i) → qpIndex (switchQpn rank' i') ≠ qpIndex (switchQpn req.rank i)

/-- The state of the receivers, the senders and the multicast groups. -/
structure SameTables (c c' : Ctrl) : Prop where
  receiveUdp : c'.receiveUdp = c.receiveUdp
  receiveRoce : c'.receiveRoce = c.receiveRoce
  dstAddr : c'.dstAddr = c.dstAddr
  createRocePacket : c'.createRocePacket = c.createRocePacket
  fillInQpnAndPsn : c'.fillInQpnAndPsn = c.fillInQpnAndPsn
  multicastGroup : c'.multicastGroup = c.multicastGroup
  multicastNodes : c'.multicastNodes = c.multicastNodes

/-- A request sets up a usable data plane or changes nothing. -/
structure SetsUp (c : Ctrl) (req : SessionRequest) : Prop where
  success : (rdmaSession req c).1 = .success → Usable (rdmaSession req c).2 req (packetsPerMessage c req)
  error : (rdmaSession req c).1 ≠ .success → SameTables c (rdmaSession req c).2

/-! ## The condition -/

/-- The controller turns the request down before it adds anything. -/
def TurnedDown (c : Ctrl) (req : SessionRequest) : Prop :=
  32 ≤ req.rank ∨ 32 < req.numWorkers ∨ c.getDevPort req.mac = none ∨ c.switchMacAndIp = none

instance (c : Ctrl) (req : SessionRequest) : Decidable (TurnedDown c req) :=
  inferInstanceAs (Decidable (_ ∨ _ ∨ _ ∨ _))

/-- There is nothing for the first worker's request to clear. -/
structure NoSession (c : Ctrl) : Prop where
  receiveRoce : c.receiveRoce = []
  createRocePacket : c.createRocePacket = []
  fillInQpnAndPsn : c.fillInQpnAndPsn = []
  multicastGroup : c.multicastGroup = none

/-- The pool indices of the queue pairs have 15 bits. -/
def IndicesFit (req : SessionRequest) (packetsPerMessage : ℕ) : Prop :=
  ∀ i < (req.qpns.zip req.psns).length, i * packetsPerMessage * 2 < 2 ^ 15

/-- The worker's node is in the group, or there is none with its ID. -/
def NodeFree (c : Ctrl) (rank : ℕ) : Prop :=
  rank ∈ (c.multicastGroup.getD []).map (·.1) ∨ rank ∉ c.multicastNodes

/-- No step after the receiver's fails. -/
structure Addable (c : Ctrl) (req : SessionRequest) (packetsPerMessage : ℕ) : Prop where
  indices : packetsPerMessage.isPowerOfTwo → IndicesFit req packetsPerMessage
  node : NodeFree c req.rank

/-- The sizes with which each queue pair gets its own entry and cell. -/
structure GoodSizes (req : SessionRequest) (packetsPerMessage : ℕ) : Prop where
  power : packetsPerMessage.isPowerOfTwo
  psns : req.qpns.length ≤ req.psns.length
  cells : req.qpns.length ≤ 512

/-- The tables hold no more than the entries of an earlier request of the first
worker, of the same contents, that failed at the same place. -/
structure LeftBehind (c : Ctrl) (req : SessionRequest) (switchIp : BitVec 32) (packetsPerMessage : ℕ) : Prop where
  receiveRoce : c.receiveRoce = roceActions.map (roceEntry switchIp (sizedRequest c req))
  createRocePacket : c.createRocePacket = [⟨req.rank, BitVec.ofNat 48 req.mac, req.ipv4, req.rkey⟩]
  fillIn_power : packetsPerMessage.isPowerOfTwo → c.fillInQpnAndPsn.map some =
    ((req.qpns.zip req.psns).mapIdx (fillInEntry req.rank packetsPerMessage)).takeWhile Option.isSome
  fillIn_other : ¬ packetsPerMessage.isPowerOfTwo → c.fillInQpnAndPsn = []
  group_indices : ¬ (packetsPerMessage.isPowerOfTwo → IndicesFit req packetsPerMessage) → c.multicastGroup = none
  group_node : (packetsPerMessage.isPowerOfTwo → IndicesFit req packetsPerMessage) → c.multicastGroup = some []

/-- The keys of the six entries of the receiver. -/
def roceKeys (c : Ctrl) (req : SessionRequest) (switchIp : BitVec 32) : List RoceKey :=
  roceActions.map fun a => roceKey (roceEntry switchIp (sizedRequest c req) a)

/-- The condition on the state and the request, past the checks. -/
def SoundRequest (c : Ctrl) (req : SessionRequest) (switchIp : BitVec 32) : Prop :=
  let start := sessionStart c req
  let known := start.receiveRoce.map roceKey
  (∃ key ∈ (roceKeys c req switchIp).head?, key ∈ known) ∨
    ((∀ key ∈ roceKeys c req switchIp, key ∉ known) ∧ req.rank ∉ start.createRocePacket.map (·.workerId) ∧
      ((Addable start req (packetsPerMessage c req) ∧ (req.qpns = [] ∨ GoodSizes req (packetsPerMessage c req))) ∨
        (¬ Addable start req (packetsPerMessage c req) ∧ req.rank = 0 ∧
          LeftBehind c req switchIp (packetsPerMessage c req))))

/-- The condition under which a request sets up a usable data plane or changes
nothing. -/
def SetupCondition (c : Ctrl) (req : SessionRequest) : Prop :=
  if TurnedDown c req then req.rank ≠ 0 ∨ NoSession c
  else ∃ switchIp ∈ c.switchMacAndIp.map (·.2), SoundRequest c req switchIp

/-! ## The steps of a request -/

variable {c : Ctrl} {req : SessionRequest} {P : ℕ}

theorem sessionStart_getDevPort (c : Ctrl) (req : SessionRequest) (mac : ℕ) :
    (sessionStart c req).getDevPort mac = c.getDevPort mac := by
  unfold sessionStart
  split <;> rfl

theorem sessionStart_switchMacAndIp (c : Ctrl) (req : SessionRequest) :
    (sessionStart c req).switchMacAndIp = c.switchMacAndIp := by
  unfold sessionStart
  split <;> rfl

/-- The tables that the session's entries are in are the same, or have been cleared. -/
theorem sessionStart_of_rank (h : req.rank ≠ 0) : sessionStart c req = c := if_neg h

theorem rdmaReceiverAdd_no_address (h : c.switchMacAndIp = none) :
    rdmaReceiverAdd req c = (.failure "No switch address", c) := by
  rw [rdmaReceiverAdd, h]

theorem rdmaSession_turnedDown (h : TurnedDown c req) :
    (rdmaSession req c).1 ≠ .success ∧ (rdmaSession req c).2 = sessionStart c req := by
  rw [rdmaSession_eq, addRdmaWorker, addWorker]
  have hrank : (sizedRequest c req).rank = req.rank := rfl
  have hnum : (sizedRequest c req).numWorkers = req.numWorkers := rfl
  have hmac : (sizedRequest c req).mac = req.mac := rfl
  rw [hrank, hnum, hmac, sessionStart_getDevPort]
  split
  · exact ⟨fun h => (by cases h), rfl⟩
  split
  · exact ⟨fun h => (by cases h), rfl⟩
  rename_i hr hn
  rcases h with h | h | h | h
  · exact absurd h hr
  · exact absurd h hn
  · rw [h]
    exact ⟨fun h => (by cases h), rfl⟩
  · rw [← sessionStart_switchMacAndIp c req] at h
    split
    · exact ⟨fun h => (by cases h), rfl⟩
    · rw [rdmaReceiverAdd_no_address h]
      exact ⟨fun h => (by cases h), rfl⟩

theorem rdmaSession_admitted (h : ¬ TurnedDown c req) : ∃ port mac ip, c.switchMacAndIp = some (mac, ip) ∧
    rdmaSession req c =
      andThen (andThen (rdmaReceiverAdd (sizedRequest c req) (sessionStart c req))
        fun c' => ignoreResult (rdmaSenderAdd (sizedRequest c req) c')) (addMulticastNode req.rank port) := by
  unfold TurnedDown at h
  rw [not_or, not_or, not_or] at h
  obtain ⟨hrank, hnum, hport, hswitch⟩ := h
  obtain ⟨port, hport⟩ := Option.ne_none_iff_exists'.mp hport
  obtain ⟨⟨mac, ip⟩, hswitch⟩ := Option.ne_none_iff_exists'.mp hswitch
  refine ⟨port, mac, ip, hswitch, ?_⟩
  have hport' : (sessionStart c req).getDevPort (sizedRequest c req).mac = some port :=
    (sessionStart_getDevPort c req _).trans hport
  rw [rdmaSession_eq, addRdmaWorker, addWorker, if_neg (show ¬ 32 ≤ (sizedRequest c req).rank from hrank),
    if_neg (show ¬ 32 < (sizedRequest c req).numWorkers from hnum), hport']
  rfl

/-- The entries of different queue pairs have different keys. -/
theorem fillInEntry_keys_nodup (rank : ℕ) (hP : 0 < P) (qps : List (BitVec 24 × BitVec 32)) :
    (((qps.mapIdx (fillInEntry rank P)).filterMap id).map fun e => (e.workerId, e.poolIndex)).Nodup := by
  rw [List.Nodup, List.pairwise_map, List.pairwise_filterMap, List.pairwise_iff_getElem]
  intro i j hi hj hlt e he e' he' heq
  rw [List.getElem_mapIdx] at he he'
  unfold fillInEntry at he he'
  simp only [id_eq, Option.ite_none_right_eq_some, Option.some.injEq] at he he'
  obtain ⟨hfit, rfl⟩ := he
  obtain ⟨hfit', rfl⟩ := he'
  have hvalue := congrArg BitVec.toNat (congrArg (fun k => k.2.value) heq)
  dsimp only at hvalue
  rw [BitVec.toNat_ofNat, BitVec.toNat_ofNat, Nat.mod_eq_of_lt hfit, Nat.mod_eq_of_lt hfit'] at hvalue
  have hmul : i * P = j * P := by omega
  exact hlt.ne (Nat.eq_of_mul_eq_mul_right hP hmul)

theorem fillInEntry_all_isSome (req : SessionRequest) (P : ℕ) :
    ((req.qpns.zip req.psns).mapIdx (fillInEntry req.rank P)).all Option.isSome = true ↔ IndicesFit req P := by
  rw [List.all_eq_true, IndicesFit]
  constructor
  · intro h i hi
    have hmem := h _ (List.getElem_mem (n := i) (by rw [List.length_mapIdx]; exact hi))
    rw [List.getElem_mapIdx, fillInEntry] at hmem
    by_contra hge
    rw [if_neg hge] at hmem
    cases hmem
  · intro h e he
    obtain ⟨i, hi, rfl⟩ := List.mem_mapIdx.mp he
    rw [fillInEntry, if_pos (h i hi)]
    rfl

/-- A worker that the sender knows. -/
theorem rdmaSenderAdd_known (h : req.rank ∈ c.createRocePacket.map (·.workerId)) :
    rdmaSenderAdd req c = (.exception, c) := by
  have hadd : entryAdd (·.workerId) c.createRocePacket
      [some (⟨req.rank, BitVec.ofNat 48 req.mac, req.ipv4, req.rkey⟩ : CreateRocePacketEntry)] =
        (false, c.createRocePacket) := by
    rw [entryAdd, if_pos h]
  rw [rdmaSenderAdd, hadd]
  rfl

/-- What the sender does for a worker it does not know. -/
theorem rdmaSenderAdd_new (req : SessionRequest) (hcreate : req.rank ∉ c.createRocePacket.map (·.workerId))
    (hfill : c.queuePairEntries req.rank = []) (hP : req.messageSize / packetBytes req.packetSize = P) :
    ∃ new, (rdmaSenderAdd req c).2 = { c with
        createRocePacket := c.createRocePacket ++ [⟨req.rank, BitVec.ofNat 48 req.mac, req.ipv4, req.rkey⟩]
        fillInQpnAndPsn := c.fillInQpnAndPsn ++ new } ∧
      (P.isPowerOfTwo → new.map some =
        ((req.qpns.zip req.psns).mapIdx (fillInEntry req.rank P)).takeWhile Option.isSome) ∧
      (¬ P.isPowerOfTwo → new = []) ∧
      ((rdmaSenderAdd req c).1 ≠ .exception ↔ (P.isPowerOfTwo → IndicesFit req P)) := by
  have hadd : entryAdd (·.workerId) c.createRocePacket
      [some (⟨req.rank, BitVec.ofNat 48 req.mac, req.ipv4, req.rkey⟩ : CreateRocePacketEntry)] =
        (true, c.createRocePacket ++ [⟨req.rank, BitVec.ofNat 48 req.mac, req.ipv4, req.rkey⟩]) := by
    rw [entryAdd, if_neg hcreate]
    rfl
  unfold rdmaSenderAdd
  rw [hadd, hP]
  dsimp only
  rw [if_neg (by simp)]
  by_cases hpow : P.isPowerOfTwo
  · obtain ⟨hne, hand⟩ := Nat.ne_zero_and_sub_one_eq_zero_iff_isPowerOfTwo.mpr hpow
    have hgood : ¬(P &&& (P - 1) ≠ 0 ∨ P = 0) := by
      rw [not_or, not_not]
      exact ⟨hand, hne⟩
    rw [if_neg hgood]
    -- no entry of the worker is there yet
    have hfresh : ∀ e ∈ ((req.qpns.zip req.psns).mapIdx (fillInEntry req.rank P)).filterMap id,
        (e.workerId, e.poolIndex) ∉ c.fillInQpnAndPsn.map fun e => (e.workerId, e.poolIndex) := by
      intro e he hm
      obtain ⟨e', he', heq⟩ := List.mem_map.mp hm
      rw [List.mem_filterMap] at he
      obtain ⟨o, ho, rfl⟩ := he
      obtain ⟨i, hi, hentry⟩ := List.mem_mapIdx.mp ho
      have hid : e'.workerId = req.rank := (congrArg Prod.fst heq).trans (fillInEntry_eq_some hentry).2.1
      have hmem : e' ∈ c.queuePairEntries req.rank := List.mem_filter.mpr ⟨he', decide_eq_true hid⟩
      rw [hfill] at hmem
      cases hmem
    obtain ⟨new, hnew, htake⟩ := entryAdd_fresh (fillInEntry_keys_nodup req.rank (Nat.pos_of_ne_zero hne) _) hfresh
    rw [hnew]
    refine ⟨new, rfl, fun _ => htake, fun h => absurd hpow h, ?_⟩
    have hall := fillInEntry_all_isSome req P
    cases hb : ((req.qpns.zip req.psns).mapIdx (fillInEntry req.rank P)).all Option.isSome with
    | true => exact ⟨fun _ _ => hall.mp hb, fun _ h => (by cases h)⟩
    | false =>
      refine ⟨fun h => absurd rfl h, fun h => ?_⟩
      rw [hall.mpr (h hpow)] at hb
      cases hb
  · have hbad : P &&& (P - 1) ≠ 0 ∨ P = 0 := by
      by_contra h
      rw [not_or, not_not] at h
      exact hpow (Nat.ne_zero_and_sub_one_eq_zero_iff_isPowerOfTwo.mp ⟨h.2, h.1⟩)
    rw [if_pos hbad]
    refine ⟨[], ?_, fun h => absurd h hpow, fun _ => rfl, ⟨fun _ h => absurd h hpow, fun _ h => (by cases h)⟩⟩
    rw [List.append_nil]

/-- A worker that is not in the group with another port is not moved. -/
theorem removeMoved_of_nodeFree_not {rank : ℕ} (port : PortId)
    (h : rank ∉ (c.multicastGroup.getD []).map (·.1)) :
    removeMoved rank port c = { c with multicastGroup := some (c.multicastGroup.getD []) } := by
  rw [removeMoved, if_neg]
  intro hany
  obtain ⟨e, he, hmoved⟩ := List.any_eq_true.mp hany
  rw [Bool.and_eq_true, decide_eq_true_eq] at hmoved
  exact h (List.mem_map.mpr ⟨e, he, hmoved.1⟩)

theorem nodeFree_removeMoved (rank : ℕ) (port : PortId) (c : Ctrl) :
    NodeFree (removeMoved rank port c) rank ↔ NodeFree c rank := by
  unfold removeMoved
  dsimp only
  split
  · rename_i hany
    obtain ⟨e, he, hmoved⟩ := List.any_eq_true.mp hany
    rw [Bool.and_eq_true, decide_eq_true_eq] at hmoved
    exact iff_of_true (.inr (by simp)) (.inl (List.mem_map.mpr ⟨e, he, hmoved.1⟩))
  · exact Iff.rfl

/-- The node is added, unless there is one with the worker's ID outside the group. -/
theorem addMulticastNode_success (rank : ℕ) (port : PortId) (c : Ctrl) :
    (addMulticastNode rank port c).1 = .success ↔ NodeFree c rank := by
  rw [← nodeFree_removeMoved rank port c]
  unfold addMulticastNode
  dsimp only
  generalize removeMoved rank port c = c'
  unfold NodeFree
  split
  · rename_i hmem
    exact iff_of_true rfl (.inl hmem)
  · rename_i hmem
    split
    · rename_i hnode
      exact iff_of_false (fun h => by cases h) fun h => h.elim hmem fun h => h hnode
    · rename_i hnode
      exact iff_of_true rfl (.inr hnode)

/-- Then only the group has been made. -/
theorem addMulticastNode_failure {rank : ℕ} (port : PortId) (h : ¬ NodeFree c rank) :
    (addMulticastNode rank port c).2 = { c with multicastGroup := some (c.multicastGroup.getD []) } := by
  unfold NodeFree at h
  rw [not_or, not_not] at h
  unfold addMulticastNode
  rw [removeMoved_of_nodeFree_not port h.1]
  dsimp only
  rw [Option.getD_some, if_neg h.1, if_pos h.2]

/-! ## The receiver's entries -/

theorem roceKeys_nodup (c : Ctrl) (req : SessionRequest) (switchIp : BitVec 32) : (roceKeys c req switchIp).Nodup := by
  refine List.Nodup.of_map RoceKey.opcode ?_
  rw [roceKeys, List.map_map]
  exact (by decide : (roceActions.map (·.1)).Nodup)

variable {mac : BitVec 48} {ip : BitVec 32}

/-- The first entry is there already. -/
theorem rdmaReceiverAdd_known (hswitch : c.switchMacAndIp = some (mac, ip)) {keys : Ctrl}
    (h : ∃ key ∈ (roceKeys keys req ip).head?, key ∈ c.receiveRoce.map roceKey) :
    rdmaReceiverAdd (sizedRequest keys req) c = (.exception, c) := by
  obtain ⟨key, hkey, hknown⟩ := h
  rw [roceKeys, roceActions, List.map_cons, List.head?_cons, Option.mem_some_iff] at hkey
  unfold rdmaReceiverAdd
  split
  · rename_i hnone
    rw [hswitch] at hnone
    cases hnone
  · rename_i hsome
    rw [hswitch] at hsome
    cases hsome
    rw [roceActions, List.map_cons, entryAdd, hkey, if_pos hknown]
    rfl

/-- All of them are new. -/
theorem rdmaReceiverAdd_new (hswitch : c.switchMacAndIp = some (mac, ip)) {keys : Ctrl}
    (h : ∀ key ∈ roceKeys keys req ip, key ∉ c.receiveRoce.map roceKey) :
    rdmaReceiverAdd (sizedRequest keys req) c = (.success, { c with
      receiveRoce := c.receiveRoce ++ roceActions.map (roceEntry ip (sizedRequest keys req)) }) := by
  have hadd : entryAdd roceKey c.receiveRoce ((roceActions.map (roceEntry ip (sizedRequest keys req))).map some) =
      (true, c.receiveRoce ++ roceActions.map (roceEntry ip (sizedRequest keys req))) := by
    refine entryAdd_map_some ?_ fun e he => h _ ?_
    · rw [List.map_map]
      exact roceKeys_nodup keys req ip
    · obtain ⟨a, ha, rfl⟩ := List.mem_map.mp he
      exact List.mem_map_of_mem ha
  rw [List.map_map] at hadd
  unfold rdmaReceiverAdd
  split
  · rename_i hnone
    rw [hswitch] at hnone
    cases hnone
  · rename_i hsome
    rw [hswitch] at hsome
    cases hsome
    rw [show (roceActions.map fun a => some (roceEntry ip (sizedRequest keys req) a)) =
      roceActions.map (some ∘ roceEntry ip (sizedRequest keys req)) from rfl, hadd]
    rfl

/-- Some of them are new, the first one among these. -/
theorem rdmaReceiverAdd_partly (hswitch : c.switchMacAndIp = some (mac, ip)) {keys : Ctrl}
    (hfirst : ¬ ∃ key ∈ (roceKeys keys req ip).head?, key ∈ c.receiveRoce.map roceKey)
    (hsome : ∃ key ∈ roceKeys keys req ip, key ∈ c.receiveRoce.map roceKey) :
    ∃ new, new ≠ [] ∧ rdmaReceiverAdd (sizedRequest keys req) c =
      (.exception, { c with receiveRoce := c.receiveRoce ++ new }) := by
  obtain ⟨new, hadd, -⟩ := entryAdd_append roceKey
    (roceActions.map fun a => some (roceEntry ip (sizedRequest keys req) a)) c.receiveRoce
  have hfalse : (entryAdd roceKey c.receiveRoce
      (roceActions.map fun a => some (roceEntry ip (sizedRequest keys req) a))).1 = false := by
    rw [← Bool.not_eq_true, entryAdd_true_iff]
    rintro ⟨all, hall, -, hfresh⟩
    obtain ⟨key, hkey, hknown⟩ := hsome
    obtain ⟨a, ha, rfl⟩ := List.mem_map.mp hkey
    have hmem : some (roceEntry ip (sizedRequest keys req) a) ∈ all.map some := by
      rw [← hall]
      exact List.mem_map_of_mem ha
    obtain ⟨e, he, heq⟩ := List.mem_map.mp hmem
    rw [Option.some.injEq] at heq
    rw [← heq] at hknown
    exact hfresh e he hknown
  have hnew : new ≠ [] := by
    rintro rfl
    rw [List.append_nil, roceActions, List.map_cons] at hadd
    exact entryAdd_cons_ne (fun hknown => hfirst ⟨_, rfl, hknown⟩) hadd
  refine ⟨new, hnew, ?_⟩
  unfold rdmaReceiverAdd
  split
  · rename_i hnone
    rw [hswitch] at hnone
    cases hnone
  · rename_i hsome
    rw [hswitch] at hsome
    cases hsome
    dsimp only
    rw [hadd, hfalse]
    rfl

/-! ## The tables afterwards -/

theorem SameTables.refl (c : Ctrl) : SameTables c c := ⟨rfl, rfl, rfl, rfl, rfl, rfl, rfl⟩

theorem not_sameTables {c' : Ctrl} {new : List RoceEntry} (hne : new ≠ [])
    (h : c'.receiveRoce = c.receiveRoce ++ new) : ¬ SameTables c c' := by
  intro hsame
  rw [hsame.receiveRoce, List.self_eq_append_right] at h
  exact hne h

theorem sameTables_sessionStart (c : Ctrl) (req : SessionRequest) :
    SameTables c (sessionStart c req) ↔ req.rank ≠ 0 ∨ NoSession c := by
  by_cases hrank : req.rank = 0
  · rw [sessionStart, if_pos hrank, or_iff_right (not_not.mpr hrank)]
    constructor
    · intro h
      exact ⟨h.receiveRoce.symm, h.createRocePacket.symm, h.fillInQpnAndPsn.symm, h.multicastGroup.symm⟩
    · intro h
      refine ⟨rfl, h.receiveRoce.symm, rfl, h.createRocePacket.symm, h.fillInQpnAndPsn.symm,
        h.multicastGroup.symm, ?_⟩
      simp [clearRdmaWorkers, clearMulticastGroup, h.multicastGroup]
  · rw [sessionStart_of_rank hrank]
    exact iff_of_true (.refl c) (.inl hrank)

/-- The worker's entries are those that were added. -/
theorem queuePairEntries_append {c' : Ctrl} {new : List FillInQpnAndPsnEntry} {rank : ℕ}
    (hold : c.queuePairEntries rank = []) (hfill : c'.fillInQpnAndPsn = c.fillInQpnAndPsn ++ new)
    (hnew : ∀ e ∈ new, e.workerId = rank) : c'.queuePairEntries rank = new := by
  rw [Ctrl.queuePairEntries] at hold ⊢
  rw [hfill, List.filter_append, hold, List.nil_append, List.filter_eq_self]
  exact fun e he => decide_eq_true (hnew e he)

/-- They are entries of queue pairs in order. -/
theorem getElem?_of_takeWhile {new : List FillInQpnAndPsnEntry}
    (h : new.map some = ((req.qpns.zip req.psns).mapIdx (fillInEntry req.rank P)).takeWhile Option.isSome)
    {i : ℕ} {e : FillInQpnAndPsnEntry} (he : new[i]? = some e) :
    ∃ qp, (req.qpns.zip req.psns)[i]? = some qp ∧ fillInEntry req.rank P i qp = some e := by
  refine getElem?_of_prefix_mapIdx ?_ he
  rw [h]
  exact List.takeWhile_prefix _

/-- A data plane with these entries is usable for the right sizes only. -/
theorem usable_iff {c' : Ctrl} {new : List FillInQpnAndPsnEntry} (hrank : req.rank < 32)
    (hcreate : ⟨req.rank, BitVec.ofNat 48 req.mac, req.ipv4, req.rkey⟩ ∈ c'.createRocePacket)
    (hentries : c'.queuePairEntries req.rank = new)
    (hpower : P.isPowerOfTwo → new.map some =
      ((req.qpns.zip req.psns).mapIdx (fillInEntry req.rank P)).takeWhile Option.isSome)
    (hother : ¬ P.isPowerOfTwo → new = []) (hidx : P.isPowerOfTwo → IndicesFit req P) :
    Usable c' req P ↔ req.qpns = [] ∨ GoodSizes req P := by
  constructor
  · intro h
    by_cases hnil : req.qpns = []
    · exact .inl hnil
    have hlen : 0 < req.qpns.length := List.length_pos_iff.mpr hnil
    have hnew (i : ℕ) (hi : i < req.qpns.length) : i < new.length := by
      obtain ⟨e, he, -⟩ := h.fillIn i _ (List.getElem?_eq_getElem hi)
      rw [hentries] at he
      exact (List.getElem?_eq_some_iff.mp he).1
    have hpow : P.isPowerOfTwo := by
      by_contra hpow
      have := hnew 0 hlen
      rw [hother hpow] at this
      cases this
    refine .inr ⟨hpow, ?_, ?_⟩
    · by_contra hlt
      have hi := hnew req.psns.length (by omega)
      obtain ⟨qp, hqp, -⟩ := getElem?_of_takeWhile (hpower hpow) (List.getElem?_eq_getElem hi)
      have := (List.getElem?_eq_some_iff.mp hqp).1
      rw [List.length_zip] at this
      omega
    · by_contra hgt
      -- the cell of queue pair 512 is that of queue pair 0
      refine h.cells 512 (by omega) req.rank hrank 0 (by rw [if_pos rfl]; exact hlen) (by simp) ?_
      apply BitVec.eq_of_toNat_eq
      rw [qpIndex_switchQpn hrank (by omega), qpIndex_switchQpn hrank (by omega)]
  · intro h
    have hsizes (i : ℕ) (hi : i < req.qpns.length) : GoodSizes req P := by
      refine h.resolve_left fun hnil => ?_
      rw [hnil] at hi
      cases hi
    refine ⟨hcreate, fun i qpn hqpn => ?_, fun i hi rank' hrank' i' hi' hne heq => ?_⟩
    · have hi := (List.getElem?_eq_some_iff.mp hqpn).1
      have hgood := hsizes i hi
      obtain ⟨p, hp⟩ := hgood.power
      -- all entries fit, so none is left out
      have hsome := List.all_eq_true.mp ((fillInEntry_all_isSome req P).mpr (hidx hgood.power))
      have hall := List.takeWhile_eq_self_iff.mpr hsome
      have hmap := (hpower hgood.power).trans hall
      have hlen : i < new.length := by
        have hlength := congrArg List.length hmap
        rw [List.length_map, List.length_mapIdx, List.length_zip] at hlength
        have := hgood.psns
        omega
      have he := List.getElem?_eq_getElem hlen
      obtain ⟨qp, hqp, hsome⟩ := getElem?_of_takeWhile (hpower hgood.power) he
      refine ⟨new[i], by rw [hentries]; exact he, ?_, fun k hk => ?_⟩
      · rw [(fillInEntry_eq_some hsome).2.2.1]
        have hfst := List.getElem?_zip_eq_some.mp hqp
        rw [hqpn] at hfst
        exact (Option.some.inj hfst.1).symm
      · rw [hp] at hsome hk
        exact (fillInEntry_hits hsome k).mpr hk
    · have hgood := hsizes i hi
      have hcells := hgood.cells
      have hbound : i' < 2 ^ 16 := by
        split at hi' <;> omega
      have hnat := congrArg BitVec.toNat heq
      rw [qpIndex_switchQpn hrank' hbound, qpIndex_switchQpn hrank (by omega)] at hnat
      have hranks : rank' = req.rank := by omega
      rw [if_pos hranks] at hi'
      have hindex : i' = i := by omega
      exact hne (by rw [hranks, hindex])

/-- A request of the first worker that failed has changed nothing if the tables
already were what it leaves. -/
theorem sameTables_iff_leftBehind {c' : Ctrl} {new : List FillInQpnAndPsnEntry}
    (hudp : c'.receiveUdp = c.receiveUdp ∧ c'.dstAddr = c.dstAddr)
    (hroce : c'.receiveRoce = roceActions.map (roceEntry ip (sizedRequest c req)))
    (hcreate : c'.createRocePacket = [⟨req.rank, BitVec.ofNat 48 req.mac, req.ipv4, req.rkey⟩])
    (hfill : c'.fillInQpnAndPsn = new)
    (hpower : P.isPowerOfTwo → new.map some =
      ((req.qpns.zip req.psns).mapIdx (fillInEntry req.rank P)).takeWhile Option.isSome)
    (hother : ¬ P.isPowerOfTwo → new = [])
    (hgroup : ¬ (P.isPowerOfTwo → IndicesFit req P) → c'.multicastGroup = none)
    (hgroup' : (P.isPowerOfTwo → IndicesFit req P) → c'.multicastGroup = some [])
    (hnodes : c'.multicastNodes = c.multicastNodes.filter (· ∉ (c.multicastGroup.getD []).map (·.1))) :
    SameTables c c' ↔ LeftBehind c req ip P := by
  constructor
  · intro h
    refine ⟨h.receiveRoce.symm.trans hroce, h.createRocePacket.symm.trans hcreate, fun hp => ?_, fun hp => ?_,
      fun hi => h.multicastGroup.symm.trans (hgroup hi), fun hi => h.multicastGroup.symm.trans (hgroup' hi)⟩
    · rw [← h.fillInQpnAndPsn, hfill]
      exact hpower hp
    · rw [← h.fillInQpnAndPsn, hfill]
      exact hother hp
  · intro h
    have hempty : c.multicastGroup.getD [] = [] ∧ c'.multicastGroup = c.multicastGroup := by
      by_cases hi : P.isPowerOfTwo → IndicesFit req P
      · rw [h.group_node hi, hgroup' hi]
        exact ⟨rfl, rfl⟩
      · rw [h.group_indices hi, hgroup hi]
        exact ⟨rfl, rfl⟩
    refine ⟨hudp.1, hroce.trans h.receiveRoce.symm, hudp.2, hcreate.trans h.createRocePacket.symm, ?_, hempty.2, ?_⟩
    · rw [hfill]
      by_cases hp : P.isPowerOfTwo
      · exact List.map_injective_iff.mpr (fun _ _ h => Option.some.inj h) ((hpower hp).trans (h.fillIn_power hp).symm)
      · rw [hother hp, h.fillIn_other hp]
    · rw [hnodes, hempty.1]
      simp

/-- What a request that fails after the receiver's step leaves, for each rank. -/
theorem sameTables_failed (ip : BitVec 32) {c' : Ctrl} {new : List FillInQpnAndPsnEntry}
    (hudp : c'.receiveUdp = c.receiveUdp ∧ c'.dstAddr = c.dstAddr)
    (hroce : c'.receiveRoce =
      (sessionStart c req).receiveRoce ++ roceActions.map (roceEntry ip (sizedRequest c req)))
    (hcreate : c'.createRocePacket =
      (sessionStart c req).createRocePacket ++ [⟨req.rank, BitVec.ofNat 48 req.mac, req.ipv4, req.rkey⟩])
    (hfill : c'.fillInQpnAndPsn = (sessionStart c req).fillInQpnAndPsn ++ new)
    (hpower : P.isPowerOfTwo → new.map some =
      ((req.qpns.zip req.psns).mapIdx (fillInEntry req.rank P)).takeWhile Option.isSome)
    (hother : ¬ P.isPowerOfTwo → new = [])
    (hgroup : ¬ (P.isPowerOfTwo → IndicesFit req P) → c'.multicastGroup = (sessionStart c req).multicastGroup)
    (hgroup' : (P.isPowerOfTwo → IndicesFit req P) →
      c'.multicastGroup = some ((sessionStart c req).multicastGroup.getD []))
    (hnodes : c'.multicastNodes = (sessionStart c req).multicastNodes) :
    SameTables c c' ↔ req.rank = 0 ∧ LeftBehind c req ip P := by
  by_cases hrank : req.rank = 0
  · rw [and_iff_right hrank]
    rw [sessionStart, if_pos hrank] at hroce hcreate hfill hgroup hgroup' hnodes
    exact sameTables_iff_leftBehind hudp hroce hcreate hfill hpower hother hgroup hgroup' hnodes
  · rw [sessionStart_of_rank hrank] at hroce
    exact iff_of_false (not_sameTables (by simp [roceActions]) hroce) fun h => hrank h.1

theorem SetsUp.of_error (h : (rdmaSession req c).1 ≠ .success) :
    SetsUp c req ↔ SameTables c (rdmaSession req c).2 :=
  ⟨fun hs => hs.error h, fun hs => ⟨fun h' => absurd h' h, fun _ => hs⟩⟩

theorem SetsUp.of_success (h : (rdmaSession req c).1 = .success) :
    SetsUp c req ↔ Usable (rdmaSession req c).2 req (packetsPerMessage c req) :=
  ⟨fun hs => hs.success h, fun hs => ⟨fun _ => hs, fun h' => absurd h h'⟩⟩

/-! ## With receiver entries that are all new -/

/-- The tables once the sender is done: it has added the worker, and entries for the
queue pairs up to the first one whose index does not fit. -/
structure Sent (c : Ctrl) (req : SessionRequest) (ip : BitVec 32) (new : List FillInQpnAndPsnEntry) (sent : Ctrl) :
    Prop where
  udp : sent.receiveUdp = c.receiveUdp ∧ sent.dstAddr = c.dstAddr
  receiveRoce : sent.receiveRoce =
    (sessionStart c req).receiveRoce ++ roceActions.map (roceEntry ip (sizedRequest c req))
  createRocePacket : sent.createRocePacket =
    (sessionStart c req).createRocePacket ++ [⟨req.rank, BitVec.ofNat 48 req.mac, req.ipv4, req.rkey⟩]
  fillInQpnAndPsn : sent.fillInQpnAndPsn = (sessionStart c req).fillInQpnAndPsn ++ new
  multicastGroup : sent.multicastGroup = (sessionStart c req).multicastGroup
  multicastNodes : sent.multicastNodes = (sessionStart c req).multicastNodes
  power : (packetsPerMessage c req).isPowerOfTwo → new.map some =
    ((req.qpns.zip req.psns).mapIdx (fillInEntry req.rank (packetsPerMessage c req))).takeWhile Option.isSome
  other : ¬ (packetsPerMessage c req).isPowerOfTwo → new = []

variable {new : List FillInQpnAndPsnEntry} {sent : Ctrl}

/-- The sender adds entries of the worker only. -/
theorem Sent.workers (h : Sent c req ip new sent) : ∀ e ∈ new, e.workerId = req.rank := by
  intro e he
  by_cases hpow : (packetsPerMessage c req).isPowerOfTwo
  · obtain ⟨i, hi⟩ := List.mem_iff_getElem?.mp he
    obtain ⟨qp, -, hsome⟩ := getElem?_of_takeWhile (h.power hpow) hi
    exact (fillInEntry_eq_some hsome).2.1
  · rw [h.other hpow] at he
    cases he

/-- A worker that the sender does not know has no entries for queue pairs. -/
theorem SendersConsistent.queuePairEntries_eq_nil (hc : SendersConsistent c)
    (hcreate : req.rank ∉ c.createRocePacket.map (·.workerId)) : c.queuePairEntries req.rank = [] := by
  rw [Ctrl.queuePairEntries, List.filter_eq_nil_iff]
  intro e he hid
  have hmem := hc e he
  rw [of_decide_eq_true hid] at hmem
  exact hcreate hmem

/-- The receiver adds its entries, and the sender comes next. -/
theorem rdmaSession_received (hrej : ¬ TurnedDown c req) (hswitch : c.switchMacAndIp = some (mac, ip))
    (hnew : ∀ key ∈ roceKeys c req ip, key ∉ (sessionStart c req).receiveRoce.map roceKey) :
    ∃ port received, received = { sessionStart c req with
        receiveRoce := (sessionStart c req).receiveRoce ++ roceActions.map (roceEntry ip (sizedRequest c req)) } ∧
      rdmaSession req c =
        andThen (ignoreResult (rdmaSenderAdd (sizedRequest c req) received)) (addMulticastNode req.rank port) := by
  obtain ⟨port, _, _, -, heq⟩ := rdmaSession_admitted hrej
  rw [rdmaReceiverAdd_new ((sessionStart_switchMacAndIp c req).trans hswitch) hnew] at heq
  exact ⟨port, _, rfl, heq⟩

/-- A worker that the sender does not know: where the indices of its queue pairs fit,
the multicast node comes next, and else there is an exception. -/
theorem rdmaSession_sent (hc : SendersConsistent c) (hrej : ¬ TurnedDown c req)
    (hswitch : c.switchMacAndIp = some (mac, ip))
    (hnew : ∀ key ∈ roceKeys c req ip, key ∉ (sessionStart c req).receiveRoce.map roceKey)
    (hcreate : req.rank ∉ (sessionStart c req).createRocePacket.map (·.workerId)) :
    ∃ port new sent, Sent c req ip new sent ∧
      (((packetsPerMessage c req).isPowerOfTwo → IndicesFit req (packetsPerMessage c req)) →
        rdmaSession req c = addMulticastNode req.rank port sent) ∧
      (¬ ((packetsPerMessage c req).isPowerOfTwo → IndicesFit req (packetsPerMessage c req)) →
        rdmaSession req c = (.exception, sent)) := by
  obtain ⟨port, received, hreceived, heq⟩ := rdmaSession_received hrej hswitch hnew
  have hudp : (sessionStart c req).receiveUdp = c.receiveUdp ∧ (sessionStart c req).dstAddr = c.dstAddr := by
    unfold sessionStart
    split <;> exact ⟨rfl, rfl⟩
  have hcreates : received.createRocePacket = (sessionStart c req).createRocePacket := by rw [hreceived]
  have hfills : received.fillInQpnAndPsn = (sessionStart c req).fillInQpnAndPsn := by rw [hreceived]
  have hold : received.queuePairEntries req.rank = [] := by
    rw [Ctrl.queuePairEntries, hfills]
    exact (hc.sessionStart req).queuePairEntries_eq_nil hcreate
  obtain ⟨new, hstate, hpower, hother, hok⟩ :=
    rdmaSenderAdd_new (sizedRequest c req) (by rw [hcreates]; exact hcreate) hold rfl
  change _ ↔ ((packetsPerMessage c req).isPowerOfTwo → IndicesFit req (packetsPerMessage c req)) at hok
  refine ⟨port, new, (rdmaSenderAdd (sizedRequest c req) received).2, ?_, fun hidx => ?_, fun hidx => ?_⟩
  · rw [hstate]
    refine ⟨?_, ?_, ?_, ?_, ?_, ?_, hpower, hother⟩
    · rw [hreceived]
      exact hudp
    · rw [hreceived]
    · rw [← hcreates]
      rfl
    · rw [← hfills]
    · rw [hreceived]
    · rw [hreceived]
  · have hign : ignoreResult (rdmaSenderAdd (sizedRequest c req) received) =
        (.success, (rdmaSenderAdd (sizedRequest c req) received).2) :=
      Prod.ext (ignoreResult_success.mpr (hok.mpr hidx)) (ignoreResult_snd _)
    rw [heq, hign]
    rfl
  · have hexc : (rdmaSenderAdd (sizedRequest c req) received).1 = .exception := by
      by_contra hne
      exact hidx (hok.mp hne)
    have hign : ignoreResult (rdmaSenderAdd (sizedRequest c req) received) =
        (.exception, (rdmaSenderAdd (sizedRequest c req) received).2) := by
      rw [ignoreResult, hexc]
      exact Prod.ext hexc rfl
    rw [heq, hign]
    rfl

/-- The sender raises an exception for a worker it knows, after the receiver's entries
were added. -/
theorem not_setsUp_known (hrej : ¬ TurnedDown c req) (hswitch : c.switchMacAndIp = some (mac, ip))
    (hnew : ∀ key ∈ roceKeys c req ip, key ∉ (sessionStart c req).receiveRoce.map roceKey)
    (hcreate : req.rank ∈ (sessionStart c req).createRocePacket.map (·.workerId)) : ¬ SetsUp c req := by
  obtain ⟨port, received, hreceived, heq⟩ := rdmaSession_received hrej hswitch hnew
  have hknown : rdmaSenderAdd (sizedRequest c req) received = (.exception, received) :=
    rdmaSenderAdd_known (by rw [hreceived]; exact hcreate)
  rw [hknown] at heq
  have hne : req.rank ≠ 0 := by
    intro h0
    rw [sessionStart, if_pos h0] at hcreate
    cases hcreate
  have hroce : received.receiveRoce = c.receiveRoce ++ roceActions.map (roceEntry ip (sizedRequest c req)) := by
    rw [hreceived, sessionStart_of_rank hne]
  rw [SetsUp.of_error (by rw [heq]; exact fun h => by cases h), heq]
  exact not_sameTables (by simp [roceActions]) hroce

/-- A failure after the sender leaves what the sender has left, or the group as well. -/
theorem Sent.setsUp_failed (h : Sent c req ip new sent) {group : Option (List (ℕ × PortId))}
    (hfail : (rdmaSession req c).1 ≠ .success) (hleft : (rdmaSession req c).2 = { sent with multicastGroup := group })
    (hgroup : ¬ ((packetsPerMessage c req).isPowerOfTwo → IndicesFit req (packetsPerMessage c req)) →
      group = (sessionStart c req).multicastGroup)
    (hgroup' : ((packetsPerMessage c req).isPowerOfTwo → IndicesFit req (packetsPerMessage c req)) →
      group = some ((sessionStart c req).multicastGroup.getD [])) :
    SetsUp c req ↔ req.rank = 0 ∧ LeftBehind c req ip (packetsPerMessage c req) := by
  rw [SetsUp.of_error hfail, hleft]
  exact sameTables_failed ip h.udp h.receiveRoce h.createRocePacket h.fillInQpnAndPsn h.power h.other hgroup hgroup'
    h.multicastNodes

/-- Where the node is added, it depends on the sizes. -/
theorem Sent.setsUp_added (h : Sent c req ip new sent) (hrank : req.rank < 32)
    (hold : (sessionStart c req).queuePairEntries req.rank = []) {port : PortId}
    (heq : rdmaSession req c = addMulticastNode req.rank port sent)
    (hadd : Addable (sessionStart c req) req (packetsPerMessage c req)) :
    SetsUp c req ↔ req.qpns = [] ∨ GoodSizes req (packetsPerMessage c req) := by
  have hfree : NodeFree sent req.rank := by
    rw [NodeFree, h.multicastGroup, h.multicastNodes]
    exact hadd.node
  have hsucc : (rdmaSession req c).1 = .success := by
    rw [heq]
    exact (addMulticastNode_success req.rank port sent).mpr hfree
  obtain ⟨hcreate', hfill'⟩ := addMulticastNode_senders req.rank port sent
  rw [SetsUp.of_success hsucc, heq, usable_iff hrank ?_ ?_ h.power h.other hadd.indices]
  · rw [hcreate', h.createRocePacket]
    exact List.mem_append_right _ (List.mem_singleton_self _)
  · exact queuePairEntries_append hold (hfill'.trans h.fillInQpnAndPsn) h.workers

/-- Past the checks, with receiver entries that are all new. -/
theorem setsUp_new (hc : SendersConsistent c) (hrej : ¬ TurnedDown c req) (hswitch : c.switchMacAndIp = some (mac, ip))
    (hnew : ∀ key ∈ roceKeys c req ip, key ∉ (sessionStart c req).receiveRoce.map roceKey) :
    SetsUp c req ↔ req.rank ∉ (sessionStart c req).createRocePacket.map (·.workerId) ∧
      ((Addable (sessionStart c req) req (packetsPerMessage c req) ∧
          (req.qpns = [] ∨ GoodSizes req (packetsPerMessage c req))) ∨
        (¬ Addable (sessionStart c req) req (packetsPerMessage c req) ∧ req.rank = 0 ∧
          LeftBehind c req ip (packetsPerMessage c req))) := by
  have hrank : req.rank < 32 := by
    by_contra hge
    exact hrej (.inl (Nat.le_of_not_lt hge))
  by_cases hcreate : req.rank ∈ (sessionStart c req).createRocePacket.map (·.workerId)
  · exact iff_of_false (not_setsUp_known hrej hswitch hnew hcreate) fun h => h.1 hcreate
  rw [and_iff_right hcreate]
  obtain ⟨port, new, sent, hsent, hadded, hraised⟩ := rdmaSession_sent hc hrej hswitch hnew hcreate
  have hfree : NodeFree sent req.rank ↔ NodeFree (sessionStart c req) req.rank := by
    rw [NodeFree, NodeFree, hsent.multicastGroup, hsent.multicastNodes]
  by_cases hidx : (packetsPerMessage c req).isPowerOfTwo → IndicesFit req (packetsPerMessage c req)
  · have heq := hadded hidx
    by_cases hnode : NodeFree (sessionStart c req) req.rank
    · have hadd : Addable (sessionStart c req) req (packetsPerMessage c req) := ⟨hidx, hnode⟩
      rw [hsent.setsUp_added hrank ((hc.sessionStart req).queuePairEntries_eq_nil hcreate) heq hadd]
      exact ⟨fun h => .inl ⟨hadd, h⟩, fun h => h.elim (·.2) fun h => absurd hadd h.1⟩
    · have hadd : ¬ Addable (sessionStart c req) req (packetsPerMessage c req) := fun h => hnode h.node
      have hleft : (rdmaSession req c).2 =
          { sent with multicastGroup := some ((sessionStart c req).multicastGroup.getD []) } := by
        rw [heq, addMulticastNode_failure port fun h => hnode (hfree.mp h), hsent.multicastGroup]
      rw [hsent.setsUp_failed ?_ hleft (fun h => absurd hidx h) fun _ => rfl]
      · exact ⟨fun h => .inr ⟨hadd, h⟩, fun h => h.elim (fun h => absurd h.1 hadd) (·.2)⟩
      · rw [heq]
        exact fun h => hnode (hfree.mp ((addMulticastNode_success req.rank port sent).mp h))
  · have heq := hraised hidx
    have hadd : ¬ Addable (sessionStart c req) req (packetsPerMessage c req) := fun h => hidx h.indices
    have hleft : (rdmaSession req c).2 = { sent with multicastGroup := sent.multicastGroup } := by rw [heq]
    rw [hsent.setsUp_failed (by rw [heq]; exact fun h => by cases h) hleft (fun _ => hsent.multicastGroup)
      fun h => absurd h hidx]
    exact ⟨fun h => .inr ⟨hadd, h⟩, fun h => h.elim (fun h => absurd h.1 hadd) (·.2)⟩

/-- A request sets up a usable data plane or changes nothing exactly under the
condition. -/
theorem setsUp_iff (hc : ctrlMachine.Reachable c) (req : SessionRequest) : SetsUp c req ↔ SetupCondition c req := by
  have hsenders := sendersConsistent_of_reachable hc
  by_cases hrej : TurnedDown c req
  · obtain ⟨hfail, hstate⟩ := rdmaSession_turnedDown hrej
    rw [SetsUp.of_error hfail, hstate, SetupCondition, if_pos hrej]
    exact sameTables_sessionStart c req
  obtain ⟨port, mac, ip, hswitch, heq⟩ := rdmaSession_admitted hrej
  have hswitch' := (sessionStart_switchMacAndIp c req).trans hswitch
  have hcond : SetupCondition c req ↔ SoundRequest c req ip := by
    rw [SetupCondition, if_neg hrej, hswitch]
    simp
  rw [hcond]
  have hrank (h0 : req.rank = 0) : (sessionStart c req).receiveRoce = [] := by
    rw [sessionStart, if_pos h0]
    rfl
  by_cases hfirst : ∃ key ∈ (roceKeys c req ip).head?, key ∈ (sessionStart c req).receiveRoce.map roceKey
  · -- the receiver raises an exception before it adds anything
    rw [rdmaReceiverAdd_known hswitch' hfirst] at heq
    have heq : rdmaSession req c = (.exception, sessionStart c req) := heq
    have hne : req.rank ≠ 0 := by
      intro h0
      obtain ⟨key, -, hknown⟩ := hfirst
      rw [hrank h0] at hknown
      cases hknown
    rw [SetsUp.of_error (by rw [heq]; exact fun h => by cases h), heq, sessionStart_of_rank hne]
    exact iff_of_true (.refl c) (.inl hfirst)
  · unfold SoundRequest
    dsimp only
    rw [or_iff_right hfirst]
    by_cases hnew : ∀ key ∈ roceKeys c req ip, key ∉ (sessionStart c req).receiveRoce.map roceKey
    · rw [setsUp_new hsenders hrej hswitch hnew, and_iff_right hnew]
    · -- the receiver raises an exception after it has added some entries
      have hsome : ∃ key ∈ roceKeys c req ip, key ∈ (sessionStart c req).receiveRoce.map roceKey := by
        simpa only [not_forall, not_not, exists_prop] using hnew
      obtain ⟨new, hne, hadd⟩ := rdmaReceiverAdd_partly hswitch' hfirst hsome
      rw [hadd] at heq
      have heq : rdmaSession req c =
        (.exception, { sessionStart c req with receiveRoce := (sessionStart c req).receiveRoce ++ new }) := heq
      have hne' : req.rank ≠ 0 := by
        intro h0
        obtain ⟨key, -, hknown⟩ := hsome
        rw [hrank h0] at hknown
        cases hknown
      rw [SetsUp.of_error (by rw [heq]; exact fun h => by cases h), heq]
      refine iff_of_false (not_sameTables hne ?_) fun h => hnew h.1
      rw [sessionStart_of_rank hne']

/-- The request of the first worker with a message of three packets. -/
def threePackets : SessionRequest := { pairRequest 0 0xc with messageSize := 768 }

/-- It succeeds although its queue pair has no entry. -/
theorem not_setsUp : ctrlMachine.Reachable pairCtrl ∧ (rdmaSession threePackets pairCtrl).1 = .success ∧
    ¬ SetsUp pairCtrl threePackets := by
  refine ⟨.init ⟨rfl, rfl, rfl, rfl, rfl, rfl⟩, by decide, fun h => ?_⟩
  obtain ⟨e, he, -⟩ := (h.success (by decide)).fillIn 0 70 rfl
  have hnone : ((rdmaSession threePackets pairCtrl).2.queuePairEntries 0)[0]?.isSome = false := by decide
  have he : ((rdmaSession threePackets pairCtrl).2.queuePairEntries 0)[0]? = some e := he
  rw [he] at hnone
  cases hnone

/-- With messages of one packet it sets up the session. -/
theorem setsUp_onePacket : SetsUp pairCtrl (pairRequest 0 0xc) := by
  refine (setsUp_iff (.init ⟨rfl, rfl, rfl, rfl, rfl, rfl⟩) (pairRequest 0 0xc)).mpr ?_
  rw [SetupCondition, if_neg (by decide)]
  refine ⟨0xb, rfl, .inr ⟨by decide, by decide, .inl ⟨⟨fun _ => ?_, .inr (by decide)⟩, .inr ⟨⟨0, by decide⟩, ?_, ?_⟩⟩⟩⟩
  · unfold IndicesFit
    decide
  · decide
  · decide

end SwitchML.Controller
