/-
What the controller holds once the workers have set up a session. The first
worker's request comes before the others' and clears out the sessions before, so
what is there are the entries of the session's own workers, and the nodes of
their ports are the members of its multicast group. It clears out the tables of
its own protocol only, so those of the other one are as they were.
-/
import SwitchML.Controller.SessionSetup
import SwitchML.Controller.SetupRuns

namespace SwitchML.Controller

open P4 Tna

/-! ## What an accepted request adds -/

variable {protocol : Protocol} {mac : BitVec 48} {ip : BitVec 32} {c old : Ctrl} {req : SessionRequest}

/-- The entry of `dst_addr` for a worker. -/
def dstAddrEntry (req : SessionRequest) : DstAddrEntry := ⟨req.rank, BitVec.ofNat 48 req.mac, req.ipv4⟩

/-- The entry of `create_roce_packet` for a worker. -/
def createRocePacketEntry (req : SessionRequest) : CreateRocePacketEntry :=
  ⟨req.rank, BitVec.ofNat 48 req.mac, req.ipv4, req.rkey⟩

/-- The entries of `fill_in_qpn_and_psn` for the queue pairs of a worker: none where the
number of packets per message is not a power of 2, which the reply does not say. -/
def fillInEntries (foldedPipe : Bool) (req : SessionRequest) : List (Option FillInQpnAndPsnEntry) :=
  let packetsPerMessage := req.messageSize / packetBytes (usedPacketSize foldedPipe req.packetSize)
  if packetsPerMessage &&& (packetsPerMessage - 1) ≠ 0 ∨ packetsPerMessage = 0 then []
  else (req.qpns.zip req.psns).mapIdx (fillInEntry req.rank packetsPerMessage)

/-- The tables of the other protocol are the same. -/
def SameOther (protocol : Protocol) (old c : Ctrl) : Prop :=
  match protocol with
  | .udp =>
    c.receiveRoce = old.receiveRoce ∧ c.createRocePacket = old.createRocePacket ∧ c.fillInQpnAndPsn = old.fillInQpnAndPsn
  | .rdma => c.receiveUdp = old.receiveUdp ∧ c.dstAddr = old.dstAddr

/-- The tables of the protocol hold the entries for the workers that have made these
requests and no others, and the multicast group has the nodes of their ports. The
tables of the other protocol are those of `old`. -/
structure Installed (protocol : Protocol) (mac : BitVec 48) (ip : BitVec 32) (old : Ctrl) (reqs : List SessionRequest)
    (c : Ctrl) : Prop where
  receiveUdp : protocol = .udp → c.receiveUdp = reqs.map (udpEntry mac ip)
  receiveRoce : protocol = .rdma → c.receiveRoce = reqs.flatMap (roceEntries c.foldedPipe ip)
  dstAddr : protocol = .udp → c.dstAddr = reqs.map dstAddrEntry
  createRocePacket : protocol = .rdma → c.createRocePacket = reqs.map createRocePacketEntry
  fillInQpnAndPsn : protocol = .rdma → c.fillInQpnAndPsn.map some = reqs.flatMap (fillInEntries c.foldedPipe)
  other : SameOther protocol old c
  multicastGroup : (c.multicastGroup.getD []).map (fun node => (node.1, some node.2)) =
    reqs.map fun req => (req.rank, c.toReceivers.getDevPort req.mac)

/-- What no request changes. -/
def Frame (c c' : Ctrl) : Prop :=
  c'.foldedPipe = c.foldedPipe ∧ c'.switchMacAndIp = c.switchMacAndIp ∧ c'.macAddresses = c.macAddresses

theorem Frame.of_receivers {c c' : Ctrl} (h : c'.toReceivers = c.toReceivers) : Frame c c' := by
  unfold Frame
  rw [h]
  exact ⟨rfl, rfl, rfl⟩

theorem Frame.trans {c c' c'' : Ctrl} (h : Frame c c') (h' : Frame c' c'') : Frame c c'' :=
  ⟨h'.1.trans h.1, h'.2.1.trans h.2.1, h'.2.2.trans h.2.2⟩

theorem Frame.getDevPort {c c' : Ctrl} (h : Frame c c') (mac : ℕ) :
    c'.toReceivers.getDevPort mac = c.toReceivers.getDevPort mac := by
  unfold Receivers.getDevPort
  rw [h.2.2]

theorem udpReceiverAdd_frame (req : SessionRequest) (c : Ctrl) : Frame c (udpReceiverAdd req c).2 := by
  unfold udpReceiverAdd
  refine ⟨?_, ?_, ?_⟩ <;> split <;> rfl

theorem rdmaReceiverAdd_frame (req : SessionRequest) (c : Ctrl) : Frame c (rdmaReceiverAdd req c).2 := by
  unfold rdmaReceiverAdd
  refine ⟨?_, ?_, ?_⟩ <;> split <;> rfl

theorem frame_request (protocol : Protocol) (req : SessionRequest) (c : Ctrl) :
    Frame c (protocol.request req c).2 := by
  have hclear (cleared : Ctrl) (h : Frame c cleared) : Frame c (if req.rank = 0 then cleared else c) := by
    split
    · exact h
    · exact ⟨rfl, rfl, rfl⟩
  have hnode (c' : Ctrl) (port : PortId) (h : Frame c c') : Frame c (addMulticastNode req.rank port c').2 :=
    h.trans (.of_receivers (addMulticastNode_receivers ..))
  cases protocol with
  | udp =>
    have h := hclear (clearUdpWorkers c) ⟨rfl, rfl, rfl⟩
    exact addWorker_keeps req h (h.trans (udpReceiverAdd_frame ..)) (fun c' hc => hc.trans ⟨rfl, rfl, rfl⟩) hnode
  | rdma =>
    have h := hclear (clearRdmaWorkers c) ⟨rfl, rfl, rfl⟩
    refine addWorker_keeps _ h (h.trans (rdmaReceiverAdd_frame ..)) (fun c' hc => hc.trans (.of_receivers ?_)) hnode
    rw [ignoreResult_snd, rdmaSenderAdd_receivers]

theorem SameOther.refl (protocol : Protocol) (c : Ctrl) : SameOther protocol c c := by
  cases protocol with
  | udp => exact ⟨rfl, rfl, rfl⟩
  | rdma => exact ⟨rfl, rfl⟩

theorem SameOther.trans {c c' c'' : Ctrl} (h : SameOther protocol c c') (h' : SameOther protocol c' c'') :
    SameOther protocol c c'' := by
  cases protocol with
  | udp => exact ⟨h'.1.trans h.1, h'.2.1.trans h.2.1, h'.2.2.trans h.2.2⟩
  | rdma => exact ⟨h'.1.trans h.1, h'.2.trans h.2⟩

theorem addMulticastNode_dstAddr (workerId : ℕ) (port : PortId) (c : Ctrl) :
    (addMulticastNode workerId port c).2.dstAddr = c.dstAddr := by
  have hmoved : (removeMoved workerId port c).dstAddr = c.dstAddr := by
    unfold removeMoved
    dsimp only
    split <;> rfl
  unfold addMulticastNode
  dsimp only
  split
  · exact hmoved
  · split <;> exact hmoved

theorem SameOther.addMulticastNode (protocol : Protocol) (workerId : ℕ) (port : PortId) (c : Ctrl) :
    SameOther protocol c (Controller.addMulticastNode workerId port c).2 := by
  have hreceivers := addMulticastNode_receivers workerId port c
  have hsenders := addMulticastNode_senders workerId port c
  cases protocol with
  | udp => exact ⟨congrArg Receivers.receiveRoce hreceivers, hsenders⟩
  | rdma => exact ⟨congrArg Receivers.receiveUdp hreceivers, addMulticastNode_dstAddr ..⟩

theorem SameOther.udpReceiverAdd (req : SessionRequest) (c : Ctrl) :
    SameOther .udp c (Controller.udpReceiverAdd req c).2 := by
  unfold Controller.udpReceiverAdd
  split <;> exact ⟨rfl, rfl, rfl⟩

theorem SameOther.rdmaReceiverAdd (req : SessionRequest) (c : Ctrl) :
    SameOther .rdma c (Controller.rdmaReceiverAdd req c).2 := by
  unfold Controller.rdmaReceiverAdd
  split <;> exact ⟨rfl, rfl⟩

theorem SameOther.rdmaSenderAdd (req : SessionRequest) (c : Ctrl) :
    SameOther .rdma c (Controller.rdmaSenderAdd req c).2 := by
  refine ⟨congrArg Receivers.receiveUdp (rdmaSenderAdd_receivers req c), ?_⟩
  unfold Controller.rdmaSenderAdd
  dsimp only
  split
  · rfl
  · split <;> rfl

/-- A request changes the tables of its own protocol only. -/
theorem SameOther.request (protocol : Protocol) (req : SessionRequest) (c : Ctrl) :
    SameOther protocol c (protocol.request req c).2 := by
  have hnode (c' : Ctrl) (port : PortId) (h : SameOther protocol c c') :
      SameOther protocol c (Controller.addMulticastNode req.rank port c').2 :=
    h.trans (.addMulticastNode ..)
  cases protocol with
  | udp =>
    have h : SameOther .udp c (if req.rank = 0 then clearUdpWorkers c else c) := by
      split <;> exact ⟨rfl, rfl, rfl⟩
    exact addWorker_keeps req h (h.trans (.udpReceiverAdd ..)) (fun c' hc => hc.trans ⟨rfl, rfl, rfl⟩) hnode
  | rdma =>
    have h : SameOther .rdma c (if req.rank = 0 then clearRdmaWorkers c else c) := by
      split <;> exact ⟨rfl, rfl⟩
    refine addWorker_keeps _ h (h.trans (.rdmaReceiverAdd ..)) (fun c' hc => hc.trans ?_) hnode
    rw [ignoreResult_snd]
    exact .rdmaSenderAdd ..

/-- The node of a worker that is not in the group yet. -/
theorem addMulticastNode_new {workerId : ℕ} {port : PortId} (h : (addMulticastNode workerId port c).1 = .success)
    (hnew : workerId ∉ (c.multicastGroup.getD []).map (·.1)) : ∃ nodes, (addMulticastNode workerId port c).2 =
      { c with multicastGroup := some (c.multicastGroup.getD [] ++ [(workerId, port)]), multicastNodes := nodes } := by
  unfold addMulticastNode at h ⊢
  rw [removeMoved_of_nodeFree_not port hnew] at h ⊢
  simp only [Option.getD_some, if_neg hnew] at h ⊢
  split at h
  · cases h
  · rename_i hfree
    rw [if_neg hfree]
    exact ⟨_, rfl⟩

theorem udpSenderAdd_success (h : (udpSenderAdd req c).1 = .success) :
    (udpSenderAdd req c).2 = { c with dstAddr := c.dstAddr ++ [dstAddrEntry req] } := by
  unfold udpSenderAdd at h ⊢
  dsimp only at h ⊢
  by_cases hadd : (entryAdd (·.workerId) c.dstAddr [some (dstAddrEntry req)]).1 = true
  · obtain ⟨new, hnew, hadded, -⟩ := entryAdd_true hadd
    obtain rfl : new = [dstAddrEntry req] := by
      simpa [eq_comm] using hnew
    rw [← hadded]
    rfl
  · rw [dstAddrEntry] at hadd
    rw [if_neg hadd] at h
    cases h

/-- Where the sender's result is not an error, it has added all that the request asks
for. -/
theorem rdmaSenderAdd_accepted {foldedPipe : Bool} {sized : SessionRequest}
    (hsized : sized = { req with packetSize := usedPacketSize foldedPipe req.packetSize })
    (h : (ignoreResult (rdmaSenderAdd sized c)).1 = .success) :
    ∃ entries, entries.map some = fillInEntries foldedPipe req ∧ (rdmaSenderAdd sized c).2 =
      { c with
        createRocePacket := c.createRocePacket ++ [createRocePacketEntry req]
        fillInQpnAndPsn := c.fillInQpnAndPsn ++ entries } := by
  subst hsized
  unfold rdmaSenderAdd at h ⊢
  dsimp only at h ⊢
  by_cases hadd : (entryAdd (·.workerId) c.createRocePacket [some (createRocePacketEntry req)]).1 = true
  · obtain ⟨new, hnew, hadded, -⟩ := entryAdd_true hadd
    obtain rfl : new = [createRocePacketEntry req] := by
      simpa [eq_comm] using hnew
    rw [createRocePacketEntry] at hadd
    rw [hadd, if_neg (by decide)] at h ⊢
    unfold createRocePacketEntry at hadded ⊢
    rw [hadded] at h ⊢
    unfold fillInEntries
    dsimp only
    split at h
    · rename_i hbad
      rw [if_pos hbad, if_pos hbad]
      exact ⟨[], rfl, by rw [List.append_nil]⟩
    · rename_i hgood
      rw [if_neg hgood, if_neg hgood]
      by_cases hfill : (entryAdd (fun e => (e.workerId, e.poolIndex)) c.fillInQpnAndPsn ((req.qpns.zip req.psns).mapIdx
          (fillInEntry req.rank (req.messageSize / packetBytes (usedPacketSize foldedPipe req.packetSize))))).1 = true
      · obtain ⟨entries, hentries, heq, -⟩ := entryAdd_true hfill
        exact ⟨entries, hentries.symm, by rw [heq]⟩
      · rw [if_neg hfill] at h
        cases h
  · rw [createRocePacketEntry] at hadd
    rw [if_pos (by simpa using hadd)] at h
    cases h

/-! ## One request after the other -/

theorem Installed.ranks {reqs : List SessionRequest} (h : Installed protocol mac ip old reqs c) :
    (c.multicastGroup.getD []).map (·.1) = reqs.map (·.rank) := by
  have hgroup := congrArg (List.map Prod.fst) h.multicastGroup
  rw [List.map_map, List.map_map] at hgroup
  exact hgroup

theorem Installed.addUdp {reqs : List SessionRequest} (h : Installed .udp mac ip old reqs c)
    (hsw : c.switchMacAndIp = some (mac, ip)) (hnew : req.rank ∉ reqs.map (·.rank))
    (hok : (addUdpWorker req c).1 = .success) : Installed .udp mac ip old (reqs ++ [req]) (addUdpWorker req c).2 := by
  obtain ⟨-, -, port, hport, hreceiver, hsender, hnode, heq⟩ := addWorker_steps hok
  obtain ⟨mac', ip', hsw', hreceived, -⟩ := udpReceiverAdd_success hreceiver
  rw [hsw, Option.some.injEq, Prod.mk.injEq] at hsw'
  obtain ⟨rfl, rfl⟩ := hsw'
  rw [udpSenderAdd_success hsender, hreceived] at hnode heq
  obtain ⟨nodes, hadded⟩ := addMulticastNode_new hnode (by rw [← h.ranks] at hnew; exact hnew)
  unfold addUdpWorker
  rw [heq, hadded]
  refine ⟨fun _ => ?_, fun hp => (by cases hp), fun _ => ?_, fun hp => (by cases hp), fun hp => (by cases hp), h.other, ?_⟩
  · simp [h.receiveUdp rfl]
  · simp [h.dstAddr rfl]
  · have hgroup := h.multicastGroup
    simp only [Option.getD_some, List.map_append, List.map_cons, List.map_nil] at hgroup ⊢
    rw [hgroup, ← hport]
    rfl

theorem Installed.addRdma {reqs : List SessionRequest} (h : Installed .rdma mac ip old reqs c)
    (hsw : c.switchMacAndIp = some (mac, ip)) (hnew : req.rank ∉ reqs.map (·.rank))
    (hok : (addRdmaWorker (sizedRequest c req) c).1 = .success) :
    Installed .rdma mac ip old (reqs ++ [req]) (addRdmaWorker (sizedRequest c req) c).2 := by
  obtain ⟨-, -, port, hport, hreceiver, hsender, hnode, heq⟩ := addWorker_steps hok
  obtain ⟨mac', ip', hsw', hreceived⟩ := rdmaReceiverAdd_success hreceiver
  rw [hsw, Option.some.injEq, Prod.mk.injEq] at hsw'
  obtain ⟨rfl, rfl⟩ := hsw'
  obtain ⟨entries, hentries, hsent⟩ := rdmaSenderAdd_accepted (show sizedRequest c req = _ from rfl) hsender
  rw [ignoreResult_snd, hsent, hreceived] at hnode heq
  obtain ⟨nodes, hadded⟩ := addMulticastNode_new hnode (by rw [← h.ranks] at hnew; exact hnew)
  unfold addRdmaWorker
  rw [heq, hadded]
  refine ⟨fun hp => (by cases hp), fun _ => ?_, fun hp => (by cases hp), fun _ => ?_, fun _ => ?_, h.other, ?_⟩
  · simp [h.receiveRoce rfl, roceEntries, sizedRequest]
  · simp [h.createRocePacket rfl, createRocePacketEntry]
  · simp [h.fillInQpnAndPsn rfl, hentries]
  · have hgroup := h.multicastGroup
    simp only [Option.getD_some, List.map_append, List.map_cons, List.map_nil] at hgroup ⊢
    rw [hgroup, ← hport]
    rfl

/-- The first worker's request starts from no entries. -/
theorem Installed.request_first (hsw : c.switchMacAndIp = some (mac, ip)) (hother : SameOther protocol old c)
    (hrank : req.rank = 0) (hok : (protocol.request req c).1 = .success) :
    Installed protocol mac ip old [req] (protocol.request req c).2 := by
  cases protocol with
  | udp =>
    have hcleared : Installed .udp mac ip old [] (clearUdpWorkers c) :=
      ⟨fun _ => rfl, fun hp => (by cases hp), fun _ => rfl, fun hp => (by cases hp), fun hp => (by cases hp), hother, rfl⟩
    simp only [Protocol.request, udpSession, if_pos hrank] at hok ⊢
    exact hcleared.addUdp hsw List.not_mem_nil hok
  | rdma =>
    have hcleared : Installed .rdma mac ip old [] (clearRdmaWorkers c) :=
      ⟨fun hp => (by cases hp), fun _ => rfl, fun hp => (by cases hp), fun _ => rfl, fun _ => rfl, hother, rfl⟩
    simp only [Protocol.request, rdmaSession, if_pos hrank] at hok ⊢
    exact hcleared.addRdma hsw List.not_mem_nil hok

theorem Installed.request_next {reqs : List SessionRequest} (h : Installed protocol mac ip old reqs c)
    (hsw : c.switchMacAndIp = some (mac, ip)) (hrank : req.rank ≠ 0) (hnew : req.rank ∉ reqs.map (·.rank))
    (hok : (protocol.request req c).1 = .success) :
    Installed protocol mac ip old (reqs ++ [req]) (protocol.request req c).2 := by
  cases protocol with
  | udp =>
    simp only [Protocol.request, udpSession, if_neg hrank] at hok ⊢
    exact h.addUdp hsw hnew hok
  | rdma =>
    simp only [Protocol.request, rdmaSession, if_neg hrank] at hok ⊢
    exact h.addRdma hsw hnew hok

/-! ## Every run -/

namespace SetupRun

variable {n : ℕ} [NeZero n] {requests : ℕ → Fin n → SessionRequest} {ctrl : Ctrl} {s s' : SetupRun n Ctrl Reply}

/-- The controller holds what the requests of the session it has served last ask for, if
it has accepted them. -/
structure Sessions (protocol : Protocol) (mac : BitVec 48) (ip : BitVec 32) (old : Ctrl)
    (requests : ℕ → Fin n → SessionRequest) (s : SetupRun n Ctrl Reply) : Prop where
  switchMacAndIp : s.ctrl.switchMacAndIp = some (mac, ip)
  other : SameOther protocol old s.ctrl
  last : s.served = [] ∨ ∃ before first others, s.served = before ++ first :: others ∧ first.2.1 = 0 ∧
    (∀ e ∈ others, e.1 = first.1) ∧
    ((∀ e ∈ first :: others, e.2.2 = .success) →
      Installed protocol mac ip old ((first :: others).map fun e => requests first.1 e.2.1) s.ctrl)

/-- A request is for the session served last if the first worker has asked for it before. -/
theorem eq_first {before others : List (ℕ × Fin n × Reply)} {first e : ℕ × Fin n × Reply}
    (horder : ((before ++ first :: others ++ [e]).map key).Pairwise After) (hfirst : first.2.1 = 0)
    (hothers : ∀ e ∈ others, e.1 = first.1) (hasked : (e.1, 0) ∈ (before ++ first :: others).map key) :
    e.1 = first.1 ∧ ∀ e' ∈ first :: others, e'.2.1 ≠ e.2.1 := by
  rw [List.map_append, List.pairwise_append, List.map_append, List.pairwise_append] at horder
  obtain ⟨⟨-, horder, hbefore⟩, -, hlast⟩ := horder
  rw [List.map_cons, List.pairwise_cons] at horder
  have hafter {e' : ℕ × Fin n × Reply} (he' : e' ∈ first :: others) : After (key e') (key e) :=
    hlast _ (List.mem_append_right _ (List.mem_map_of_mem he')) _ (List.mem_singleton_self _)
  have heq : e.1 = first.1 := by
    obtain ⟨x, hx, hkey⟩ := List.mem_map.mp hasked
    obtain ⟨hx1, hx2⟩ : x.1 = e.1 ∧ x.2.1 = 0 := Prod.mk.injEq .. ▸ hkey
    rcases List.mem_append.mp hx with hx | hx
    · -- an earlier session is over
      rcases hbefore _ (List.mem_map_of_mem hx) _ (List.mem_map_of_mem List.mem_cons_self) with hlt | ⟨-, -, hne⟩
      · rcases hafter List.mem_cons_self with hlt' | ⟨heq, -, -⟩
        · simp only [key] at hlt hlt'
          omega
        · exact heq.symm
      · exact absurd hfirst hne
    · rcases List.mem_cons.mp hx with rfl | hx
      · exact hx1.symm
      · rw [← hx1, hothers x hx]
  refine ⟨heq, fun e' he' hw => ?_⟩
  have hsession : e'.1 = e.1 := by
    rcases List.mem_cons.mp he' with rfl | he'
    · exact heq.symm
    · rw [heq, hothers e' he']
  rcases hafter he' with hlt | ⟨-, hne, -⟩
  · simp only [key] at hlt
    omega
  · exact hne hw

theorem Sessions.createSession (h : Sessions protocol mac ip old requests s) (hrank : ∀ k w, (requests k w).rank = w)
    {w : Fin n} (hI : Inv (s.createSession (fun k w => protocol.request (requests k w)) w)) :
    Sessions protocol mac ip old requests (s.createSession (fun k w => protocol.request (requests k w)) w) := by
  refine ⟨(frame_request ..).2.1.trans h.switchMacAndIp, h.other.trans (.request ..), .inr ?_⟩
  by_cases hw : w = 0
  · refine ⟨s.served, _, [], rfl, hw, fun e he => absurd he List.not_mem_nil, fun hok => ?_⟩
    have hfirst := hok _ List.mem_cons_self
    subst hw
    exact .request_first h.switchMacAndIp h.other (by rw [hrank]; exact Fin.val_zero _) hfirst
  · have hasked : (s.returned w / 4, 0) ∈ s.served.map key := by
      have hmem : (s.returned w / 4, w) ∈
          (s.createSession (fun k w => protocol.request (requests k w)) w).served.map key := by
        simp [SetupRun.createSession, key]
      have hfirst := (hI.served _ 0).mpr (hI.first_served ((hI.served _ w).mp hmem))
      simp only [SetupRun.createSession, List.map_append, List.map_cons, List.map_nil, List.mem_append, key,
        List.mem_singleton, Prod.mk.injEq] at hfirst
      exact hfirst.resolve_right fun hc => hw hc.2.symm
    rcases h.last with hnil | ⟨before, first, others, hserved, hfirst, hothers, hinstalled⟩
    · rw [hnil] at hasked
      cases hasked
    rw [hserved] at hasked
    have horder := hI.order
    simp only [SetupRun.createSession, hserved] at horder
    obtain ⟨hsession, hnew⟩ := eq_first horder hfirst hothers hasked
    refine ⟨before, first, others ++ [(s.returned w / 4, w, (protocol.request (requests (s.returned w / 4) w) s.ctrl).1)],
      ?_, hfirst, fun e he => ?_, fun hok => ?_⟩
    · exact (congrArg (· ++ _) hserved).trans (List.append_assoc ..)
    · rcases List.mem_append.mp he with he | he
      · exact hothers e he
      · rw [List.mem_singleton.mp he]
        exact hsession
    · rw [← List.cons_append] at hok ⊢
      have hreply := hok _ (List.mem_append_right _ (List.mem_singleton_self _))
      rw [List.map_append, List.map_singleton, ← hsession]
      dsimp only at hsession hreply ⊢
      have hold := hinstalled fun e he => hok e (List.mem_append_left _ he)
      rw [← hsession] at hold
      refine hold.request_next h.switchMacAndIp ?_ ?_ hreply
      · rw [hrank]
        exact fun h0 => hw (Fin.ext (h0.trans (Fin.val_zero _).symm))
      · rw [List.map_map, hrank]
        intro hmem
        obtain ⟨e', he', hrank'⟩ := List.mem_map.mp hmem
        simp only [Function.comp_apply, hrank] at hrank'
        exact hnew e' he' (Fin.ext hrank')

theorem Sessions.of_reachable (hsw : ctrl.switchMacAndIp = some (mac, ip)) (hrank : ∀ k w, (requests k w).rank = w)
    (h : (machine (fun k w => protocol.request (requests k w)) ctrl).Reachable s) :
    Sessions protocol mac ip ctrl requests s := by
  refine h.invariant_of (I := Inv) (fun s hs => .of_reachable hs) (fun s hs => ?_) fun s e s' hI hS hn => ?_
  · rw [show s = new n Reply ctrl from hs]
    exact ⟨hsw, .refl .., .inl rfl⟩
  · have hI' := hI.next hn
    cases step hn with
    | broadcast b _ _ => exact ⟨hS.switchMacAndIp, hS.other, hS.last⟩
    | barrier b _ _ => exact ⟨hS.switchMacAndIp, hS.other, hS.last⟩
    | createSession _ => exact hS.createSession hrank hI'

/-- Once any worker has set up a session, and as long as the first one has not asked
for the next, the tables of the session's protocol and the multicast group hold what
the requests of all workers for this session ask for and nothing else, whatever was
there before; the tables of the other protocol hold what was there before. -/
theorem setup_installs (hsw : ctrl.switchMacAndIp = some (mac, ip)) (hrank : ∀ k w, (requests k w).rank = w)
    (h : (machine (fun k w => protocol.request (requests k w)) ctrl).Reachable s) {k : ℕ} {w : Fin n}
    (hok : ∀ e ∈ s.served, e.1 = k → e.2.2 = .success) (hdone : 4 * (k + 1) ≤ s.returned w)
    (hlast : s.returned 0 < 4 * (k + 1) + 2) :
    ∃ ws : List (Fin n), ws.Perm (List.finRange n) ∧ Installed protocol mac ip ctrl (ws.map (requests k)) s.ctrl := by
  have hI := Inv.of_reachable h
  have hall := hI.all_served hdone
  rcases (Sessions.of_reachable hsw hrank h).last with hnil | ⟨before, first, others, hserved, hfirst, hothers, hinst⟩
  · have hasked := (hI.served k 0).mpr (hall 0)
    rw [hnil] at hasked
    cases hasked
  have horder := hI.order
  rw [hserved, List.map_append, List.pairwise_append] at horder
  obtain ⟨-, horder, hbefore⟩ := horder
  -- no session after this one has been served
  have hle : first.1 ≤ k := by
    have hmem : (first.1, (0 : Fin n)) ∈ s.served.map key := by
      rw [hserved, ← hfirst]
      exact List.mem_map_of_mem (f := key) (List.mem_append_right _ List.mem_cons_self)
    have hlt := (hI.served first.1 0).mp hmem
    rw [calls_createSession, if_pos (Fin.val_zero _)] at hlt
    omega
  have hcur (v : Fin n) : ∃ e ∈ first :: others, e.1 = k ∧ e.2.1 = v := by
    have hmem := (hI.served k v).mpr (hall v)
    rw [hserved, List.mem_map] at hmem
    obtain ⟨e, he, hkey⟩ := hmem
    obtain ⟨hsession, hworker⟩ : e.1 = k ∧ e.2.1 = v := Prod.mk.injEq .. ▸ hkey
    rcases List.mem_append.mp he with he | he
    · rcases hbefore _ (List.mem_map_of_mem he) _ (List.mem_map_of_mem List.mem_cons_self) with hlt | ⟨-, -, hne⟩
      · simp only [key] at hlt
        omega
      · exact absurd hfirst hne
    · exact ⟨e, he, hsession, hworker⟩
  have hsession : ∀ e ∈ first :: others, e.1 = first.1 := List.forall_mem_cons.mpr ⟨rfl, hothers⟩
  have heq : first.1 = k := by
    obtain ⟨e, he, hk, -⟩ := hcur w
    rw [← hk, hsession e he]
  refine ⟨(first :: others).map (·.2.1), ?_, ?_⟩
  · refine (List.perm_ext_iff_of_nodup ?_ (List.nodup_finRange n)).mpr fun v => ?_
    · rw [List.pairwise_map] at horder
      refine List.pairwise_map.mpr (horder.imp_of_mem fun ha hb hafter => ?_)
      rcases hafter with hlt | ⟨-, hne, -⟩
      · simp only [key, hsession _ ha, hsession _ hb, lt_self_iff_false] at hlt
      · exact hne
    · obtain ⟨e, he, -, hv⟩ := hcur v
      exact iff_of_true (List.mem_map.mpr ⟨e, he, hv⟩) (List.mem_finRange v)
  · rw [List.map_map, ← heq]
    refine hinst fun e he => hok e ?_ ((hsession e he).trans heq)
    rw [hserved]
    exact List.mem_append_right _ he

/-- The requests of two workers, the same for each session. -/
def pairRequests (_k : ℕ) (w : Fin 2) : SessionRequest := pairRequest w (0xc + w)

/-- The tables of both protocols have an entry from before. -/
def usedCtrl : Ctrl :=
  { pairCtrl with
    dstAddr := [⟨3, 0xe, 0xf⟩]
    createRocePacket := [⟨1, 0xe, 0xf, 0⟩] }

theorem setup_installs_two : ∃ (s : SetupRun 2 Ctrl Reply) (ws : List (Fin 2)),
    s.served.map key = [(0, 0), (0, 1)] ∧ ws.Perm (List.finRange 2) ∧
      Installed .rdma 0xa 0xb usedCtrl (ws.map (pairRequests 0)) s.ctrl := by
  have hrun : ((machine (fun k w => Protocol.rdma.request (pairRequests k w)) usedCtrl).run (new 2 Reply usedCtrl)
      [.call 1 5, .call 0 7, .resume 1, .call 1 0, .call 0 0, .call 0 0, .resume 1, .call 1 0, .call 0 0, .call 1 0,
        .resume 0]).map (fun s => (s.returned 0, s.served)) = some (4, [(0, 0, .success), (0, 1, .success)]) := by
    decide +kernel
  obtain ⟨s, hs, heq⟩ := Option.map_eq_some_iff.mp hrun
  rw [Prod.mk.injEq] at heq
  obtain ⟨hreturned, hserved⟩ := heq
  have hr : (machine (fun k w => Protocol.rdma.request (pairRequests k w)) usedCtrl).Reachable s := .run (.init rfl) hs
  obtain ⟨ws, hperm, hinst⟩ := setup_installs rfl (fun _ _ => rfl) hr (k := 0) (w := 0) (fun e he _ => by
    rw [hserved] at he
    simp only [List.mem_cons, List.not_mem_nil, or_false] at he
    rcases he with rfl | rfl <;> rfl) (by rw [hreturned]) (by rw [hreturned]; decide)
  exact ⟨s, ws, by rw [hserved]; rfl, hperm, hinst⟩

end SetupRun

end SwitchML.Controller
