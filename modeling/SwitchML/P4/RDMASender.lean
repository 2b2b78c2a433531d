/-
`rdma_sender.p4`: the response to a worker of the RoCE protocol. The headers are
those of the worker whose ID is in the metadata. The queue pair is found by this
ID and the pool index, and the sequence number comes from a register of the queue
pair's own entry, which counts in 32 bits where the packet has 24.
-/
import SwitchML.P4.UDPSender

namespace SwitchML.P4

open Tna

namespace RDMASender

/-- An entry of `create_roce_packet`; only one of its two actions has a key. -/
structure CreateEntry where
  workerId : WorkerId
  dest : Address
  rkey : Option (BitVec 32)

structure Tables where
  switchMacAndIp : Option Address
  createRocePacket : List CreateEntry

/-- An entry of `fill_in_qpn_and_psn` with its cell of the direct register. -/
structure QpnEntry where
  workerId : WorkerId
  poolIndex : Tern 15
  qpn : BitVec 24
  psn : BitVec 32
  deriving DecidableEq

def QpnEntry.hits (e : QpnEntry) (workerId : WorkerId) (poolIndex : PoolIndex) : Bool :=
  decide (e.workerId = workerId) && e.poolIndex.hits poolIndex

/-- Emit a 24-bit sequence number and increment. -/
def psnAction : RegisterAction (BitVec 32) (BitVec 32) := fun value => (value + 1, value &&& 0x00ffffff)

def fillInRoceFields (switch dest : Address) (eg : Eg) : Eg :=
  { eg with
    hdr := { eg.hdr with
      -- Ensure we don't have a switchml header
      switchml := none
      exponents := none
      ethernet := some { dstAddr := dest.mac, srcAddr := switch.mac }
      ipv4 := some { srcAddr := switch.ip, dstAddr := dest.ip }
      -- form a consistent source port for this worker
      udp := some { srcPort := 1#1 ++ eg.md.workerId.extractLsb' 0 15, dstPort := 4791 }
      -- to be filled in later: opcode, queue pair and sequence number
      ibBth := some { eg.hdr.ibBth.getD default with
        opcode := .UC_RDMA_WRITE_ONLY, partitionKey := 0xffff, dstQp := 0 } } }

/-- Fill in the headers; the key is kept for `set_rdma`. -/
def createRocePacket (tables : Tables) (eg : Eg) : Eg × BitVec 32 :=
  match lookup tables.createRocePacket (fun e => decide (e.workerId = eg.md.workerId)) id with
  | some e => (fillInRoceFields (tables.switchMacAndIp.getD default) e.dest eg, e.rkey.getD default)
  | none => (eg, default)

/-- Fields of a header that is not valid are not emitted. -/
def addQpnAndPsn (qpn psn : BitVec 24) (eg : Eg) : Eg :=
  { eg with hdr := { eg.hdr with ibBth := eg.hdr.ibBth.map fun bth => { bth with dstQp := qpn, psn := psn } } }

/-- The first entry that matches runs the action on its register. -/
def executePsn (workerId : WorkerId) (poolIndex : PoolIndex) : List QpnEntry → List QpnEntry × Option (BitVec 24 × BitVec 24)
  | [] => ([], none)
  | e :: entries =>
    if e.hits workerId poolIndex then
      ({ e with psn := (psnAction e.psn).1 } :: entries, some (e.qpn, (psnAction e.psn).2.extractLsb' 0 24))
    else
      let r := executePsn workerId poolIndex entries
      (e :: r.1, r.2)

def fillInQpnAndPsn (entries : List QpnEntry) (eg : Eg) : List QpnEntry × Eg :=
  let r := executePsn eg.md.workerId eg.md.poolIndex entries
  (r.1, match r.2 with
    | some (qpn, psn) => addQpnAndPsn qpn psn eg
    | none => eg)

def setOpcodeCommon (opcode : IbOpcode) (eg : Eg) : Eg :=
  { eg with hdr := { eg.hdr with ibBth := eg.hdr.ibBth.map fun bth => { bth with opcode := opcode } } }

def setImmediate (eg : Eg) : Eg :=
  { eg with hdr := { eg.hdr with
      ibImmediate := some { immediate := eg.md.msgId ++ eg.md.e0.toBitVec ++ eg.md.e1.toBitVec } } }

def setRdma (rkey : BitVec 32) (eg : Eg) : Eg :=
  { eg with hdr := { eg.hdr with ibReth := some { addr := eg.rdmaAddr, rKey := rkey, len := eg.md.tsi } } }

/-- Fill in the opcode by the packet's place in the message. -/
def setOpcodes (rkey : BitVec 32) (eg : Eg) : Eg :=
  match eg.md.firstPacket, eg.md.lastPacket with
  | true, false => setRdma rkey (setOpcodeCommon .UC_RDMA_WRITE_FIRST eg)
  | false, false => setOpcodeCommon .UC_RDMA_WRITE_MIDDLE eg
  | false, true => setImmediate (setOpcodeCommon .UC_RDMA_WRITE_LAST_IMMEDIATE eg)
  | true, true => setImmediate (setRdma rkey (setOpcodeCommon .UC_RDMA_WRITE_ONLY_IMMEDIATE eg))

def apply (tables : Tables) (entries : List QpnEntry) (eg : Eg) : List QpnEntry × Eg :=
  let created := createRocePacket tables eg
  let filled := fillInQpnAndPsn entries created.1
  (filled.1, setOpcodes created.2 filled.2)

/-! ## Registers -/

variable {entries : List QpnEntry} {e : QpnEntry} {workerId : WorkerId} {poolIndex : PoolIndex}

/-- The entry after it has handed out `n` sequence numbers. -/
def QpnEntry.advanced (e : QpnEntry) (n : ℕ) : QpnEntry := { e with psn := e.psn + BitVec.ofNat 32 n }

@[simp]
theorem QpnEntry.advanced_zero (e : QpnEntry) : e.advanced 0 = e := by
  rw [QpnEntry.advanced, BitVec.add_zero]

theorem QpnEntry.advanced_advanced (e : QpnEntry) (m n : ℕ) : (e.advanced m).advanced n = e.advanced (m + n) := by
  simp only [QpnEntry.advanced, BitVec.ofNat_add, BitVec.add_assoc]

@[simp]
theorem QpnEntry.advanced_hits (e : QpnEntry) (n : ℕ) : (e.advanced n).hits = e.hits := rfl

/-- No packet matches two entries. -/
def Apart (entries : List QpnEntry) : Prop :=
  entries.Pairwise fun e e' => ∀ workerId poolIndex, e.hits workerId poolIndex = true → e'.hits workerId poolIndex = false

/-- The sequence number of a register value; its wrap at 32 bits does not show. -/
theorem psnAction_read (psn : BitVec 32) : (psnAction psn).2.extractLsb' 0 24 = BitVec.ofNat 24 psn.toNat := by
  have hmask : (0x00ffffff : BitVec 32).toNat = 2 ^ 24 - 1 := by decide
  apply BitVec.eq_of_toNat_eq
  rw [psnAction, BitVec.extractLsb'_toNat, BitVec.toNat_and, hmask, Nat.shiftRight_zero, BitVec.toNat_ofNat,
    Nat.and_two_pow_sub_one_eq_mod, Nat.mod_mod]

theorem QpnEntry.advanced_psn (e : QpnEntry) (m n : ℕ) :
    BitVec.ofNat 24 ((e.advanced m).psn.toNat + n) = BitVec.ofNat 24 (e.psn.toNat + (m + n)) := by
  apply BitVec.eq_of_toNat_eq
  rw [QpnEntry.advanced, BitVec.toNat_add, BitVec.toNat_ofNat, BitVec.toNat_ofNat, BitVec.toNat_ofNat]
  omega

/-- Each entry that matches advances by one. -/
theorem executePsn_entries (h : Apart entries) :
    (executePsn workerId poolIndex entries).1 =
      entries.map fun e => e.advanced (if e.hits workerId poolIndex then 1 else 0) := by
  induction entries with
  | nil => rfl
  | cons e entries ih =>
    obtain ⟨hhead, htail⟩ := List.pairwise_cons.mp h
    rw [executePsn, List.map_cons]
    split
    · rename_i hhit
      -- the others do not match
      have hrest : entries.map (fun e => e.advanced (if e.hits workerId poolIndex then 1 else 0)) = entries := by
        refine (List.map_congr_left fun e' he' => ?_).trans (List.map_id _)
        rw [hhead e' he' _ _ hhit]
        exact e'.advanced_zero
      rw [hrest]
      rfl
    · rw [QpnEntry.advanced_zero, ← ih htail]

/-- It is its number that is read. -/
theorem executePsn_read (h : Apart entries) (he : e ∈ entries) (hhit : e.hits workerId poolIndex = true) :
    (executePsn workerId poolIndex entries).2 = some (e.qpn, BitVec.ofNat 24 e.psn.toNat) := by
  induction entries with
  | nil => cases he
  | cons e' entries ih =>
    obtain ⟨hhead, htail⟩ := List.pairwise_cons.mp h
    rw [executePsn]
    rcases List.mem_cons.mp he with rfl | he
    · rw [if_pos hhit, psnAction_read]
    · rw [if_neg]
      · exact ih htail he
      · intro hhit'
        rw [hhead e he _ _ hhit'] at hhit
        cases hhit

/-! ## The packet -/

variable {tables : Tables} {eg : Eg}

theorem createRocePacket_md : (createRocePacket tables eg).1.md = eg.md := by
  unfold createRocePacket
  split <;> rfl

theorem setOpcodes_psn (rkey : BitVec 32) (eg : Eg) :
    (setOpcodes rkey eg).hdr.ibBth.map IbBthH.psn = eg.hdr.ibBth.map IbBthH.psn := by
  unfold setOpcodes
  split <;> simp [setRdma, setImmediate, setOpcodeCommon, Function.comp_def]

/-- The headers are there if the worker has an entry for its addresses. -/
theorem createRocePacket_ibBth (h : eg.md.workerId ∈ tables.createRocePacket.map (·.workerId)) :
    (createRocePacket tables eg).1.hdr.ibBth.isSome = true := by
  obtain ⟨e, he, hid⟩ := List.mem_map.mp h
  unfold createRocePacket lookup
  cases hfind : tables.createRocePacket.find? (fun e => decide (e.workerId = eg.md.workerId)) with
  | some e' => rfl
  | none =>
    rw [List.find?_eq_none] at hfind
    exact absurd (decide_eq_true hid) (hfind e he)

theorem apply_entries : (apply tables entries eg).1 = (executePsn eg.md.workerId eg.md.poolIndex entries).1 := by
  rw [apply, fillInQpnAndPsn, createRocePacket_md]

theorem apply_psn (hcreate : eg.md.workerId ∈ tables.createRocePacket.map (·.workerId)) {qpn psn : BitVec 24}
    (hread : (executePsn eg.md.workerId eg.md.poolIndex entries).2 = some (qpn, psn)) :
    (apply tables entries eg).2.hdr.ibBth.map IbBthH.psn = some psn := by
  obtain ⟨bth, hbth⟩ := Option.isSome_iff_exists.mp (createRocePacket_ibBth hcreate)
  rw [apply, setOpcodes_psn, fillInQpnAndPsn, createRocePacket_md, hread]
  simp [addQpnAndPsn, hbth]

end RDMASender

end SwitchML.P4
