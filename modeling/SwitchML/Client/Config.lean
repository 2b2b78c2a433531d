/-
The client library's configuration and its validation. `Config::Validate` stops
the program on values it cannot use and otherwise rounds
`max_outstanding_packets`, first to a multiple of the number of worker threads
and then, for RDMA, to a multiple of the packets that one message of every
thread has. The rounding is in 64-bit arithmetic, but the field it is stored in
has 32 bits: a value that is rounded up beyond these is stored without its top
bit. And the first line of the function already divides by the number of
threads, which may be zero.
-/
import SwitchML.Lib.Rounding

namespace SwitchML.Client

open Rounding

/-! ## The configuration -/

/-- The values of `general.backend` that the validation tells apart. -/
inductive BackendName
  | dummy
  | dpdk
  | rdma
  | other
  deriving DecidableEq

/-- The backends that the library was compiled with. -/
structure Build where
  dpdk : Bool
  rdma : Bool

/-- The fields of the configuration that the validation reads. -/
structure Config where
  numWorkerThreads : BitVec 16
  maxOutstandingPackets : BitVec 32
  packetNumel : BitVec 64
  backend : BackendName
  msgNumel : BitVec 32
  deriving DecidableEq

/-- The ways in which the program stops. -/
inductive Stop
  | fatal (message : String)
  | divisionByZero
  deriving DecidableEq

namespace Config

/-- `new_mop` or `new_mop2`: the given number of units, or one more if that is
nearer. The products are below 2^50, so the 64 bits of the code hold them. -/
def newMop (perThread unit mop : ℕ) : ℕ :=
  if perThread * unit < mop ∧ mop - perThread * unit > (perThread + 1) * unit - mop then
    (perThread + 1) * unit
  else
    perThread * unit

/-- `max_outstanding_packets` is only stored when it has to change. -/
def roundPackets (perThread unit : ℕ) (c : Config) : Config :=
  if c.maxOutstandingPackets.toNat % unit ≠ 0 then
    { c with maxOutstandingPackets := BitVec.ofNat 32 (newMop perThread unit c.maxOutstandingPackets.toNat) }
  else
    c

/-- The part of `Config::Validate` before the backends. -/
def validateThreads (c : Config) : Except Stop Config :=
  let mop := c.maxOutstandingPackets.toNat
  let nwt := c.numWorkerThreads.toNat
  if nwt = 0 then
    .error .divisionByZero
  else if mop / nwt = 0 then
    .error (.fatal ("The chosen max_outstanding_packets must be at least equal to num_worker_threads " ++
      "to let each worker thread send at least 1 packet"))
  else
    .ok (c.roundPackets (mop / nwt) nwt)

/-- Both hardware backends support two packet sizes. -/
def BadPacketNumel (c : Config) : Prop := c.packetNumel.toNat ≠ 256 ∧ c.packetNumel.toNat ≠ 64

instance (c : Config) : Decidable c.BadPacketNumel := inferInstanceAs (Decidable (_ ∧ _))

def badPacketNumel (name : String) (c : Config) : Stop :=
  .fatal ("The " ++ name ++ " backend only supports 256 or 64 elements per packet. '" ++
    toString c.packetNumel.toNat ++ "' is not valid.")

def validateDpdk (c : Config) : Except Stop Config :=
  if c.BadPacketNumel then .error (c.badPacketNumel "DPDK") else .ok c

def numPktsPerMsg (c : Config) : ℕ := c.msgNumel.toNat / c.packetNumel.toNat

/-- `num_worker_threads * num_pkts_per_msg`. -/
def roundUnit (c : Config) : ℕ := c.numWorkerThreads.toNat * c.numPktsPerMsg

def roundMsgNumel (c : Config) : Config :=
  if c.msgNumel.toNat % c.packetNumel.toNat ≠ 0 then
    { c with msgNumel := BitVec.ofNat 32 (c.numPktsPerMsg * c.packetNumel.toNat) }
  else
    c

/-- The code computes `num_pkts_per_msg` before it rounds `msg_numel`. -/
def validateRdma (c : Config) : Except Stop Config :=
  if c.BadPacketNumel then
    .error (c.badPacketNumel "RDMA")
  else if c.msgNumel.toNat < c.packetNumel.toNat then
    .error (.fatal "rdma.msg_numel cannot be less than general.packet_numel.")
  else
    .ok (c.roundMsgNumel.roundPackets (max 1 (c.maxOutstandingPackets.toNat / c.roundUnit)) c.roundUnit)

def IsDpdk (b : Build) (c : Config) : Prop := b.dpdk = true ∧ c.backend = .dpdk

def IsRdma (b : Build) (c : Config) : Prop := b.rdma = true ∧ c.backend = .rdma

instance (b : Build) (c : Config) : Decidable (c.IsDpdk b) := inferInstanceAs (Decidable (_ ∧ _))

instance (b : Build) (c : Config) : Decidable (c.IsRdma b) := inferInstanceAs (Decidable (_ ∧ _))

/-- `Config::Validate`. -/
def validate (b : Build) (c : Config) : Except Stop Config :=
  c.validateThreads.bind fun c =>
  (if c.IsDpdk b then c.validateDpdk else .ok c).bind fun c =>
  if c.IsRdma b then c.validateRdma else .ok c

/-! ## One rounding -/

variable {perThread unit : ℕ} {b : Build} {c : Config}

/-- The code's choice is the nearest multiple, for at least one unit a thread. -/
theorem newMop_eq {mop : ℕ} (hunit : 0 < unit) :
    newMop (max 1 (mop / unit)) unit mop = nearestMultiple unit mop := by
  have hdiv := Nat.div_add_mod' mop unit
  have hlt := Nat.mod_lt mop hunit
  have hsucc : (mop / unit + 1) * unit = mop / unit * unit + unit := by rw [Nat.add_mul, Nat.one_mul]
  unfold newMop nearestMultiple
  rcases Nat.eq_zero_or_pos (mop / unit) with h0 | hpos
  · rw [h0] at hdiv
    rw [h0, max_eq_left (by omega), if_neg (by omega), if_neg (by omega)]
  · rw [max_eq_right hpos, hsucc]
    by_cases hup : unit < 2 * (mop % unit)
    · rw [if_pos (by omega), if_pos ⟨hpos, hup⟩]
    · rw [if_neg (by omega), if_neg (by omega)]

@[simp]
theorem roundPackets_numWorkerThreads : (c.roundPackets perThread unit).numWorkerThreads = c.numWorkerThreads := by
  unfold roundPackets
  split <;> rfl

@[simp]
theorem roundPackets_packetNumel : (c.roundPackets perThread unit).packetNumel = c.packetNumel := by
  unfold roundPackets
  split <;> rfl

@[simp]
theorem roundPackets_backend : (c.roundPackets perThread unit).backend = c.backend := by
  unfold roundPackets
  split <;> rfl

@[simp]
theorem roundPackets_msgNumel : (c.roundPackets perThread unit).msgNumel = c.msgNumel := by
  unfold roundPackets
  split <;> rfl

/-- A multiple stays as it is. -/
theorem roundPackets_of_dvd (h : unit ∣ c.maxOutstandingPackets.toNat) : c.roundPackets perThread unit = c := by
  rw [roundPackets, if_neg (by simpa using Nat.mod_eq_zero_of_dvd h)]

/-- What is stored is the nearest multiple, as far as 32 bits hold it. -/
theorem roundPackets_toNat (hunit : 0 < unit) (hpos : 0 < c.maxOutstandingPackets.toNat) :
    (c.roundPackets (max 1 (c.maxOutstandingPackets.toNat / unit)) unit).maxOutstandingPackets.toNat =
      nearestMultiple unit c.maxOutstandingPackets.toNat % 2 ^ 32 := by
  by_cases hdvd : unit ∣ c.maxOutstandingPackets.toNat
  · rw [roundPackets_of_dvd hdvd, nearestMultiple_of_dvd hpos hdvd, Nat.mod_eq_of_lt c.maxOutstandingPackets.isLt]
  · have hmod : c.maxOutstandingPackets.toNat % unit ≠ 0 := fun h => hdvd (Nat.dvd_of_mod_eq_zero h)
    rw [roundPackets, if_pos hmod, newMop_eq hunit]
    exact BitVec.toNat_ofNat _ _

/-- The stored value is a positive multiple exactly if the nearest one has 32
bits. It is then the nearest one. -/
theorem stored_iff (hunit : 0 < unit) (hpos : 0 < c.maxOutstandingPackets.toNat) :
    (0 < nearestMultiple unit c.maxOutstandingPackets.toNat % 2 ^ 32 ∧
        unit ∣ nearestMultiple unit c.maxOutstandingPackets.toNat % 2 ^ 32) ↔
      nearestMultiple unit c.maxOutstandingPackets.toNat < 2 ^ 32 := by
  have hmop := c.maxOutstandingPackets.isLt
  constructor
  · intro ⟨hstored, hdvd⟩
    by_contra hge
    have hle := Nat.le_of_dvd hstored hdvd
    rcases Nat.lt_or_ge c.maxOutstandingPackets.toNat unit with hlt | hge'
    · -- one unit, which itself has more than 32 bits
      have heq : nearestMultiple unit c.maxOutstandingPackets.toNat = unit := by
        rw [nearestMultiple, Nat.div_eq_of_lt hlt, if_neg (by omega), max_eq_left (by omega), Nat.one_mul]
      rw [heq] at hge hle
      have := Nat.mod_lt unit (Nat.two_pow_pos 32)
      omega
    · -- rounded up, so that less than half a unit is stored
      have hnear := nearestMultiple_le hge'
      omega
  · intro hlt
    rw [Nat.mod_eq_of_lt hlt]
    exact ⟨nearestMultiple_pos hunit _, dvd_nearestMultiple _ _⟩

/-! ## The parts of the validation -/

theorem validateThreads_ok (h : 0 < c.numWorkerThreads.toNat)
    (hle : c.numWorkerThreads.toNat ≤ c.maxOutstandingPackets.toNat) :
    c.validateThreads = .ok (c.roundPackets (max 1 (c.maxOutstandingPackets.toNat / c.numWorkerThreads.toNat))
      c.numWorkerThreads.toNat) := by
  have hpos := Nat.div_pos hle h
  rw [max_eq_right hpos]
  simp only [validateThreads]
  rw [if_neg (by omega), if_neg (by omega)]

theorem validateThreads_of_dvd (h : 0 < c.maxOutstandingPackets.toNat)
    (hdvd : c.numWorkerThreads.toNat ∣ c.maxOutstandingPackets.toNat) : c.validateThreads = .ok c := by
  rw [validateThreads_ok (Nat.pos_of_dvd_of_pos hdvd h) (Nat.le_of_dvd h hdvd), roundPackets_of_dvd hdvd]

theorem numPktsPerMsg_pos (hgood : ¬ c.BadPacketNumel) (h : c.packetNumel.toNat ≤ c.msgNumel.toNat) :
    0 < c.numPktsPerMsg := by
  unfold BadPacketNumel at hgood
  exact Nat.div_pos h (by omega)

@[simp]
theorem roundMsgNumel_numWorkerThreads : c.roundMsgNumel.numWorkerThreads = c.numWorkerThreads := by
  unfold roundMsgNumel
  split <;> rfl

@[simp]
theorem roundMsgNumel_maxOutstandingPackets : c.roundMsgNumel.maxOutstandingPackets = c.maxOutstandingPackets := by
  unfold roundMsgNumel
  split <;> rfl

@[simp]
theorem roundMsgNumel_packetNumel : c.roundMsgNumel.packetNumel = c.packetNumel := by
  unfold roundMsgNumel
  split <;> rfl

@[simp]
theorem roundMsgNumel_backend : c.roundMsgNumel.backend = c.backend := by
  unfold roundMsgNumel
  split <;> rfl

/-- Rounding down always fits. -/
theorem roundMsgNumel_toNat : c.roundMsgNumel.msgNumel.toNat = c.numPktsPerMsg * c.packetNumel.toNat := by
  have hdiv := Nat.div_add_mod' c.msgNumel.toNat c.packetNumel.toNat
  have hlt := c.msgNumel.isLt
  unfold roundMsgNumel
  split
  · rw [numPktsPerMsg, BitVec.toNat_ofNat, Nat.mod_eq_of_lt (by omega)]
  · rw [numPktsPerMsg]
    omega

theorem roundUnit_roundMsgNumel (h : 0 < c.packetNumel.toNat) : c.roundMsgNumel.roundUnit = c.roundUnit := by
  rw [roundUnit, numPktsPerMsg, roundMsgNumel_toNat, roundMsgNumel_packetNumel, Nat.mul_div_cancel _ h,
    roundMsgNumel_numWorkerThreads]
  rfl

@[simp]
theorem roundUnit_roundPackets : (c.roundPackets perThread unit).roundUnit = c.roundUnit := by
  simp [roundUnit, numPktsPerMsg]

theorem roundMsgNumel_of_dvd (h : c.packetNumel.toNat ∣ c.msgNumel.toNat) : c.roundMsgNumel = c := by
  rw [roundMsgNumel, if_neg (by simpa using Nat.mod_eq_zero_of_dvd h)]

/-! ## The whole validation -/

/-- A configuration that needs no rounding. -/
structure Normalised (b : Build) (c : Config) : Prop where
  pos : 0 < c.maxOutstandingPackets.toNat
  threads : c.numWorkerThreads.toNat ∣ c.maxOutstandingPackets.toNat
  message : c.IsRdma b → 0 < c.msgNumel.toNat ∧ c.packetNumel.toNat ∣ c.msgNumel.toNat
  messages : c.IsRdma b → c.roundUnit ∣ c.maxOutstandingPackets.toNat

/-- The second rounding, of what the first one stored, is to a nearest multiple. -/
def Nearest (b : Build) (c c' : Config) : Prop :=
  c'.IsRdma b → ∀ rounded, c.validateThreads = .ok rounded → ∀ m, 0 < m → c'.roundUnit ∣ m →
    Nat.dist rounded.maxOutstandingPackets.toNat c'.maxOutstandingPackets.toNat ≤
      Nat.dist rounded.maxOutstandingPackets.toNat m

/-- What a call has to do: it stops with a message, or it returns a normalised
configuration that another call leaves as it is. -/
def Validates (b : Build) (c : Config) : Prop :=
  match c.validate b with
  | .error (.fatal _) => True
  | .error .divisionByZero => False
  | .ok c' => c'.Normalised b ∧ c.Nearest b c' ∧ c'.validate b = .ok c'

/-- The condition on a configuration: it is stopped by one of the checks, or what
it is rounded to still has 32 bits. -/
def Storable (b : Build) (c : Config) : Prop :=
  let rounded := nearestMultiple c.numWorkerThreads.toNat c.maxOutstandingPackets.toNat
  0 < c.numWorkerThreads.toNat ∧
    (c.maxOutstandingPackets.toNat < c.numWorkerThreads.toNat ∨
      if c.IsRdma b then
        c.BadPacketNumel ∨ c.msgNumel.toNat < c.packetNumel.toNat ∨
          (0 < rounded % 2 ^ 32 ∧ nearestMultiple c.roundUnit (rounded % 2 ^ 32) < 2 ^ 32)
      else
        (c.IsDpdk b ∧ c.BadPacketNumel) ∨ rounded < 2 ^ 32)

/-- A configuration with a name has one backend. -/
theorem IsRdma.not_isDpdk (h : c.IsRdma b) : ¬ c.IsDpdk b := by
  intro hd
  have heq := h.2.symm.trans hd.2
  cases heq

/-- `max_outstanding_packets / num_worker_threads`. -/
def maxOutstandingPkts (c : Config) : ℕ := c.maxOutstandingPackets.toNat / c.numWorkerThreads.toNat

/-- What is left of an accepted configuration of the dummy backend. -/
theorem validate_dummy {c' : Config} (hd : c.backend = .dummy) (h : c.validate b = .ok c') :
    0 < c.numWorkerThreads.toNat ∧ c.numWorkerThreads.toNat ≤ c.maxOutstandingPackets.toNat ∧
      c' = c.roundPackets (max 1 (c.maxOutstandingPackets.toNat / c.numWorkerThreads.toNat))
        c.numWorkerThreads.toNat := by
  rcases Nat.eq_zero_or_pos c.numWorkerThreads.toNat with h0 | hpos
  · simp [validate, validateThreads, h0, Except.bind] at h
  rcases Nat.lt_or_ge c.maxOutstandingPackets.toNat c.numWorkerThreads.toNat with hlt | hle
  · simp [validate, validateThreads, Nat.div_eq_of_lt hlt, hpos.ne', Except.bind] at h
  refine ⟨hpos, hle, ?_⟩
  rw [validate, validateThreads_ok hpos hle] at h
  simp only [Except.bind, IsDpdk, IsRdma, roundPackets_backend, hd, reduceCtorEq, and_false, if_false,
    Except.ok.injEq] at h
  exact h.symm

/-- The threads of an accepted configuration are those it had, and there are some. -/
theorem validate_numWorkerThreads {c' : Config} (h : c.validate b = .ok c') :
    c'.numWorkerThreads = c.numWorkerThreads ∧ 0 < c.numWorkerThreads.toNat := by
  rcases Nat.eq_zero_or_pos c.numWorkerThreads.toNat with h0 | hpos
  · simp [validate, validateThreads, h0, Except.bind] at h
  refine ⟨?_, hpos⟩
  rcases Nat.lt_or_ge c.maxOutstandingPackets.toNat c.numWorkerThreads.toNat with hlt | hle
  · simp [validate, validateThreads, Nat.div_eq_of_lt hlt, hpos.ne', Except.bind] at h
  rw [validate, validateThreads_ok hpos hle, Except.bind] at h
  split at h
  · unfold validateDpdk at h
    split at h
    · cases h
    · rename_i hd _
      have hr := fun hr : IsRdma b _ => hr.not_isDpdk hd
      rw [Except.bind, if_neg hr, Except.ok.injEq] at h
      rw [← h, roundPackets_numWorkerThreads]
  · rw [Except.bind] at h
    split at h
    · unfold validateRdma at h
      split at h
      · cases h
      split at h
      · cases h
      rw [Except.ok.injEq] at h
      simp [← h]
    · rw [Except.ok.injEq] at h
      rw [← h, roundPackets_numWorkerThreads]

/-- The validation leaves a normalised configuration as it is. -/
theorem Normalised.validate_eq (h : c.Normalised b) (hgood : c.IsDpdk b ∨ c.IsRdma b → ¬ c.BadPacketNumel) :
    c.validate b = .ok c := by
  have hdpdk : (if c.IsDpdk b then c.validateDpdk else .ok c) = .ok c := by
    split
    · rename_i hd
      rw [validateDpdk, if_neg (hgood (.inl hd))]
    · rfl
  have hrdma : (if c.IsRdma b then c.validateRdma else .ok c) = .ok c := by
    split
    · rename_i hr
      obtain ⟨hpos, hdvd⟩ := h.message hr
      have hle := Nat.le_of_dvd hpos hdvd
      rw [validateRdma, if_neg (hgood (.inr hr)), if_neg (by omega), roundMsgNumel_of_dvd hdvd,
        roundPackets_of_dvd (h.messages hr)]
    · rfl
  rw [validate, validateThreads_of_dvd h.pos h.threads, Except.bind, hdpdk, Except.bind, hrdma]

/-- After the first rounding, without RDMA. -/
theorem validates_threads (hpos : 0 < c.numWorkerThreads.toNat)
    (hle : c.numWorkerThreads.toNat ≤ c.maxOutstandingPackets.toNat) (hr : ¬ c.IsRdma b)
    (hgood : c.IsDpdk b → ¬ c.BadPacketNumel) :
    c.Validates b ↔ nearestMultiple c.numWorkerThreads.toNat c.maxOutstandingPackets.toNat < 2 ^ 32 := by
  have hmop : 0 < c.maxOutstandingPackets.toNat := by omega
  set c' := c.roundPackets (max 1 (c.maxOutstandingPackets.toNat / c.numWorkerThreads.toNat))
    c.numWorkerThreads.toNat with hc'
  have hr' : ¬ c'.IsRdma b := by simpa [IsRdma, hc'] using hr
  have hgood' : c'.IsDpdk b → ¬ c'.BadPacketNumel := by simpa [IsDpdk, BadPacketNumel, hc'] using hgood
  have hdpdk : (if c'.IsDpdk b then c'.validateDpdk else .ok c') = .ok c' := by
    split
    · rename_i hd
      rw [validateDpdk, if_neg (hgood' hd)]
    · rfl
  have hvalidate : c.validate b = .ok c' := by
    rw [validate, validateThreads_ok hpos hle, ← hc', Except.bind, hdpdk, Except.bind, if_neg hr']
  have hstored := roundPackets_toNat hpos hmop
  rw [← hc'] at hstored
  rw [Validates, hvalidate, ← stored_iff hpos hmop, ← hstored]
  constructor
  · intro ⟨h, _, _⟩
    have hthreads := h.threads
    rw [hc', roundPackets_numWorkerThreads, ← hc'] at hthreads
    exact ⟨h.pos, hthreads⟩
  · intro ⟨hpos', hdvd⟩
    have hnormal : c'.Normalised b :=
      { pos := hpos'
        threads := by rwa [hc', roundPackets_numWorkerThreads, ← hc']
        message := fun h => absurd h hr'
        messages := fun h => absurd h hr' }
    exact ⟨hnormal, fun h => absurd h hr', hnormal.validate_eq fun h => hgood' (h.resolve_right hr')⟩

/-- After both roundings. -/
theorem validates_rdma (hpos : 0 < c.numWorkerThreads.toNat)
    (hle : c.numWorkerThreads.toNat ≤ c.maxOutstandingPackets.toNat) (hr : c.IsRdma b)
    (hgood : ¬ c.BadPacketNumel) (hmsg : c.packetNumel.toNat ≤ c.msgNumel.toNat) :
    c.Validates b ↔
      0 < nearestMultiple c.numWorkerThreads.toNat c.maxOutstandingPackets.toNat % 2 ^ 32 ∧
        nearestMultiple c.roundUnit
          (nearestMultiple c.numWorkerThreads.toNat c.maxOutstandingPackets.toNat % 2 ^ 32) < 2 ^ 32 := by
  set c₁ := c.roundPackets (max 1 (c.maxOutstandingPackets.toNat / c.numWorkerThreads.toNat))
    c.numWorkerThreads.toNat with hc₁
  have hthreads := validateThreads_ok hpos hle
  rw [← hc₁] at hthreads
  have hpkt : 0 < c.packetNumel.toNat := by
    unfold BadPacketNumel at hgood
    omega
  have hunit₁ : c₁.roundUnit = c.roundUnit := roundUnit_roundPackets
  have hunit : 0 < c.roundUnit := Nat.mul_pos hpos (numPktsPerMsg_pos hgood hmsg)
  have hstored := roundPackets_toNat hpos (c := c) (by omega)
  rw [← hc₁] at hstored
  set c' := c₁.roundMsgNumel.roundPackets (max 1 (c₁.maxOutstandingPackets.toNat / c₁.roundUnit))
    c₁.roundUnit with hc'
  have hr₁ : c₁.IsRdma b := by simpa [IsRdma, hc₁] using hr
  have hr' : c'.IsRdma b := by simpa [IsRdma, hc'] using hr₁
  have hgood₁ : ¬ c₁.BadPacketNumel := by simpa [BadPacketNumel, hc₁] using hgood
  have hgood' : ¬ c'.BadPacketNumel := by simpa [BadPacketNumel, hc'] using hgood₁
  have hvalidate : c.validate b = .ok c' := by
    rw [validate, hthreads, Except.bind, if_neg hr₁.not_isDpdk, Except.bind, if_pos hr₁, validateRdma,
      if_neg hgood₁, if_neg (by simp [hc₁]; omega)]
  have hunit' : c'.roundUnit = c.roundUnit := by
    rw [hc', roundUnit_roundPackets, roundUnit_roundMsgNumel (by simpa [hc₁] using hpkt), hunit₁]
  rw [Validates, hvalidate, ← hstored]
  rcases Nat.eq_zero_or_pos c₁.maxOutstandingPackets.toNat with h0 | hpos₁
  · -- zero is a multiple and stays
    have hsame : c'.maxOutstandingPackets = c₁.maxOutstandingPackets := by
      rw [hc', roundPackets_of_dvd (by simp [h0]), roundMsgNumel_maxOutstandingPackets]
    constructor
    · intro ⟨h, _, _⟩
      have := h.pos
      rw [hsame] at this
      omega
    · intro ⟨h, _⟩
      omega
  · have hstored' : c'.maxOutstandingPackets.toNat =
        nearestMultiple c.roundUnit c₁.maxOutstandingPackets.toNat % 2 ^ 32 := by
      have hround := roundPackets_toNat hunit (c := c₁.roundMsgNumel) (by simpa using hpos₁)
      rw [roundMsgNumel_maxOutstandingPackets] at hround
      rw [hc', hunit₁, hround]
    have hiff := stored_iff hunit hpos₁
    rw [← hstored'] at hiff
    rw [and_iff_right hpos₁, ← hiff]
    constructor
    · intro ⟨h, _, _⟩
      exact ⟨h.pos, hunit' ▸ h.messages hr'⟩
    · intro ⟨hpos', hdvd⟩
      have hmsgNumel : c'.msgNumel.toNat = c.numPktsPerMsg * c.packetNumel.toNat := by
        rw [hc', roundPackets_msgNumel, roundMsgNumel_toNat]
        simp [numPktsPerMsg, hc₁]
      have hpacketNumel : c'.packetNumel = c.packetNumel := by simp [hc', hc₁]
      have hnwt : c'.numWorkerThreads = c.numWorkerThreads := by simp [hc', hc₁]
      have hnormal : c'.Normalised b :=
        { pos := hpos'
          threads := hnwt ▸ (Nat.dvd_mul_right _ _).trans hdvd
          message := fun _ => by
            rw [hmsgNumel, hpacketNumel]
            exact ⟨Nat.mul_pos (numPktsPerMsg_pos hgood hmsg) hpkt, Nat.dvd_mul_left _ _⟩
          messages := fun _ => hunit' ▸ hdvd }
      refine ⟨hnormal, ?_, hnormal.validate_eq fun _ => hgood'⟩
      intro _ rounded hrounded m hm hmdvd
      rw [hthreads, Except.ok.injEq] at hrounded
      subst hrounded
      rw [hstored', Nat.mod_eq_of_lt (hiff.mp ⟨hpos', hdvd⟩)]
      exact nearestMultiple_nearest hunit hm (hunit' ▸ hmdvd)

/-- The validation normalises exactly the configurations for which no rounded
value leaves its field. -/
theorem validates_iff (b : Build) (c : Config) : c.Validates b ↔ c.Storable b := by
  unfold Storable
  rcases Nat.eq_zero_or_pos c.numWorkerThreads.toNat with h0 | hpos
  · have hvalidate : c.validate b = .error .divisionByZero := by
      simp [validate, validateThreads, h0, Except.bind]
    simp [Validates, hvalidate, h0]
  rw [and_iff_right hpos]
  rcases Nat.lt_or_ge c.maxOutstandingPackets.toNat c.numWorkerThreads.toNat with hlt | hle
  · have hdiv := Nat.div_eq_of_lt hlt
    simp [Validates, validate, validateThreads, hdiv, hpos.ne', hlt, Except.bind]
  rw [or_iff_right (Nat.not_lt.mpr hle)]
  have hthreads := validateThreads_ok hpos hle
  set c₁ := c.roundPackets (max 1 (c.maxOutstandingPackets.toNat / c.numWorkerThreads.toNat))
    c.numWorkerThreads.toNat with hc₁
  have hbad₁ : c₁.BadPacketNumel ↔ c.BadPacketNumel := by simp [BadPacketNumel, hc₁]
  by_cases hr : c.IsRdma b
  · have hr₁ : c₁.IsRdma b := by simpa [IsRdma, hc₁] using hr
    have hvalidate : c.validate b = c₁.validateRdma := by
      rw [validate, hthreads, Except.bind, if_neg hr₁.not_isDpdk, Except.bind, if_pos hr₁]
    rw [if_pos hr]
    by_cases hbad : c.BadPacketNumel
    · simp [Validates, hvalidate, validateRdma, hbad₁, hbad, badPacketNumel]
    rcases Nat.lt_or_ge c.msgNumel.toNat c.packetNumel.toNat with hmsg | hmsg
    · have hmsg₁ : c₁.msgNumel.toNat < c₁.packetNumel.toNat := by simpa [hc₁] using hmsg
      simp [Validates, hvalidate, validateRdma, hbad₁, hbad, hmsg, hmsg₁]
    rw [validates_rdma hpos hle hr hbad hmsg, or_iff_right hbad, or_iff_right (Nat.not_lt.mpr hmsg)]
  · rw [if_neg hr]
    by_cases hbad : c.IsDpdk b ∧ c.BadPacketNumel
    · have hd₁ : c₁.IsDpdk b := by simpa [IsDpdk, hc₁] using hbad.1
      have hvalidate : c.validate b = .error (c₁.badPacketNumel "DPDK") := by
        rw [validate, hthreads, Except.bind, if_pos hd₁, validateDpdk, if_pos (hbad₁.mpr hbad.2)]
        rfl
      simp [Validates, hvalidate, hbad, badPacketNumel]
    · rw [or_iff_right hbad]
      exact validates_threads hpos hle hr fun hd hb => hbad ⟨hd, hb⟩

/-- Thirteen threads and the largest window: the nearest multiple is 2^32 + 4, so
that 4 is stored. No thread gets a packet from that. -/
def overflowing : Config where
  numWorkerThreads := 13
  maxOutstandingPackets := 4294967295
  packetNumel := 256
  backend := .dummy
  msgNumel := 1024

/-- A configuration without threads reaches a division by zero, and a window that
is rounded up beyond 32 bits is not normalised. -/
theorem not_validates : ¬ Validates ⟨true, true⟩ { overflowing with numWorkerThreads := 0 } ∧
    ¬ Validates ⟨true, true⟩ overflowing := by
  refine ⟨fun h => h, fun h => ?_⟩
  have hlt := (validates_threads (by decide) (by decide) (by decide) (by decide)).mp h
  exact absurd hlt (by decide)

end Config

end SwitchML.Client
