/-
What the scheduler promises its threads: a slice of every job in the order the
jobs were enqueued, and one true return per job.
-/
import SwitchML.Client.FifoStep

namespace SwitchML.Client

open FifoScheduler

/-- The slices of a job, by thread id, are consecutive parts of its tensor that
differ in size by at most one and together are all of it. -/
structure Tiles (T : ℕ) (job : Job) : Prop where
  slice : ∀ t, (jobSlice T job t).slice =
    { inPtr := job.tensor.inPtr + sliceOffset T job.tensor.numel t * dataTypeSize job.tensor.dataType
      outPtr := job.tensor.outPtr + sliceOffset T job.tensor.numel t * dataTypeSize job.tensor.dataType
      numel := sliceNumel T job.tensor.numel t
      dataType := job.tensor.dataType }
  first : sliceOffset T job.tensor.numel 0 = 0
  next : ∀ t, sliceOffset T job.tensor.numel (t + 1) =
    sliceOffset T job.tensor.numel t + sliceNumel T job.tensor.numel t
  last : sliceOffset T job.tensor.numel (T - 1) + sliceNumel T job.tensor.numel (T - 1) = job.tensor.numel
  even : ∀ t t', sliceNumel T job.tensor.numel t ≤ sliceNumel T job.tensor.numel t' + 1
  cover : ∀ i < job.tensor.numel, ∃! t, t < T ∧ sliceOffset T job.tensor.numel t ≤ i ∧
    i < sliceOffset T job.tensor.numel t + sliceNumel T job.tensor.numel t

theorem tiles {T : ℕ} (hT : 0 < T) (job : Job) : Tiles T job where
  slice _ := rfl
  first := by rw [sliceOffset_eq, Split.start_zero]
  next t := by rw [sliceOffset_eq, sliceOffset_eq, sliceNumel_eq, Split.start_succ]
  last := by
    rw [sliceOffset_eq, sliceNumel_eq, ← Split.start_succ, Nat.sub_add_cancel hT]
    exact Split.start_self hT
  even t t' := by
    rw [sliceNumel_eq, sliceNumel_eq]
    exact Split.size_le_size_add_one
  cover i hi := by
    rw [← Split.start_self (n := job.tensor.numel) hT] at hi
    obtain ⟨t, ht, h⟩ := Split.exists_part hi
    refine ⟨t, ⟨ht, by rw [sliceOffset_eq, sliceNumel_eq]; exact h⟩, fun t' ht' => ?_⟩
    have h' := ht'.2
    rw [sliceOffset_eq, sliceNumel_eq] at h'
    exact Split.part_unique h' h

namespace Run

variable {T : ℕ} {s : Run T}

/-- The slice a thread is given the `k`-th time is its slice of the `k`-th job. -/
theorem History.got_getElem? (h : History s) {t : Fin T} {k : ℕ} {sl : JobSlice} (hk : (s.got t)[k]? = some sl) :
    ∃ job, s.jobs[k]? = some job ∧ sl = jobSlice T job t := by
  rw [h.got_eq t, List.getElem?_map, Option.map_eq_some_iff] at hk
  obtain ⟨job, hjob, rfl⟩ := hk
  rw [List.getElem?_take] at hjob
  split at hjob
  · exact ⟨job, hjob, rfl⟩
  · cases hjob

theorem History.trues_eq (h : History s) {job : Job} (hj : job ∈ s.jobs) :
    s.notified job.id ≤ T ∧ s.trues job.id = if s.notified job.id = T then 1 else 0 := by
  obtain ⟨i, hi⟩ := List.mem_iff_getElem?.mp hj
  rw [h.notified i job hi, h.trues i job hi]
  have h1 : (Phases.through s.completed i).card ≤ Fintype.card (Fin T) := Phases.card_through_le
  have h2 : (Phases.through s.completed i).card = Fintype.card (Fin T) ↔ Phases.Complete s.completed i :=
    Phases.card_through_eq
  rw [Fintype.card_fin] at h1 h2
  refine ⟨h1, ?_⟩
  by_cases hc : Phases.Complete s.completed i
  · rw [if_pos hc, if_pos (h2.mpr hc)]
  · rw [if_neg hc, if_neg (mt h2.mp hc)]

theorem fifo_contract (hT : 0 < T) (h : (machine T).Reachable s) :
    (∀ t (k : ℕ) sl, (s.got t)[k]? = some sl → ∃ job, s.jobs[k]? = some job ∧ sl = jobSlice T job t) ∧
    (∀ job ∈ s.jobs, Tiles T job) ∧
    (∀ job ∈ s.jobs, s.notified job.id ≤ T ∧ s.trues job.id = if s.notified job.id = T then 1 else 0) ∧
    ∀ id, s.fault ≠ some (.outOfRange id) ∧ s.fault ≠ some (.jobStatus id) := by
  have hI := Inv.of_reachable hT h
  refine ⟨fun t k sl hk => hI.got_getElem? hk, fun job _ => tiles hT job, fun job hj => hI.trues_eq hj, fun id => ?_⟩
  rcases hI.fault with hf | hf <;> rw [hf] <;> simp

/-- Two threads share a job of three elements; the next job is stopped half-way. -/
def pairEvents : List (Event 2) :=
  let job id numel : Job := { id, tensor := { inPtr := 0, outPtr := 64, numel, dataType := .int32 } }
  [.check 1, .enqueue (job 0 3), .arrive 1, .check 0, .arrive 0, .leave 1, .take 1, .take 0, .notify 1,
    .enqueue (job 1 1), .check 1, .arrive 1, .notify 0, .finish 0, .check 0, .arrive 0, .take 0, .stopFlag, .notify 0,
    .stopClear, .leave 1, .take 1]

theorem fifo_contract_pair : ∃ s, (machine 2).Reachable s ∧ s.jobs.length = 2 ∧ s.fault = none ∧
    s.trues 0 = 1 ∧ s.trues 1 = 0 ∧ s.sched.status 1 = .failed := by
  obtain ⟨s, hr, hn, h0, h1, hst, hf⟩ : ∃ s, (machine 2).run (new 2) pairEvents = some s ∧
      s.jobs.map Job.id = [0, 1] ∧ s.notified 0 = 2 ∧ s.notified 1 = 0 ∧ s.sched.status 1 = .failed ∧
      s.fault = none := by
    refine ⟨_, rfl, ?_⟩
    decide +kernel
  have hreach : (machine 2).Reachable s := Machine.Reachable.run (.init rfl) hr
  obtain ⟨-, -, hC, -⟩ := fifo_contract (by decide) hreach
  obtain ⟨j0, j1, hjobs⟩ : ∃ j0 j1, s.jobs = [j0, j1] := by
    have hlen := congrArg List.length hn
    rw [List.length_map] at hlen
    exact List.length_eq_two.mp hlen
  rw [hjobs] at hn hC
  simp only [List.map_cons, List.map_nil, List.cons.injEq, and_true] at hn
  obtain ⟨hid0, hid1⟩ := hn
  have h2 := (hC j0 (by simp)).2
  have h3 := (hC j1 (by simp)).2
  rw [hid0, h0, if_pos rfl] at h2
  rw [hid1, h1, if_neg (by decide)] at h3
  exact ⟨s, hreach, by rw [hjobs]; rfl, hf, h2, h3, hst⟩

end Run

end SwitchML.Client
