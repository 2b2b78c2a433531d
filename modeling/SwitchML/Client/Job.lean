/-
`common.h` and `job.cc`: tensors, jobs and the status a job goes through.

Pointers are byte addresses. A `Job` object never changes but for its status,
so the jobs are values here and the statuses a table indexed by the job's id,
which `Job::next_id_` makes unique.
-/
import Mathlib.Data.Nat.Basic
import Mathlib.Logic.Function.Basic

namespace SwitchML.Client

inductive DataType
  | float32
  | int32
  deriving DecidableEq

def dataTypeSize : DataType → ℕ
  | .float32 => 4
  | .int32 => 4

structure Tensor where
  inPtr : ℕ
  outPtr : ℕ
  numel : ℕ
  dataType : DataType
  deriving DecidableEq

/-- Move both pointers by a number of elements. -/
def Tensor.offsetPtrs (t : Tensor) (numel : ℕ) : Tensor :=
  { t with
    inPtr := t.inPtr + numel * dataTypeSize t.dataType
    outPtr := t.outPtr + numel * dataTypeSize t.dataType }

inductive JobStatus
  | init
  | queued
  | running
  | finished
  | failed
  deriving DecidableEq

/-- The value of the enumerator, which is what statuses are compared by. -/
def JobStatus.toNat : JobStatus → ℕ
  | .init => 0
  | .queued => 1
  | .running => 2
  | .finished => 3
  | .failed => 4

structure Job where
  id : ℕ
  tensor : Tensor
  deriving DecidableEq

structure JobSlice where
  job : Job
  slice : Tensor
  deriving DecidableEq

/-- A slice that is all of a job, to be reduced in place. -/
def exampleSlice (id numel : ℕ) (dataType : DataType) : JobSlice :=
  let tensor : Tensor := { inPtr := 0, outPtr := 0, numel, dataType }
  { job := { id, tensor }, slice := tensor }

/-- What stops the process: `LOG(FATAL)`, or an exception nobody catches. -/
inductive Fault
  /-- `SetJobStatus` with a lower status than the current one. -/
  | jobStatus (id : ℕ)
  /-- `at` on a map that does not have the job's id. -/
  | outOfRange (id : ℕ)
  /-- `Barrier::Wait` after `Barrier::Destroy`. -/
  | barrierDestroyed
  deriving DecidableEq

/-- `Job::SetJobStatus`. -/
def setJobStatus (status : ℕ → JobStatus) (id : ℕ) (jobStatus : JobStatus) : Except Fault (ℕ → JobStatus) :=
  if jobStatus.toNat < (status id).toNat then .error (.jobStatus id)
  else .ok (Function.update status id jobStatus)

/-- What `WaitToComplete` waits for. -/
def JobStatus.decided (s : JobStatus) : Bool := s = .failed || s = .finished

theorem setJobStatus_ok {status : ℕ → JobStatus} {id : ℕ} {jobStatus : JobStatus}
    (h : (status id).toNat ≤ jobStatus.toNat) :
    setJobStatus status id jobStatus = .ok (Function.update status id jobStatus) := by
  rw [setJobStatus, if_neg (by omega)]

theorem JobStatus.le_failed (s : JobStatus) : s.toNat ≤ JobStatus.failed.toNat := by
  cases s <;> decide

theorem setJobStatus_failed {status : ℕ → JobStatus} {id : ℕ} :
    setJobStatus status id .failed = .ok (Function.update status id .failed) :=
  setJobStatus_ok (JobStatus.le_failed _)

end SwitchML.Client
