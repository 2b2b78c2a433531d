/-
A lock that its holder may take again. It counts how often it was taken, and is
free once it was released as often.
-/
import Mathlib.Data.Nat.Notation

/-- The lock is free, or thread `t` has taken it `n + 1` times. -/
inductive ReentrantLock (T : Type)
  | free
  | held (t : T) (n : ℕ)
  deriving DecidableEq

namespace ReentrantLock

variable {T : Type}

/-- The lock after `t` has taken it `k` times. -/
def taken (t : T) : ℕ → ReentrantLock T
  | 0 => free
  | k + 1 => held t k

@[simp] theorem taken_zero (t : T) : taken t 0 = free := rfl

theorem taken_eq_free {t : T} {k : ℕ} : taken t k = free ↔ k = 0 := by
  cases k with
  | zero => simp
  | succ k => simp [taken]

variable [DecidableEq T]

/-- `none` where the thread has to wait. -/
def acquire (l : ReentrantLock T) (t : T) : Option (ReentrantLock T) :=
  match l with
  | free => some (held t 0)
  | held u n => if u = t then some (held t (n + 1)) else none

/-- `none` where the thread does not hold it. -/
def release (l : ReentrantLock T) (t : T) : Option (ReentrantLock T) :=
  match l with
  | free => none
  | held u 0 => if u = t then some free else none
  | held u (n + 1) => if u = t then some (held t n) else none

theorem acquire_taken (t : T) (k : ℕ) : (taken t k).acquire t = some (taken t (k + 1)) := by
  cases k with
  | zero => rfl
  | succ k => simp [taken, acquire]

theorem release_taken (t : T) (k : ℕ) : (taken t (k + 1)).release t = some (taken t k) := by
  cases k with
  | zero => simp [taken, release]
  | succ k => simp [taken, release]

/-- Another thread gets the lock only when it is free. -/
theorem acquire_taken_of_ne {t u : T} (h : t ≠ u) (k : ℕ) : ((taken t k).acquire u).isSome ↔ k = 0 := by
  cases k with
  | zero => simp [taken, acquire]
  | succ k => simp [taken, acquire, h]

end ReentrantLock
