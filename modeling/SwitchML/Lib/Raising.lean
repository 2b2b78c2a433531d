/-
Programs that raise. A statement either raises, and then changes nothing, or
gives a value and a new state; a program that raises leaves the state as the
statements before have made it, which is what `EStateM` does.

A program renames with its state if it runs on the renamed state as it does on
the state itself, up to the names in its value. That goes through statement by
statement.
-/
import Mathlib.Logic.Basic

universe u

namespace Raising

variable {ε S α β γ δ : Type u}

/-! ## Statements -/

def statement (f : S → Except ε (α × S)) : EStateM ε S α := fun s =>
  match f s with
  | .ok (a, s') => .ok a s'
  | .error e => .error e s

/-- A statement that changes nothing. -/
def reads (f : S → Except ε α) : EStateM ε S α := fun s =>
  match f s with
  | .ok a => .ok a s
  | .error e => .error e s

/-- A statement without a value. -/
def writes (f : S → Except ε S) : EStateM ε S PUnit := fun s =>
  match f s with
  | .ok s' => .ok ⟨⟩ s'
  | .error e => .error e s

/-- What is left of a run if the state of an exception is forgotten. -/
def outcome : EStateM.Result ε S α → Except ε (S × α)
  | .ok a s => .ok (s, a)
  | .error e _ => .error e

@[simp] theorem outcome_pure (a : α) (s : S) : outcome ((pure a : EStateM ε S α) s) = .ok (s, a) := rfl

@[simp] theorem outcome_bind (m : EStateM ε S α) (k : α → EStateM ε S β) (s : S) :
    outcome ((m >>= k) s) = (outcome (m s)).bind fun r => outcome (k r.2 r.1) := by
  change outcome (EStateM.bind m k s) = _
  unfold EStateM.bind
  cases m s with
  | ok a s' => rfl
  | error e s' => rfl

@[simp] theorem outcome_ite {c : Prop} [Decidable c] (m n : EStateM ε S α) (s : S) :
    outcome ((if c then m else n) s) = if c then outcome (m s) else outcome (n s) := by
  split
  · rfl
  · rfl

@[simp] theorem outcome_statement (f : S → Except ε (α × S)) (s : S) :
    outcome (statement f s) = (f s).map Prod.swap := by
  unfold statement
  cases f s with
  | ok r => rfl
  | error e => rfl

@[simp] theorem outcome_reads (f : S → Except ε α) (s : S) : outcome (reads f s) = (f s).map (Prod.mk s) := by
  unfold reads
  cases f s with
  | ok a => rfl
  | error e => rfl

@[simp] theorem outcome_writes (f : S → Except ε S) (s : S) : outcome (writes f s) = (f s).map (·, ⟨⟩) := by
  unfold writes
  cases f s with
  | ok a => rfl
  | error e => rfl

/-! ## Renaming -/

def Result.map (f : S → S) (g : α → β) : EStateM.Result ε S α → EStateM.Result ε S β
  | .ok a s => .ok (g a) (f s)
  | .error e s => .error e (f s)

/-- `m'` does on states renamed by `f` what `m` does, and gives its value
renamed by `g`. -/
def Renames (f : S → S) (g : α → β) (m : EStateM ε S α) (m' : EStateM ε S β) : Prop :=
  ∀ s, m' (f s) = Result.map f g (m s)

variable {f : S → S} {g : α → β} {h : γ → δ}

theorem Renames.pure (a : α) : Renames f g (pure a : EStateM ε S α) (pure (g a)) := fun _ => rfl

theorem Renames.bind {m : EStateM ε S α} {m' : EStateM ε S β} {k : α → EStateM ε S γ} {k' : β → EStateM ε S δ}
    (hm : Renames f g m m') (hk : ∀ a, Renames f h (k a) (k' (g a))) : Renames f h (m >>= k) (m' >>= k') := by
  intro s
  change EStateM.bind m' k' (f s) = Result.map f h (EStateM.bind m k s)
  unfold EStateM.bind
  rw [hm s]
  cases m s with
  | ok a s' => exact hk a s'
  | error e s' => rfl

theorem Renames.ite {c : Prop} [Decidable c] {m n : EStateM ε S α} {m' n' : EStateM ε S β}
    (hm : Renames f g m m') (hn : Renames f g n n') :
    Renames f g (if c then m else n) (if c then m' else n') := by
  split
  · exact hm
  · exact hn

theorem Renames.statement {F : S → Except ε (α × S)} {F' : S → Except ε (β × S)}
    (hF : ∀ s, F' (f s) = (F s).map (Prod.map g f)) : Renames f g (statement F) (statement F') := by
  intro s
  unfold Raising.statement
  rw [hF s]
  cases F s with
  | ok r => rfl
  | error e => rfl

theorem Renames.reads {F : S → Except ε α} {F' : S → Except ε β} (hF : ∀ s, F' (f s) = (F s).map g) :
    Renames f g (reads F) (reads F') := by
  intro s
  unfold Raising.reads
  rw [hF s]
  cases F s with
  | ok r => rfl
  | error e => rfl

theorem Renames.writes {F F' : S → Except ε S} (hF : ∀ s, F' (f s) = (F s).map f) :
    Renames f id (writes F) (writes F') := by
  intro s
  unfold Raising.writes
  rw [hF s]
  cases F s with
  | ok r => rfl
  | error e => rfl

end Raising
