/-
State machines driven by events: `next s e` is the state after `e`, or `none`
where `e` is not enabled. An event carries every choice its step makes, so a
run is a list of events and the states a machine can be in are the ones some
run reaches.

`Reach ok` restricts the runs to those whose steps all meet a condition on the
state before the step and the event; `Reachable` is the unrestricted case. The
one induction over runs is `Reach.invariant`.
-/
import Mathlib.Algebra.GroupWithZero.Nat
import Mathlib.Logic.Basic

universe u v

/-- Where runs start, and what an event does. -/
structure Machine (σ : Type u) (ε : Type v) where
  init : σ → Prop
  next : σ → ε → Option σ

namespace Machine

variable {σ : Type u} {ε : Type v} (M : Machine σ ε)

/-- The states reached by runs whose steps all meet `ok`. -/
inductive Reach (ok : σ → ε → Prop) : σ → Prop
  | init {s} : M.init s → Reach ok s
  | step {s e s'} : Reach ok s → ok s e → M.next s e = some s' → Reach ok s'

/-- The states reached by any run. -/
def Reachable (s : σ) : Prop := M.Reach (fun _ _ => True) s

/-- The state after a list of events, where each is enabled in turn. -/
def run : σ → List ε → Option σ
  | s, [] => some s
  | s, e :: es => (M.next s e).bind fun s' => run s' es

/-- The same, where each step has to meet `ok` as well. -/
def runWhile (ok : σ → ε → Prop) [∀ s e, Decidable (ok s e)] : σ → List ε → Option σ
  | s, [] => some s
  | s, e :: es => if ok s e then (M.next s e).bind fun s' => runWhile ok s' es else none

variable {M}

/-- What holds initially and survives every step that meets `ok` holds of
every state such runs reach. -/
theorem Reach.invariant {ok : σ → ε → Prop} {I : σ → Prop} (hinit : ∀ s, M.init s → I s)
    (hstep : ∀ s e s', I s → ok s e → M.next s e = some s' → I s') {s : σ} (h : M.Reach ok s) : I s := by
  induction h with
  | init h0 => exact hinit _ h0
  | step _ hok hn ih => exact hstep _ _ _ ih hok hn

/-- The same for an invariant that rests on one known already. -/
theorem Reach.invariant_of {ok : σ → ε → Prop} {I I' : σ → Prop} (hI : ∀ s, M.Reach ok s → I s)
    (hinit : ∀ s, M.init s → I' s)
    (hstep : ∀ s e s', I s → I' s → ok s e → M.next s e = some s' → I' s') {s : σ} (h : M.Reach ok s) : I' s := by
  induction h with
  | init h0 => exact hinit _ h0
  | step hr hok hn ih => exact hstep _ _ _ (hI _ hr) ih hok hn

theorem Reach.mono {ok ok' : σ → ε → Prop} (hsub : ∀ s e, ok s e → ok' s e) {s : σ}
    (h : M.Reach ok s) : M.Reach ok' s := by
  induction h with
  | init h0 => exact .init h0
  | step _ hok hn ih => exact .step ih (hsub _ _ hok) hn

theorem Reach.reachable {ok : σ → ε → Prop} {s : σ} (h : M.Reach ok s) : M.Reachable s :=
  h.mono fun _ _ _ => trivial

/-- An invariant of the unrestricted runs. -/
theorem Reachable.invariant {I : σ → Prop} (hinit : ∀ s, M.init s → I s)
    (hstep : ∀ s e s', I s → M.next s e = some s' → I s') {s : σ} (h : M.Reachable s) : I s :=
  Reach.invariant hinit (fun s e s' hI _ hn => hstep s e s' hI hn) h

theorem Reachable.invariant_of {I I' : σ → Prop} (hI : ∀ s, M.Reachable s → I s) (hinit : ∀ s, M.init s → I' s)
    (hstep : ∀ s e s', I s → I' s → M.next s e = some s' → I' s') {s : σ} (h : M.Reachable s) : I' s :=
  Reach.invariant_of hI hinit (fun s e s' hs hI' _ hn => hstep s e s' hs hI' hn) h

theorem Reachable.step {s s' : σ} {e : ε} (h : M.Reachable s) (hn : M.next s e = some s') :
    M.Reachable s' :=
  Reach.step h trivial hn

/-- Where each step of a machine is one of another or none, so are the runs. -/
theorem Reach.map {τ η : Type*} {N : Machine τ η} {ok : σ → ε → Prop} {ok' : τ → η → Prop} {f : σ → τ}
    (hinit : ∀ s, M.init s → N.init (f s))
    (hstep : ∀ s e s', ok s e → M.next s e = some s' →
      f s' = f s ∨ ∃ e', ok' (f s) e' ∧ N.next (f s) e' = some (f s'))
    {s : σ} (h : M.Reach ok s) : N.Reach ok' (f s) := by
  induction h with
  | init h0 => exact .init (hinit _ h0)
  | step _ hok hn ih =>
    rcases hstep _ _ _ hok hn with heq | ⟨e', hok', hn'⟩
    · rw [heq]
      exact ih
    · exact .step ih hok' hn'

/-- A list of events run from a reachable state ends in one. -/
theorem Reachable.run {s s' : σ} {es : List ε} (h : M.Reachable s) (hr : M.run s es = some s') :
    M.Reachable s' := by
  induction es generalizing s with
  | nil => simp only [Machine.run, Option.some.injEq] at hr; exact hr ▸ h
  | cons e es ih =>
    simp only [Machine.run, Option.bind_eq_some_iff] at hr
    obtain ⟨t, hn, hr⟩ := hr
    exact ih (h.step hn) hr

theorem run_of_runWhile {ok : σ → ε → Prop} [∀ s e, Decidable (ok s e)] {s s' : σ} {es : List ε}
    (hr : M.runWhile ok s es = some s') : M.run s es = some s' := by
  induction es generalizing s with
  | nil => exact hr
  | cons e es ih =>
    simp only [Machine.runWhile, Option.ite_none_right_eq_some, Option.bind_eq_some_iff] at hr
    obtain ⟨-, t, hn, hr⟩ := hr
    rw [Machine.run, hn]
    exact ih hr

/-- Such a run stays within the runs whose steps all meet `ok`. -/
theorem Reach.runWhile {ok : σ → ε → Prop} [∀ s e, Decidable (ok s e)] {s s' : σ} {es : List ε} (h : M.Reach ok s)
    (hr : M.runWhile ok s es = some s') : M.Reach ok s' := by
  induction es generalizing s with
  | nil => simp only [Machine.runWhile, Option.some.injEq] at hr; exact hr ▸ h
  | cons e es ih =>
    unfold Machine.runWhile at hr
    split at hr
    · rename_i hok
      obtain ⟨t, hn, hr⟩ := Option.bind_eq_some_iff.mp hr
      exact ih (.step h hok hn) hr
    · cases hr

/-! ## Numerals -/

/-- A numeral for one of a few participants needs that there are some. As
constants these are the same proof wherever a run is written down. -/
instance (priority := high) neZero_one : NeZero 1 := ⟨by decide⟩

instance (priority := high) neZero_two : NeZero 2 := ⟨by decide⟩

instance (priority := high) neZero_four : NeZero 4 := ⟨by decide⟩

end Machine
