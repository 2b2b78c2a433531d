/-
`for (; i < bound; i += stride)`. The rule `forLoop_rule` is for an invariant
that may speak of the counter, where the counter meets the bound.

An array may be worked on a block of `w` elements at a time up to some bound,
and one element at a time from there (`elementwise`). Where a block does to each
of its elements what a single turn does to it, the bound makes no difference.
-/
import Mathlib.Algebra.Order.Group.Nat
import Mathlib.Logic.Function.Basic

universe u v

variable {σ : Type u}

/-- The counter and the state when the loop is left. A stride of 0 is not for loops. -/
def forLoop (stride : ℕ) (body : ℕ → σ → σ) (bound i : ℕ) (s : σ) : ℕ × σ :=
  if 0 < stride ∧ i < bound then forLoop stride body bound (i + stride) (body i s) else (i, s)
termination_by bound - i

theorem forLoop_rule {stride : ℕ} {f : ℕ → σ → σ} {bound i : ℕ} {s : σ} {I : ℕ → σ → Prop} (hpos : 0 < stride)
    (hi : i ≤ bound) (hdvd : stride ∣ bound - i) (h0 : I i s)
    (hstep : ∀ j s, i ≤ j → j + stride ≤ bound → I j s → I (j + stride) (f j s)) :
    (forLoop stride f bound i s).1 = bound ∧ I bound (forLoop stride f bound i s).2 := by
  fun_induction forLoop stride f bound i s with
  | case1 i s hlt ih =>
    have hle : stride ≤ bound - i := Nat.le_of_dvd (by omega) hdvd
    refine ih (by omega) ?_ (hstep i s (Nat.le_refl i) (by omega) h0) fun j s hj => hstep j s (by omega)
    rw [Nat.sub_add_eq]
    exact Nat.dvd_sub hdvd (Nat.dvd_refl stride)
  | case2 i s hge =>
    have heq : i = bound := by omega
    exact ⟨heq, heq ▸ h0⟩

/-! ## Arrays -/

section Elementwise

variable {α : Type u} {β : Type v} {w : ℕ}

/-- The block of an array from an index on. -/
def loadBlock (w : ℕ) (elements : ℕ → α) (i : ℕ) : Fin w → α := fun lane => elements (i + lane)

def storeBlock (block : Fin w → β) (i : ℕ) (out : ℕ → β) : ℕ → β := fun j =>
  if h : i ≤ j ∧ j < i + w then block ⟨j - i, by omega⟩ else out j

/-- The elements below an index are replaced. -/
def filled (i : ℕ) (result out : ℕ → β) : ℕ → β := fun j => if j < i then result j else out j

/-- The first loop is over blocks, the second over the elements that are left,
where something undefined may happen. -/
def elementwise (w : ℕ) (block : (Fin w → α) → Fin w → β) (element : α → Option β) (elements : ℕ → α)
    (bound n : ℕ) (out : ℕ → β) : Option (ℕ → β) :=
  let blocks := forLoop w (fun i out => storeBlock (block (loadBlock w elements i)) i out) bound 0 out
  (forLoop 1 (fun i out => out.bind fun out => (element (elements i)).map (Function.update out i)) n blocks.1
    (some blocks.2)).2

variable {block : (Fin w → α) → Fin w → β} {element : α → Option β} {elements : ℕ → α} {bound n i j k : ℕ}
  {out result : ℕ → β}

theorem filled_of_lt (h : j < i) : filled i result out j = result j := if_pos h

theorem filled_zero : filled 0 result out = out := by
  funext j
  exact if_neg (Nat.not_lt_zero j)

/-- A turn changes the elements it is about. -/
theorem filled_add (h : ¬(i ≤ j ∧ j < i + k)) : filled (i + k) result out j = filled i result out j := by
  unfold filled
  by_cases hj : j < i
  · rw [if_pos hj, if_pos (by omega)]
  · rw [if_neg hj, if_neg (by omega)]

/-- Where each block does to an element what a single turn does, the bound
makes no difference. -/
theorem elementwise_eq (hw : 0 < w) (hbound : bound ≤ n) (hdvd : w ∣ bound)
    (helement : ∀ j < n, element (elements j) = some (result j))
    (hblock : ∀ j < n, ∀ (v : Fin w → α) lane, v lane = elements j → block v lane = result j) :
    elementwise w block element elements bound n out = some (filled n result out) := by
  have hblocks := forLoop_rule (f := fun i out => storeBlock (block (loadBlock w elements i)) i out) (s := out)
    (I := fun i r => r = filled i result out) hw (Nat.zero_le bound) hdvd filled_zero.symm
    fun i r _ hi hr => by
      subst hr
      funext j
      unfold storeBlock
      split
      · rename_i hj
        rw [filled_of_lt hj.2]
        refine hblock j (by omega) _ _ ?_
        rw [loadBlock, Nat.add_sub_cancel' hj.1]
      · rename_i hj
        exact (filled_add hj).symm
  have hrest := forLoop_rule
    (f := fun i (out : Option (ℕ → β)) => out.bind fun out => (element (elements i)).map (Function.update out i))
    (I := fun i r => r = some (filled i result out)) Nat.one_pos hbound (Nat.one_dvd _) (congrArg some hblocks.2)
    fun i r _ hi hr => by
      subst hr
      rw [Option.bind_some, helement i (by omega), Option.map_some]
      congr 1
      funext j
      rw [Function.update_apply]
      split
      · rename_i hj
        rw [hj, filled_of_lt (Nat.lt_succ_self i)]
      · exact (filled_add (by omega)).symm
  rw [elementwise, hblocks.1]
  exact hrest.2

end Elementwise
