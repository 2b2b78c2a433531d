/-
Doubly linked lists whose links are kept beside the elements: `next` and
`previous` of an element, and the two ends. `Lists d l` says that `d` links the
elements of `l` in this order and no others. An element is linked in at the
head, and unlinked wherever it is.
-/
import Mathlib.Data.List.Basic
import Mathlib.Data.List.Induction
import Mathlib.Logic.Function.Basic

structure Links (ι : Type*) where
  next : ι → Option ι
  previous : ι → Option ι
  head : Option ι
  tail : Option ι

namespace Links

variable {ι : Type*} [DecidableEq ι]

/-- Nothing is linked. -/
def empty : Links ι := ⟨fun _ => none, fun _ => none, none, none⟩

/-- The element becomes the one after `p`, or the first. -/
def setNext (d : Links ι) (p : Option ι) (x : Option ι) : Links ι :=
  match p with
  | some p => { d with next := Function.update d.next p x }
  | none => d

def setPrevious (d : Links ι) (p : Option ι) (x : Option ι) : Links ι :=
  match p with
  | some p => { d with previous := Function.update d.previous p x }
  | none => d

/-- The neighbours of the element are linked to each other. -/
def unlink (d : Links ι) (i : ι) : Links ι :=
  let d := d.setNext (d.previous i) (d.next i)
  let d := d.setPrevious (d.next i) (d.previous i)
  let d := { d with head := if d.head = some i then d.next i else d.head }
  let d := { d with tail := if d.tail = some i then d.previous i else d.tail }
  { d with next := Function.update d.next i none, previous := Function.update d.previous i none }

/-- The element is linked in before the head. -/
def pushFront (d : Links ι) (i : ι) : Links ι :=
  let d := { d with previous := Function.update d.previous i none, next := Function.update d.next i d.head }
  let d := d.setPrevious d.head (some i)
  let d := { d with head := some i }
  { d with tail := if d.tail = none then some i else d.tail }

/-- The elements of `l` are linked in this order, and no others. -/
structure Lists (d : Links ι) (l : List ι) : Prop where
  nodup : l.Nodup
  head : d.head = l.head?
  tail : d.tail = l.getLast?
  next : ∀ xs i ys, l = xs ++ i :: ys → d.next i = ys.head?
  previous : ∀ xs i ys, l = xs ++ i :: ys → d.previous i = xs.getLast?
  others : ∀ i, i ∉ l → d.next i = none ∧ d.previous i = none

omit [DecidableEq ι] in
theorem Lists.empty : Lists (empty : Links ι) [] where
  nodup := List.nodup_nil
  head := rfl
  tail := rfl
  next xs i ys h := by simp at h
  previous xs i ys h := by simp at h
  others _ _ := ⟨rfl, rfl⟩

/-! ## Following the links -/

/-- Going on by `step` from `start` visits the elements of the list in order, and
ends there. -/
def Follows (step : ι → Option ι) : Option ι → List ι → Prop
  | start, [] => start = none
  | start, i :: l => start = some i ∧ Follows step (step i) l

omit [DecidableEq ι] in
theorem Lists.follows_next {d : Links ι} {l : List ι} (h : d.Lists l) : Follows d.next d.head l := by
  have hrest (xs ys : List ι) (hl : l = xs ++ ys) : Follows d.next ys.head? ys := by
    induction ys generalizing xs with
    | nil => rfl
    | cons i ys ih =>
      refine ⟨rfl, ?_⟩
      rw [h.next xs i ys hl]
      exact ih (xs ++ [i]) (by rw [hl, List.append_cons])
  rw [h.head]
  exact hrest [] l rfl

omit [DecidableEq ι] in
theorem Lists.follows_previous {d : Links ι} {l : List ι} (h : d.Lists l) :
    Follows d.previous d.tail l.reverse := by
  have hrest (xs ys : List ι) (hl : l = xs ++ ys) : Follows d.previous xs.getLast? xs.reverse := by
    induction xs using List.reverseRecOn generalizing ys with
    | nil => rfl
    | append_singleton xs i ih =>
      rw [List.reverse_concat, List.getLast?_concat]
      refine ⟨rfl, ?_⟩
      rw [h.previous xs i ys (by rw [hl, List.append_assoc, List.singleton_append])]
      exact ih (i :: ys) (by rw [hl, List.append_assoc, List.singleton_append])
  rw [h.tail]
  exact hrest l [] (List.append_nil l).symm

/-! ## Reading links -/

variable {d : Links ι} {i j : ι} {l xs ys : List ι}

@[simp] theorem setNext_next (p x : Option ι) :
    (d.setNext p x).next j = if p = some j then x else d.next j := by
  unfold setNext
  cases p with
  | none => simp
  | some p =>
    by_cases h : j = p
    · simp [h]
    · simp [h, Ne.symm h]

@[simp] theorem setNext_previous (p x : Option ι) : (d.setNext p x).previous = d.previous := by
  unfold setNext
  cases p <;> rfl

@[simp] theorem setNext_head (p x : Option ι) : (d.setNext p x).head = d.head := by
  unfold setNext
  cases p <;> rfl

@[simp] theorem setNext_tail (p x : Option ι) : (d.setNext p x).tail = d.tail := by
  unfold setNext
  cases p <;> rfl

@[simp] theorem setPrevious_previous (p x : Option ι) :
    (d.setPrevious p x).previous j = if p = some j then x else d.previous j := by
  unfold setPrevious
  cases p with
  | none => simp
  | some p =>
    by_cases h : j = p
    · simp [h]
    · simp [h, Ne.symm h]

@[simp] theorem setPrevious_next (p x : Option ι) : (d.setPrevious p x).next = d.next := by
  unfold setPrevious
  cases p <;> rfl

@[simp] theorem setPrevious_head (p x : Option ι) : (d.setPrevious p x).head = d.head := by
  unfold setPrevious
  cases p <;> rfl

@[simp] theorem setPrevious_tail (p x : Option ι) : (d.setPrevious p x).tail = d.tail := by
  unfold setPrevious
  cases p <;> rfl

/-! ## Unlinking -/

theorem unlink_next :
    (d.unlink i).next j = if j = i then none else if d.previous i = some j then d.next i else d.next j := by
  by_cases hj : j = i
  · simp [unlink, hj]
  · simp [unlink, hj]

theorem unlink_previous (hp : d.previous i ≠ some i) :
    (d.unlink i).previous j = if j = i then none else if d.next i = some j then d.previous i else d.previous j := by
  by_cases hj : j = i
  · simp [unlink, hj]
  · simp [unlink, hj, hp]

theorem unlink_head (hp : d.previous i ≠ some i) :
    (d.unlink i).head = if d.head = some i then d.next i else d.head := by
  simp [unlink, hp]

theorem unlink_tail (hn : d.next i ≠ some i) (hp : d.previous i ≠ some i) :
    (d.unlink i).tail = if d.tail = some i then d.previous i else d.tail := by
  simp [unlink, hp, hn]

omit [DecidableEq ι] in
/-- The elements around one of the list are not that one. -/
theorem Lists.neighbours (h : d.Lists (xs ++ i :: ys)) :
    i ∉ xs ∧ i ∉ ys ∧ d.next i = ys.head? ∧ d.previous i = xs.getLast? := by
  have hnd := List.nodup_append.mp h.nodup
  refine ⟨fun hm => ?_, (List.nodup_cons.mp hnd.2.1).1, h.next _ _ _ rfl, h.previous _ _ _ rfl⟩
  exact hnd.2.2 i hm i List.mem_cons_self rfl

omit [DecidableEq ι] in
/-- An element before or after the place where two lists meet. -/
theorem append_eq_cases {as bs : List ι} (h : xs ++ ys = as ++ j :: bs) :
    (∃ cs, xs = as ++ j :: cs ∧ bs = cs ++ ys) ∨ ∃ cs, as = xs ++ cs ∧ ys = cs ++ j :: bs := by
  rcases List.append_eq_append_iff.mp h with ⟨cs, h1, h2⟩ | ⟨cs, h1, h2⟩
  · exact .inr ⟨cs, h1, h2⟩
  · cases cs with
    | nil => exact .inr ⟨[], by simpa using h1.symm, h2.symm⟩
    | cons c cs =>
      simp only [List.cons_append, List.cons.injEq] at h2
      obtain ⟨rfl, rfl⟩ := h2
      exact .inl ⟨cs, h1, rfl⟩

omit [DecidableEq ι] in
theorem getLast?_ne {as cs : List ι} (hne : cs ≠ []) (hj : j ∉ cs) : (as ++ j :: cs).getLast? ≠ some j := by
  rw [List.append_cons, List.getLast?_append_of_ne_nil _ hne]
  exact fun he => hj (List.mem_of_getLast? he)

omit [DecidableEq ι] in
theorem head?_ne {as cs : List ι} (hne : as ≠ []) (hj : j ∉ as) : (as ++ j :: cs).head? ≠ some j := by
  rw [List.head?_append_of_ne_nil _ hne]
  exact fun he => hj (List.mem_of_head? he)

theorem Lists.unlink (h : d.Lists (xs ++ i :: ys)) : (d.unlink i).Lists (xs ++ ys) := by
  obtain ⟨hxs, hys, hnext, hprev⟩ := h.neighbours
  have hpi : d.previous i ≠ some i := by
    rw [hprev]
    exact fun he => hxs (List.mem_of_getLast? he)
  have hni : d.next i ≠ some i := by
    rw [hnext]
    exact fun he => hys (List.mem_of_head? he)
  have hnodup : (xs ++ ys).Nodup := h.nodup.sublist (List.Sublist.append_left (List.sublist_cons_self i ys) xs)
  have hdisjoint : ∀ a ∈ xs, a ∉ ys := fun a ha hy => (List.nodup_append.mp hnodup).2.2 a ha a hy rfl
  refine ⟨hnodup, ?_, ?_, fun as j bs hl => ?_, fun as j bs hl => ?_, fun j hj => ?_⟩
  · rw [unlink_head hpi, h.head, hnext]
    cases xs with
    | nil => simp
    | cons x xs =>
      have hx : x ≠ i := fun he => hxs (by simp [he])
      simp [hx]
  · rw [unlink_tail hni hpi, h.tail, hprev]
    by_cases hnil : ys = []
    · simp [hnil]
    · rw [if_neg (getLast?_ne hnil hys), List.append_cons, List.getLast?_append_of_ne_nil _ hnil,
        List.getLast?_append_of_ne_nil _ hnil]
  · rw [unlink_next, hnext, hprev]
    rcases append_eq_cases hl with ⟨cs, rfl, rfl⟩ | ⟨cs, rfl, rfl⟩
    · -- before the element, only the next of the last one changes
      have hji : j ≠ i := fun he => hxs (by simp [he])
      have hjcs : j ∉ cs := (List.nodup_cons.mp (List.nodup_append.mp (List.nodup_append.mp hnodup).1).2.1).1
      rw [if_neg hji]
      by_cases hnil : cs = []
      · simp [hnil]
      · rw [if_neg (getLast?_ne hnil hjcs), h.next as j (cs ++ i :: ys) (by simp), List.head?_append_of_ne_nil _ hnil,
          List.head?_append_of_ne_nil _ hnil]
    · have hji : j ≠ i := fun he => hys (by simp [he])
      have hjxs : xs.getLast? ≠ some j := fun he => hdisjoint j (List.mem_of_getLast? he) (by simp)
      rw [if_neg hji, if_neg hjxs, h.next (xs ++ i :: cs) j bs (by simp)]
  · rw [unlink_previous hpi, hnext, hprev]
    rcases append_eq_cases hl with ⟨cs, rfl, rfl⟩ | ⟨cs, rfl, rfl⟩
    · have hji : j ≠ i := fun he => hxs (by simp [he])
      have hjys : ys.head? ≠ some j := fun he => hdisjoint j (by simp) (List.mem_of_head? he)
      rw [if_neg hji, if_neg hjys, h.previous as j (cs ++ i :: ys) (by simp)]
    · -- after it, only the previous of the first one
      have hji : j ≠ i := fun he => hys (by simp [he])
      have hjcs : j ∉ cs := by
        intro hm
        exact (List.nodup_append.mp (List.nodup_append.mp hnodup).2.1).2.2 j hm j List.mem_cons_self rfl
      rw [if_neg hji]
      by_cases hnil : cs = []
      · simp [hnil]
      · rw [if_neg (head?_ne hnil hjcs), h.previous (xs ++ i :: cs) j bs (by simp), List.append_cons,
          List.getLast?_append_of_ne_nil _ hnil, List.getLast?_append_of_ne_nil _ hnil]
  · rw [unlink_next, unlink_previous hpi, hnext, hprev]
    by_cases hji : j = i
    · simp [hji]
    · rw [List.mem_append, not_or] at hj
      have hlast : xs.getLast? ≠ some j := fun he => hj.1 (List.mem_of_getLast? he)
      have hfirst : ys.head? ≠ some j := fun he => hj.2 (List.mem_of_head? he)
      rw [if_neg hji, if_neg hlast, if_neg hji, if_neg hfirst]
      exact h.others j (by simp [hj.1, hj.2, hji])

/-! ## Linking in at the head -/

theorem pushFront_next : (d.pushFront i).next j = if j = i then d.head else d.next j := by
  by_cases hj : j = i
  · simp [pushFront, hj]
  · simp [pushFront, hj]

theorem pushFront_previous :
    (d.pushFront i).previous j = if d.head = some j then some i else if j = i then none else d.previous j := by
  by_cases hj : j = i
  · simp [pushFront, hj]
  · simp [pushFront, hj]

@[simp] theorem pushFront_head : (d.pushFront i).head = some i := rfl

theorem pushFront_tail : (d.pushFront i).tail = if d.tail = none then some i else d.tail := by
  simp [pushFront]

theorem Lists.pushFront (h : d.Lists l) (hi : i ∉ l) : (d.pushFront i).Lists (i :: l) := by
  refine ⟨List.nodup_cons.mpr ⟨hi, h.nodup⟩, by simp, ?_, fun as j bs hl => ?_, fun as j bs hl => ?_, fun j hj => ?_⟩
  · rw [pushFront_tail, h.tail]
    cases l with
    | nil => simp
    | cons a l => simp [List.getLast?_cons]
  · rw [pushFront_next, h.head]
    cases as with
    | nil =>
      simp only [List.nil_append, List.cons.injEq] at hl
      obtain ⟨rfl, rfl⟩ := hl
      simp
    | cons a as =>
      simp only [List.cons_append, List.cons.injEq] at hl
      obtain ⟨rfl, rfl⟩ := hl
      have hji : j ≠ i := fun he => hi (by simp [he])
      rw [if_neg hji, h.next as j bs rfl]
  · rw [pushFront_previous, h.head]
    cases as with
    | nil =>
      simp only [List.nil_append, List.cons.injEq] at hl
      obtain ⟨rfl, rfl⟩ := hl
      rw [if_neg (fun he => hi (List.mem_of_head? he)), if_pos rfl]
      rfl
    | cons a as =>
      simp only [List.cons_append, List.cons.injEq] at hl
      obtain ⟨rfl, rfl⟩ := hl
      have hji : j ≠ i := fun he => hi (by simp [he])
      cases as with
      | nil => simp
      | cons b as =>
        have hjb : (b :: as ++ j :: bs).head? ≠ some j := by
          refine head?_ne (List.cons_ne_nil b as) fun hm => ?_
          exact (List.nodup_append.mp h.nodup).2.2 j hm j List.mem_cons_self rfl
        rw [if_neg hjb, if_neg hji, h.previous (b :: as) j bs rfl, List.getLast?_cons_cons]
  · rw [List.mem_cons, not_or] at hj
    have hfirst : l.head? ≠ some j := fun he => hj.2 (List.mem_of_head? he)
    rw [pushFront_next, pushFront_previous, h.head, if_neg hj.1, if_neg hfirst, if_neg hj.1]
    exact h.others j hj.2

end Links
