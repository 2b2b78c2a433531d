/-
A view shows a part of a value, and puts a changed part back. What it does not
show stays as it was.
-/
import Mathlib.Logic.Function.Basic

namespace Views

structure View (α β : Type) where
  get : α → β
  put : β → α → α
  put_get : ∀ a, put (get a) a = a
  get_put : ∀ b a, get (put b a) = b

namespace View

variable {α β : Type}

/-- Of a value that may be missing. Where it is added, the part not shown has its
default. -/
def option [Inhabited α] (v : View α β) : View (Option α) (Option β) where
  get a := a.map v.get
  put b a := b.map fun b => v.put b (a.getD default)
  put_get a := by
    cases a with
    | none => rfl
    | some a => exact congrArg some (v.put_get a)
  get_put b a := by
    cases b with
    | none => rfl
    | some b => exact congrArg some (v.get_put b _)

variable [Inhabited α] {v : View α β} {a : Option α}

@[simp] theorem option_get_isSome : (v.option.get a).isSome = a.isSome := Option.isSome_map

@[simp] theorem option_get_none : v.option.get none = none := rfl

@[simp] theorem option_put_none : v.option.put none a = none := rfl

end View

end Views
