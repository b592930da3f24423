import Mathlib.Logic.Function.Basic
import Mathlib.Tactic

/-!
# Tables and changes of one entry

A table is a function from keys to entries. The lemmas say where an entry of a changed table comes
from, and when two changes of one table can be exchanged.
-/

set_option autoImplicit false

universe u v

namespace PointUpdate

variable {α : Type u} {β : Type v} [DecidableEq α]

/-- An entry of a table after a write is the one that was written or one from before. -/
theorem update_eq_some {m : α → Option β} {a c : α} {v w : β}
    (h : Function.update m a (some v) c = some w) : (c = a ∧ w = v) ∨ (c ≠ a ∧ m c = some w) := by
  by_cases hc : c = a
  · subst hc
    rw [Function.update_self, Option.some.injEq] at h
    exact Or.inl ⟨rfl, h.symm⟩
  · rw [Function.update_of_ne hc] at h
    exact Or.inr ⟨hc, h⟩

/-- A table with one entry changed by a function. -/
def modify (m : α → β) (a : α) (f : β → β) : α → β := Function.update m a (f (m a))

theorem modify_self (m : α → β) (a : α) (f : β → β) : modify m a f a = f (m a) :=
  Function.update_self a _ m

theorem modify_of_ne {m : α → β} {a c : α} {f : β → β} (h : c ≠ a) : modify m a f c = m c :=
  Function.update_of_ne h _ m

/-- Changes of different entries commute, and so do changes of one entry whose functions commute
on it. -/
theorem modify_comm {m : α → β} {a b : α} {f g : β → β}
    (h : a = b → g (f (m a)) = f (g (m a))) :
    modify (modify m a f) b g = modify (modify m b g) a f := by
  by_cases hab : a = b
  · -- one entry: the two functions are applied to it one after the other
    subst hab
    unfold modify
    rw [Function.update_idem, Function.update_idem, Function.update_self, Function.update_self,
      h rfl]
  · -- two entries: neither change reads what the other writes
    unfold modify
    rw [Function.update_of_ne (Ne.symm hab), Function.update_of_ne hab, Function.update_comm hab]

end PointUpdate
