import Mathlib.Tactic

/-!
# Maps that keep the order of insertion

A map is the list of its entries. `set` overwrites the entry of a key where it stands and appends a
new key at the end, so that a map that starts with all its keys keeps them in place: filling it in
from any enumeration of values gives the same list.
-/

set_option autoImplicit false

universe u v w

namespace InsertionMap

variable {α : Type u} {κ : Type v} {β : Type w} [DecidableEq κ]

/-- The map with `v` at the key `k`. -/
def set (k : κ) (v : β) : List (κ × β) → List (κ × β)
  | [] => [(k, v)]
  | (k', v') :: entries => if k' = k then (k, v) :: entries else (k', v') :: set k v entries

variable [DecidableEq α] {key : α → κ}

/-- The map of a function on a list of names. -/
def graph (key : α → κ) (names : List α) (f : α → β) : List (κ × β) :=
  names.map fun a => (key a, f a)

/-- Setting a key of the map updates the function. -/
theorem set_graph (hkey : Function.Injective key) {names : List α} (hnodup : names.Nodup)
    (f : α → β) {a : α} (ha : a ∈ names) (v : β) :
    set (key a) v (graph key names f) = graph key names (Function.update f a v) := by
  induction names with
  | nil => cases ha
  | cons b names ih =>
    obtain ⟨hb, hnames⟩ := List.nodup_cons.1 hnodup
    by_cases hba : b = a
    · -- the other entries have other keys
      subst hba
      have hrest : graph key names (Function.update f b v) = graph key names f := by
        apply List.map_congr_left
        intro c hc
        have hcb : c ≠ b := by
          rintro rfl
          exact hb hc
        rw [Function.update_of_ne hcb]
      show set (key b) v ((key b, f b) :: graph key names f) =
        (key b, Function.update f b v b) :: graph key names (Function.update f b v)
      rw [set, if_pos rfl, hrest, Function.update_self]
    · have ha' : a ∈ names := (List.mem_cons.1 ha).resolve_left (Ne.symm hba)
      show set (key a) v ((key b, f b) :: graph key names f) =
        (key b, Function.update f a v b) :: graph key names (Function.update f a v)
      rw [set, if_neg fun h => hba (hkey h), ih hnames ha', Function.update_of_ne hba]

/-- **Filling in a map does not depend on the order**: after all of `as` have been set, the map has
the new values there and the old ones elsewhere. -/
theorem foldl_set_graph (hkey : Function.Injective key) {names : List α} (hnodup : names.Nodup)
    (f g : α → β) {as : List α} (has : ∀ a ∈ as, a ∈ names) :
    as.foldl (fun m a => set (key a) (g a) m) (graph key names f) =
      graph key names fun a => if a ∈ as then g a else f a := by
  induction as generalizing f with
  | nil =>
    apply List.map_congr_left
    intro a _
    simp
  | cons b as ih =>
    rw [List.foldl_cons, set_graph hkey hnodup f (has b List.mem_cons_self),
      ih _ fun a ha => has a (List.mem_cons_of_mem b ha)]
    apply List.map_congr_left
    intro a _
    -- a key that is set again later has the same value
    by_cases hab : a = b
    · subst hab
      simp
    · simp [hab]

end InsertionMap
