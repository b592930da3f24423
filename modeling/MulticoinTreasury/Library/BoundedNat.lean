import Mathlib.Tactic

/-!
# Saturating arithmetic on bounded naturals

`BoundedNat max` is the type of the naturals up to `max`; the bound is a field, so a value out of
range cannot be built. The saturating operations clip at the two ends of the range and the checked
ones return `none` there. Every lemma reduces an operation to `min`, `+` and `-` on `Nat`, where
`omega` decides what is left.
-/

set_option autoImplicit false

/-- A machine integer: a natural number that is at most `max`. -/
@[ext]
structure BoundedNat (max : Nat) where
  val : Nat
  le_max : val ≤ max
  deriving DecidableEq, Repr

namespace BoundedNat

variable {max : Nat}

/-- The value of the range nearest to `n`. -/
def clamp (max n : Nat) : BoundedNat max := ⟨min n max, Nat.min_le_right n max⟩

instance : Zero (BoundedNat max) := ⟨⟨0, Nat.zero_le max⟩⟩

instance : LE (BoundedNat max) := ⟨fun a b => a.val ≤ b.val⟩

instance : LT (BoundedNat max) := ⟨fun a b => a.val < b.val⟩

instance (a b : BoundedNat max) : Decidable (a ≤ b) := inferInstanceAs (Decidable (a.val ≤ b.val))

instance (a b : BoundedNat max) : Decidable (a < b) := inferInstanceAs (Decidable (a.val < b.val))

/-- Addition clipped at `max`. -/
def saturatingAdd (a b : BoundedNat max) : BoundedNat max := clamp max (a.val + b.val)

/-- Multiplication clipped at `max`. -/
def saturatingMul (a b : BoundedNat max) : BoundedNat max := clamp max (a.val * b.val)

/-- Subtraction clipped at zero. -/
def saturatingSub (a b : BoundedNat max) : BoundedNat max :=
  ⟨a.val - b.val, (Nat.sub_le _ _).trans a.le_max⟩

/-- Addition that fails above `max`. -/
def checkedAdd (a b : BoundedNat max) : Option (BoundedNat max) :=
  if h : a.val + b.val ≤ max then some ⟨a.val + b.val, h⟩ else none

/-- Subtraction that fails below zero. -/
def checkedSub (a b : BoundedNat max) : Option (BoundedNat max) :=
  if b.val ≤ a.val then some (a.saturatingSub b) else none

/-- Conversion into a type with a larger range. -/
def widen {m n : Nat} (h : m ≤ n) (a : BoundedNat m) : BoundedNat n := ⟨a.val, a.le_max.trans h⟩

/-! ## Values -/

@[simp] theorem clamp_val (max n : Nat) : (clamp max n).val = min n max := rfl

@[simp] theorem zero_val : (0 : BoundedNat max).val = 0 := rfl

@[simp] theorem widen_val {m n : Nat} (h : m ≤ n) (a : BoundedNat m) : (widen h a).val = a.val :=
  rfl

@[simp] theorem saturatingAdd_val (a b : BoundedNat max) :
    (a.saturatingAdd b).val = min (a.val + b.val) max := rfl

@[simp] theorem saturatingMul_val (a b : BoundedNat max) :
    (a.saturatingMul b).val = min (a.val * b.val) max := rfl

@[simp] theorem saturatingSub_val (a b : BoundedNat max) :
    (a.saturatingSub b).val = a.val - b.val := rfl

theorem le_iff {a b : BoundedNat max} : a ≤ b ↔ a.val ≤ b.val := Iff.rfl

theorem lt_iff {a b : BoundedNat max} : a < b ↔ a.val < b.val := Iff.rfl

theorem eq_zero_iff {a : BoundedNat max} : a = 0 ↔ a.val = 0 := BoundedNat.ext_iff

theorem checkedAdd_eq_some_iff {a b c : BoundedNat max} :
    a.checkedAdd b = some c ↔ c.val = a.val + b.val := by
  unfold checkedAdd
  constructor
  · intro h
    split at h
    · cases h
      rfl
    · cases h
  · intro h
    have hle : a.val + b.val ≤ max := h ▸ c.le_max
    rw [dif_pos hle, Option.some.injEq, BoundedNat.ext_iff]
    exact h.symm

theorem checkedSub_eq_some_iff {a b c : BoundedNat max} :
    a.checkedSub b = some c ↔ b ≤ a ∧ c = a.saturatingSub b := by
  unfold checkedSub
  by_cases h : b.val ≤ a.val
  · simp [h, le_iff, eq_comm]
  · simp [h, le_iff]

/-! ## Exactness and exchange of operations -/

theorem saturatingAdd_val_of_le {a b : BoundedNat max} (h : a.val + b.val ≤ max) :
    (a.saturatingAdd b).val = a.val + b.val := by
  rw [saturatingAdd_val, Nat.min_eq_left h]

/-- Clipping can wait until after an addition. -/
theorem clamp_saturatingAdd (n : Nat) (b : BoundedNat max) :
    (clamp max n).saturatingAdd b = clamp max (n + b.val) := by
  ext
  simp only [saturatingAdd_val, clamp_val]
  omega

theorem clamp_saturatingAdd_clamp (m n : Nat) :
    (clamp max m).saturatingAdd (clamp max n) = clamp max (m + n) := by
  ext
  simp only [saturatingAdd_val, clamp_val]
  omega

theorem clamp_val_self (a : BoundedNat max) : clamp max a.val = a := by
  ext
  exact Nat.min_eq_left a.le_max

/-- What a clipped addition loses is the part of the sum above `max`. -/
theorem saturatingAdd_val_add_excess (a b : BoundedNat max) :
    (a.saturatingAdd b).val + (a.val + b.val - max) = a.val + b.val := by
  rw [saturatingAdd_val]
  omega

/-- Two clipped additions are one clipped addition of the sum. -/
theorem saturatingAdd_saturatingAdd_val (a b c : BoundedNat max) :
    ((a.saturatingAdd b).saturatingAdd c).val = min (a.val + (b.val + c.val)) max := by
  simp only [saturatingAdd_val]
  omega

theorem saturatingAdd_right_comm (a b c : BoundedNat max) :
    (a.saturatingAdd b).saturatingAdd c = (a.saturatingAdd c).saturatingAdd b := by
  ext
  simp only [saturatingAdd_val]
  omega

theorem saturatingSub_right_comm (a b c : BoundedNat max) :
    (a.saturatingSub b).saturatingSub c = (a.saturatingSub c).saturatingSub b := by
  ext
  simp only [saturatingSub_val]
  omega

/-- A clipped addition and a clipped subtraction commute when neither clips. -/
theorem saturatingSub_saturatingAdd_comm {a b c : BoundedNat max} (hb : a.val + b.val ≤ max)
    (hc : c.val ≤ a.val) :
    (a.saturatingAdd b).saturatingSub c = (a.saturatingSub c).saturatingAdd b := by
  ext
  simp only [saturatingAdd_val, saturatingSub_val]
  omega

/-! ## Counting -/

theorem val_injective : Function.Injective (val : BoundedNat max → Nat) := fun _ _ => BoundedNat.ext

instance : Finite (BoundedNat max) :=
  Finite.of_injective (fun a => (⟨a.val, Nat.lt_succ_of_le a.le_max⟩ : Fin (max + 1)))
    fun _ _ h => BoundedNat.ext (congrArg Fin.val h)

/-- Values below `n` are at most `n` many. -/
theorem ncard_le_of_lt {s : Set (BoundedNat max)} {n : BoundedNat max} (h : ∀ a ∈ s, a < n) :
    s.ncard ≤ n.val := by
  have hsub : val '' s ⊆ (Finset.range n.val : Set Nat) := by
    rintro _ ⟨a, ha, rfl⟩
    exact Finset.mem_coe.2 (Finset.mem_range.2 (h a ha))
  have hcard := Set.ncard_le_ncard hsub (Finset.finite_toSet _)
  rwa [Set.ncard_image_of_injective s val_injective, Set.ncard_coe_finset,
    Finset.card_range] at hcard

end BoundedNat
