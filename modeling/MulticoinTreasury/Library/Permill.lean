import MulticoinTreasury.Library.BoundedNat

/-!
# Fractions in parts per million

A `Permill` is a fraction with denominator one million, at most one. `mulFloor` multiplies a
bounded natural by the fraction and rounds down; the result stays in the range of its argument.
-/

set_option autoImplicit false

/-- A fraction `parts / 1_000_000` that is at most one. -/
structure Permill where
  parts : Nat
  parts_le : parts ≤ 1000000
  deriving DecidableEq, Repr

namespace Permill

variable {max : Nat}

/-- The fraction with `n` parts per million; more than a million parts count as one. -/
def fromParts (n : Nat) : Permill := ⟨min n 1000000, Nat.min_le_right _ _⟩

/-- The fraction of `n` per cent; more than a hundred per cent count as one. -/
def fromPercent (n : Nat) : Permill := fromParts (n * 10000)

theorem mulFloor_bound (q : Permill) (x : Nat) : q.parts * x / 1000000 ≤ x := by
  have h := Nat.mul_le_mul_right x q.parts_le
  omega

/-- The fraction `q` of `x`, rounded down. -/
def mulFloor (q : Permill) (x : BoundedNat max) : BoundedNat max :=
  ⟨q.parts * x.val / 1000000, (q.mulFloor_bound x.val).trans x.le_max⟩

@[simp] theorem mulFloor_val (q : Permill) (x : BoundedNat max) :
    (q.mulFloor x).val = q.parts * x.val / 1000000 := rfl

theorem mulFloor_mono (q : Permill) {x y : BoundedNat max} (h : x ≤ y) :
    q.mulFloor x ≤ q.mulFloor y :=
  Nat.div_le_div_right (Nat.mul_le_mul_left q.parts h)

/-- A fraction grows by no more than its argument, rounding included. -/
theorem mulFloor_le_add (q : Permill) {x y : BoundedNat max} {d : Nat} (h : y.val ≤ x.val + d) :
    (q.mulFloor y).val ≤ (q.mulFloor x).val + d := by
  have hargument : q.parts * y.val ≤ q.parts * x.val + q.parts * d := by
    rw [← Nat.mul_add]
    exact Nat.mul_le_mul_left q.parts h
  have hparts : q.parts * d ≤ 1000000 * d := Nat.mul_le_mul_right d q.parts_le
  rw [mulFloor_val, mulFloor_val]
  omega

/-- The whole of a value. -/
theorem mulFloor_of_parts {q : Permill} (h : q.parts = 1000000) (x : BoundedNat max) :
    q.mulFloor x = x := by
  apply BoundedNat.ext
  rw [mulFloor_val, h]
  omega

end Permill
