import Mathlib.Tactic

/-!
# Natural numbers in a floating-point format

A format with `p` bits of significand has a value for each natural up to `2 ^ p`; above, its values
are the multiples of a unit that doubles with every power of two. `round p n` is the value nearest
to `n`, and of two nearest ones the even multiple of the unit. Rounding keeps the order, is off by
at most one part in `2 ^ p`, and changes neither a natural up to `2 ^ p` nor a sum that stays up to
there.
-/

set_option autoImplicit false

namespace Rounding

/-- The multiple of `u` that is nearest to `n`, the even one of two. -/
def nearest (u n : ℕ) : ℕ :=
  if 2 * (n % u) < u ∨ (2 * (n % u) = u ∧ n / u % 2 = 0) then n / u * u else (n / u + 1) * u

/-- The distance of the values at `n`. -/
def unit (p n : ℕ) : ℕ := 2 ^ (n.log2 + 1 - p)

def round (p n : ℕ) : ℕ := nearest (unit p n) n

/-- Addition from the left, rounded at each step. -/
def sum (p : ℕ) (xs : List ℕ) : ℕ := xs.foldl (fun acc x => round p (acc + x)) 0

/-! ## Multiples of a unit -/

section Nearest

variable {u m n : ℕ}

theorem nearest_cases (u n : ℕ) : nearest u n = n / u * u ∨ nearest u n = (n / u + 1) * u := by
  unfold nearest
  split
  · exact Or.inl rfl
  · exact Or.inr rfl

theorem mul_le_nearest (u n : ℕ) : n / u * u ≤ nearest u n := by
  rcases nearest_cases u n with h | h
  · exact Nat.le_of_eq h.symm
  · rw [h]
    exact Nat.mul_le_mul_right u (Nat.le_succ _)

theorem nearest_le_mul (u n : ℕ) : nearest u n ≤ (n / u + 1) * u := by
  rcases nearest_cases u n with h | h
  · rw [h]
    exact Nat.mul_le_mul_right u (Nat.le_succ _)
  · exact Nat.le_of_eq h

theorem nearest_of_dvd (hu : 0 < u) (h : u ∣ n) : nearest u n = n := by
  unfold nearest
  rw [Nat.mod_eq_zero_of_dvd h, if_pos (Or.inl (by omega)), Nat.div_mul_cancel h]

/-- A natural is off by half a unit. -/
theorem nearest_error (hu : 0 < u) (n : ℕ) :
    2 * n ≤ 2 * nearest u n + u ∧ 2 * nearest u n ≤ 2 * n + u := by
  -- the remainder decides between the two multiples
  have hn : n / u * u + n % u = n := Nat.div_add_mod' n u
  have hmod : n % u < u := Nat.mod_lt n hu
  have hsucc : (n / u + 1) * u = n / u * u + u := Nat.succ_mul _ _
  unfold nearest
  split <;> omega

theorem nearest_mono (hu : 0 < u) (h : m ≤ n) : nearest u m ≤ nearest u n := by
  rcases Nat.lt_or_eq_of_le (Nat.div_le_div_right (c := u) h) with hlt | heq
  · calc nearest u m
        ≤ (m / u + 1) * u := nearest_le_mul u m
      _ ≤ n / u * u := Nat.mul_le_mul_right u hlt
      _ ≤ nearest u n := mul_le_nearest u n
  · -- between the same two multiples the larger remainder does not go down alone
    have hm : m / u * u + m % u = m := Nat.div_add_mod' m u
    have hn : n / u * u + n % u = n := Nat.div_add_mod' n u
    have hsucc : (n / u + 1) * u = n / u * u + u := Nat.succ_mul _ _
    unfold nearest
    rw [heq] at hm ⊢
    split_ifs <;> omega

end Nearest

/-! ## Rounding -/

section Round

variable {p m n : ℕ}

theorem unit_pos (p n : ℕ) : 0 < unit p n := Nat.two_pow_pos _

theorem round_of_lt (h : n < 2 ^ p) : round p n = n := by
  rcases Nat.eq_zero_or_pos n with rfl | hn
  · exact nearest_of_dvd (unit_pos p 0) (Nat.dvd_zero _)
  · have hlog : n.log2 < p := (Nat.log2_lt (Nat.ne_of_gt hn)).2 h
    have hunit : unit p n = 1 := by
      rw [unit, Nat.sub_eq_zero_of_le hlog, Nat.pow_zero]
    rw [round, hunit]
    exact nearest_of_dvd Nat.one_pos (Nat.one_dvd n)

/-- The powers of two are values of the format. -/
theorem nearest_unit_two_pow {k : ℕ} (h : n.log2 + 1 - p ≤ k) :
    nearest (unit p n) (2 ^ k) = 2 ^ k :=
  nearest_of_dvd (unit_pos p n) (Nat.pow_dvd_pow 2 h)

theorem round_of_le (hp : 0 < p) (h : n ≤ 2 ^ p) : round p n = n := by
  rcases Nat.lt_or_eq_of_le h with hlt | rfl
  · exact round_of_lt hlt
  · refine nearest_unit_two_pow ?_
    rw [Nat.log2_two_pow]
    omega

/-- **Rounding keeps the order.** -/
theorem round_mono (hp : 0 < p) (h : m ≤ n) : round p m ≤ round p n := by
  rcases Nat.eq_zero_or_pos m with rfl | hm
  · rw [round_of_lt (Nat.two_pow_pos p)]
    exact Nat.zero_le _
  have hm0 : m ≠ 0 := Nat.ne_of_gt hm
  have hn0 : n ≠ 0 := Nat.ne_of_gt (Nat.lt_of_lt_of_le hm h)
  have hlog : m.log2 ≤ n.log2 := by
    rw [Nat.le_log2 hn0]
    exact (Nat.log2_self_le hm0).trans h
  rcases Nat.lt_or_eq_of_le hlog with hlt | heq
  · -- a power of two lies between them, and it is a value for both units
    calc round p m
        ≤ nearest (unit p m) (2 ^ (m.log2 + 1)) :=
          nearest_mono (unit_pos p m) (Nat.le_of_lt Nat.lt_log2_self)
      _ = 2 ^ (m.log2 + 1) := nearest_unit_two_pow (Nat.sub_le _ _)
      _ ≤ 2 ^ n.log2 := Nat.pow_le_pow_right Nat.two_pos hlt
      _ = nearest (unit p n) (2 ^ n.log2) := (nearest_unit_two_pow (by omega)).symm
      _ ≤ round p n := nearest_mono (unit_pos p n) (Nat.log2_self_le hn0)
  · have hunit : unit p m = unit p n := by rw [unit, unit, heq]
    rw [round, round, hunit]
    exact nearest_mono (unit_pos p n) h

/-- **Rounding is off by at most one part in `2 ^ p`.** -/
theorem round_error (p n : ℕ) :
    2 ^ p * n ≤ 2 ^ p * round p n + n ∧ 2 ^ p * round p n ≤ 2 ^ p * n + n := by
  rcases Nat.lt_or_ge n (2 ^ p) with hlt | hge
  · rw [round_of_lt hlt]
    exact ⟨Nat.le_add_right _ _, Nat.le_add_right _ _⟩
  · have hn0 : n ≠ 0 := Nat.ne_of_gt (Nat.lt_of_lt_of_le (Nat.two_pow_pos p) hge)
    have hlog : p ≤ n.log2 := (Nat.le_log2 hn0).2 hge
    -- the unit is less than one part in half of `2 ^ p`
    have hunit : 2 ^ p * unit p n ≤ 2 * n := by
      calc 2 ^ p * unit p n
          = 2 ^ (n.log2 + 1) := by
            rw [unit, ← Nat.pow_add]
            congr 1
            omega
        _ = 2 * 2 ^ n.log2 := Nat.pow_succ'
        _ ≤ 2 * n := Nat.mul_le_mul_left 2 (Nat.log2_self_le hn0)
    obtain ⟨hlow, hhigh⟩ := nearest_error (unit_pos p n) n
    have hlow' := Nat.mul_le_mul_left (2 ^ p) hlow
    have hhigh' := Nat.mul_le_mul_left (2 ^ p) hhigh
    rw [Nat.mul_add, Nat.mul_left_comm, Nat.mul_left_comm (2 ^ p)] at hlow' hhigh'
    constructor
    · show 2 ^ p * n ≤ 2 ^ p * nearest (unit p n) n + n
      omega
    · show 2 ^ p * nearest (unit p n) n ≤ 2 ^ p * n + n
      omega

theorem round_pos (hp : 0 < p) : 0 < round p n ↔ 0 < n := by
  constructor
  · intro h
    by_contra hn
    rw [Nat.eq_zero_of_not_pos hn, round_of_lt (Nat.two_pow_pos p)] at h
    exact Nat.lt_irrefl 0 h
  · intro hn
    have hone : round p 1 = 1 := round_of_le hp Nat.one_le_two_pow
    calc 0 < round p 1 := by rw [hone]; exact Nat.one_pos
      _ ≤ round p n := round_mono hp hn

/-- **A sum up to `2 ^ p` is exact.** -/
theorem sum_of_le (hp : 0 < p) {xs : List ℕ} (h : xs.sum ≤ 2 ^ p) : sum p xs = xs.sum := by
  -- the induction carries what has been added so far
  have hfold : ∀ (xs : List ℕ) (acc : ℕ), acc + xs.sum ≤ 2 ^ p →
      xs.foldl (fun acc x => round p (acc + x)) acc = acc + xs.sum := by
    intro xs
    induction xs with
    | nil =>
      intro acc _
      rfl
    | cons x xs ih =>
      intro acc hle
      rw [List.sum_cons, ← Nat.add_assoc] at hle
      rw [List.foldl_cons, round_of_le hp (Nat.le_of_add_right_le hle), ih _ hle, List.sum_cons,
        Nat.add_assoc]
  rw [sum, hfold xs 0 (by rwa [Nat.zero_add]), Nat.zero_add]

end Round

end Rounding
