import Mathlib.Algebra.BigOperators.Finprod
import Mathlib.Tactic

/-!
# Books of accounts

A book gives every account a balance, zero for all but finitely many of them; that finiteness is a
field, so the total of a book is a sum over all accounts. An account is credited with any amount
and debited with at most its balance, and the total follows. The first part gives the sum of a
function of finite support after a change at one point, and compares it with sums over finite sets
and over lists without repetition.
-/

set_option autoImplicit false

universe u

namespace FiniteSum

variable {α : Type u} {f g : α → ℕ}

/-- A change at one point keeps the support finite. -/
theorem hasFiniteSupport_change {a : α} (hf : f.HasFiniteSupport) (h : ∀ b, b ≠ a → g b = f b) :
    g.HasFiniteSupport := by
  refine (Set.Finite.insert a hf).subset fun b hb => ?_
  by_cases hba : b = a
  · exact Or.inl hba
  · refine Or.inr ?_
    rw [Function.mem_support] at hb ⊢
    rwa [← h b hba]

/-- A change at one point changes the sum by the difference of the two values there. -/
theorem finsum_change {a : α} (hf : f.HasFiniteSupport) (h : ∀ b, b ≠ a → g b = f b) :
    ∑ᶠ b, g b + f a = ∑ᶠ b, f b + g a := by
  have hg : g.HasFiniteSupport := hasFiniteSupport_change hf h
  -- away from the point the two functions have the same sum
  have hrest : ∑ᶠ (b) (_ : b ≠ a), g b = ∑ᶠ (b) (_ : b ≠ a), f b :=
    finsum_congr fun b => finsum_congr fun hb => h b hb
  have hsum_f := add_finsum_cond_ne a hf
  have hsum_g := add_finsum_cond_ne a hg
  omega

/-- The sum over a finite set is at most the whole sum. -/
theorem sum_le_finsum (hf : f.HasFiniteSupport) (s : Finset α) : ∑ a ∈ s, f a ≤ ∑ᶠ a, f a := by
  classical
  have hsub : f.support ⊆ ((s ∪ hf.toFinset : Finset α) : Set α) := by
    intro a ha
    simp [hf.mem_toFinset.2 ha]
  rw [finsum_eq_sum_of_support_subset f hsub]
  exact Finset.sum_le_sum_of_subset Finset.subset_union_left

theorem le_finsum (hf : f.HasFiniteSupport) (a : α) : f a ≤ ∑ᶠ b, f b := by
  simpa using sum_le_finsum hf {a}

/-- The sum along a list without repetition is at most the whole sum. -/
theorem list_sum_le_finsum (hf : f.HasFiniteSupport) {l : List α} (hl : l.Nodup) :
    (l.map f).sum ≤ ∑ᶠ a, f a := by
  classical
  rw [← List.sum_toFinset f hl]
  exact sum_le_finsum hf l.toFinset

/-- A bound on every finite partial sum is a bound on the whole sum. -/
theorem finsum_le_of_sum_le {n : ℕ} (h : ∀ s : Finset α, ∑ a ∈ s, f a ≤ n) : ∑ᶠ a, f a ≤ n := by
  by_cases hf : f.HasFiniteSupport
  · rw [finsum_eq_sum f hf]
    exact h _
  · -- the sum over an infinite support is zero by convention
    rw [finsum_of_not_hasFiniteSupport hf]
    exact Nat.zero_le n

/-- A bound on all finite partial sums of `f + r` stays a bound when `f` moves an amount from one
point to another. -/
theorem sum_move_le [DecidableEq α] {r : α → ℕ} {a b : α} {x n : ℕ} (hab : a ≠ b) (hx : x ≤ f a)
    (hbound : ∀ s : Finset α, ∑ c ∈ s, (f c + r c) ≤ n) (s : Finset α) :
    ∑ c ∈ s, (Function.update (Function.update f a (f a - x)) b (f b + x) c + r c) ≤ n := by
  set g := Function.update (Function.update f a (f a - x)) b (f b + x) with hg
  have hga : g a = f a - x := by rw [hg, Function.update_of_ne hab, Function.update_self]
  have hgb : g b = f b + x := by rw [hg, Function.update_self]
  have hgc : ∀ c ∈ (s \ {a, b} : Finset α), g c + r c = f c + r c := by
    intro c hc
    simp only [Finset.mem_sdiff, Finset.mem_insert, Finset.mem_singleton, not_or] at hc
    rw [hg, Function.update_of_ne hc.2.2, Function.update_of_ne hc.2.1]
  -- compare on `s` together with both points
  have hsub : s ⊆ s \ {a, b} ∪ {a, b} := by
    intro c hc
    by_cases h : c ∈ ({a, b} : Finset α)
    · exact Finset.mem_union_right _ h
    · exact Finset.mem_union_left _ (Finset.mem_sdiff.2 ⟨hc, h⟩)
  have hdisj : Disjoint (s \ {a, b}) ({a, b} : Finset α) := Finset.sdiff_disjoint
  calc ∑ c ∈ s, (g c + r c)
      ≤ ∑ c ∈ s \ {a, b} ∪ {a, b}, (g c + r c) := Finset.sum_le_sum_of_subset hsub
    _ = ∑ c ∈ s \ {a, b}, (g c + r c) + ∑ c ∈ {a, b}, (g c + r c) := Finset.sum_union hdisj
    _ = ∑ c ∈ s \ {a, b}, (f c + r c) + ∑ c ∈ {a, b}, (f c + r c) := by
      rw [Finset.sum_congr rfl hgc, Finset.sum_pair hab, Finset.sum_pair hab, hga, hgb]
      omega
    _ = ∑ c ∈ s \ {a, b} ∪ {a, b}, (f c + r c) := (Finset.sum_union hdisj).symm
    _ ≤ n := hbound _

end FiniteSum

/-- Balances of which all but finitely many are zero. -/
structure Book (α : Type u) where
  balance : α → ℕ
  finite : balance.HasFiniteSupport

namespace Book

variable {α : Type u}

def empty : Book α where
  balance _ := 0
  finite := by
    unfold Function.HasFiniteSupport
    simp

/-- The sum of all balances. -/
noncomputable def total (b : Book α) : ℕ := ∑ᶠ a, b.balance a

theorem balance_le_total (b : Book α) (a : α) : b.balance a ≤ b.total :=
  FiniteSum.le_finsum b.finite a

theorem total_empty : (empty : Book α).total = 0 := finsum_zero

theorem total_eq_zero {b : Book α} (h : ∀ a, b.balance a = 0) : b.total = 0 :=
  (finsum_congr h).trans finsum_zero

/-- A bound on the balances of every finite set of accounts bounds the total. -/
theorem total_le {b : Book α} {n : ℕ} (h : ∀ s : Finset α, ∑ a ∈ s, b.balance a ≤ n) :
    b.total ≤ n :=
  FiniteSum.finsum_le_of_sum_le h

variable [DecidableEq α]

/-- The book with the balance of one account replaced. -/
def set (b : Book α) (a : α) (x : ℕ) : Book α where
  balance := Function.update b.balance a x
  finite := FiniteSum.hasFiniteSupport_change b.finite fun _ hc => Function.update_of_ne hc _ _

def credit (b : Book α) (a : α) (x : ℕ) : Book α := b.set a (b.balance a + x)

def debit (b : Book α) (a : α) (x : ℕ) : Book α := b.set a (b.balance a - x)

theorem total_set (b : Book α) (a : α) (x : ℕ) :
    (b.set a x).total + b.balance a = b.total + x := by
  have hsum := FiniteSum.finsum_change (g := (b.set a x).balance) b.finite
    fun _ hc => Function.update_of_ne hc _ _
  have hself : (b.set a x).balance a = x := Function.update_self _ _ _
  rw [hself] at hsum
  exact hsum

theorem total_credit (b : Book α) (a : α) (x : ℕ) : (b.credit a x).total = b.total + x := by
  have hset : (b.credit a x).total + b.balance a = b.total + (b.balance a + x) := b.total_set a _
  omega

theorem total_debit {b : Book α} {a : α} {x : ℕ} (h : x ≤ b.balance a) :
    (b.debit a x).total + x = b.total := by
  have hset : (b.debit a x).total + b.balance a = b.total + (b.balance a - x) := b.total_set a _
  have hle : b.balance a ≤ b.total := b.balance_le_total a
  omega

theorem balance_credit_self (b : Book α) (a : α) (x : ℕ) :
    (b.credit a x).balance a = b.balance a + x :=
  Function.update_self _ _ _

theorem balance_credit_of_ne {b : Book α} {a c : α} {x : ℕ} (h : c ≠ a) :
    (b.credit a x).balance c = b.balance c :=
  Function.update_of_ne h _ _

theorem balance_debit_self (b : Book α) (a : α) (x : ℕ) :
    (b.debit a x).balance a = b.balance a - x :=
  Function.update_self _ _ _

theorem balance_debit_of_ne {b : Book α} {a c : α} {x : ℕ} (h : c ≠ a) :
    (b.debit a x).balance c = b.balance c :=
  Function.update_of_ne h _ _

end Book
