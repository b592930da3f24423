import Mathlib.Algebra.BigOperators.Group.Finset.Basic
import MulticoinTreasury.Library.BoundedNat

/-!
# The currency behind the stakes

The pallet keeps no money of its own: `deposit` and `withdraw` call a reservable currency that is
supplied by the runtime. Its code is outside the repository, so it is a parameter: a ledger type
with free and reserved balances, the two operations that the pallet calls, and the other operations
that move balances beside the pallet (transfers, fees). What the pallet relies on is stated as
separate structures, and a theorem assumes only those that it needs. A chain on which root sets
balances by force is outside of them.
-/

set_option autoImplicit false

/-- The unsigned integers of 32 bits. -/
abbrev U32 : Type := BoundedNat 4294967295

/-- The unsigned integers of 128 bits. -/
abbrev U128 : Type := BoundedNat 340282366920938463463374607431768211455

namespace MulticoinTreasury

abbrev Balance : Type := U128

/-- The largest balance, `u128::MAX`. -/
def maxBalance : Nat := 340282366920938463463374607431768211455

theorem le_maxBalance (b : Balance) : b.val ≤ maxBalance := b.le_max

/-- A reservable currency. A failed `reserve` returns no ledger: it changes nothing. `unreserve`
returns the part of the amount that it could not move. -/
structure Currency (AccountId : Type) where
  Ledger : Type
  Error : Type
  Other : Type
  freeBalance : Ledger → AccountId → Balance
  reservedBalance : Ledger → AccountId → Balance
  reserve : Ledger → AccountId → Balance → Except Error Ledger
  unreserve : Ledger → AccountId → Balance → Balance × Ledger
  other : Other → Ledger → Ledger

namespace Currency

variable {AccountId : Type}

/-- The currency moves what it is asked to move, exactly, and only on the account it is asked to
move it on. The other operations do not touch reserved balances. -/
structure Lawful (C : Currency AccountId) : Prop where
  reserve_free : ∀ {l l' a x}, C.reserve l a x = .ok l' →
    (C.freeBalance l' a).val + x.val = (C.freeBalance l a).val
  reserve_reserved : ∀ {l l' a x}, C.reserve l a x = .ok l' →
    (C.reservedBalance l' a).val = (C.reservedBalance l a).val + x.val
  reserve_others : ∀ {l l' a x b}, C.reserve l a x = .ok l' → b ≠ a →
    C.freeBalance l' b = C.freeBalance l b ∧ C.reservedBalance l' b = C.reservedBalance l b
  unreserve_free : ∀ l a x, (C.freeBalance (C.unreserve l a x).2 a).val =
    (C.freeBalance l a).val + min x.val (C.reservedBalance l a).val
  unreserve_reserved : ∀ l a x, (C.reservedBalance (C.unreserve l a x).2 a).val =
    (C.reservedBalance l a).val - min x.val (C.reservedBalance l a).val
  unreserve_rest : ∀ l a x, (C.unreserve l a x).1.val =
    x.val - min x.val (C.reservedBalance l a).val
  unreserve_others : ∀ l a x b, b ≠ a →
    C.freeBalance (C.unreserve l a x).2 b = C.freeBalance l b ∧
      C.reservedBalance (C.unreserve l a x).2 b = C.reservedBalance l b
  other_reserved : ∀ o l a, C.reservedBalance (C.other o l) a = C.reservedBalance l a

/-- The balances of all accounts together never exceed `u128::MAX`. -/
def IssuanceBounded (C : Currency AccountId) : Prop :=
  ∀ (l : C.Ledger) (s : Finset AccountId),
    ∑ a ∈ s, ((C.freeBalance l a).val + (C.reservedBalance l a).val) ≤ maxBalance

/-- Whether a `reserve` succeeds, and its error if not, depends only on the two balances of the
account. -/
def ReserveLocal (C : Currency AccountId) : Prop :=
  ∀ (l m : C.Ledger) (a : AccountId) (x : Balance), C.freeBalance l a = C.freeBalance m a →
    C.reservedBalance l a = C.reservedBalance m a →
    (C.reserve l a x).map (fun _ => ()) = (C.reserve m a x).map (fun _ => ())

/-- Under the bound on the issuance the reserved balances of any accounts together fit. -/
theorem sum_reserved_le {C : Currency AccountId} (hI : C.IssuanceBounded) (l : C.Ledger)
    (s : Finset AccountId) : ∑ a ∈ s, (C.reservedBalance l a).val ≤ maxBalance :=
  (Finset.sum_le_sum fun _ _ => Nat.le_add_left _ _).trans (hI l s)

/-! ## Issuance -/

/-- The balances of all accounts together are at most `n`. -/
def IssuedAtMost (C : Currency AccountId) (l : C.Ledger) (n : ℕ) : Prop :=
  ∀ s : Finset AccountId, ∑ a ∈ s, ((C.freeBalance l a).val + (C.reservedBalance l a).val) ≤ n

/-- The operations beside the pallet issue nothing. -/
def NeverIssues (C : Currency AccountId) : Prop :=
  ∀ (o : C.Other) (l : C.Ledger) (n : ℕ), C.IssuedAtMost l n → C.IssuedAtMost (C.other o l) n

variable {C : Currency AccountId}

theorem IssuedAtMost.reserved_le {l : C.Ledger} {n : ℕ} (h : C.IssuedAtMost l n)
    (a : AccountId) : (C.reservedBalance l a).val ≤ n := by
  have hone := h {a}
  rw [Finset.sum_singleton] at hone
  exact (Nat.le_add_left _ _).trans hone

/-- A ledger on which every account holds what it held before. -/
theorem IssuedAtMost.of_eq {l l' : C.Ledger} {n : ℕ} (h : C.IssuedAtMost l n)
    (hsame : ∀ a, (C.freeBalance l' a).val + (C.reservedBalance l' a).val =
      (C.freeBalance l a).val + (C.reservedBalance l a).val) : C.IssuedAtMost l' n := by
  intro s
  rw [Finset.sum_congr rfl fun a _ => hsame a]
  exact h s

/-- What is reserved was free before. -/
theorem IssuedAtMost.reserve (hC : C.Lawful) {l l' : C.Ledger} {n : ℕ} {who : AccountId}
    {amount : Balance} (h : C.IssuedAtMost l n) (hreserve : C.reserve l who amount = .ok l') :
    C.IssuedAtMost l' n := by
  refine h.of_eq fun a => ?_
  by_cases ha : a = who
  · subst ha
    have hfree := hC.reserve_free hreserve
    have hreserved := hC.reserve_reserved hreserve
    omega
  · obtain ⟨hfree, hreserved⟩ := hC.reserve_others hreserve ha
    rw [hfree, hreserved]

theorem IssuedAtMost.unreserve (hC : C.Lawful) {l : C.Ledger} {n : ℕ} (who : AccountId)
    (amount : Balance) (h : C.IssuedAtMost l n) :
    C.IssuedAtMost (C.unreserve l who amount).2 n := by
  refine h.of_eq fun a => ?_
  by_cases ha : a = who
  · subst ha
    have hfree := hC.unreserve_free l a amount
    have hreserved := hC.unreserve_reserved l a amount
    omega
  · obtain ⟨hfree, hreserved⟩ := hC.unreserve_others l who amount a ha
    rw [hfree, hreserved]

end Currency

/-! ## Endowments -/

section Endowments

variable {AccountId : Type} [DecidableEq AccountId]

/-- The sum of an account's endowments. -/
def endowment (balances : List (AccountId × Nat)) (a : AccountId) : Nat :=
  ((balances.filter (·.1 = a)).map Prod.snd).sum

theorem sum_endowment_le (balances : List (AccountId × Nat)) (s : Finset AccountId) :
    ∑ a ∈ s, endowment balances a ≤ (balances.map Prod.snd).sum := by
  induction balances with
  | nil => simp [endowment]
  | cons b rest ih =>
    have hcons : ∀ a, endowment (b :: rest) a =
        (if b.1 = a then b.2 else 0) + endowment rest a := by
      intro a
      by_cases h : b.1 = a
      · simp [endowment, h]
      · simp [endowment, h]
    -- the first endowment counts for one account at most
    have hone : (∑ a ∈ s, if b.1 = a then b.2 else 0) ≤ b.2 := by
      rw [Finset.sum_ite_eq]
      split
      · exact Nat.le_refl _
      · exact Nat.zero_le _
    simp only [hcons, Finset.sum_add_distrib, List.map_cons, List.sum_cons]
    omega

end Endowments

end MulticoinTreasury
