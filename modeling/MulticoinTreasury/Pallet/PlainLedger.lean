import MulticoinTreasury.Library.Book
import MulticoinTreasury.Pallet.Currency

/-!
# An example of a currency

The currency of the runtime is `pallet_balances`, which is outside the repository. `PlainLedger`
does not model it: it has no existential deposit, no locks, no references to accounts and no calls
of root. An amount is reserved if the free balance covers it, as much as possible is unreserved, and
free balances are transferred and pay fees. It is an example that satisfies all laws of a currency,
so a theorem that assumes them speaks about something; the concrete runs of this development keep
most of every balance free, where nothing that it leaves out plays a role.
-/

set_option autoImplicit false

namespace MulticoinTreasury

variable {AccountId : Type}

/-- Free and reserved balances, together at most `u128::MAX`. -/
structure PlainLedger (AccountId : Type) where
  free : AccountId → Nat
  reserved : AccountId → Nat
  issued : ∀ s : Finset AccountId, ∑ a ∈ s, (free a + reserved a) ≤ maxBalance

namespace PlainLedger

theorem free_add_reserved_le (l : PlainLedger AccountId) (a : AccountId) :
    l.free a + l.reserved a ≤ maxBalance := by
  simpa using l.issued {a}

def freeBalance (l : PlainLedger AccountId) (a : AccountId) : Balance :=
  ⟨l.free a, (Nat.le_add_right _ _).trans (l.free_add_reserved_le a)⟩

def reservedBalance (l : PlainLedger AccountId) (a : AccountId) : Balance :=
  ⟨l.reserved a, (Nat.le_add_left _ _).trans (l.free_add_reserved_le a)⟩

/-- New tables in which no account holds more than before. -/
def replace (l : PlainLedger AccountId) (free reserved : AccountId → Nat)
    (h : ∀ a, free a + reserved a ≤ l.free a + l.reserved a) : PlainLedger AccountId where
  free := free
  reserved := reserved
  issued s := (Finset.sum_le_sum fun a _ => h a).trans (l.issued s)

variable [DecidableEq AccountId]

theorem moved_le {f r : AccountId → Nat} {a : AccountId} {x y : Nat} (h : x + y ≤ f a + r a)
    (b : AccountId) : Function.update f a x b + Function.update r a y b ≤ f b + r b := by
  by_cases hb : b = a
  · subst hb
    simpa using h
  · simp [Function.update_of_ne hb]

/-- The error of a `reserve` that the free balance does not cover. -/
inductive ReserveError where
  | insufficientBalance
  deriving DecidableEq, Repr

def reserve (l : PlainLedger AccountId) (a : AccountId) (x : Balance) :
    Except ReserveError (PlainLedger AccountId) :=
  if h : x.val ≤ l.free a then
    .ok (l.replace (Function.update l.free a (l.free a - x.val))
      (Function.update l.reserved a (l.reserved a + x.val)) (moved_le (by omega)))
  else .error .insufficientBalance

def unreserve (l : PlainLedger AccountId) (a : AccountId) (x : Balance) :
    Balance × PlainLedger AccountId :=
  let actual := min x.val (l.reserved a)
  (.clamp _ (x.val - actual),
    l.replace (Function.update l.free a (l.free a + actual))
      (Function.update l.reserved a (l.reserved a - actual)) (moved_le (by omega)))

/-- Operations of the currency beside the pallet. -/
inductive Other (AccountId : Type) where
  | transfer (sender receiver : AccountId) (x : Nat)
  | fee (payer : AccountId) (x : Nat)

/-- What one account gives another receives: the sum over both is the same. -/
theorem sum_transfer_le {f r : AccountId → Nat} {a b : AccountId} {x : Nat} (hab : a ≠ b)
    (hx : x ≤ f a) (hissued : ∀ s : Finset AccountId, ∑ c ∈ s, (f c + r c) ≤ maxBalance)
    (s : Finset AccountId) :
    ∑ c ∈ s, (Function.update (Function.update f a (f a - x)) b (f b + x) c + r c) ≤
      maxBalance :=
  FiniteSum.sum_move_le hab hx hissued s

def other (o : Other AccountId) (l : PlainLedger AccountId) : PlainLedger AccountId :=
  match o with
  | .transfer a b x =>
      if h : a ≠ b ∧ x ≤ l.free a then
        { l with
          free := Function.update (Function.update l.free a (l.free a - x)) b (l.free b + x)
          issued := sum_transfer_le h.1 h.2 l.issued }
      else l
  | .fee a x =>
      l.replace (Function.update l.free a (l.free a - x)) l.reserved fun b => by
        by_cases hb : b = a
        · subst hb
          simp
        · simp [Function.update_of_ne hb]

theorem reserved_other (o : Other AccountId) (l : PlainLedger AccountId) :
    (other o l).reserved = l.reserved := by
  cases o with
  | transfer a b x =>
    by_cases h : a ≠ b ∧ x ≤ l.free a
    · simp only [other, dif_pos h]
    · simp only [other, dif_neg h]
  | fee a x => rfl

/-- Transfers move balances and fees burn them. -/
theorem sum_other_le (o : Other AccountId) {l : PlainLedger AccountId} {n : Nat}
    (h : ∀ s : Finset AccountId, ∑ a ∈ s, (l.free a + l.reserved a) ≤ n)
    (s : Finset AccountId) : ∑ a ∈ s, ((other o l).free a + (other o l).reserved a) ≤ n := by
  cases o with
  | transfer a b x =>
    by_cases hx : a ≠ b ∧ x ≤ l.free a
    · simp only [other, dif_pos hx]
      exact FiniteSum.sum_move_le hx.1 hx.2 h s
    · simp only [other, dif_neg hx]
      exact h s
  | fee a x =>
    refine (Finset.sum_le_sum fun b _ => ?_).trans (h s)
    show Function.update l.free a (l.free a - x) b + l.reserved b ≤ l.free b + l.reserved b
    by_cases hb : b = a
    · subst hb
      simp
    · rw [Function.update_of_ne hb]

/-- The ledger as a currency. -/
def currency (AccountId : Type) [DecidableEq AccountId] : Currency AccountId where
  Ledger := PlainLedger AccountId
  Error := ReserveError
  Other := Other AccountId
  freeBalance := freeBalance
  reservedBalance := reservedBalance
  reserve := reserve
  unreserve := unreserve
  other := other

theorem reserve_eq_ok {l l' : PlainLedger AccountId} {a : AccountId} {x : Balance}
    (h : reserve l a x = .ok l') : x.val ≤ l.free a ∧
      l'.free = Function.update l.free a (l.free a - x.val) ∧
      l'.reserved = Function.update l.reserved a (l.reserved a + x.val) := by
  unfold reserve at h
  split at h
  · rename_i hx
    cases h
    exact ⟨hx, rfl, rfl⟩
  · cases h

theorem exists_reserve {l : PlainLedger AccountId} {a : AccountId} {x : Balance}
    (h : x.val ≤ l.free a) : ∃ l', (currency AccountId).reserve l a x = .ok l' :=
  ⟨_, dif_pos h⟩

/-- **The ledger is a lawful currency.** -/
theorem currency_lawful : (currency AccountId).Lawful where
  reserve_free := by
    intro l l' a x h
    obtain ⟨hx, hfree, -⟩ := reserve_eq_ok h
    show l'.free a + x.val = l.free a
    rw [hfree, Function.update_self]
    omega
  reserve_reserved := by
    intro l l' a x h
    obtain ⟨-, -, hreserved⟩ := reserve_eq_ok h
    show l'.reserved a = l.reserved a + x.val
    rw [hreserved, Function.update_self]
  reserve_others := by
    intro l l' a x b h hb
    obtain ⟨-, hfree, hreserved⟩ := reserve_eq_ok h
    constructor
    · apply BoundedNat.ext
      show l'.free b = l.free b
      rw [hfree, Function.update_of_ne hb]
    · apply BoundedNat.ext
      show l'.reserved b = l.reserved b
      rw [hreserved, Function.update_of_ne hb]
  unreserve_free l a x := Function.update_self a _ l.free
  unreserve_reserved l a x := Function.update_self a _ l.reserved
  unreserve_rest l a x := Nat.min_eq_left ((Nat.sub_le _ _).trans x.le_max)
  unreserve_others l a x b hb :=
    ⟨BoundedNat.ext (Function.update_of_ne hb _ l.free),
      BoundedNat.ext (Function.update_of_ne hb _ l.reserved)⟩
  other_reserved o l a := BoundedNat.ext (congrFun (reserved_other o l) a)

theorem currency_issuanceBounded : (currency AccountId).IssuanceBounded :=
  fun l s => l.issued s

theorem currency_reserveLocal : (currency AccountId).ReserveLocal := by
  intro l m a x hfree _
  have hval : l.free a = m.free a := congrArg BoundedNat.val hfree
  show (reserve l a x).map _ = (reserve m a x).map _
  unfold reserve
  by_cases h : x.val ≤ l.free a
  · rw [dif_pos h, dif_pos (hval ▸ h)]
    rfl
  · rw [dif_neg h, dif_neg (hval ▸ h)]

theorem currency_neverIssues : (currency AccountId).NeverIssues :=
  fun o _ _ h => sum_other_le o h

/-- The ledger of a genesis configuration: a list of endowed accounts, nothing reserved. -/
def genesis (balances : List (AccountId × Nat))
    (h : (balances.map Prod.snd).sum ≤ maxBalance) : PlainLedger AccountId where
  free := endowment balances
  reserved := fun _ => 0
  issued s := (sum_endowment_le balances s).trans h

end PlainLedger

end MulticoinTreasury
