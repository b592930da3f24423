import MulticoinTreasury.Library.Book
import MulticoinTreasury.Pallet.System
import MulticoinTreasury.Runtime.Config

/-!
# Stakes are reserved balances

The stakes form a book: an accepted deposit credits an account, an accepted withdrawal debits it.
In every reachable state the storage holds this book without any clipping: `Deposits` is its table
and at the same time the reserved balances of the currency (`HoldsStakes`), and `TotalStake` is its
total as long as the issuance of the currency is bounded (`HoldsTotal`).
-/

set_option autoImplicit false

namespace MulticoinTreasury

variable {AccountId : Type}

/-! ## Stake moves -/

/-- What an operation does to the stakes. -/
inductive StakeMove (AccountId : Type) where
  | kept
  | added (who : AccountId) (amount : Balance)
  | removed (who : AccountId) (amount : Balance)

section Moves

variable [DecidableEq AccountId] {T : Config AccountId}

/-- The stake move of an executed operation: a refused call moves nothing. -/
def stakeMove (e : Entry T) : StakeMove AccountId :=
  match e.input, e.output with
  | .call (.signed who) (.deposit amount), .ok _ => .added who amount
  | .call (.signed who) (.withdraw amount), .ok _ => .removed who amount
  | _, _ => .kept

def StakeMove.addedTo (a : AccountId) : StakeMove AccountId → Nat
  | .added who amount => if who = a then amount.val else 0
  | _ => 0

def StakeMove.removedFrom (a : AccountId) : StakeMove AccountId → Nat
  | .removed who amount => if who = a then amount.val else 0
  | _ => 0

/-- The sum of the accepted deposits of an account. -/
def deposited (a : AccountId) (h : List (Entry T)) : Nat :=
  Machine.total (fun e => (stakeMove e).addedTo a) h

/-- The sum of the accepted withdrawals of an account. -/
def withdrawn (a : AccountId) (h : List (Entry T)) : Nat :=
  Machine.total (fun e => (stakeMove e).removedFrom a) h

/-- An operation that the account does not sign does not move its stake. -/
theorem stakeMove_of_not_signed {a : AccountId} {e : Entry T}
    (h : ∀ call, e.input ≠ .call (.signed a) call) :
    (stakeMove e).addedTo a = 0 ∧ (stakeMove e).removedFrom a = 0 := by
  obtain ⟨s, op, out, s'⟩ := e
  have hother : ∀ {who : AccountId} {call : Call T}, op = .call (.signed who) call → who ≠ a := by
    rintro who call rfl rfl
    exact h call rfl
  unfold stakeMove
  dsimp only
  -- a deposit, a withdrawal, or anything else
  split
  · exact ⟨if_neg (hother rfl), rfl⟩
  · exact ⟨rfl, if_neg (hother rfl)⟩
  · exact ⟨rfl, rfl⟩

/-- How a stake move changes the storage and the ledger. -/
inductive StakeStep (s s' : State T) : StakeMove AccountId → Prop
  | kept (hreserved : ∀ a, T.currency.reservedBalance s'.ledger a =
        T.currency.reservedBalance s.ledger a)
      (hdeposits : s'.deposits = s.deposits) (htotal : s'.totalStake = s.totalStake) :
      StakeStep s s' .kept
  | added {who : AccountId} {amount : Balance}
      (hreserve : T.currency.reserve s.ledger who amount = .ok s'.ledger)
      (hdeposits : s'.deposits =
        Function.update s.deposits who ((s.deposits who).saturatingAdd amount))
      (htotal : s'.totalStake = s.totalStake.saturatingAdd amount) :
      StakeStep s s' (.added who amount)
  | removed {who : AccountId} {amount : Balance} (hstaked : amount ≤ s.deposits who)
      (hledger : s'.ledger = (T.currency.unreserve s.ledger who amount).2)
      (hdeposits : s'.deposits =
        Function.update s.deposits who ((s.deposits who).saturatingSub amount))
      (htotal : s'.totalStake = s.totalStake.saturatingSub amount) :
      StakeStep s s' (.removed who amount)

theorem stakeStep (hC : T.currency.Lawful) {s s' : State T} {op : Op T} {out : Outcome T}
    (ht : Transition s op out s') : StakeStep s s' (stakeMove ⟨s, op, out, s'⟩) := by
  cases ht with
  | @accepted origin _ _ ha =>
    cases ha with
    | createProposal hmin hmax hnext => exact .kept (fun _ => rfl) rfl rfl
    | voteProposal hp hactive hopen hfresh hweight => exact .kept (fun _ => rfl) rfl rfl
    | finalizeRejected hp hactive hopen hquorum hfor => exact .kept (fun _ => rfl) rfl rfl
    | finalizeApproved hp hactive hopen hquorum hfor hswap hcoins hbalance =>
      exact .kept (fun _ => rfl) rfl rfl
    | deposit hreserve => exact .added hreserve rfl rfl
    | withdraw hstaked => exact .removed hstaked rfl rfl rfl
    | seedVault => cases origin <;> exact .kept (fun _ => rfl) rfl rfl
  | @refused origin call e =>
    have hmove : stakeMove (⟨s, .call origin call, .error e, s⟩ : Entry T) = .kept := by
      cases origin <;> cases call <;> rfl
    rw [hmove]
    exact .kept (fun _ => rfl) rfl rfl
  | block => exact .kept (fun _ => rfl) rfl rfl
  | currency => exact .kept (fun a => hC.other_reserved _ _ a) rfl rfl

end Moves

/-! ## The storage holds a book of stakes -/

section Holds

variable {T : Config AccountId}

/-- `Deposits` and the reserved balances are the balances of a book. -/
structure HoldsStakes (s : State T) (book : Book AccountId) : Prop where
  deposits_val : ∀ a, (s.deposits a).val = book.balance a
  reserved_val : ∀ a, (T.currency.reservedBalance s.ledger a).val = book.balance a

/-- `TotalStake` is the total of the book as well. -/
structure HoldsTotal (s : State T) (book : Book AccountId) : Prop extends HoldsStakes s book where
  total_val : s.totalStake.val = book.total

theorem holdsTotal_genesis {l : T.currency.Ledger}
    (hzero : ∀ a, T.currency.reservedBalance l a = 0) : HoldsTotal (genesis T l) .empty where
  deposits_val _ := rfl
  reserved_val a := congrArg BoundedNat.val (hzero a)
  total_val := Book.total_empty.symm

/-- Every account's stake is its reserved balance. -/
theorem HoldsStakes.deposits_eq {s : State T} {book : Book AccountId} (h : HoldsStakes s book)
    (a : AccountId) : s.deposits a = T.currency.reservedBalance s.ledger a :=
  BoundedNat.ext ((h.deposits_val a).trans (h.reserved_val a).symm)

/-- A book that is held fits into the issuance. -/
theorem HoldsStakes.total_le (hI : T.currency.IssuanceBounded) {s : State T}
    {book : Book AccountId} (h : HoldsStakes s book) : book.total ≤ maxBalance := by
  apply Book.total_le
  intro accounts
  calc ∑ a ∈ accounts, book.balance a
      = ∑ a ∈ accounts, (T.currency.reservedBalance s.ledger a).val :=
        Finset.sum_congr rfl fun a _ => (h.reserved_val a).symm
    _ ≤ maxBalance := Currency.sum_reserved_le hI s.ledger accounts

/-- A debit of the book is covered. -/
theorem HoldsStakes.covered {s : State T} {book : Book AccountId} (h : HoldsStakes s book)
    {who : AccountId} {amount : Balance} (hstaked : amount ≤ s.deposits who) :
    amount.val ≤ book.balance who := by
  rw [← h.deposits_val who]
  exact hstaked

/-- A successful `reserve` shows that the stake can grow by the amount: the new stake is a reserved
balance, so it is in range. -/
theorem HoldsStakes.deposit_fits (hC : T.currency.Lawful) {s : State T} {book : Book AccountId}
    (h : HoldsStakes s book) {who : AccountId} {amount : Balance} {l : T.currency.Ledger}
    (hreserve : T.currency.reserve s.ledger who amount = .ok l) :
    (s.deposits who).val + amount.val ≤ maxBalance := by
  rw [h.deposits_eq who, ← hC.reserve_reserved hreserve]
  exact le_maxBalance _

variable [DecidableEq AccountId]

/-- The book after a stake move. -/
def StakeMove.applyTo (book : Book AccountId) : StakeMove AccountId → Book AccountId
  | .kept => book
  | .added who amount => book.credit who amount.val
  | .removed who amount => book.debit who amount.val

/-- **No stake move clips a deposit.** The storage holds the moved book after every step. -/
theorem HoldsStakes.moved (hC : T.currency.Lawful) {s s' : State T} {m : StakeMove AccountId}
    {book : Book AccountId} (hstep : StakeStep s s' m) (h : HoldsStakes s book) :
    HoldsStakes s' (m.applyTo book) := by
  cases hstep with
  | kept hreserved hdeposits htotal =>
    constructor
    · intro a
      rw [hdeposits]
      exact h.deposits_val a
    · intro a
      rw [hreserved a]
      exact h.reserved_val a
  | @added who amount hreserve hdeposits htotal =>
    have hself := hC.reserve_reserved hreserve
    constructor
    · intro a
      rw [hdeposits]
      by_cases ha : a = who
      · subst ha
        have hfits := h.deposit_fits hC hreserve
        rw [Function.update_self, BoundedNat.saturatingAdd_val_of_le hfits, h.deposits_val a,
          StakeMove.applyTo, Book.balance_credit_self]
      · rw [Function.update_of_ne ha, StakeMove.applyTo, Book.balance_credit_of_ne ha]
        exact h.deposits_val a
    · intro a
      by_cases ha : a = who
      · subst ha
        rw [hself, h.reserved_val a, StakeMove.applyTo, Book.balance_credit_self]
      · rw [(hC.reserve_others hreserve ha).2, StakeMove.applyTo, Book.balance_credit_of_ne ha]
        exact h.reserved_val a
  | @removed who amount hstaked hledger hdeposits htotal =>
    have hcovered := h.covered hstaked
    constructor
    · intro a
      rw [hdeposits]
      by_cases ha : a = who
      · subst ha
        rw [Function.update_self, BoundedNat.saturatingSub_val, h.deposits_val a, StakeMove.applyTo,
          Book.balance_debit_self]
      · rw [Function.update_of_ne ha, StakeMove.applyTo, Book.balance_debit_of_ne ha]
        exact h.deposits_val a
    · intro a
      rw [hledger]
      by_cases ha : a = who
      · subst ha
        rw [hC.unreserve_reserved, h.reserved_val a, Nat.min_eq_left hcovered, StakeMove.applyTo,
          Book.balance_debit_self]
      · rw [(hC.unreserve_others s.ledger who amount a ha).2, StakeMove.applyTo,
          Book.balance_debit_of_ne ha]
        exact h.reserved_val a

/-- **No stake move clips the total.** Under a bounded issuance the counter follows the book. -/
theorem HoldsTotal.moved (hC : T.currency.Lawful) (hI : T.currency.IssuanceBounded)
    {s s' : State T} {m : StakeMove AccountId} {book : Book AccountId} (hstep : StakeStep s s' m)
    (h : HoldsTotal s book) : HoldsTotal s' (m.applyTo book) := by
  have hstakes : HoldsStakes s' (m.applyTo book) := h.toHoldsStakes.moved hC hstep
  refine ⟨hstakes, ?_⟩
  have hfits : (m.applyTo book).total ≤ maxBalance := hstakes.total_le hI
  cases hstep with
  | kept hreserved hdeposits htotal =>
    rw [htotal]
    exact h.total_val
  | @added who amount hreserve hdeposits htotal =>
    rw [StakeMove.applyTo, Book.total_credit] at hfits ⊢
    rw [htotal, BoundedNat.saturatingAdd_val, h.total_val]
    exact Nat.min_eq_left hfits
  | @removed who amount hstaked hledger hdeposits htotal =>
    have hdebit := Book.total_debit (h.covered hstaked)
    rw [htotal, BoundedNat.saturatingSub_val, h.total_val, StakeMove.applyTo]
    omega

/-- The balances of a moved book. -/
theorem balance_applyTo {s s' : State T} {m : StakeMove AccountId} {book : Book AccountId}
    (hstep : StakeStep s s' m) (h : HoldsStakes s book) (a : AccountId) :
    (m.applyTo book).balance a + m.removedFrom a = book.balance a + m.addedTo a := by
  cases hstep with
  | kept hreserved hdeposits htotal => rfl
  | @added who amount hreserve hdeposits htotal =>
    by_cases ha : who = a
    · subst ha
      simp [StakeMove.applyTo, Book.balance_credit_self, StakeMove.addedTo, StakeMove.removedFrom]
    · simp [StakeMove.applyTo, Book.balance_credit_of_ne (Ne.symm ha), StakeMove.addedTo,
        StakeMove.removedFrom, ha]
  | @removed who amount hstaked hledger hdeposits htotal =>
    by_cases ha : who = a
    · subst ha
      have hcovered := h.covered hstaked
      simp only [StakeMove.applyTo, Book.balance_debit_self, StakeMove.addedTo,
        StakeMove.removedFrom, if_true]
      omega
    · simp [StakeMove.applyTo, Book.balance_debit_of_ne (Ne.symm ha), StakeMove.addedTo,
        StakeMove.removedFrom, ha]

/-! ## Runs -/

/-- In every reachable state the storage holds some book. -/
theorem holdsStakes_run (hC : T.currency.Lawful) {l : T.currency.Ledger}
    (hzero : ∀ a, T.currency.reservedBalance l a = 0) (ops : List (Op T)) :
    ∃ book, HoldsStakes (run (genesis T l) ops) book := by
  refine run_invariant (P := fun s : State T => ∃ book, HoldsStakes s book) ?_
    ⟨.empty, (holdsTotal_genesis hzero).toHoldsStakes⟩ ops
  rintro s s' op out ht ⟨book, hbook⟩
  exact ⟨_, hbook.moved hC (stakeStep hC ht)⟩

/-- A step moves the stake of an account by exactly the amounts of its stake move. -/
theorem HoldsStakes.deposits_step (hC : T.currency.Lawful) {s : State T} {book : Book AccountId}
    (h : HoldsStakes s book) (op : Op T) (a : AccountId) :
    ((step s op).2.deposits a).val + (stakeMove (Machine.entry step s op)).removedFrom a =
      (s.deposits a).val + (stakeMove (Machine.entry step s op)).addedTo a := by
  have hstep := stakeStep hC (step_transition s op)
  rw [(h.moved hC hstep).deposits_val a, h.deposits_val a]
  exact balance_applyTo hstep h a

/-- A stake is what the account has deposited and not withdrawn. -/
theorem deposits_eq_history (hC : T.currency.Lawful) {l : T.currency.Ledger}
    (hzero : ∀ a, T.currency.reservedBalance l a = 0) (ops : List (Op T)) (a : AccountId) :
    ((run (genesis T l) ops).deposits a).val + withdrawn a (history (genesis T l) ops) =
      deposited a (history (genesis T l) ops) := by
  have hrun := Machine.total_balance step (P := fun s : State T => ∃ book, HoldsStakes s book)
    (fun s => (s.deposits a).val) (fun e => (stakeMove e).addedTo a)
    (fun e => (stakeMove e).removedFrom a)
    (fun s op ⟨_, hbook⟩ => ⟨_, hbook.moved hC (stakeStep hC (step_transition s op))⟩)
    (fun _ op ⟨_, hbook⟩ => hbook.deposits_step hC op a)
    ⟨.empty, (holdsTotal_genesis hzero).toHoldsStakes⟩ ops
  exact hrun.trans (Nat.zero_add _)

theorem holdsTotal_run (hC : T.currency.Lawful) (hI : T.currency.IssuanceBounded)
    {l : T.currency.Ledger} (hzero : ∀ a, T.currency.reservedBalance l a = 0)
    (ops : List (Op T)) : ∃ book, HoldsTotal (run (genesis T l) ops) book := by
  refine run_invariant (P := fun s : State T => ∃ book, HoldsTotal s book) ?_
    ⟨.empty, holdsTotal_genesis hzero⟩ ops
  rintro s s' op out ht ⟨book, hbook⟩
  exact ⟨_, hbook.moved hC hI (stakeStep hC ht)⟩

/-- A state that holds a book still holds one after a run. -/
theorem HoldsTotal.run (hC : T.currency.Lawful) (hI : T.currency.IssuanceBounded) {s : State T}
    {book : Book AccountId} (h : HoldsTotal s book) (ops : List (Op T)) :
    ∃ book, HoldsTotal (MulticoinTreasury.run s ops) book := by
  refine run_invariant (P := fun s : State T => ∃ book, HoldsTotal s book) ?_ ⟨book, h⟩ ops
  rintro s s' op out ht ⟨book, hbook⟩
  exact ⟨_, hbook.moved hC hI (stakeStep hC ht)⟩

theorem HoldsTotal.deposit_fits (hC : T.currency.Lawful) (hI : T.currency.IssuanceBounded)
    {s : State T} {book : Book AccountId} (h : HoldsTotal s book) {who : AccountId}
    {amount : Balance} {l : T.currency.Ledger}
    (hreserve : T.currency.reserve s.ledger who amount = .ok l) :
    s.totalStake.val + amount.val ≤ maxBalance := by
  -- the deposit would lead to a state whose book fits as well
  have hstep : StakeStep s (s.addStake who amount l) (.added who amount) :=
    .added hreserve rfl rfl
  have hfits := (h.toHoldsStakes.moved hC hstep).total_le hI
  rw [StakeMove.applyTo, Book.total_credit, ← h.total_val] at hfits
  exact hfits

omit [DecidableEq AccountId] in
theorem HoldsTotal.stake_le_total {s : State T} {book : Book AccountId} (h : HoldsTotal s book)
    (a : AccountId) : s.deposits a ≤ s.totalStake := by
  rw [BoundedNat.le_iff, h.deposits_val a, h.total_val]
  exact book.balance_le_total a

/-- Operations that an account does not sign leave its stake alone. -/
theorem holdsStakes_run_of_not_signed (hC : T.currency.Lawful) {s : State T}
    {book : Book AccountId} (h : HoldsStakes s book) {a : AccountId} {more : List (Op T)}
    (hmore : ∀ op ∈ more, ∀ call, op ≠ .call (.signed a) call) :
    ∃ book', HoldsStakes (run s more) book' ∧ book'.balance a = book.balance a := by
  refine Machine.run_invariant_of_mem (P := fun t : State T =>
    ∃ book', HoldsStakes t book' ∧ book'.balance a = book.balance a) ?_ ⟨book, h, rfl⟩ hmore
  rintro t op hop ⟨book', hbook', hsame⟩
  have hstep := stakeStep hC (step_transition t op)
  have hmove := balance_applyTo hstep hbook' a
  obtain ⟨hadded, hremoved⟩ := stakeMove_of_not_signed (a := a)
    (e := ⟨t, op, (step t op).1, (step t op).2⟩) hop
  refine ⟨_, hbook'.moved hC hstep, ?_⟩
  omega

end Holds

/-! ## Solvency -/

section Solvency

variable [DecidableEq AccountId] {T : Config AccountId}

/-- The withdrawal of `x` by `a` succeeds and moves exactly `x` from the stake of `a` to its free
balance. -/
structure Refunds (s : State T) (a : AccountId) (x : Balance) : Prop where
  accepted : (step s (.call (.signed a) (.withdraw x))).1 = .ok ⟨⟩
  free_val : (T.currency.freeBalance (step s (.call (.signed a) (.withdraw x))).2.ledger a).val =
    (T.currency.freeBalance s.ledger a).val + x.val
  deposits_val : ((step s (.call (.signed a) (.withdraw x))).2.deposits a).val + x.val =
    (s.deposits a).val

/-- A stake that the currency holds in reserve is paid back. -/
theorem HoldsStakes.refunds (hC : T.currency.Lawful) {s : State T} {book : Book AccountId}
    (h : HoldsStakes s book) {a : AccountId} {x : Balance} (hx : x ≤ s.deposits a) :
    Refunds s a x := by
  have hstep : step s (.call (.signed a) (.withdraw x)) = (.ok ⟨⟩, s.removeStake a x) :=
    step_call_of_accepted (.withdraw hx)
  have hreserved : x.val ≤ (T.currency.reservedBalance s.ledger a).val := by
    rw [h.reserved_val a]
    exact h.covered hx
  constructor
  · rw [hstep]
  · rw [hstep]
    show (T.currency.freeBalance (T.currency.unreserve s.ledger a x).2 a).val = _
    rw [hC.unreserve_free, Nat.min_eq_left hreserved]
  · rw [hstep]
    show (Function.update s.deposits a _ a).val + x.val = _
    rw [Function.update_self, BoundedNat.saturatingSub_val]
    exact Nat.sub_add_cancel hx

/-- **The stakes are solvent and refundable.** In every reachable state an account's stake is its
reserved balance and the exact difference of its accepted deposits and withdrawals, and no deposit
clips it. Whatever the other accounts do, any part of the stake can be withdrawn in full. -/
theorem stakes_solvent_and_refundable (hC : T.currency.Lawful) (l : T.currency.Ledger)
    (hzero : ∀ a, T.currency.reservedBalance l a = 0) (ops : List (Op T)) (a : AccountId) :
    let s := run (genesis T l) ops
    s.deposits a = T.currency.reservedBalance s.ledger a ∧
      ((s.deposits a).val : ℤ) = (deposited a (history (genesis T l) ops) : ℤ) -
        (withdrawn a (history (genesis T l) ops) : ℤ) ∧
      (∀ amount l', T.currency.reserve s.ledger a amount = .ok l' →
        (s.deposits a).val + amount.val ≤ maxBalance) ∧
      ∀ (more : List (Op T)) (x : Balance),
        (∀ op ∈ more, ∀ call, op ≠ .call (.signed a) call) → x ≤ s.deposits a →
          Refunds (run s more) a x := by
  intro s
  obtain ⟨book, hbook⟩ := holdsStakes_run hC hzero ops
  refine ⟨hbook.deposits_eq a, ?_, fun amount l' => hbook.deposit_fits hC, ?_⟩
  · have hsum : (s.deposits a).val + withdrawn a (history (genesis T l) ops) =
        deposited a (history (genesis T l) ops) := deposits_eq_history hC hzero ops a
    omega
  · intro more x hmore hx
    -- the others change the book, but not the balance of this account
    obtain ⟨book', hbook', hsame⟩ := holdsStakes_run_of_not_signed hC hbook hmore
    apply hbook'.refunds hC
    rw [BoundedNat.le_iff, hbook'.deposits_val a, hsame]
    exact hbook.covered hx

/-- Alice stakes 100, Bob stakes and withdraws, and Alice gets 60 back. -/
theorem stakes_solvent_and_refundable_alice :
    Refunds (run (run developmentGenesis [.call (.signed .alice) (.deposit (.clamp _ 100))])
      [.call (.signed .bob) (.deposit (.clamp _ 7)),
        .call (.signed .bob) (.withdraw (.clamp _ 7))]) .alice (.clamp _ 60) := by
  refine (stakes_solvent_and_refundable (T := DevConfig) PlainLedger.currency_lawful
    developmentGenesis.ledger (fun _ => rfl) [.call (.signed .alice) (.deposit (.clamp _ 100))]
    .alice).2.2.2 _ _ ?_ (by decide)
  intro op hop call hcall
  subst hcall
  simp at hop

/-- **`TotalStake` is the true total.** In every reachable state the counter is the sum of the
stakes of all accounts, finitely many of which are not zero, and neither a deposit nor a withdrawal
that is accepted clips it. -/
theorem totalStake_eq_sum_deposits (hC : T.currency.Lawful) (hI : T.currency.IssuanceBounded)
    (l : T.currency.Ledger) (hzero : ∀ a, T.currency.reservedBalance l a = 0)
    (ops : List (Op T)) :
    let s := run (genesis T l) ops
    (Function.support fun a => (s.deposits a).val).Finite ∧
      s.totalStake.val = ∑ᶠ a, (s.deposits a).val ∧
      (∀ who amount l', T.currency.reserve s.ledger who amount = .ok l' →
        (s.deposits who).val + amount.val ≤ maxBalance ∧
          s.totalStake.val + amount.val ≤ maxBalance) ∧
      ∀ who amount, amount ≤ s.deposits who → amount ≤ s.totalStake := by
  intro s
  obtain ⟨book, hbook⟩ := holdsTotal_run hC hI hzero ops
  have hbalance : (fun a => (s.deposits a).val) = book.balance :=
    funext fun a => hbook.deposits_val a
  -- support and sum are those of the book
  refine ⟨?_, ?_, ?_, ?_⟩
  · rw [hbalance]
    exact book.finite
  · rw [hbook.total_val, hbalance]
    rfl
  · intro who amount l' hreserve
    exact ⟨hbook.toHoldsStakes.deposit_fits hC hreserve, hbook.deposit_fits hC hI hreserve⟩
  · intro who amount hstaked
    exact Nat.le_trans hstaked (hbook.stake_le_total who)

/-- Alice and Bob stake, and Alice takes a part of her stake back. -/
def aliceAndBobStake : List (Op DevConfig) :=
  [.call (.signed .alice) (.deposit (.clamp _ 100)), .call (.signed .bob) (.deposit (.clamp _ 7)),
    .call (.signed .alice) (.withdraw (.clamp _ 30))]

theorem totalStake_eq_sum_deposits_dev :
    (run developmentGenesis aliceAndBobStake).totalStake.val =
      ∑ᶠ a, ((run developmentGenesis aliceAndBobStake).deposits a).val :=
  (totalStake_eq_sum_deposits (T := DevConfig) PlainLedger.currency_lawful
    PlainLedger.currency_issuanceBounded developmentGenesis.ledger (fun _ => rfl)
    aliceAndBobStake).2.1

end Solvency

end MulticoinTreasury
