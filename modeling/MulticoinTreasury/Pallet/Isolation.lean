import MulticoinTreasury.Library.Noninterference
import MulticoinTreasury.Pallet.Refusals
import MulticoinTreasury.Runtime.Config

/-!
# The stake of an account is its own

Of all that happens on the chain, only the deposits and withdrawals of an account, and the transfers
that it takes part in, bear on its stake: votes, proposals, decisions, blocks and the stakes of the
others could as well be left out. `stakeUnwinding` says this step by step.
-/

set_option autoImplicit false

namespace MulticoinTreasury

variable {AccountId : Type} {T : Config AccountId}

/-- What an account has staked, and its two balances. -/
structure StakeView where
  stake : Balance
  free : Balance
  reserved : Balance
  deriving DecidableEq

def stakeView (a : AccountId) (s : State T) : StakeView where
  stake := s.deposits a
  free := T.currency.freeBalance s.ledger a
  reserved := T.currency.reservedBalance s.ledger a

theorem stakeView_eq {a : AccountId} {s t : State T} (hstake : s.deposits a = t.deposits a)
    (hfree : T.currency.freeBalance s.ledger a = T.currency.freeBalance t.ledger a)
    (hreserved : T.currency.reservedBalance s.ledger a = T.currency.reservedBalance t.ledger a) :
    stakeView a s = stakeView a t := by
  unfold stakeView
  rw [hstake, hfree, hreserved]

/-- An operation of the currency that leaves the free balance of an account alone. -/
def KeepsFree (a : AccountId) : Op T → Prop
  | .currency o => ∀ l, T.currency.freeBalance (T.currency.other o l) a = T.currency.freeBalance l a
  | _ => True

variable [DecidableEq AccountId]

/-- A deposit or a withdrawal that the account signs. -/
def isStakeCall (a : AccountId) : Op T → Bool
  | .call (.signed who) (.deposit _) => who = a
  | .call (.signed who) (.withdraw _) => who = a
  | _ => false

/-! ## Own calls -/

theorem stakeView_deposit (hC : T.currency.Lawful) (hR : T.currency.ReserveLocal) {a : AccountId}
    {s t : State T} (amount : Balance) (hview : stakeView a s = stakeView a t) :
    (step s (.call (.signed a) (.deposit amount))).1 =
        (step t (.call (.signed a) (.deposit amount))).1 ∧
      stakeView a (step s (.call (.signed a) (.deposit amount))).2 =
        stakeView a (step t (.call (.signed a) (.deposit amount))).2 := by
  obtain ⟨hstake, hfree, hreserved⟩ := StakeView.mk.inj hview
  have hlocal := hR s.ledger t.ledger a amount hfree hreserved
  rw [step_call, step_call, dispatch_deposit, dispatch_deposit]
  -- `reserve` answers alike on both ledgers
  cases hs : T.currency.reserve s.ledger a amount with
  | error e =>
    cases ht : T.currency.reserve t.ledger a amount with
    | error e' =>
      rw [hs, ht] at hlocal
      cases hlocal
      exact ⟨rfl, hview⟩
    | ok l =>
      rw [hs, ht] at hlocal
      cases hlocal
  | ok l =>
    cases ht : T.currency.reserve t.ledger a amount with
    | error e =>
      rw [hs, ht] at hlocal
      cases hlocal
    | ok l' =>
      refine ⟨rfl, stakeView_eq ?_ ?_ ?_⟩
      · show Function.update s.deposits a _ a = Function.update t.deposits a _ a
        rw [Function.update_self, Function.update_self, hstake]
      · -- both ledgers give up the same amount
        have hgive := hC.reserve_free hs
        have hgive' := hC.reserve_free ht
        rw [hfree] at hgive
        exact BoundedNat.ext (Nat.add_right_cancel (hgive.trans hgive'.symm))
      · apply BoundedNat.ext
        show (T.currency.reservedBalance l a).val = (T.currency.reservedBalance l' a).val
        rw [hC.reserve_reserved hs, hC.reserve_reserved ht, hreserved]

theorem stakeView_withdraw (hC : T.currency.Lawful) {a : AccountId} {s t : State T}
    (amount : Balance) (hview : stakeView a s = stakeView a t) :
    (step s (.call (.signed a) (.withdraw amount))).1 =
        (step t (.call (.signed a) (.withdraw amount))).1 ∧
      stakeView a (step s (.call (.signed a) (.withdraw amount))).2 =
        stakeView a (step t (.call (.signed a) (.withdraw amount))).2 := by
  obtain ⟨hstake, hfree, hreserved⟩ := StakeView.mk.inj hview
  rw [step_call, step_call, dispatch_withdraw, dispatch_withdraw, ← hstake]
  -- the check and the ledger see the stake and the balances of the account only
  by_cases hstaked : amount ≤ s.deposits a
  · rw [if_pos hstaked, if_pos hstaked]
    refine ⟨rfl, stakeView_eq ?_ (BoundedNat.ext ?_) (BoundedNat.ext ?_)⟩
    · show Function.update s.deposits a _ a = Function.update t.deposits a _ a
      rw [Function.update_self, Function.update_self, hstake]
    · show (T.currency.freeBalance (T.currency.unreserve s.ledger a amount).2 a).val =
        (T.currency.freeBalance (T.currency.unreserve t.ledger a amount).2 a).val
      rw [hC.unreserve_free, hC.unreserve_free, hfree, hreserved]
    · show (T.currency.reservedBalance (T.currency.unreserve s.ledger a amount).2 a).val =
        (T.currency.reservedBalance (T.currency.unreserve t.ledger a amount).2 a).val
      rw [hC.unreserve_reserved, hC.unreserve_reserved, hreserved]
  · rw [if_neg hstaked, if_neg hstaked]
    exact ⟨rfl, hview⟩

/-! ## Everything else -/

/-- No other operation changes the stake or the balances of the account. -/
theorem stakeView_foreign (hC : T.currency.Lawful) {a : AccountId} {s s' : State T} {op : Op T}
    {out : Outcome T} (ht : Transition s op out s') (hforeign : isStakeCall a op = false)
    (hfree : KeepsFree a op) : stakeView a s' = stakeView a s := by
  cases ht with
  | accepted ha =>
    cases ha with
    | createProposal | voteProposal | finalizeRejected | finalizeApproved | seedVault => rfl
    | @deposit who amount l hreserve =>
      -- a deposit of another account, or it would be a stake call of this one
      have hne : a ≠ who := fun h => of_decide_eq_false hforeign h.symm
      obtain ⟨hother, hother'⟩ := hC.reserve_others hreserve hne
      exact stakeView_eq (Function.update_of_ne hne _ _) hother hother'
    | @withdraw who amount hstaked =>
      have hne : a ≠ who := fun h => of_decide_eq_false hforeign h.symm
      obtain ⟨hother, hother'⟩ := hC.unreserve_others s.ledger who amount a hne
      exact stakeView_eq (Function.update_of_ne hne _ _) hother hother'
  | refused => rfl
  | block => rfl
  | currency => exact stakeView_eq rfl (hfree s.ledger) (hC.other_reserved _ s.ledger a)

/-- The unwinding of the stake of an account. -/
def stakeUnwinding (hC : T.currency.Lawful) (hR : T.currency.ReserveLocal) (a : AccountId) :
    Machine.Unwinding (step (T := T)) StakeView where
  view := stakeView a
  own := isStakeCall a
  Foreign op := isStakeCall a op = false ∧ KeepsFree a op
  own_step {s t op} hown hview := by
    unfold isStakeCall at hown
    split at hown
    · cases of_decide_eq_true hown
      exact stakeView_deposit hC hR _ hview
    · cases of_decide_eq_true hown
      exact stakeView_withdraw hC _ hview
    · cases hown
  foreign_step {s op} hforeign :=
    stakeView_foreign hC (step_transition s op) hforeign.1 hforeign.2

theorem keepsFree_covers (hC : T.currency.Lawful) (hR : T.currency.ReserveLocal) {a : AccountId}
    {ops : List (Op T)} (hops : ∀ op ∈ ops, KeepsFree a op) :
    (stakeUnwinding hC hR a).Covers ops := by
  intro op hop
  cases hown : isStakeCall a op with
  | true => exact Or.inl hown
  | false => exact Or.inr ⟨hown, hops op hop⟩

/-- What the chain answers to the deposits and withdrawals of an account. -/
def stakeAnswers (a : AccountId) (h : List (Entry T)) : List (Outcome T) :=
  (h.filter fun e => isStakeCall a e.input).map Machine.Entry.output

/-- **Nobody else touches a stake.** Two runs in which an account makes the same deposits and
withdrawals, from states in which it has the same stake and balances, give it the same answers and
leave it the same stake and balances, whatever the others do in between; only transfers that change
its free balance are excluded. -/
theorem stake_noninterference (hC : T.currency.Lawful) (hR : T.currency.ReserveLocal)
    (a : AccountId) {s t : State T} (hview : stakeView a s = stakeView a t) {ops ops' : List (Op T)}
    (hsame : ops.filter (isStakeCall a) = ops'.filter (isStakeCall a))
    (hops : ∀ op ∈ ops, KeepsFree a op) (hops' : ∀ op ∈ ops', KeepsFree a op) :
    stakeView a (run s ops) = stakeView a (run t ops') ∧
      stakeAnswers a (history s ops) = stakeAnswers a (history t ops') :=
  (stakeUnwinding hC hR a).noninterference hview hsame (keepsFree_covers hC hR hops)
    (keepsFree_covers hC hR hops')

/-- Alice deposits and takes too much back, alone and while Bob stakes and proposes. -/
theorem stake_noninterference_alice :
    let alone : List (Op DevConfig) := [.call (.signed .alice) (.deposit (.clamp _ 100)),
      .call (.signed .alice) (.withdraw (.clamp _ 101))]
    let together : List (Op DevConfig) := [.call (.signed .alice) (.deposit (.clamp _ 100)),
      .call (.signed .bob) (.deposit (.clamp _ 7)),
      .call (.signed .bob) (proposeSwap ⟨.dot, .kusama, 0⟩),
      .call (.signed .alice) (.withdraw (.clamp _ 101))]
    stakeView .alice (run developmentGenesis alone) =
        stakeView .alice (run developmentGenesis together) ∧
      stakeAnswers .alice (history developmentGenesis alone) =
        stakeAnswers .alice (history developmentGenesis together) := by
  intro alone together
  refine stake_noninterference (T := DevConfig) PlainLedger.currency_lawful
    PlainLedger.currency_reserveLocal .alice rfl rfl ?_ ?_
  · intro op hop
    simp only [alone, List.mem_cons, List.not_mem_nil, or_false] at hop
    rcases hop with rfl | rfl <;> trivial
  · intro op hop
    simp only [together, List.mem_cons, List.not_mem_nil, or_false] at hop
    rcases hop with rfl | rfl | rfl | rfl <;> trivial

end MulticoinTreasury
