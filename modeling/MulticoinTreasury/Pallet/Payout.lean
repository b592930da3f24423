import MulticoinTreasury.Pallet.VotingWindow

/-!
# What a withdrawal pays

`withdraw` checks the amount against its own record of the stake and drops what the currency could
not unreserve. The two ledgers agree as long as only the pallet reserves and unreserves; where
somebody else has unreserved (root can), the event of a withdrawal reports more than it pays.
-/

set_option autoImplicit false

namespace MulticoinTreasury

variable {AccountId : Type} {T : Config AccountId}

/-- `unreserve` moves as much as is reserved from the reserved to the free balance. -/
structure Currency.UnreservesUpTo (C : Currency AccountId) : Prop where
  free : ∀ l a x, (C.freeBalance (C.unreserve l a x).2 a).val =
    (C.freeBalance l a).val + min x.val (C.reservedBalance l a).val
  reserved : ∀ l a x, (C.reservedBalance (C.unreserve l a x).2 a).val =
    (C.reservedBalance l a).val - min x.val (C.reservedBalance l a).val

theorem Currency.Lawful.unreservesUpTo {C : Currency AccountId} (h : C.Lawful) :
    C.UnreservesUpTo :=
  ⟨h.unreserve_free, h.unreserve_reserved⟩

def freeOf (s : State T) (a : AccountId) : Nat := (T.currency.freeBalance s.ledger a).val

def reservedOf (s : State T) (a : AccountId) : Nat := (T.currency.reservedBalance s.ledger a).val

/-- From `s` to `s'` the account is paid the amount `x` that the event reports: its free balance
grows and its reserved balance shrinks by exactly `x`, and its deposit and the total stake fall by
exactly what was released. -/
structure PaidInFull (s s' : State T) (a : AccountId) (x : Balance) : Prop where
  reported : s'.events = s.record [.withdrawn a x]
  paid : freeOf s' a = freeOf s a + x.val
  released : reservedOf s' a + x.val = reservedOf s a
  deposit : (s'.deposits a).val + (reservedOf s a - reservedOf s' a) = (s.deposits a).val
  stake : s'.totalStake.val + (reservedOf s a - reservedOf s' a) = s.totalStake.val

variable [DecidableEq AccountId]

/-- A withdrawal that succeeds pays in full, and one that fails changes nothing. -/
def WithdrawPays (s : State T) (a : AccountId) (x : Balance) : Prop :=
  match step s (.call (.signed a) (.withdraw x)) with
  | (.ok _, s') => PaidInFull s s' a x
  | (.error _, s') => s' = s

theorem step_withdraw_of_le {s : State T} {a : AccountId} {x : Balance} (h : x ≤ s.deposits a) :
    step s (.call (.signed a) (.withdraw x)) = (.ok ⟨⟩, s.removeStake a x) :=
  step_call_of_accepted (.withdraw h)

theorem step_withdraw_of_not_le {s : State T} {a : AccountId} {x : Balance}
    (h : ¬ x ≤ s.deposits a) :
    step s (.call (.signed a) (.withdraw x)) = (.error (.module .withdrawTooLarge), s) := by
  unfold step
  dsimp only
  rw [dispatch_withdraw, if_neg h]

/-- What an accepted withdrawal does pays in full exactly if both ledgers hold the amount. -/
theorem paidInFull_removeStake_iff (hC : T.currency.UnreservesUpTo) {s : State T} {a : AccountId}
    {x : Balance} (hstaked : x ≤ s.deposits a) :
    PaidInFull s (s.removeStake a x) a x ↔
      x.val ≤ reservedOf s a ∧ x.val ≤ s.totalStake.val := by
  have hfree : freeOf (s.removeStake a x) a = freeOf s a + min x.val (reservedOf s a) :=
    hC.free s.ledger a x
  have hreserved : reservedOf (s.removeStake a x) a =
      reservedOf s a - min x.val (reservedOf s a) := hC.reserved s.ledger a x
  have hdeposit : ((s.removeStake a x).deposits a).val = (s.deposits a).val - x.val := by
    show (Function.update s.deposits a _ a).val = _
    rw [Function.update_self]
    rfl
  have hstake : (s.removeStake a x).totalStake.val = s.totalStake.val - x.val := rfl
  rw [BoundedNat.le_iff] at hstaked
  constructor
  · rintro ⟨-, hpaid, hreleased, -, htotal⟩
    omega
  · rintro ⟨hcovered, htotal⟩
    refine ⟨rfl, ?_, ?_, ?_, ?_⟩
    · omega
    · omega
    · omega
    · omega

/-- **A withdrawal pays in full exactly if the reserve and the total stake cover it,** or if it is
refused because it is larger than the recorded stake. -/
theorem withdraw_pays_iff_covered (hC : T.currency.UnreservesUpTo) (s : State T) (a : AccountId)
    (x : Balance) :
    WithdrawPays s a x ↔ (s.deposits a).val < x.val ∨
      (x.val ≤ reservedOf s a ∧ x.val ≤ s.totalStake.val) := by
  unfold WithdrawPays
  by_cases hstaked : x ≤ s.deposits a
  · rw [step_withdraw_of_le hstaked]
    rw [or_iff_right (Nat.not_lt_of_le hstaked)]
    exact paidInFull_removeStake_iff hC hstaked
  · rw [step_withdraw_of_not_le hstaked]
    exact iff_of_true rfl (Or.inl (Nat.lt_of_not_le hstaked))

/-- Alice has staked a hundred units. -/
def aliceStaked : State DevConfig :=
  run developmentGenesis
    [.block (.clamp _ 1), .call (.signed .alice) (.deposit (.clamp _ 100))]

/-- Root has unreserved her stake, as `force_unreserve` does. -/
def forceUnreserved : State DevConfig :=
  { aliceStaked with
    ledger := (DevConfig.currency.unreserve aliceStaked.ledger .alice (.clamp _ 100)).2 }

/-- Alice withdraws a hundred units: the call succeeds and reports them, and pays nothing. -/
theorem withdrawal_pays_nothing :
    let r := step forceUnreserved (.call (.signed .alice) (.withdraw (.clamp _ 100)))
    r.1 = .ok ⟨⟩ ∧ r.2.events = forceUnreserved.events ++ [.withdrawn .alice (.clamp _ 100)] ∧
      freeOf r.2 .alice = freeOf forceUnreserved .alice ∧
      ¬ WithdrawPays forceUnreserved .alice (.clamp _ 100) := by
  refine ⟨rfl, rfl, rfl, ?_⟩
  intro h
  have hpaid : freeOf (step forceUnreserved
      (.call (.signed .alice) (.withdraw (.clamp _ 100)))).2 .alice =
        freeOf forceUnreserved .alice + 100 := PaidInFull.paid h
  exact absurd hpaid (by decide)

/-- The theorem before root has unreserved the stake. -/
theorem withdraw_pays_iff_covered_alice : WithdrawPays aliceStaked .alice (.clamp _ 100) :=
  (withdraw_pays_iff_covered (T := DevConfig) PlainLedger.currency_lawful.unreservesUpTo aliceStaked
    .alice (.clamp _ 100)).2 (Or.inr (by decide))

end MulticoinTreasury
