import MulticoinTreasury.Pallet.System
import MulticoinTreasury.Runtime.Config

/-!
# The vault as a ledger

The vault is credited by `seed_vault` and by the coin that an executed swap buys, and debited by
the coin that the swap sells. A debit is always covered. A credit is clipped at `u128::MAX`, and
the part above it is lost: the balance of a coin and everything lost on the way together are the
credits minus the debits.
-/

set_option autoImplicit false

namespace MulticoinTreasury

variable {AccountId : Type} {T : Config AccountId}

/-! ## Vault moves -/

/-- What an operation does to the vault. -/
inductive VaultMove where
  | kept
  | seeded (coin : Coin) (amount : U128)
  | swapped (swap : Swap)

/-- The swap of the proposal stored at `id`, if that is approved. -/
def approvedSwap (s : State T) (id : ProposalId) : VaultMove :=
  match s.proposals id with
  | some p =>
      match p.status, p.action with
      | .approved, .swap swap => .swapped swap
      | _, _ => .kept
  | none => .kept

/-- The vault move of an executed operation. A successful `finalize_proposal` executes the swap of
the proposal if it leaves it approved. -/
def vaultMove (e : Entry T) : VaultMove :=
  match e.input, e.output with
  | .call _ (.seedVault coin amount), .ok _ => .seeded coin amount
  | .call _ (.finalizeProposal id), .ok _ => approvedSwap e.after id
  | _, _ => .kept

def VaultMove.creditedTo (c : Coin) : VaultMove → Nat
  | .kept => 0
  | .seeded coin amount => if coin = c then amount.val else 0
  | .swapped swap => if swap.toCoin = c then swap.amount.val else 0

def VaultMove.debitedFrom (c : Coin) : VaultMove → Nat
  | .swapped swap => if swap.fromCoin = c then swap.amount.val else 0
  | _ => 0

/-- The part of a credit that does not fit into the balance of the coin. -/
def lostCredit (c : Coin) (e : Entry T) : Nat :=
  (e.before.vault c).val + (vaultMove e).creditedTo c - maxBalance

/-- The sum of all seeds of a coin and of all executed swaps into it. -/
def credited (c : Coin) (h : List (Entry T)) : Nat :=
  Machine.total (fun e => (vaultMove e).creditedTo c) h

/-- The sum of all executed swaps out of a coin. -/
def debited (c : Coin) (h : List (Entry T)) : Nat :=
  Machine.total (fun e => (vaultMove e).debitedFrom c) h

/-- How a vault move changes the vault. -/
inductive VaultStep (s s' : State T) : VaultMove → Prop
  | kept (hvault : s'.vault = s.vault) : VaultStep s s' .kept
  | seeded {coin : Coin} {amount : U128}
      (hvault : s'.vault = Function.update s.vault coin ((s.vault coin).saturatingAdd amount)) :
      VaultStep s s' (.seeded coin amount)
  | swapped {swap : Swap} (hcoins : swap.fromCoin ≠ swap.toCoin)
      (hbalance : swap.amount ≤ s.vault swap.fromCoin)
      (hvault : s'.vault = Function.update
        (Function.update s.vault swap.fromCoin ((s.vault swap.fromCoin).saturatingSub swap.amount))
        swap.toCoin ((s.vault swap.toCoin).saturatingAdd swap.amount)) :
      VaultStep s s' (.swapped swap)

theorem approvedSwap_of_approved {s : State T} {id : ProposalId} {p : Proposal T} {swap : Swap}
    (hp : s.proposals id = some p) (hstatus : p.status = .approved)
    (hswap : p.action = .swap swap) : approvedSwap s id = .swapped swap := by
  rw [approvedSwap, hp]
  dsimp only
  rw [hstatus, hswap]

theorem approvedSwap_of_rejected {s : State T} {id : ProposalId} {p : Proposal T}
    (hp : s.proposals id = some p) (hstatus : p.status = .rejected) :
    approvedSwap s id = .kept := by
  rw [approvedSwap, hp]
  dsimp only
  rw [hstatus]

theorem vaultStep [DecidableEq AccountId] {s s' : State T} {op : Op T} {out : Outcome T}
    (ht : Transition s op out s') : VaultStep s s' (vaultMove ⟨s, op, out, s'⟩) := by
  cases ht with
  | @accepted origin _ _ ha =>
    cases ha with
    | createProposal hmin hmax hnext => exact .kept rfl
    | voteProposal hp hactive hopen hfresh hweight => exact .kept rfl
    | @finalizeRejected who id p hp hactive hopen hquorum hfor =>
      have hmove : vaultMove ⟨s, .call (.signed who) (.finalizeProposal id), .ok ⟨⟩,
          s.reject id p⟩ = .kept :=
        approvedSwap_of_rejected (Function.update_self _ _ _) rfl
      rw [hmove]
      exact .kept rfl
    | @finalizeApproved who id p swap hp hactive hopen hquorum hfor hswap hcoins hbalance =>
      have hmove : vaultMove ⟨s, .call (.signed who) (.finalizeProposal id), .ok ⟨⟩,
          s.approve id p swap⟩ = .swapped swap :=
        approvedSwap_of_approved (Function.update_self _ _ _) rfl hswap
      rw [hmove]
      exact .swapped hcoins hbalance rfl
    | deposit hreserve => exact .kept rfl
    | withdraw hstaked => exact .kept rfl
    | seedVault => exact .seeded rfl
  | @refused origin call e =>
    have hmove : vaultMove (⟨s, .call origin call, .error e, s⟩ : Entry T) = .kept := by
      cases call <;> rfl
    rw [hmove]
    exact .kept rfl
  | block => exact .kept rfl
  | currency => exact .kept rfl

/-! ## Balances and the sum over all coins -/

/-- The vault after a move, with the part of the credit that is lost. -/
theorem VaultStep.vault_val {s s' : State T} {m : VaultMove} (h : VaultStep s s' m) (c : Coin) :
    (s'.vault c).val + (m.debitedFrom c + ((s.vault c).val + m.creditedTo c - maxBalance)) =
      (s.vault c).val + m.creditedTo c := by
  have hrange := le_maxBalance (s.vault c)
  cases h with
  | kept hvault =>
    rw [hvault]
    simp only [VaultMove.debitedFrom, VaultMove.creditedTo]
    omega
  | @seeded coin amount hvault =>
    rw [hvault]
    simp only [VaultMove.debitedFrom, VaultMove.creditedTo]
    by_cases hc : coin = c
    · subst hc
      rw [if_pos rfl, Function.update_self, Nat.zero_add]
      exact BoundedNat.saturatingAdd_val_add_excess _ _
    · rw [if_neg hc, Function.update_of_ne (Ne.symm hc)]
      omega
  | @swapped swap hcoins hbalance hvault =>
    rw [hvault]
    simp only [VaultMove.debitedFrom, VaultMove.creditedTo]
    -- the coin is bought, sold, or neither; it cannot be both
    by_cases hto : swap.toCoin = c
    · have hfrom : swap.fromCoin ≠ c := fun h => hcoins (h.trans hto.symm)
      subst hto
      rw [if_pos rfl, if_neg hfrom, Function.update_self, Nat.zero_add]
      exact BoundedNat.saturatingAdd_val_add_excess _ _
    · rw [if_neg hto, Function.update_of_ne (Ne.symm hto)]
      by_cases hfrom : swap.fromCoin = c
      · subst hfrom
        rw [BoundedNat.le_iff] at hbalance
        rw [if_pos rfl, Function.update_self, BoundedNat.saturatingSub_val]
        omega
      · rw [if_neg hfrom, Function.update_of_ne (Ne.symm hfrom)]
        omega

/-- No debit goes below zero. -/
theorem VaultStep.debited_le {s s' : State T} {m : VaultMove} (h : VaultStep s s' m) (c : Coin) :
    m.debitedFrom c ≤ (s.vault c).val := by
  cases h with
  | kept hvault => exact Nat.zero_le _
  | seeded hvault => exact Nat.zero_le _
  | @swapped swap hcoins hbalance hvault =>
    by_cases hfrom : swap.fromCoin = c
    · subst hfrom
      rw [VaultMove.debitedFrom, if_pos rfl]
      exact hbalance
    · rw [VaultMove.debitedFrom, if_neg hfrom]
      exact Nat.zero_le _

/-- A finalization executes a swap or leaves the vault alone. -/
theorem vaultMove_of_finalize {e : Entry T} {origin : Origin AccountId} {id : ProposalId}
    (hinput : e.input = .call origin (.finalizeProposal id)) :
    vaultMove e = .kept ∨ ∃ swap, vaultMove e = .swapped swap := by
  obtain ⟨s, op, out, s'⟩ := e
  subst hinput
  cases out with
  | error err => exact Or.inl rfl
  | ok r =>
    show approvedSwap s' id = _ ∨ ∃ swap, approvedSwap s' id = _
    unfold approvedSwap
    cases s'.proposals id with
    | none => exact Or.inl rfl
    | some p =>
      dsimp only
      split
      · exact Or.inr ⟨_, rfl⟩
      · exact Or.inl rfl

/-- A finalization debits as much as it credits. -/
theorem sum_debited_of_finalize {e : Entry T} {origin : Origin AccountId} {id : ProposalId}
    (hinput : e.input = .call origin (.finalizeProposal id)) :
    ∑ c, (vaultMove e).debitedFrom c = ∑ c, (vaultMove e).creditedTo c := by
  rcases vaultMove_of_finalize hinput with hmove | ⟨swap, hmove⟩
  · rw [hmove]
    rfl
  · rw [hmove]
    simp only [VaultMove.debitedFrom, VaultMove.creditedTo, Finset.sum_ite_eq, Finset.mem_univ,
      if_true]

/-- A finalization keeps the sum of the vault, except for what its swap loses. -/
theorem sum_vault_of_finalize {e : Entry T} (hstep : VaultStep e.before e.after (vaultMove e))
    {origin : Origin AccountId} {id : ProposalId}
    (hinput : e.input = .call origin (.finalizeProposal id)) :
    ∑ c, (e.after.vault c).val + ∑ c, lostCredit c e = ∑ c, (e.before.vault c).val := by
  have hval : ∑ c, ((e.after.vault c).val + ((vaultMove e).debitedFrom c + lostCredit c e)) =
      ∑ c, ((e.before.vault c).val + (vaultMove e).creditedTo c) :=
    Finset.sum_congr rfl fun c _ => hstep.vault_val c
  have hbalanced := sum_debited_of_finalize hinput
  rw [Finset.sum_add_distrib, Finset.sum_add_distrib, Finset.sum_add_distrib] at hval
  omega

/-! ## Runs -/

variable [DecidableEq AccountId]

/-- A step changes the balance of a coin by its credit, its debit and what the credit loses. -/
theorem vault_step (s : State T) (op : Op T) (c : Coin) :
    ((step s op).2.vault c).val + ((vaultMove (Machine.entry step s op)).debitedFrom c +
        lostCredit c (Machine.entry step s op)) =
      (s.vault c).val + (vaultMove (Machine.entry step s op)).creditedTo c := by
  have hstep : VaultStep s (step s op).2 (vaultMove (Machine.entry step s op)) :=
    vaultStep (step_transition s op)
  exact hstep.vault_val c

/-- The balance of a coin, its debits and its lost credits add up to its credits. -/
theorem vault_add_lost_eq (l : T.currency.Ledger) (ops : List (Op T)) (c : Coin) :
    ((run (genesis T l) ops).vault c).val + (debited c (history (genesis T l) ops) +
        Machine.total (lostCredit c) (history (genesis T l) ops)) =
      credited c (history (genesis T l) ops) := by
  have hrun := Machine.total_balance step (s := genesis T l) (P := fun _ => True)
    (fun s => (s.vault c).val) (fun e => (vaultMove e).creditedTo c)
    (fun e => (vaultMove e).debitedFrom c + lostCredit c e) (fun _ _ h => h)
    (fun s op _ => vault_step s op c) trivial ops
  have hzero : ((genesis T l).vault c).val = 0 := rfl
  rw [Machine.total_add, hzero, Nat.zero_add] at hrun
  exact hrun

/-- **The vault is its seeds and swaps, up to the clipping at `u128::MAX`.** The balance of a coin,
together with what its clipped credits have lost, is the sum of its seeds and of the swaps into it
minus the swaps out of it, and it is exactly that if and only if no credit was clipped. No swap
takes more than there is, and a finalization changes the sum over all coins only by what the credit
of its swap loses. -/
theorem vault_eq_credits_minus_debits (l : T.currency.Ledger) (ops : List (Op T)) (c : Coin) :
    let s := run (genesis T l) ops
    let h := history (genesis T l) ops
    ((s.vault c).val + Machine.total (lostCredit c) h : ℤ) = (credited c h : ℤ) - debited c h ∧
      (((s.vault c).val : ℤ) = (credited c h : ℤ) - debited c h ↔
        ∀ e ∈ h, (e.before.vault c).val + (vaultMove e).creditedTo c ≤ maxBalance) ∧
      ∀ e ∈ h, (vaultMove e).debitedFrom c ≤ (e.before.vault c).val ∧
        ∀ origin id, e.input = .call origin (.finalizeProposal id) →
          ∑ c, (e.after.vault c).val + ∑ c, lostCredit c e = ∑ c, (e.before.vault c).val := by
  intro s h
  have hsum : (s.vault c).val + (debited c h + Machine.total (lostCredit c) h) = credited c h :=
    vault_add_lost_eq l ops c
  have hlost : Machine.total (lostCredit c) h = 0 ↔
      ∀ e ∈ h, (e.before.vault c).val + (vaultMove e).creditedTo c ≤ maxBalance := by
    rw [Machine.total_eq_zero_iff]
    exact forall₂_congr fun e _ => Nat.sub_eq_zero_iff_le
  refine ⟨by omega, ?_, ?_⟩
  · rw [← hlost]
    omega
  · intro e he
    have hstep : VaultStep e.before e.after (vaultMove e) := vaultStep (transition_of_mem he)
    exact ⟨hstep.debited_le c, fun origin id hinput => sum_vault_of_finalize hstep hinput⟩

/-- Kusama is full when Alice's proposal to swap five units of DOT into it is approved. -/
def swapIntoFullCoin : List (Op DevConfig) :=
  [.block (.clamp _ 1), .call (.signed .alice) (.seedVault .dot (.clamp _ 5)),
    .call (.signed .alice) (.seedVault .kusama (.clamp _ maxBalance)),
    .call (.signed .alice) (.deposit (.clamp _ 100)),
    .call (.signed .alice) (proposeSwap ⟨.dot, .kusama, .clamp _ 5⟩),
    .call (.signed .alice) (.voteProposal 0 .forVote),
    .call (.signed .alice) (.finalizeProposal 0)]

/-- The swap takes five units of DOT and credits nothing. -/
theorem swap_into_full_coin_loses :
    (run developmentGenesis swapIntoFullCoin).vault .dot = 0 ∧
      ((run developmentGenesis swapIntoFullCoin).vault .kusama).val = maxBalance ∧
      credited .kusama (history developmentGenesis swapIntoFullCoin) = maxBalance + 5 ∧
      debited .kusama (history developmentGenesis swapIntoFullCoin) = 0 ∧
      ¬ (((run developmentGenesis swapIntoFullCoin).vault .kusama).val : ℤ) =
        (credited .kusama (history developmentGenesis swapIntoFullCoin) : ℤ) -
          debited .kusama (history developmentGenesis swapIntoFullCoin) := by
  refine ⟨rfl, rfl, rfl, rfl, ?_⟩
  decide

end MulticoinTreasury
