import MulticoinTreasury.Library.Book
import MulticoinTreasury.Pallet.ProposalStore
import MulticoinTreasury.Pallet.VaultLedger

/-!
# The storage explains itself

An auditor who reads only the storage can check it. A settled proposal still shows the tallies that
it was decided by, and the approved proposals are together all the swaps that the vault has ever
executed: with the seeds added, and up to what was clipped, they give the balance of every coin.
-/

set_option autoImplicit false

namespace MulticoinTreasury

variable {AccountId : Type} {T : Config AccountId}

/-! ## Decisions -/

/-- The status of a settled proposal follows from its tallies and its action. -/
structure Proposal.Justified (p : Proposal T) : Prop where
  approved : p.status = .approved → p.neededFor ≤ p.forVotes ∧
    ∃ swap, p.action = .swap swap ∧ swap.fromCoin ≠ swap.toCoin
  rejected : p.status = .rejected → ¬ p.neededFor ≤ p.forVotes

theorem Proposal.justified_of_active {p : Proposal T} (h : p.status = .active) :
    p.Justified where
  approved happroved := by
    rw [h] at happroved
    cases happroved
  rejected hrejected := by
    rw [h] at hrejected
    cases hrejected

/-- A change of a stored proposal is justified. -/
theorem ProposalChange.justified {s : State T} {id : ProposalId} {p p' : Proposal T} {op : Op T}
    (h : ProposalChange s id p op p') (hp : p.Justified) : p'.Justified := by
  cases h with
  | same => exact hp
  | voted hactive =>
    apply Proposal.justified_of_active
    rw [addVote_status]
    exact hactive
  | rejected hactive hopen hquorum hfor => exact ⟨(fun h => by cases h), fun _ => hfor⟩
  | approved hactive hopen hquorum hfor hswap hcoins hbalance =>
    exact ⟨fun _ => ⟨hfor, _, hswap, hcoins⟩, (fun h => by cases h)⟩

/-! ## Swaps -/

/-- The swaps into a coin that the approved proposals stand for. -/
noncomputable def bought (c : Coin) (s : State T) : ℕ := ∑ᶠ id, (approvedSwap s id).creditedTo c

/-- The swaps out of a coin that the approved proposals stand for. -/
noncomputable def sold (c : Coin) (s : State T) : ℕ := ∑ᶠ id, (approvedSwap s id).debitedFrom c

/-- The seed of a coin that a vault move is. -/
def VaultMove.seededTo (c : Coin) : VaultMove → ℕ
  | .seeded coin amount => if coin = c then amount.val else 0
  | _ => 0

/-- The credit of a coin that an executed swap is. -/
def VaultMove.boughtOf (c : Coin) : VaultMove → ℕ
  | .swapped swap => if swap.toCoin = c then swap.amount.val else 0
  | _ => 0

theorem VaultMove.creditedTo_eq (c : Coin) (m : VaultMove) :
    m.creditedTo c = m.seededTo c + m.boughtOf c := by
  cases m with
  | kept => rfl
  | seeded coin amount => rfl
  | swapped swap => exact (Nat.zero_add _).symm

/-- The sum of all seeds of a coin. -/
def seeded (c : Coin) (h : List (Entry T)) : ℕ :=
  Machine.total (fun e => (vaultMove e).seededTo c) h

/-- A proposal that is not stored as approved stands for no swap. -/
theorem approvedSwap_of_not_approved {s : State T} {id : ProposalId}
    (h : ∀ p, s.proposals id = some p → p.status ≠ .approved) : approvedSwap s id = .kept := by
  unfold approvedSwap
  cases hp : s.proposals id with
  | none => rfl
  | some p =>
    dsimp only
    split
    · rename_i happroved _
      exact absurd happroved (h p hp)
    · rfl

theorem approvedSwap_of_active {s : State T} {id : ProposalId} {p : Proposal T}
    (hp : s.proposals id = some p) (hactive : p.status = .active) : approvedSwap s id = .kept := by
  apply approvedSwap_of_not_approved
  intro q hq
  cases hp.symm.trans hq
  simp [hactive]

/-- Ids that a write does not touch stand for the same swap. -/
theorem approvedSwap_congr {s s' : State T} {id : ProposalId}
    (h : s'.proposals id = s.proposals id) : approvedSwap s' id = approvedSwap s id := by
  unfold approvedSwap
  rw [h]

/-- How a vault move changes the swaps that the storage stands for. -/
inductive SwapStep (s s' : State T) : VaultMove → Prop
  | kept {m : VaultMove} (hswap : ∀ swap, m ≠ .swapped swap)
      (h : ∀ id, approvedSwap s' id = approvedSwap s id) : SwapStep s s' m
  | swapped {swap : Swap} {id : ProposalId} (hold : approvedSwap s id = .kept)
      (hnew : approvedSwap s' id = .swapped swap)
      (hrest : ∀ j, j ≠ id → approvedSwap s' j = approvedSwap s j) :
      SwapStep s s' (.swapped swap)

/-- A write at an id that stands for no swap before and after it. -/
theorem SwapStep.of_write {s s' : State T} {m : VaultMove} {i : ProposalId}
    {q : Option (Proposal T)} (hswap : ∀ swap, m ≠ .swapped swap)
    (hs' : s'.proposals = Function.update s.proposals i q) (hold : approvedSwap s i = .kept)
    (hnew : approvedSwap s' i = .kept) : SwapStep s s' m := by
  refine .kept hswap fun id => ?_
  by_cases hi : id = i
  · subst hi
    rw [hold, hnew]
  · apply approvedSwap_congr
    rw [hs', Function.update_of_ne hi]

/-- A sum over what the storage stands for changes by what the move stands for. -/
theorem SwapStep.finsum_eq {s s' : State T} {m : VaultMove} (h : SwapStep s s' m)
    (weight moved : VaultMove → ℕ) (hkept : weight .kept = 0)
    (hmoved : ∀ swap, moved (.swapped swap) = weight (.swapped swap))
    (hnot : (∀ swap, m ≠ .swapped swap) → moved m = 0) :
    ∑ᶠ id, weight (approvedSwap s' id) = ∑ᶠ id, weight (approvedSwap s id) + moved m := by
  cases h with
  | kept hswap hsame =>
    rw [hnot hswap, Nat.add_zero]
    exact finsum_congr fun id => congrArg weight (hsame id)
  | @swapped swap id hold hnew hrest =>
    -- the sums differ in the one proposal that is approved now
    have hsum := FiniteSum.finsum_change (f := fun id => weight (approvedSwap s id))
      (g := fun id => weight (approvedSwap s' id)) (a := id) (Set.toFinite _)
      fun j hj => congrArg weight (hrest j hj)
    rw [hold, hnew, hkept, Nat.add_zero] at hsum
    rw [hsum, hmoved]

variable [DecidableEq AccountId]

theorem swapStep {s s' : State T} {op : Op T} {out : Outcome T} (hstore : StoreInv s)
    (ht : Transition s op out s') : SwapStep s s' (vaultMove ⟨s, op, out, s'⟩) := by
  cases ht with
  | accepted ha =>
    cases ha with
    | createProposal hmin hmax hnext =>
      -- nothing is stored at the next id yet
      refine .of_write (fun swap h => by cases h) rfl ?_ ?_
      · apply approvedSwap_of_not_approved
        intro p hp
        cases hstore.next_free.symm.trans hp
      · exact approvedSwap_of_active (Function.update_self _ _ _) rfl
    | voteProposal hp hactive hopen hfresh hweight =>
      refine .of_write (fun swap h => by cases h) rfl (approvedSwap_of_active hp hactive) ?_
      apply approvedSwap_of_active (Function.update_self _ _ _)
      rw [addVote_status]
      exact hactive
    | @finalizeRejected who id p hp hactive hopen hquorum hfor =>
      have hnew : approvedSwap (s.reject id p) id = .kept :=
        approvedSwap_of_rejected (Function.update_self _ _ _) rfl
      -- the move of a finalization is read off the state after it
      have hmove : vaultMove ⟨s, .call (.signed who) (.finalizeProposal id), .ok ⟨⟩,
          s.reject id p⟩ = .kept := hnew
      rw [hmove]
      exact .of_write (fun swap h => by cases h) rfl (approvedSwap_of_active hp hactive) hnew
    | @finalizeApproved who id p swap hp hactive hopen hquorum hfor hswap hcoins hbalance =>
      have hnew : approvedSwap (s.approve id p swap) id = .swapped swap :=
        approvedSwap_of_approved (Function.update_self _ _ _) rfl hswap
      have hmove : vaultMove ⟨s, .call (.signed who) (.finalizeProposal id), .ok ⟨⟩,
          s.approve id p swap⟩ = .swapped swap := hnew
      rw [hmove]
      refine .swapped (approvedSwap_of_active hp hactive) hnew fun j hj => ?_
      exact approvedSwap_congr (Function.update_of_ne hj _ _)
    | deposit | withdraw | seedVault =>
      exact .kept (fun swap h => by cases h) fun id => rfl
  | @refused origin call e =>
    -- a refused call moves nothing, whichever it is
    have hmove : vaultMove (⟨s, .call origin call, .error e, s⟩ : Entry T) = .kept := by
      cases call <;> rfl
    rw [hmove]
    exact .kept (fun swap h => by cases h) fun id => rfl
  | block | currency => exact .kept (fun swap h => by cases h) fun id => rfl

/-- **A step buys and sells what its vault move says.** -/
theorem bought_step {s : State T} (hstore : StoreInv s) (op : Op T) (c : Coin) :
    bought c (step s op).2 = bought c s + (vaultMove (Machine.entry step s op)).boughtOf c := by
  refine (swapStep hstore (step_transition s op)).finsum_eq (VaultMove.creditedTo c)
    (VaultMove.boughtOf c) rfl (fun _ => rfl) fun hnot => ?_
  unfold VaultMove.boughtOf
  split
  · rename_i swap hm
    exact absurd hm (hnot swap)
  · rfl

theorem sold_step {s : State T} (hstore : StoreInv s) (op : Op T) (c : Coin) :
    sold c (step s op).2 = sold c s + (vaultMove (Machine.entry step s op)).debitedFrom c := by
  refine (swapStep hstore (step_transition s op)).finsum_eq (VaultMove.debitedFrom c)
    (VaultMove.debitedFrom c) rfl (fun _ => rfl) fun hnot => ?_
  unfold VaultMove.debitedFrom
  split
  · rename_i swap hm
    exact absurd hm (hnot swap)
  · rfl

/-- The vault, what it has sold and lost, against the seeds and what it has bought. -/
theorem audited_run (l : T.currency.Ledger) (ops : List (Op T)) (c : Coin) :
    ((run (genesis T l) ops).vault c).val + sold c (run (genesis T l) ops) +
        Machine.total (lostCredit c) (history (genesis T l) ops) =
      bought c (run (genesis T l) ops) + seeded c (history (genesis T l) ops) := by
  have hsold : sold c (run (genesis T l) ops) = debited c (history (genesis T l) ops) := by
    have hrun := Machine.total_growth step (P := StoreInv) (sold c)
      (fun e => (vaultMove e).debitedFrom c) (fun s op h => h.transition (step_transition s op))
      (fun s op h => sold_step h op c) (storeInv_genesis l) ops
    rwa [show sold c (genesis T l) = 0 from finsum_zero, Nat.zero_add] at hrun
  have hbought : bought c (run (genesis T l) ops) =
      Machine.total (fun e => (vaultMove e).boughtOf c) (history (genesis T l) ops) := by
    have hrun := Machine.total_growth step (P := StoreInv) (bought c)
      (fun e => (vaultMove e).boughtOf c) (fun s op h => h.transition (step_transition s op))
      (fun s op h => bought_step h op c) (storeInv_genesis l) ops
    rwa [show bought c (genesis T l) = 0 from finsum_zero, Nat.zero_add] at hrun
  -- credits are seeds or purchases; seeds leave no trace in the proposals
  have hcredited : credited c (history (genesis T l) ops) =
      seeded c (history (genesis T l) ops) +
        Machine.total (fun e => (vaultMove e).boughtOf c) (history (genesis T l) ops) := by
    rw [credited, seeded, ← Machine.total_add]
    exact congrArg (fun f => Machine.total f _) (funext fun e => VaultMove.creditedTo_eq c _)
  have hvault := vault_add_lost_eq l ops c
  omega

/-- Every stored proposal of every reachable state is justified. -/
theorem justified_run (l : T.currency.Ledger) (ops : List (Op T)) :
    ∀ id p, (run (genesis T l) ops).proposals id = some p → p.Justified := by
  refine stored_run_invariant (P := fun s : State T =>
    ∀ id p, s.proposals id = some p → p.Justified) ?_ (storeInv_genesis l) ?_ ops
  · intro s s' op out hstore ht hjustified id p' hp'
    -- a stored proposal is new or a change of a stored one
    rcases proposal_cases hstore ht hp' with hcreated | ⟨p, hp, hchange⟩
    · cases hcreated
      exact Proposal.justified_of_active rfl
    · exact hchange.justified (hjustified id p hp)
  · intro id p hp
    cases hp

/-- **The storage passes an audit.** In every reachable state each settled proposal is approved or
rejected as its own tallies demand, no approved proposal swaps a coin for itself, and for every coin
the vault holds its seeds and what the approved proposals have bought, less what they have sold and
what was lost to the clipping of credits. -/
theorem storage_passes_audit (l : T.currency.Ledger) (ops : List (Op T)) :
    let s := run (genesis T l) ops
    let h := history (genesis T l) ops
    (∀ id p, s.proposals id = some p → p.Justified) ∧
      ∀ c, (s.vault c).val + sold c s + Machine.total (lostCredit c) h = bought c s + seeded c h :=
  ⟨justified_run l ops, audited_run l ops⟩

end MulticoinTreasury
