import MulticoinTreasury.Library.Interleaving
import MulticoinTreasury.Pallet.Effects
import MulticoinTreasury.Pallet.Stakes

/-!
# The order of calls inside a block

Votes, deposits, withdrawals and seeds of different signers are independent: each of them has the
same effect and the same result whatever the others do before it, and the effects commute. So the
order in which a block author puts the calls of different signers does not matter.
-/

set_option autoImplicit false

namespace MulticoinTreasury

variable {AccountId : Type} {T : Config AccountId}

/-- The calls whose order does not matter. -/
def Reorderable : Call T → Prop
  | .voteProposal _ _ => True
  | .deposit _ => True
  | .withdraw _ => True
  | .seedVault _ _ => True
  | .createProposal _ _ _ _ => False
  | .finalizeProposal _ => False

def Op.signer : Op T → Option AccountId
  | .call (.signed who) _ => some who
  | _ => none

/-- A signed call whose order does not matter. -/
def SignedReorderable (op : Op T) : Prop :=
  ∃ who call, op = .call (.signed who) call ∧ Reorderable call

/-- The effect of a call in the state `s`. -/
def callEffect (s : State T) (who : AccountId) : Call T → Effect
  | .voteProposal id vote =>
      match voteGuard s who id with
      | .ok _ => .vote id vote (voteWeight s who)
      | .error _ => .none
  | .deposit amount =>
      match T.currency.reserve s.ledger who amount with
      | .ok _ => .stake amount
      | .error _ => .none
  | .withdraw amount => if amount ≤ s.deposits who then .unstake amount else .none
  | .seedVault coin amount => .seed coin amount
  | .createProposal _ _ _ _ => .none
  | .finalizeProposal _ => .none

/-! ## What a call depends on -/

theorem voteWeight_congr {s t : State T} {who : AccountId}
    (hview : s.storage.view who = t.storage.view who) : voteWeight s who = voteWeight t who := by
  have hdeposit : s.deposits who = t.deposits who := congrArg LocalView.deposit hview
  have hkarma : s.karma who = t.karma who := congrArg LocalView.karma hview
  rw [voteWeight, voteWeight, hdeposit, hkarma]

/-- The guards of a vote read nothing but the view of the voter. -/
theorem voteGuard_congr {s t : State T} {who : AccountId}
    (hview : s.storage.view who = t.storage.view who) (id : ProposalId) :
    (voteGuard s who id).map (fun _ => ()) = (voteGuard t who id).map fun _ => () := by
  have hblock : s.blockNumber = t.blockNumber := congrArg LocalView.blockNumber hview
  have hvoted : s.hasVoted id who = t.hasVoted id who :=
    congrFun (congrArg LocalView.voted hview) id
  have hweight : voteWeight s who = voteWeight t who := voteWeight_congr hview
  have hproposals : (s.proposals id).map (fun p => (p.status, p.endBlock)) =
      (t.proposals id).map fun p => (p.status, p.endBlock) :=
    congrFun (congrArg LocalView.proposals hview) id
  unfold voteGuard
  cases hp : s.proposals id with
  | none =>
    rw [hp] at hproposals
    cases hq : t.proposals id with
    | none => rfl
    | some q =>
      rw [hq] at hproposals
      cases hproposals
  | some p =>
    rw [hp] at hproposals
    cases hq : t.proposals id with
    | none =>
      rw [hq] at hproposals
      cases hproposals
    | some q =>
      rw [hq, Option.map_some, Option.map_some, Option.some.injEq, Prod.mk.injEq] at hproposals
      obtain ⟨hstatus, hend⟩ := hproposals
      dsimp only
      rw [hblock, hvoted, hweight, hstatus, hend]
      split_ifs <;> rfl

variable [DecidableEq AccountId]

/-- The result and the effect of a call depend only on the view of its signer. -/
theorem call_congr (hR : T.currency.ReserveLocal) {s t : State T} {who : AccountId} {call : Call T}
    (hkind : Reorderable call) (hview : s.storage.view who = t.storage.view who) :
    (step s (.call (.signed who) call)).1 = (step t (.call (.signed who) call)).1 ∧
      callEffect s who call = callEffect t who call := by
  cases call with
  | createProposal => exact hkind.elim
  | finalizeProposal => exact hkind.elim
  | voteProposal id vote =>
    have hguard := voteGuard_congr hview id
    simp only [step, callEffect, dispatch_voteProposal, voteWeight_congr hview]
    cases hs : voteGuard s who id with
    | ok p =>
      cases ht : voteGuard t who id with
      | ok q => exact ⟨rfl, rfl⟩
      | error e =>
        rw [hs, ht] at hguard
        cases hguard
    | error e =>
      cases ht : voteGuard t who id with
      | ok q =>
        rw [hs, ht] at hguard
        cases hguard
      | error e' =>
        rw [hs, ht] at hguard
        cases hguard
        exact ⟨rfl, rfl⟩
  | deposit amount =>
    have hbalance := congrArg LocalView.balance hview
    have hreserve := hR s.ledger t.ledger who amount
      (BoundedNat.ext (congrArg Prod.fst hbalance)) (BoundedNat.ext (congrArg Prod.snd hbalance))
    simp only [step, callEffect, dispatch_deposit]
    cases hs : T.currency.reserve s.ledger who amount with
    | ok l =>
      cases ht : T.currency.reserve t.ledger who amount with
      | ok m => exact ⟨rfl, rfl⟩
      | error e =>
        rw [hs, ht] at hreserve
        cases hreserve
    | error e =>
      cases ht : T.currency.reserve t.ledger who amount with
      | ok m =>
        rw [hs, ht] at hreserve
        cases hreserve
      | error e' =>
        rw [hs, ht] at hreserve
        cases hreserve
        exact ⟨rfl, rfl⟩
  | withdraw amount =>
    have hdeposit : s.deposits who = t.deposits who := congrArg LocalView.deposit hview
    simp only [step, callEffect, dispatch_withdraw, hdeposit]
    by_cases h : amount ≤ t.deposits who
    · simp only [if_pos h, and_self]
    · simp only [if_neg h, and_self]
  | seedVault coin amount =>
    simp only [step, callEffect, dispatch_seedVault, and_self]

/-! ## A call is its effect -/

/-- The balances after a successful `reserve`. -/
theorem balances_reserve (hC : T.currency.Lawful) {s : State T} {who : AccountId}
    {amount : Balance} {l : T.currency.Ledger}
    (hreserve : T.currency.reserve s.ledger who amount = .ok l) (a : AccountId) :
    (s.addStake who amount l).storage.balances a = PointUpdate.modify s.storage.balances who
      (fun b => (b.1 - amount.val, b.2 + amount.val)) a := by
  by_cases ha : a = who
  · subst ha
    have hfree := hC.reserve_free hreserve
    rw [PointUpdate.modify_self]
    refine Prod.ext ?_ (hC.reserve_reserved hreserve)
    show (T.currency.freeBalance l a).val = (T.currency.freeBalance s.ledger a).val - amount.val
    omega
  · obtain ⟨hfree, hreserved⟩ := hC.reserve_others hreserve ha
    rw [PointUpdate.modify_of_ne ha]
    exact Prod.ext (congrArg BoundedNat.val hfree) (congrArg BoundedNat.val hreserved)

/-- The balances after `unreserve`. -/
theorem balances_unreserve (hC : T.currency.Lawful) (s : State T) (who : AccountId)
    (amount : Balance) (a : AccountId) :
    (s.removeStake who amount).storage.balances a = PointUpdate.modify s.storage.balances who
      (fun b => (b.1 + min amount.val b.2, b.2 - min amount.val b.2)) a := by
  by_cases ha : a = who
  · subst ha
    rw [PointUpdate.modify_self]
    exact Prod.ext (hC.unreserve_free s.ledger a amount) (hC.unreserve_reserved s.ledger a amount)
  · obtain ⟨hfree, hreserved⟩ := hC.unreserve_others s.ledger who amount a ha
    rw [PointUpdate.modify_of_ne ha]
    exact Prod.ext (congrArg BoundedNat.val hfree) (congrArg BoundedNat.val hreserved)

/-- **A call changes the storage by its effect.** -/
theorem storage_step (hC : T.currency.Lawful) (s : State T) (who : AccountId) {call : Call T}
    (hkind : Reorderable call) : (step s (.call (.signed who) call)).2.storage =
      (callEffect s who call).apply who s.storage := by
  cases call with
  | createProposal => exact hkind.elim
  | finalizeProposal => exact hkind.elim
  | voteProposal id vote =>
    simp only [step, callEffect, dispatch_voteProposal]
    cases hg : voteGuard s who id with
    | error e => rfl
    | ok p =>
      have hp : s.proposals id = some p := (voteGuard_ok_iff.1 hg).1
      have hproposals : Function.update s.proposals id (some (p.addVote vote (voteWeight s who))) =
          PointUpdate.modify s.proposals id fun p => p.map (·.addVote vote (voteWeight s who)) := by
        rw [PointUpdate.modify, hp]
        rfl
      exact Storage.ext rfl hproposals rfl rfl rfl rfl rfl rfl rfl
  | deposit amount =>
    simp only [step, callEffect, dispatch_deposit]
    cases hr : T.currency.reserve s.ledger who amount with
    | error e => rfl
    | ok l => exact Storage.ext rfl rfl rfl rfl rfl rfl rfl rfl (funext (balances_reserve hC hr))
  | withdraw amount =>
    simp only [step, callEffect, dispatch_withdraw]
    by_cases h : amount ≤ s.deposits who
    · rw [if_pos h, if_pos h]
      exact Storage.ext rfl rfl rfl rfl rfl rfl rfl rfl
        (funext (balances_unreserve hC s who amount))
    · rw [if_neg h, if_neg h]
      rfl
  | seedVault coin amount =>
    simp only [step, callEffect, dispatch_seedVault]
    rfl

/-- The effect of a call does not clip the total stake. -/
theorem fits_callEffect (hC : T.currency.Lawful) (hI : T.currency.IssuanceBounded) {s : State T}
    {book : Book AccountId} (h : HoldsTotal s book) (who : AccountId) (call : Call T) :
    (callEffect s who call).Fits s.storage := by
  cases call with
  | createProposal => trivial
  | finalizeProposal => trivial
  | seedVault => trivial
  | voteProposal id vote =>
    rw [callEffect]
    cases voteGuard s who id <;> trivial
  | deposit amount =>
    rw [callEffect]
    cases hr : T.currency.reserve s.ledger who amount with
    | error e => trivial
    | ok l => exact h.deposit_fits hC hI hr
  | withdraw amount =>
    rw [callEffect]
    by_cases hstaked : amount ≤ s.deposits who
    · rw [if_pos hstaked]
      exact Nat.le_trans hstaked (h.stake_le_total who)
    · rw [if_neg hstaked]
      trivial

/-! ## Independence -/

/-- A call of another signer does not change the view of an account. -/
theorem view_step (hC : T.currency.Lawful) (s : State T) {a b : AccountId} (hab : b ≠ a)
    {call : Call T} (hkind : Reorderable call) :
    (step s (.call (.signed a) call)).2.storage.view b = s.storage.view b := by
  rw [storage_step hC s a hkind]
  exact Effect.view_apply hab s.storage _

/-- **Calls of different signers are independent.** -/
theorem signers_independent (hC : T.currency.Lawful) (hI : T.currency.IssuanceBounded)
    (hR : T.currency.ReserveLocal) :
    Machine.Independent (step (T := T)) Op.signer SignedReorderable
      (fun s => ∃ book, HoldsTotal s book) (fun s t => s.storage = t.storage) where
  equiv := ⟨fun _ => rfl, Eq.symm, Eq.trans⟩
  congr := by
    rintro s t _ ⟨who, call, rfl, hkind⟩ hst
    obtain ⟨hout, heffect⟩ := call_congr hR hkind (congrArg (Storage.view · who) hst)
    refine ⟨hout, ?_⟩
    rw [storage_step hC s who hkind, storage_step hC t who hkind, heffect, hst]
  inv := by
    rintro s op - ⟨book, hbook⟩
    exact ⟨_, hbook.moved hC hI (stakeStep hC (step_transition s op))⟩
  output := by
    rintro s _ _ ⟨a, c, rfl, hc⟩ ⟨b, d, rfl, hd⟩ hab -
    have hne : b ≠ a := fun h => hab (congrArg some h.symm)
    exact (call_congr hR hd (view_step hC s hne hc)).1
  exchange := by
    rintro s _ _ ⟨a, c, rfl, hc⟩ ⟨b, d, rfl, hd⟩ hab ⟨book, hbook⟩
    have hne : b ≠ a := fun h => hab (congrArg some h.symm)
    -- each call has the effect it would have had without the other
    have heffect_d := (call_congr hR hd (view_step hC s hne hc)).2
    have heffect_c := (call_congr hR hc (view_step hC s hne.symm hd)).2
    rw [storage_step hC _ b hd, storage_step hC _ a hc, storage_step hC _ a hc,
      storage_step hC _ b hd, heffect_d, heffect_c]
    exact Effect.apply_comm hne.symm (fits_callEffect hC hI hbook a c)
      (fits_callEffect hC hI hbook b d)

/-- **The order of different signers' calls inside a block does not matter.** Two orders of votes,
deposits, withdrawals and seeds that keep the order of the calls of each signer end with the same
storage and balances, and every signer gets the same results. -/
theorem reordering_keeps_results (hC : T.currency.Lawful) (hI : T.currency.IssuanceBounded)
    (hR : T.currency.ReserveLocal) (l : T.currency.Ledger)
    (hzero : ∀ a, T.currency.reservedBalance l a = 0) (ops calls calls' : List (Op T))
    (hkind : ∀ op ∈ calls, SignedReorderable op) (hperm : calls'.Perm calls)
    (horder : ∀ a, calls.filter (·.signer = some a) = calls'.filter (·.signer = some a)) :
    let s := run (genesis T l) ops
    (run s calls).storage = (run s calls').storage ∧
      ∀ a, Machine.view Op.signer (some a) (history s calls) =
        Machine.view Op.signer (some a) (history s calls') := by
  intro s
  have hkind' : ∀ op ∈ calls', SignedReorderable op := fun op hop => hkind op (hperm.mem_iff.1 hop)
  have hsigned : ∀ {ops' : List (Op T)}, (∀ op ∈ ops', SignedReorderable op) →
      ops'.filter (·.signer = none) = [] := by
    intro ops' hops'
    rw [List.filter_eq_nil_iff]
    intro op hop hnone
    obtain ⟨who, call, rfl, -⟩ := hops' op hop
    simp [Op.signer] at hnone
  -- the library asks for every agent, and here each call has a signer
  have hproj : ∀ k, calls.filter (·.signer = k) = calls'.filter (·.signer = k) := by
    intro k
    cases k with
    | none => rw [hsigned hkind, hsigned hkind']
    | some a => exact horder a
  obtain ⟨hstorage, hresults⟩ := Machine.run_eq_of_projections_eq (signers_independent hC hI hR)
    calls calls' hkind hkind' (holdsTotal_run hC hI hzero ops) hproj
  exact ⟨hstorage, fun a => hresults (some a)⟩

/-- Alice and Bob each stake and vote on Alice's proposal. -/
def aliceVotes : List (Op DevConfig) :=
  [.call (.signed .alice) (.deposit (.clamp _ 100)),
    .call (.signed .alice) (.voteProposal 0 .forVote)]

def bobVotes : List (Op DevConfig) :=
  [.call (.signed .bob) (.deposit (.clamp _ 7)),
    .call (.signed .bob) (.voteProposal 0 .againstVote),
    .call (.signed .bob) (.withdraw (.clamp _ 7))]

/-- Whoever of the two comes first, the storage is the same. -/
theorem reordering_keeps_results_dev :
    (run (run developmentGenesis [.call (.signed .alice) (proposeSwap ⟨.dot, .kusama, 0⟩)])
      (aliceVotes ++ bobVotes)).storage =
      (run (run developmentGenesis [.call (.signed .alice) (proposeSwap ⟨.dot, .kusama, 0⟩)])
        (bobVotes ++ aliceVotes)).storage := by
  refine (reordering_keeps_results (T := DevConfig) PlainLedger.currency_lawful
    PlainLedger.currency_issuanceBounded PlainLedger.currency_reserveLocal developmentGenesis.ledger
    (fun _ => rfl) [.call (.signed .alice) (proposeSwap ⟨.dot, .kusama, 0⟩)]
    (aliceVotes ++ bobVotes) (bobVotes ++ aliceVotes) ?_ List.perm_append_comm ?_).1
  · intro op hop
    simp only [aliceVotes, bobVotes, List.cons_append, List.nil_append, List.mem_cons,
      List.not_mem_nil, or_false] at hop
    rcases hop with rfl | rfl | rfl | rfl | rfl
    · exact ⟨.alice, _, rfl, trivial⟩
    · exact ⟨.alice, _, rfl, trivial⟩
    · exact ⟨.bob, _, rfl, trivial⟩
    · exact ⟨.bob, _, rfl, trivial⟩
    · exact ⟨.bob, _, rfl, trivial⟩
  · intro a
    cases a <;> rfl

end MulticoinTreasury
