import MulticoinTreasury.Pallet.Support

/-!
# Accounts without stake and karma

An outsider has neither stake nor karma. While no proposal is active, outsiders who do not deposit
can propose, but not vote, so every proposal that becomes active has an empty tally (`Idle`). The
vault then changes through `seed_vault`, which anyone may call, and through nothing else, unless an
empty tally is approved.
-/

set_option autoImplicit false

namespace MulticoinTreasury

variable {AccountId : Type} {T : Config AccountId}

/-- What outsiders of the state `s` may do: any call but a deposit. Blocks and other operations of
the currency happen beside them. -/
def OutsiderOp (s : State T) : Op T → Prop
  | .call (.signed who) call => s.deposits who = 0 ∧ s.karma who = 0 ∧
      ∀ amount, call ≠ .deposit amount
  | .call _ _ => False
  | .block _ => True
  | .currency _ => True

/-- The amount that an operation seeds for a coin. -/
def seedOf (c : Coin) : Op T → Nat
  | .call _ (.seedVault coin amount) => if coin = c then amount.val else 0
  | _ => 0

def seededIn (c : Coin) (ops : List (Op T)) : Nat := (ops.map (seedOf c)).sum

/-- The state `t` has the stakes and the karma of `s`, and nobody has voted on an active
proposal. -/
structure Idle (s t : State T) : Prop where
  store : StoreInv t
  totalStake_eq : t.totalStake = s.totalStake
  deposits_eq : t.deposits = s.deposits
  karma_eq : t.karma = s.karma
  empty : ∀ id p, t.proposals id = some p → p.status = .active →
    p.forVotes = 0 ∧ p.againstVotes = 0

/-- A state with the same stakes and karma is idle as well if its active tallies are empty. -/
theorem Idle.of_eq {s t u : State T} (h : Idle s t) (hstore : StoreInv u)
    (htotal : u.totalStake = t.totalStake) (hdeposits : u.deposits = t.deposits)
    (hkarma : u.karma = t.karma)
    (hempty : ∀ id p, u.proposals id = some p → p.status = .active →
      p.forVotes = 0 ∧ p.againstVotes = 0) : Idle s u where
  store := hstore
  totalStake_eq := htotal.trans h.totalStake_eq
  deposits_eq := hdeposits.trans h.deposits_eq
  karma_eq := hkarma.trans h.karma_eq
  empty := hempty

theorem voteWeight_eq_zero {s : State T} {who : AccountId} (hdeposits : s.deposits who = 0)
    (hkarma : s.karma who = 0) : voteWeight s who = 0 := by
  apply BoundedNat.ext
  rw [voteWeight_val, ballotWeight, hdeposits, hkarma, BoundedNat.zero_val, BoundedNat.zero_val,
    Nat.mul_zero, Nat.zero_min, Nat.zero_add, Nat.zero_min]

variable [DecidableEq AccountId]

/-- Active proposals keep an empty tally as long as accepted votes are impossible. -/
theorem empty_step {s s' : State T} {op : Op T} {out : Outcome T} (hstore : StoreInv s)
    (ht : Transition s op out s')
    (hvote : ∀ who id vote, op = .call (.signed who) (.voteProposal id vote) →
      voteWeight s who = 0)
    (h : ∀ id p, s.proposals id = some p → p.status = .active →
      p.forVotes = 0 ∧ p.againstVotes = 0) :
    ∀ id p, s'.proposals id = some p → p.status = .active →
      p.forVotes = 0 ∧ p.againstVotes = 0 := by
  intro id p' hp' hactive'
  rcases proposal_cases hstore ht hp' with ⟨hid, hmin, hmax⟩ | ⟨p, hp, hchange⟩
  · exact ⟨rfl, rfl⟩
  · cases hchange with
    | same => exact h id _ hp hactive'
    | voted hactive hopen hfresh hweight => exact absurd (hvote _ _ _ rfl) hweight
    | rejected => cases hactive'
    | approved => cases hactive'

/-- One operation of outsiders keeps the state idle and changes the vault by its seed, unless it
approves an empty tally. -/
theorem idle_transition {s t t' : State T} {op : Op T} {out : Outcome T}
    (ht : Transition t op out t') (hidle : Idle s t) (hop : OutsiderOp s op)
    (hsupported : ¬ UnsupportedEntry ⟨t, op, out, t'⟩) :
    Idle s t' ∧ ∀ c, (t'.vault c).val = min ((t.vault c).val + seedOf c op) maxBalance := by
  have hvote : ∀ who id vote, op = .call (.signed who) (.voteProposal id vote) →
      voteWeight t who = 0 := by
    rintro who id vote rfl
    obtain ⟨hdeposits, hkarma, -⟩ := hop
    exact voteWeight_eq_zero ((congrFun hidle.deposits_eq who).trans hdeposits)
      ((congrFun hidle.karma_eq who).trans hkarma)
  have hstore : StoreInv t' := hidle.store.transition ht
  have hempty := empty_step hidle.store ht hvote hidle.empty
  -- an operation that writes no vault seeds nothing
  have hkept : ∀ c, (t.vault c).val = min ((t.vault c).val + 0) maxBalance :=
    fun c => (Nat.min_eq_left (t.vault c).le_max).symm
  cases ht with
  | @accepted origin call _ ha =>
    cases ha with
    | createProposal hmin hmax hnext =>
      exact ⟨hidle.of_eq hstore rfl rfl rfl hempty, hkept⟩
    | voteProposal hp hactive hopen hfresh hweight => exact absurd (hvote _ _ _ rfl) hweight
    | finalizeRejected hp hactive hopen hquorum hfor =>
      exact ⟨hidle.of_eq hstore rfl rfl rfl hempty, hkept⟩
    | @finalizeApproved who id p swap hp hactive hopen hquorum hfor hswap hcoins hbalance =>
      exact absurd ⟨who, id, rfl, unsupportedApproval_of_approved hp hactive hopen hquorum hfor
        hswap hcoins hbalance (hidle.empty id p hp hactive).1⟩ hsupported
    | deposit hreserve => exact absurd rfl (hop.2.2 _)
    | @withdraw who amount hstaked =>
      have hstake : t.deposits who = 0 := (congrFun hidle.deposits_eq who).trans hop.1
      have hamount : amount = 0 := by
        rw [hstake] at hstaked
        exact BoundedNat.eq_zero_iff.2 (Nat.le_zero.1 hstaked)
      subst hamount
      -- nothing is withdrawn: the stake is written back as it was
      exact ⟨hidle.of_eq hstore rfl (Function.update_eq_self who t.deposits) rfl hempty, hkept⟩
    | @seedVault _ coin amount =>
      refine ⟨hidle.of_eq hstore rfl rfl rfl hempty, fun c => ?_⟩
      show (Function.update t.vault coin _ c).val = _
      by_cases hc : coin = c
      · subst hc
        rw [Function.update_self, seedOf, if_pos rfl]
        rfl
      · rw [Function.update_of_ne (Ne.symm hc), seedOf, if_neg hc]
        exact hkept c
  | @refused origin call e hrefused =>
    refine ⟨hidle, fun c => ?_⟩
    have hseed : seedOf c (.call origin call : Op T) = 0 := by
      cases call with
      | seedVault coin amount => exact absurd .seedVault (hrefused _)
      | createProposal | voteProposal | finalizeProposal | deposit | withdraw => rfl
    rw [hseed]
    exact hkept c
  | block =>
    exact ⟨hidle.of_eq hstore rfl rfl rfl hempty, hkept⟩
  | currency =>
    exact ⟨hidle.of_eq hstore rfl rfl rfl hempty, hkept⟩

/-- A run of outsiders keeps the state idle and changes the vault by its seeds. -/
theorem idle_run {s : State T} {more : List (Op T)} :
    ∀ {t : State T}, Idle s t → (∀ op ∈ more, OutsiderOp s op) →
      (∀ e ∈ history t more, ¬ UnsupportedEntry e) →
        Idle s (run t more) ∧
          ∀ c, ((run t more).vault c).val = min ((t.vault c).val + seededIn c more) maxBalance := by
  induction more with
  | nil => exact fun {t} hidle _ _ => ⟨hidle, fun c => (Nat.min_eq_left (t.vault c).le_max).symm⟩
  | cons op more ih =>
    intro t hidle hops hsupported
    obtain ⟨hnext, hvault⟩ := idle_transition (step_transition t op) hidle
      (hops op List.mem_cons_self) (hsupported _ List.mem_cons_self)
    obtain ⟨hrun, hvaults⟩ := ih hnext (fun o ho => hops o (List.mem_cons_of_mem op ho))
      fun e he => hsupported e (List.mem_cons_of_mem _ he)
    refine ⟨hrun, fun c => ?_⟩
    have hseeded : seededIn c (op :: more) = seedOf c op + seededIn c more := List.sum_cons
    show ((run (step t op).2 more).vault c).val = _
    rw [hvaults c, hvault c, hseeded]
    omega

/-- If the quorum asks for any votes at all, no empty tally is approved. -/
theorem not_unsupportedEntry_of_idle {s t : State T} (hidle : Idle s t)
    (hquorum : minParticipation s ≠ 0) (op : Op T) :
    ¬ UnsupportedEntry (Machine.entry step t op) := by
  rintro ⟨who, id, -, p, swap, hp, hactive, -, -, hmin, -⟩
  change minParticipation t ≤ _ at hmin
  apply hquorum
  have hsame : minParticipation t = minParticipation s := by
    rw [minParticipation, hidle.totalStake_eq, minParticipation]
  rw [hsame, (hidle.empty id p hp hactive).2] at hmin
  exact BoundedNat.eq_zero_iff.2 (Nat.le_zero.1 hmin)

theorem not_unsupportedEntry_run {s : State T} (hquorum : minParticipation s ≠ 0)
    {more : List (Op T)} : ∀ {t : State T}, Idle s t → (∀ op ∈ more, OutsiderOp s op) →
      ∀ e ∈ history t more, ¬ UnsupportedEntry e := by
  induction more with
  | nil => exact fun _ _ e he => absurd he List.not_mem_nil
  | cons op more ih =>
    intro t hidle hops e he
    -- the first step is supported, so the state after it is idle again
    have hfirst := not_unsupportedEntry_of_idle hidle hquorum op
    rcases List.mem_cons.1 he with rfl | he
    · exact hfirst
    · obtain ⟨hnext, -⟩ := idle_transition (step_transition t op) hidle
        (hops op List.mem_cons_self) hfirst
      exact ih hnext (fun o ho => hops o (List.mem_cons_of_mem op ho)) e he

/-- **Outsiders change the vault only by seeding it.** From a reachable state without active
proposals, operations of outsiders leave in the vault what was there and what they seeded, as long
as no finalization approves an empty tally; where the quorum asks for any votes, none does. -/
theorem outsiders_only_seed (l : T.currency.Ledger) (ops more : List (Op T))
    (hinactive : ∀ id p, (run (genesis T l) ops).proposals id = some p → p.status ≠ .active)
    (houtsiders : ∀ op ∈ more, OutsiderOp (run (genesis T l) ops) op) :
    let s := run (genesis T l) ops
    ((∀ e ∈ history s more, ¬ UnsupportedEntry e) → ∀ c,
      ((run s more).vault c).val = min ((s.vault c).val + seededIn c more) maxBalance) ∧
    (minParticipation s ≠ 0 → ∀ e ∈ history s more, ¬ UnsupportedEntry e) := by
  intro s
  have hidle : Idle s s :=
    ⟨storeInv_reached l ops, rfl, rfl, rfl, fun id p hp hactive =>
      absurd hactive (hinactive id p hp)⟩
  constructor
  · exact fun hsupported => (idle_run hidle houtsiders hsupported).2
  · exact fun hquorum => not_unsupportedEntry_run hquorum hidle houtsiders

/-- Alice has a stake and Bob has none. -/
def onlyAliceStakes : List (Op DevConfig) :=
  [.block (.clamp _ 1), .call (.signed .alice) (.deposit (.clamp _ 100))]

/-- Bob seeds the vault, proposes a swap of what he seeded, and tries to vote and to finalize. -/
def bobAlone : List (Op DevConfig) :=
  [.call (.signed .bob) (.seedVault .dot (.clamp _ 7)),
    .call (.signed .bob) (proposeSwap ⟨.dot, .kusama, .clamp _ 7⟩),
    .call (.signed .bob) (.voteProposal 0 .forVote), .block (.clamp _ 2),
    .call (.signed .bob) (.finalizeProposal 0), .call (.signed .bob) (.withdraw 0)]

theorem bobAlone_outsiders (op : Op DevConfig) (hop : op ∈ bobAlone) :
    OutsiderOp (run developmentGenesis onlyAliceStakes) op := by
  simp only [bobAlone, List.mem_cons, List.not_mem_nil, or_false] at hop
  rcases hop with rfl | rfl | rfl | rfl | rfl | rfl
  · exact ⟨rfl, rfl, fun _ h => by cases h⟩
  · exact ⟨rfl, rfl, fun _ h => by cases h⟩
  · exact ⟨rfl, rfl, fun _ h => by cases h⟩
  · trivial
  · exact ⟨rfl, rfl, fun _ h => by cases h⟩
  · exact ⟨rfl, rfl, fun _ h => by cases h⟩

/-- The vault holds Bob's seed and nothing has been swapped. -/
theorem outsiders_only_seed_bob :
    ((run (run developmentGenesis onlyAliceStakes) bobAlone).vault .dot).val = 7 ∧
      ((run (run developmentGenesis onlyAliceStakes) bobAlone).vault .kusama).val = 0 := by
  obtain ⟨hvault, hquorum⟩ := outsiders_only_seed (T := DevConfig) developmentGenesis.ledger
    onlyAliceStakes bobAlone (fun _ _ hp => by cases hp) bobAlone_outsiders
  have hsupported := hquorum (by decide)
  exact ⟨hvault hsupported .dot, hvault hsupported .kusama⟩

/-- An account without stake and karma changes the vault by seeding it. -/
theorem outsider_seed_changes_vault :
    (∀ op ∈ [(.call (.signed .bob) (.seedVault .dot (.clamp _ 7)) : Op DevConfig)],
      OutsiderOp (run developmentGenesis onlyAliceStakes) op) ∧
      (∀ id p, (run developmentGenesis onlyAliceStakes).proposals id = some p →
        p.status ≠ .active) ∧
      (run (run developmentGenesis onlyAliceStakes)
        [.call (.signed .bob) (.seedVault .dot (.clamp _ 7))]).vault .dot ≠
        (run developmentGenesis onlyAliceStakes).vault .dot := by
  refine ⟨?_, fun _ _ hp => (by cases hp), by decide⟩
  intro op hop
  rw [List.mem_singleton] at hop
  subst hop
  exact ⟨rfl, rfl, fun _ h => by cases h⟩

end MulticoinTreasury
