import MulticoinTreasury.Pallet.VotingWindow

/-!
# Karma is earned

The karma of an account counts its approved proposals, exactly: an approval gives the author one
point, nothing else gives or takes any, and a proposal is approved at most once. No point is lost
to the range of `u32` either, because the approved proposals have different ids of that range.
-/

set_option autoImplicit false

namespace MulticoinTreasury

variable {AccountId : Type} {T : Config AccountId}

/-- The approved proposals of an author. -/
def approvedOf (s : State T) (a : AccountId) : Set ProposalId :=
  {id | ∃ p, s.proposals id = some p ∧ p.author = a ∧ p.status = .approved}

/-- The proposal that an executed operation approved. -/
def approvedBy (e : Entry T) : Option ProposalId :=
  match e.input, e.output with
  | .call _ (.finalizeProposal id), .ok _ =>
      if (e.after.proposals id).map Proposal.status = some .approved then some id else none
  | _, _ => none

theorem approvedBy_of_error (s s' : State T) (op : Op T) (err : DispatchError T) :
    approvedBy ⟨s, op, .error err, s'⟩ = none := by
  unfold approvedBy
  split
  · rename_i heq
    cases heq
  · rfl

theorem notMem_approvedOf_of_active {s : State T} {id : ProposalId} {p : Proposal T}
    (hp : s.proposals id = some p) (hactive : p.status = .active) (a : AccountId) :
    id ∉ approvedOf s a := by
  rintro ⟨q, hq, -, happroved⟩
  cases hp.symm.trans hq
  rw [hactive] at happroved
  cases happroved

/-- A write at an id that is approved neither before nor after it approves nothing. -/
theorem approvedOf_of_update {s s' : State T} {i : ProposalId} {q : Proposal T}
    (hs' : s'.proposals = Function.update s.proposals i (some q))
    (hbefore : ∀ a, i ∉ approvedOf s a) (hafter : q.status ≠ .approved) (a : AccountId) :
    approvedOf s' a = approvedOf s a := by
  ext id
  show (∃ p, s'.proposals id = some p ∧ _) ↔ _
  rw [hs']
  by_cases hid : id = i
  · subst hid
    rw [Function.update_self]
    refine iff_of_false ?_ (hbefore a)
    rintro ⟨p, hp, -, happroved⟩
    cases hp
    exact hafter happroved
  · rw [Function.update_of_ne hid]
    exact Iff.rfl

/-- An approval adds the proposal to those of its author. -/
theorem approvedOf_approve [DecidableEq AccountId] (s : State T) (i : ProposalId) {p : Proposal T}
    (swap : Swap) (hp : s.proposals i = some p) (hactive : p.status = .active) (a : AccountId) :
    approvedOf (s.approve i p swap) a =
      if a = p.author then insert i (approvedOf s a) else approvedOf s a := by
  ext id
  show (∃ q, Function.update s.proposals i (some { p with status := .approved }) id = some q ∧
    q.author = a ∧ q.status = .approved) ↔ _
  by_cases hid : id = i
  · subst hid
    rw [Function.update_self]
    by_cases ha : a = p.author
    · subst ha
      rw [if_pos rfl]
      exact ⟨fun _ => Set.mem_insert _ _, fun _ => ⟨_, rfl, rfl, rfl⟩⟩
    · rw [if_neg ha]
      refine iff_of_false ?_ (notMem_approvedOf_of_active hp hactive a)
      rintro ⟨q, hq, hauthor, -⟩
      cases hq
      exact ha hauthor.symm
  · rw [Function.update_of_ne hid]
    by_cases ha : a = p.author
    · rw [if_pos ha, Set.mem_insert_iff]
      exact (or_iff_right hid).symm
    · rw [if_neg ha]
      rfl

variable [DecidableEq AccountId]

/-- What an executed operation does to karma and to the approved proposals: nothing, or it approves
one proposal and gives its author a point. -/
inductive KarmaStep (s s' : State T) : Option ProposalId → Prop
  | kept (hkarma : s'.karma = s.karma) (happroved : ∀ a, approvedOf s' a = approvedOf s a) :
      KarmaStep s s' none
  | earned {id : ProposalId} {p : Proposal T} (hp : s.proposals id = some p)
      (hactive : p.status = .active)
      (hkarma : s'.karma =
        Function.update s.karma p.author ((s.karma p.author).saturatingAdd (.clamp _ 1)))
      (happroved : ∀ a, approvedOf s' a =
        if a = p.author then insert id (approvedOf s a) else approvedOf s a) :
      KarmaStep s s' (some id)

theorem karmaStep {s s' : State T} {op : Op T} {out : Outcome T} (hstore : StoreInv s)
    (ht : Transition s op out s') : KarmaStep s s' (approvedBy ⟨s, op, out, s'⟩) := by
  cases ht with
  | @accepted origin _ _ ha =>
    cases ha with
    | createProposal hmin hmax hnext =>
      refine .kept rfl (approvedOf_of_update rfl ?_ (by simp [newProposal]))
      rintro a ⟨p, hp, -⟩
      cases hstore.next_free.symm.trans hp
    | @voteProposal who id vote p hp hactive hopen hfresh hweight =>
      exact .kept rfl (approvedOf_of_update rfl (notMem_approvedOf_of_active hp hactive)
        (by simp [hactive]))
    | @finalizeRejected who id p hp hactive hopen hquorum hfor =>
      have hnone : approvedBy ⟨s, .call (.signed who) (.finalizeProposal id), .ok ⟨⟩,
          s.reject id p⟩ = none := by
        refine if_neg ?_
        simp [State.reject]
      rw [hnone]
      exact .kept rfl (approvedOf_of_update rfl (notMem_approvedOf_of_active hp hactive)
        (by simp))
    | @finalizeApproved who id p swap hp hactive hopen hquorum hfor hswap hcoins hbalance =>
      have hsome : approvedBy ⟨s, .call (.signed who) (.finalizeProposal id), .ok ⟨⟩,
          s.approve id p swap⟩ = some id := by
        refine if_pos ?_
        simp [State.approve]
      rw [hsome]
      exact .earned hp hactive rfl (approvedOf_approve s id swap hp hactive)
    | deposit | withdraw | seedVault => exact .kept rfl fun _ => rfl
  | refused =>
    rw [approvedBy_of_error]
    exact .kept rfl fun _ => rfl
  | block | currency => exact .kept rfl fun _ => rfl

omit [DecidableEq AccountId] in
/-- There is room for another approval: the approved proposals and an active one have different
ids below the counter. -/
theorem ncard_approvedOf_lt {s : State T} (hstore : StoreInv s) {id : ProposalId} {p : Proposal T}
    (hp : s.proposals id = some p) (hactive : p.status = .active) (a : AccountId) :
    (approvedOf s a).ncard + 1 ≤ s.nextProposalId.val := by
  rw [← Set.ncard_insert_of_notMem (notMem_approvedOf_of_active hp hactive a)]
  apply BoundedNat.ncard_le_of_lt
  rintro i (rfl | ⟨q, hq, -⟩)
  · exact (hstore.stored_iff i).1 ⟨p, hp⟩
  · exact (hstore.stored_iff i).1 ⟨q, hq⟩

/-- What an executed operation may do to karma: an approval gives the author of the proposal
exactly one point, anything else leaves all karma alone. -/
def Earned (e : Entry T) : Prop :=
  match approvedBy e with
  | some id => ∃ p, e.before.proposals id = some p ∧
      (e.after.karma p.author).val = (e.before.karma p.author).val + 1 ∧
        ∀ a, a ≠ p.author → e.after.karma a = e.before.karma a
  | none => e.after.karma = e.before.karma

/-- The karma of a state counts approved proposals, which are those that the history approved. -/
structure KarmaInv (h : List (Entry T)) (s : State T) : Prop where
  store : StoreInv s
  karma_val : ∀ a, (s.karma a).val = (approvedOf s a).ncard
  earned : ∀ e ∈ h, Earned e
  approved_of_mem : ∀ id ∈ h.filterMap approvedBy,
    ∃ p, s.proposals id = some p ∧ p.status = .approved
  once : (h.filterMap approvedBy).Nodup

omit [DecidableEq AccountId] in
theorem filterMap_approvedBy_snoc (h : List (Entry T)) (e : Entry T) :
    (h ++ [e]).filterMap approvedBy = h.filterMap approvedBy ++ (approvedBy e).toList := by
  rw [List.filterMap_append]
  cases he : approvedBy e <;> simp [he]

/-- The step that an entry of the history adds to the invariant. -/
theorem KarmaInv.snoc {h : List (Entry T)} {s s' : State T} {op : Op T} {out : Outcome T}
    (hinv : KarmaInv h s) (ht : Transition s op out s') :
    KarmaInv (h ++ [⟨s, op, out, s'⟩]) s' := by
  have hstep := karmaStep hinv.store ht
  have hmem := filterMap_approvedBy_snoc h ⟨s, op, out, s'⟩
  -- approved proposals stay as they are
  have hstays : ∀ id ∈ h.filterMap approvedBy,
      ∃ p, s'.proposals id = some p ∧ p.status = .approved := by
    intro id hid
    obtain ⟨p, hp, happroved⟩ := hinv.approved_of_mem id hid
    have hsettled : p.status ≠ .active := by simp [happroved]
    exact ⟨p, settled_step hinv.store ht hp hsettled, happroved⟩
  generalize hb : approvedBy ⟨s, op, out, s'⟩ = b at hstep hmem
  cases hstep with
  | kept hkarma happroved =>
    rw [Option.toList_none, List.append_nil] at hmem
    refine ⟨hinv.store.transition ht, fun a => ?_, ?_, ?_, ?_⟩
    · rw [hkarma, happroved a]
      exact hinv.karma_val a
    · intro e he
      rcases List.mem_append.1 he with he | he
      · exact hinv.earned e he
      · cases List.mem_singleton.1 he
        rw [Earned, hb]
        exact hkarma
    · rw [hmem]
      exact hstays
    · rw [hmem]
      exact hinv.once
  | @earned id p hp hactive hkarma happroved =>
    have hnot := notMem_approvedOf_of_active hp hactive
    have hroom := ncard_approvedOf_lt hinv.store hp hactive p.author
    have hrange := s.nextProposalId.le_max
    have hauthor : (s'.karma p.author).val = (s.karma p.author).val + 1 := by
      rw [hkarma, Function.update_self]
      refine BoundedNat.saturatingAdd_val_of_le ?_
      rw [hinv.karma_val]
      exact hroom.trans hrange
    have hothers : ∀ a, a ≠ p.author → s'.karma a = s.karma a := by
      intro a ha
      rw [hkarma, Function.update_of_ne ha]
    have hnew : id ∉ h.filterMap approvedBy := by
      intro hid
      obtain ⟨q, hq, hqapproved⟩ := hinv.approved_of_mem id hid
      exact hnot q.author ⟨q, hq, rfl, hqapproved⟩
    have hin : id ∈ approvedOf s' p.author := by
      rw [happroved, if_pos rfl]
      exact Set.mem_insert _ _
    refine ⟨hinv.store.transition ht, fun a => ?_, ?_, ?_, ?_⟩
    · rw [happroved a]
      by_cases ha : a = p.author
      · rw [if_pos ha, ha, hauthor, hinv.karma_val, Set.ncard_insert_of_notMem (hnot _)]
      · rw [if_neg ha, hothers a ha]
        exact hinv.karma_val a
    · intro e he
      rcases List.mem_append.1 he with he | he
      · exact hinv.earned e he
      · cases List.mem_singleton.1 he
        rw [Earned, hb]
        exact ⟨p, hp, hauthor, hothers⟩
    · rw [hmem]
      intro i hi
      rcases List.mem_append.1 hi with hi | hi
      · exact hstays i hi
      · cases List.mem_singleton.1 hi
        obtain ⟨q, hq, -, hqapproved⟩ := hin
        exact ⟨q, hq, hqapproved⟩
    · rw [hmem]
      refine List.nodup_append.2 ⟨hinv.once, List.nodup_singleton _, ?_⟩
      rintro i hi j hj rfl
      cases List.mem_singleton.1 hj
      exact hnew hi

omit [DecidableEq AccountId] in
theorem karmaInv_genesis (l : T.currency.Ledger) : KarmaInv [] (genesis T l) where
  store := storeInv_genesis l
  karma_val a := by
    have hempty : approvedOf (genesis T l) a = ∅ :=
      Set.eq_empty_of_forall_notMem fun id ⟨p, hp, _⟩ => by cases hp
    rw [hempty, Set.ncard_empty]
    rfl
  earned e he := absurd he List.not_mem_nil
  approved_of_mem id hid := absurd hid List.not_mem_nil
  once := List.nodup_nil

/-- **Karma is exactly earned.** In every reachable state the karma of an account is the number of
its approved proposals. Along the run only an approving finalization changes karma: it gives the
author exactly one point, without clipping; and no proposal is approved twice. -/
theorem karma_eq_approved_proposals (l : T.currency.Ledger) (ops : List (Op T)) :
    let s := run (genesis T l) ops
    let h := history (genesis T l) ops
    (∀ a, (s.karma a).val =
      {id | ∃ p, s.proposals id = some p ∧ p.author = a ∧ p.status = .approved}.ncard) ∧
      (∀ e ∈ h, Earned e) ∧ (h.filterMap approvedBy).Nodup := by
  intro s h
  have hinv : KarmaInv h s :=
    history_induction (karmaInv_genesis l) (fun ops op out s' ih ht => ih.snoc ht) ops
  exact ⟨hinv.karma_val, hinv.earned, hinv.once⟩

end MulticoinTreasury
