import Mathlib
import MulticoinTreasury.Pallet.Errors
import MulticoinTreasury.Pallet.Lifecycle

/-!
# What the frontend submits

The calls behind the buttons of the frontend: the stake dialog of the navigation bar, the form of
`create-proposal.tsx`, and the vote and the finalization of `Proposal.tsx`. A text goes out as its
UTF-8 bytes and a number as an integer of the type of the argument; what does not fit is not sent.
The form lets through only what the pallet cannot object to later. And since no button seeds the
vault or withdraws, a chain that is used through the frontend alone never approves a proposal and
never gives a stake back.
-/

set_option autoImplicit false

namespace MulticoinTreasury

/-! ## The form -/

/-- The white space that `trim` removes. -/
def isJsSpace (c : Char) : Bool :=
  c.toNat ∈ [9, 10, 11, 12, 13, 32, 160, 5760, 8232, 8233, 8239, 8287, 12288, 65279] ||
    (8192 ≤ c.toNat && c.toNat ≤ 8202)

/-- `!text.trim()` -/
def isBlank (text : String) : Bool := text.toList.all isJsSpace

/-- The fields of the form; an empty number field has no number. -/
structure CreateForm where
  title : String
  description : String
  duration : Option ℤ
  fromCoin : Coin
  toCoin : Coin
  amount : Option ℤ

namespace CreateForm

def durationError (f : CreateForm) : Bool :=
  match f.duration with
  | some d => d < 10 || 10000 < d
  | none => false

/-- When the button of the form is disabled. -/
def disabled (f : CreateForm) (submitting : Bool) : Bool :=
  submitting || isBlank f.title || isBlank f.description || f.duration.isNone ||
    f.durationError || f.amount.isNone || f.fromCoin = f.toCoin

/-- What the browser checks before it submits the form: required fields and the bounds of the
number fields. -/
def inputsValid (f : CreateForm) : Bool :=
  !f.title.isEmpty && !f.description.isEmpty &&
    (match f.duration with
      | some d => 10 ≤ d && d ≤ 10000
      | none => false) &&
    match f.amount with
      | some x => 1 ≤ x
      | none => false

end CreateForm

/-- A number as an integer of the range up to `max`, if it is one. -/
def encodeNumber (max : ℕ) (x : ℤ) : Option (BoundedNat max) :=
  if x < 0 then none
  else if h : x.toNat ≤ max then some ⟨x.toNat, h⟩ else none

/-- A text as its bytes, if there are not too many. -/
def encodeText (bound : U32) (text : String) : Option (BoundedVec UInt8 bound) :=
  if h : text.toUTF8.data.toList.length ≤ bound.val then some ⟨text.toUTF8.data.toList, h⟩
  else none

section Calls

variable {AccountId : Type} {T : Config AccountId}

/-- The call of a submitted form. -/
def CreateForm.handleSubmit (f : CreateForm) : Option (Call T) :=
  if f.fromCoin = f.toCoin then none
  else do
    let title ← encodeText T.maxTitleLen f.title
    let description ← encodeText T.maxDescriptionLen f.description
    let duration ← f.duration.bind (encodeNumber _)
    let amount ← f.amount.bind (encodeNumber _)
    some (.createProposal title description duration (.swap ⟨f.fromCoin, f.toCoin, amount⟩))

/-- What a click on the button sends. -/
def CreateForm.submit (f : CreateForm) (submitting : Bool) : Option (Call T) :=
  if f.disabled submitting then none
  else if f.inputsValid then f.handleSubmit
  else none

/-! ## The other buttons -/

/-- `voteIndex` -/
def voteIndex (voteKind : VoteKind) : ℕ := if voteKind = .forVote then 0 else 1

/-- The kind of vote with an index, in the order of the pallet. -/
def voteOfIndex : ℕ → Option VoteKind
  | 0 => some .forVote
  | 1 => some .againstVote
  | _ => none

/-- What a user can do; the buttons of a proposal are there for the status that the page shows. -/
inductive UserAction where
  | stake (amount : ℤ)
  | create (form : CreateForm) (submitting : Bool)
  | vote (id : ProposalId) (voteKind : VoteKind) (status : ProposalStatus)
  | finalize (id : ProposalId) (status : ProposalStatus)

def UserAction.call : UserAction → Option (Call T)
  | .stake amount => if 0 < amount then (encodeNumber _ amount).map .deposit else none
  | .create form submitting => form.submit submitting
  | .vote id voteKind status =>
      if status = .active then (voteOfIndex (voteIndex voteKind)).map (.voteProposal id) else none
  | .finalize id status => if status = .active then some (.finalizeProposal id) else none

/-- The index of a vote stands for the same vote in the pallet. -/
@[simp] theorem voteOfIndex_voteIndex (voteKind : VoteKind) :
    voteOfIndex (voteIndex voteKind) = some voteKind := by
  cases voteKind <;> rfl

theorem encodeNumber_eq_some {max : ℕ} {x : ℤ} {n : BoundedNat max}
    (h : encodeNumber max x = some n) : (n.val : ℤ) = x := by
  unfold encodeNumber at h
  split_ifs at h with hneg hle
  cases h
  exact Int.toNat_of_nonneg (Int.not_lt.1 hneg)

/-- The calls that the frontend submits. -/
inductive Submitted : Call T → Prop
  | createProposal {title : BoundedVec UInt8 T.maxTitleLen}
      {description : BoundedVec UInt8 T.maxDescriptionLen} {duration : U32} {swap : Swap}
      (hmin : 10 ≤ duration.val) (hmax : duration.val ≤ 10000)
      (hcoins : swap.fromCoin ≠ swap.toCoin) (hamount : 1 ≤ swap.amount.val) :
      Submitted (.createProposal title description duration (.swap swap))
  | voteProposal {id : ProposalId} {vote : VoteKind} : Submitted (.voteProposal id vote)
  | finalizeProposal {id : ProposalId} : Submitted (.finalizeProposal id)
  | deposit {amount : Balance} (hamount : 0 < amount.val) : Submitted (.deposit amount)

/-- The call of a submitted form has the texts and the numbers of its fields. -/
theorem CreateForm.submit_eq_some {f : CreateForm} {submitting : Bool} {call : Call T}
    (h : f.submit submitting = some call) : ∃ title description duration amount,
      call = .createProposal title description duration (.swap ⟨f.fromCoin, f.toCoin, amount⟩) ∧
      encodeText T.maxTitleLen f.title = some title ∧
      encodeText T.maxDescriptionLen f.description = some description ∧
      f.duration = some (duration.val : ℤ) ∧ f.amount = some (amount.val : ℤ) ∧
      f.fromCoin ≠ f.toCoin ∧ f.inputsValid = true := by
  unfold CreateForm.submit CreateForm.handleSubmit at h
  split_ifs at h with hdisabled hvalid hcoins
  simp only [Option.bind_eq_bind, Option.bind_eq_some_iff, Option.some.injEq] at h
  obtain ⟨title, htitle, description, hdescription, duration, ⟨d, hd, hduration⟩, amount,
    ⟨x, hx, hamount⟩, rfl⟩ := h
  -- an encoded number is the number that was typed
  refine ⟨title, description, duration, amount, rfl, htitle, hdescription, ?_, ?_, hcoins, hvalid⟩
  · rw [hd, encodeNumber_eq_some hduration]
  · rw [hx, encodeNumber_eq_some hamount]

theorem CreateForm.submitted {f : CreateForm} {submitting : Bool} {call : Call T}
    (h : f.submit submitting = some call) : Submitted call := by
  obtain ⟨title, description, duration, amount, rfl, -, -, hd, hx, hcoins, hvalid⟩ :=
    CreateForm.submit_eq_some h
  unfold CreateForm.inputsValid at hvalid
  rw [hd, hx] at hvalid
  simp only [Bool.and_eq_true, decide_eq_true_eq] at hvalid
  obtain ⟨⟨-, hmin, hmax⟩, hamount⟩ := hvalid
  refine .createProposal ?_ ?_ hcoins ?_
  · omega
  · omega
  · show 1 ≤ amount.val
    omega

theorem UserAction.submitted {action : UserAction} {call : Call T}
    (h : action.call = some call) : Submitted call := by
  cases action with
  | stake amount =>
    obtain ⟨hpos, h⟩ := Option.ite_none_right_eq_some.1 h
    obtain ⟨x, hx, rfl⟩ := Option.map_eq_some_iff.1 h
    have hval := encodeNumber_eq_some hx
    exact .deposit (by omega)
  | create form submitting => exact CreateForm.submitted h
  | vote id voteKind status =>
    obtain ⟨-, h⟩ := Option.ite_none_right_eq_some.1 h
    rw [voteOfIndex_voteIndex] at h
    cases h
    exact .voteProposal
  | finalize id status =>
    obtain ⟨-, h⟩ := Option.ite_none_right_eq_some.1 h
    cases h
    exact .finalizeProposal

/-- The proposals of the operation come from the form. -/
def ProposalsFromForm : Op T → Prop
  | .call _ (.createProposal title description duration action) =>
      ∃ (f : CreateForm) (submitting : Bool),
        f.submit submitting = some (.createProposal title description duration action)
  | _ => True

/-- The calls of the operation come from the frontend, signed by its user. -/
def FromFrontend : Op T → Prop
  | .call origin call => ∃ who action, origin = .signed who ∧ UserAction.call action = some call
  | _ => True

/-- A call from the frontend is one of those that it submits. -/
theorem FromFrontend.submitted {origin : Origin AccountId} {call : Call T}
    (h : FromFrontend (.call origin call)) : Submitted call := by
  obtain ⟨who, action, -, hcall⟩ := h
  exact UserAction.submitted hcall

/-- A proposal that the form could have created. -/
def Proposal.FromForm (p : Proposal T) : Prop :=
  ∃ swap, p.action = .swap swap ∧ swap.fromCoin ≠ swap.toCoin ∧ 1 ≤ swap.amount.val

end Calls

section Runs

variable {AccountId : Type} [DecidableEq AccountId]

/-! ## Proposals from the form -/

/-- All stored proposals could come from the form. -/
def FormStore {T : Config AccountId} (s : State T) : Prop :=
  ∀ id p, s.proposals id = some p → p.FromForm

theorem FormStore.step {T : Config AccountId} {s s' : State T} {op : Op T} {out : Outcome T}
    (hstore : StoreInv s) (ht : Transition s op out s')
    (hform : ∀ origin title description duration action,
      op = .call origin (.createProposal title description duration action) →
        Submitted (.createProposal title description duration action : Call T))
    (h : FormStore s) : FormStore s' := by
  intro id p' hp'
  rcases proposal_cases hstore ht hp' with hcreated | ⟨p, hp, hchange⟩
  · cases hcreated with
    | @created who title description duration action hid hmin hmax =>
      cases hform _ _ _ _ _ rfl with
      | createProposal hlow hhigh hcoins hamount => exact ⟨_, rfl, hcoins, hamount⟩
  · obtain ⟨swap, hswap, hcoins, hamount⟩ := h id p hp
    exact ⟨swap, hchange.later.action_eq.trans hswap, hcoins, hamount⟩

theorem formStore_run {T : Config AccountId} (l : T.currency.Ledger) {ops : List (Op T)}
    (hops : ∀ op ∈ ops, ProposalsFromForm op) : FormStore (run (genesis T l) ops) := by
  have hrun : StoreInv (run (genesis T l) ops) ∧ FormStore (run (genesis T l) ops) := by
    refine Machine.run_invariant_of_mem (P := fun s : State T => StoreInv s ∧ FormStore s)
      ?_ ⟨storeInv_genesis l, fun id p hp => (by cases hp)⟩ hops
    rintro s op hop ⟨hstore, h⟩
    have ht := step_transition s op
    refine ⟨hstore.transition ht, h.step hstore ht ?_⟩
    rintro origin title description duration action rfl
    obtain ⟨f, submitting, hf⟩ := hop
    exact CreateForm.submitted hf
  exact hrun.2

omit [DecidableEq AccountId] in
/-- A creation with an allowed duration can only run out of ids. -/
theorem createGuard_error_of_allowed {T : Config AccountId} {s : State T} {duration : U32}
    (hmin : T.minProposalDuration ≤ duration) (hmax : duration ≤ T.maxProposalDuration) {e : Error}
    (h : createGuard s duration = .error e) : e = .storageOverflow := by
  unfold createGuard at h
  rw [if_pos hmin, if_pos hmax] at h
  cases hnext : s.nextProposalId.checkedAdd (.clamp _ 1) with
  | some next =>
    rw [hnext] at h
    cases h
  | none =>
    rw [hnext] at h
    cases h
    rfl

/-- Only a swap of a coin for itself is an invalid swap. -/
theorem coins_eq_of_invalidSwap {T : Config AccountId} {s : State T} {id : ProposalId}
    (h : finalizeVerdict s id = .error .invalidSwap) : ∃ p swap, s.proposals id = some p ∧
      p.action = .swap swap ∧ swap.fromCoin = swap.toCoin := by
  -- the guards of a finalization have other errors; only the swap has this one
  cases hg : finalizeGuard s id with
  | error e =>
    rw [finalizeVerdict, hg] at h
    cases h
    unfold finalizeGuard at hg
    cases hp : s.proposals id with
    | none =>
      rw [hp] at hg
      cases hg
    | some p =>
      rw [hp] at hg
      dsimp only at hg
      split_ifs at hg <;> cases hg
  | ok p =>
    obtain ⟨swap, hswap⟩ : ∃ swap, p.action = .swap swap := ⟨_, rfl⟩
    refine ⟨p, swap, (finalizeGuard_ok_iff.1 hg).1, hswap, ?_⟩
    rw [finalizeVerdict_of_guard hg hswap] at h
    split_ifs at h
    by_contra hcoins
    unfold swapGuard at h
    rw [if_pos hcoins] at h
    split_ifs at h
    cases h

/-- The errors that the form prevents. -/
def preventedErrors : List Error := [.durationTooShort, .durationTooLong, .invalidSwap]

theorem not_prevented_step {C : Currency AccountId} {s : State (runtimeConfig C)}
    (hform : FormStore s) {op : Op (runtimeConfig C)} (hop : ProposalsFromForm op) {e : Error}
    (h : (step s op).1 = .error (.module e)) : e ∉ preventedErrors := by
  cases op with
  | block number => cases h
  | currency o => cases h
  | call origin call =>
    obtain ⟨s', hd⟩ := dispatch_of_step_error h
    cases returns_of_step_error h with
    | @module who _ he =>
      intro hprevented
      simp only [preventedErrors, List.mem_cons, List.not_mem_nil, or_false] at hprevented
      -- the durations of the form are allowed, and the stored swaps came from it
      cases call with
      | createProposal title description duration action =>
        obtain ⟨f, submitting, hf⟩ := hop
        cases CreateForm.submitted hf with
        | createProposal hmin hmax hcoins hamount =>
          rw [dispatch_createProposal] at hd
          cases hg : createGuard s duration with
          | ok next =>
            rw [hg] at hd
            cases hd
          | error e' =>
            rw [hg] at hd
            cases hd
            cases createGuard_error_of_allowed hmin hmax hg
            rcases hprevented with h | h | h <;> cases h
      | finalizeProposal id =>
        rw [dispatch_finalizeProposal] at hd
        cases hv : finalizeVerdict s id with
        | ok s'' =>
          rw [hv] at hd
          cases hd
        | error e' =>
          rw [hv] at hd
          cases hd
          rcases hprevented with rfl | rfl | rfl
          · simp [Call.name, CallName.errors] at he
          · simp [Call.name, CallName.errors] at he
          · obtain ⟨p, swap, hp, hswap, hcoins⟩ := coins_eq_of_invalidSwap hv
            obtain ⟨swap', hswap', hne, -⟩ := hform id p hp
            cases hswap.symm.trans hswap'
            exact hne hcoins
      | voteProposal | deposit | withdraw | seedVault =>
        rcases hprevented with rfl | rfl | rfl <;> simp [Call.name, CallName.errors] at he

/-- **The form lets nothing through that the pallet could object to.** In every run whose proposals
come from the form, whatever else is called by anyone, no call returns `DurationTooShort`,
`DurationTooLong` or `InvalidSwap`, and every stored proposal swaps a positive amount between two
different coins. -/
theorem form_prevents_errors {C : Currency AccountId} (l : C.Ledger)
    (ops : List (Op (runtimeConfig C))) (hops : ∀ op ∈ ops, ProposalsFromForm op) :
    (∀ entry ∈ history (genesis (runtimeConfig C) l) ops, ∀ e ∈ preventedErrors,
        entry.output ≠ .error (.module e)) ∧
      ∀ id p, (run (genesis (runtimeConfig C) l) ops).proposals id = some p → p.FromForm := by
  refine ⟨fun entry hentry e he herror => ?_, formStore_run (T := runtimeConfig C) l hops⟩
  obtain ⟨pre, op, post, hsplit, rfl⟩ := Machine.mem_trace step hentry
  subst hsplit
  have hpre : FormStore (run (genesis (runtimeConfig C) l) pre) :=
    formStore_run (T := runtimeConfig C) l fun op hop => hops op (List.mem_append_left _ hop)
  have hop : ProposalsFromForm op := hops op (List.mem_append_right _ List.mem_cons_self)
  exact not_prevented_step hpre hop herror he

/-- A filled in form, and the call it sends. -/
def buyKusama : CreateForm := ⟨"Buy", "KSM", some 10, .dot, .kusama, some 5⟩

def buyKusamaCall : Call DevConfig :=
  .createProposal ⟨[66, 117, 121], by decide⟩ ⟨[75, 83, 77], by decide⟩ (.clamp _ 10)
    (.swap ⟨.dot, .kusama, .clamp _ 5⟩)

theorem submit_buyKusama : buyKusama.submit false = some buyKusamaCall := by
  rfl

/-- The theorem where Alice's proposal comes from the form; she then finalizes it. -/
theorem form_prevents_errors_alice :
    let ops : List (Op DevConfig) := [.block (.clamp _ 1), .call (.signed .alice) buyKusamaCall,
      .call (.signed .alice) (.finalizeProposal 0)]
    (∀ entry ∈ history developmentGenesis ops, ∀ e ∈ preventedErrors,
        entry.output ≠ .error (.module e)) ∧
      ∀ id p, (run developmentGenesis ops).proposals id = some p → p.FromForm := by
  refine form_prevents_errors (C := PlainLedger.currency DevAccount) developmentGenesis.ledger _ ?_
  intro op hop
  simp only [List.mem_cons, List.not_mem_nil, or_false] at hop
  rcases hop with rfl | rfl | rfl
  · trivial
  · exact ⟨buyKusama, false, submit_buyKusama⟩
  · trivial

/-! ## The frontend alone -/

/-- What stays true as long as all calls come from the frontend. -/
structure Locked {T : Config AccountId} (s : State T) : Prop where
  store : StoreInv s
  form : FormStore s
  vault : ∀ c, s.vault c = 0
  karma : ∀ a, s.karma a = 0
  not_approved : ∀ id p, s.proposals id = some p → p.status ≠ .approved

omit [DecidableEq AccountId] in
theorem locked_genesis {T : Config AccountId} (l : T.currency.Ledger) : Locked (genesis T l) where
  store := storeInv_genesis l
  form id p hp := by cases hp
  vault _ := rfl
  karma _ := rfl
  not_approved id p hp := by cases hp

/-- No call from the frontend can approve a proposal while the vault is empty. -/
theorem Locked.step {T : Config AccountId} {s s' : State T} {op : Op T} {out : Outcome T}
    (h : Locked s) (hop : FromFrontend op) (ht : Transition s op out s') :
    Locked s' ∧ ∀ a, s.deposits a ≤ s'.deposits a := by
  have hform : FormStore s' := by
    refine h.form.step h.store ht ?_
    rintro origin title description duration action rfl
    exact hop.submitted
  have hstatus : ∀ id p', s'.proposals id = some p' → p'.status ≠ .approved := by
    intro id p' hp'
    rcases proposal_cases h.store ht hp' with hcreated | ⟨p, hp, hchange⟩
    · cases hcreated
      simp [newProposal]
    · cases hchange with
      | same => exact h.not_approved id _ hp
      | voted =>
        rw [addVote_status]
        exact h.not_approved id p hp
      | rejected => simp
      | @approved who swap hactive hopen hquorum hfor hswap hcoins hbalance =>
        -- the vault would have to cover a positive amount
        obtain ⟨swap', hswap', -, hamount⟩ := h.form id p hp
        cases hswap.symm.trans hswap'
        rw [h.vault, BoundedNat.le_iff, BoundedNat.zero_val] at hbalance
        omega
  -- apart from the proposals only a deposit changes anything
  have hkeep : s'.vault = s.vault → s'.karma = s.karma → (∀ a, s.deposits a ≤ s'.deposits a) →
      Locked s' ∧ ∀ a, s.deposits a ≤ s'.deposits a := by
    intro hvault hkarma hdeposits
    refine ⟨⟨h.store.transition ht, hform, ?_, ?_, hstatus⟩, hdeposits⟩
    · rw [hvault]
      exact h.vault
    · rw [hkarma]
      exact h.karma
  have hsame : ∀ a, s.deposits a ≤ s.deposits a := fun _ => Nat.le_refl _
  cases ht with
  | accepted ha =>
    have hsubmitted := hop.submitted
    cases ha with
    | createProposal => exact hkeep rfl rfl hsame
    | voteProposal => exact hkeep rfl rfl hsame
    | finalizeRejected => exact hkeep rfl rfl hsame
    | finalizeApproved =>
      exact absurd rfl (hstatus _ _ (Function.update_self _ _ _))
    | @deposit who amount l =>
      refine hkeep rfl rfl fun a => ?_
      show s.deposits a ≤ Function.update s.deposits who _ a
      -- a deposit only adds
      by_cases ha : a = who
      · subst ha
        rw [Function.update_self, BoundedNat.le_iff, BoundedNat.saturatingAdd_val]
        exact Nat.le_min.2 ⟨Nat.le_add_right _ _, (s.deposits a).le_max⟩
      · rw [Function.update_of_ne ha]
        exact Nat.le_refl _
    | withdraw => cases hsubmitted
    | seedVault => cases hsubmitted
  | refused => exact hkeep rfl rfl hsame
  | block => exact hkeep rfl rfl hsame
  | currency => exact hkeep rfl rfl hsame

theorem locked_run {T : Config AccountId} {s : State T} (h : Locked s) {ops : List (Op T)}
    (hops : ∀ op ∈ ops, FromFrontend op) :
    Locked (run s ops) ∧ ∀ a, s.deposits a ≤ (run s ops).deposits a := by
  induction ops generalizing s with
  | nil => exact ⟨h, fun _ => Nat.le_refl _⟩
  | cons op ops ih =>
    obtain ⟨hnext, hfirst⟩ := h.step (hops op List.mem_cons_self) (step_transition s op)
    obtain ⟨hrun, hrest⟩ := ih hnext fun op' hop' => hops op' (List.mem_cons_of_mem _ hop')
    exact ⟨hrun, fun a => Nat.le_trans (hfirst a) (hrest a)⟩

/-- **Through the frontend alone nothing is ever approved.** In every run whose calls all come from
the frontend, the vault stays empty and nobody has karma; no proposal is approved; and no stake is
ever given back: the stake of an account never decreases along the run. -/
theorem frontend_alone_approves_nothing {T : Config AccountId} (l : T.currency.Ledger)
    (ops : List (Op T)) (hops : ∀ op ∈ ops, FromFrontend op) :
    let s := run (genesis T l) ops
    (∀ c, s.vault c = 0) ∧ (∀ a, s.karma a = 0) ∧
      (∀ id p, s.proposals id = some p → p.status ≠ .approved) ∧
      ∀ pre, pre <+: ops → ∀ a, (run (genesis T l) pre).deposits a ≤ s.deposits a := by
  intro s
  obtain ⟨hlocked, -⟩ := locked_run (locked_genesis l) hops
  refine ⟨hlocked.vault, hlocked.karma, hlocked.not_approved, ?_⟩
  rintro pre ⟨post, rfl⟩ a
  obtain ⟨hpre, -⟩ := locked_run (locked_genesis l) fun op hop =>
    hops op (List.mem_append_left _ hop)
  obtain ⟨-, hle⟩ := locked_run hpre fun op hop => hops op (List.mem_append_right _ hop)
  have hrun : s = run (run (genesis T l) pre) post := Machine.run_append step _ _ _
  rw [hrun]
  exact hle a

/-- Alice stakes, creates a proposal through the form, votes for it and tries to finalize it. -/
def aliceTriesAlone : List (Op DevConfig) :=
  [.block (.clamp _ 1), .call (.signed .alice) (.deposit (.clamp _ 7)),
    .call (.signed .alice) buyKusamaCall, .call (.signed .alice) (.voteProposal 0 .forVote),
    .call (.signed .alice) (.finalizeProposal 0)]

theorem frontend_alone_approves_nothing_alice :
    let s := run developmentGenesis aliceTriesAlone
    (∀ c, s.vault c = 0) ∧ (∀ a, s.karma a = 0) ∧
      (∀ id p, s.proposals id = some p → p.status ≠ .approved) ∧
      ∀ pre, pre <+: aliceTriesAlone → ∀ a,
        (run developmentGenesis pre).deposits a ≤ s.deposits a := by
  refine frontend_alone_approves_nothing (T := DevConfig) developmentGenesis.ledger _ ?_
  intro op hop
  simp only [aliceTriesAlone, List.mem_cons, List.not_mem_nil, or_false] at hop
  rcases hop with rfl | rfl | rfl | rfl | rfl
  · trivial
  · exact ⟨.alice, .stake 7, rfl, rfl⟩
  · exact ⟨.alice, .create buyKusama false, rfl, submit_buyKusama⟩
  · exact ⟨.alice, .vote 0 .forVote .active, rfl, rfl⟩
  · exact ⟨.alice, .finalize 0 .active, rfl, rfl⟩

end Runs

end MulticoinTreasury
