import Mathlib
import MulticoinTreasury.Pallet.BlockEvents
import MulticoinTreasury.Pallet.Karma

/-!
# The profile page

The page of `profile.tsx` shows the stake of an account and, below, its transactions: the rows of
the events it finds in the last blocks, read downwards from the head until the window ends or the
node no longer has the state of a block. The rows are texts. Read back as numbers, the amounts of
the deposit and withdrawal rows are exactly what separates the stake shown above from the stake the
account had when the first block shown began.
-/

set_option autoImplicit false

namespace MulticoinTreasury

namespace Profile

inductive TxKind where
  | deposited
  | withdrawn
  | proposalCreated
  | proposalVoted
  | proposalFinalized
  | vaultSeeded
  deriving DecidableEq, Repr

structure TxRow where
  block : ℕ
  kind : TxKind
  details : String
  deriving DecidableEq, Repr

variable {AccountId : Type} [DecidableEq AccountId]

/-- No account is the same as a missing one. -/
def sameAccount (a : AccountId) : Option AccountId → Bool
  | some b => a = b
  | none => false

def formatBal (x : Balance) : String := Nat.repr x.val

def voteToString : VoteKind → String
  | .forVote => "For"
  | .againstVote => "Against"

def statusToString : ProposalStatus → String
  | .active => "Active"
  | .approved => "Approved"
  | .rejected => "Rejected"
  | .cancelled => "Cancelled"

/-- The row of an event of block `b`, if it concerns the account; finalizations concern all. -/
def txRow (account : Option AccountId) (b : ℕ) : Event AccountId → Option TxRow
  | .deposited who amount =>
      if sameAccount who account then some ⟨b, .deposited, "+ " ++ formatBal amount⟩ else none
  | .withdrawn who amount =>
      if sameAccount who account then some ⟨b, .withdrawn, "- " ++ formatBal amount⟩ else none
  | .proposalCreated id author =>
      if sameAccount author account then
        some ⟨b, .proposalCreated, "Proposal #" ++ Nat.repr id.val⟩
      else none
  | .proposalVoted id voter vote =>
      if sameAccount voter account then
        some ⟨b, .proposalVoted, "#" ++ Nat.repr id.val ++ " → " ++ voteToString vote⟩
      else none
  | .proposalFinalized id status =>
      some ⟨b, .proposalFinalized, "#" ++ Nat.repr id.val ++ " → " ++ statusToString status⟩
  | .swapExecuted _ _ _ _ => none
  | .vaultSeeded _ _ => none

/-- `WINDOW`: fewer blocks than the node has hashes for, and at most 2000. -/
def window (maxHashes : ℕ) : ℕ := min 2000 (max 1 (maxHashes - 2))

/-- The lowest block that is read. -/
def fromBlock (current maxHashes : ℕ) : ℕ := max 1 (current + 1 - window maxHashes)

/-- The rows of one block; there are none to read when the state of the block is gone. -/
def rowsAt (account : Option AccountId) (events : ℕ → Option (List (Event AccountId))) (b : ℕ) :
    Option (List TxRow) :=
  (events b).map (List.filterMap (txRow account b))

/-- The rows of the page: the blocks are read downwards, up to the first whose state is gone, and
the rows are then sorted by block. -/
def transactions (account : Option AccountId) (events : ℕ → Option (List (Event AccountId)))
    (current maxHashes : ℕ) : List TxRow :=
  (Archive.scan (rowsAt account events) current
    (current + 1 - fromBlock current maxHashes)).mergeSort fun r r' => r'.block ≤ r.block

/-- The lowest block that was read: below it the window ends or the state of the block is gone. -/
def firstShown (account : Option AccountId) (events : ℕ → Option (List (Event AccountId)))
    (current maxHashes : ℕ) : ℕ :=
  current + 1 - Archive.reach (rowsAt account events) current
    (current + 1 - fromBlock current maxHashes)

/-- The loop of the page has at most one turn for each block after the genesis block. -/
theorem fromBlock_le (current maxHashes : ℕ) : fromBlock current maxHashes ≤ current + 1 := by
  exact Nat.max_le.2 ⟨Nat.le_add_left _ _, Nat.sub_le _ _⟩

/-! ## Texts read back -/

/-- The amount in a text such as `+ 100`. -/
def readAmount (details : String) : ℕ :=
  ((String.ofList (details.toList.drop 2)).toNat?).getD 0

/-- The amounts of the rows of a kind, added up. -/
def shownTotal (kind : TxKind) (rows : List TxRow) : ℕ :=
  ((rows.filter fun r => r.kind = kind).map fun r => readAmount r.details).sum

/-- A sign of two letters is not part of the amount. -/
theorem readAmount_append {sign : String} (hsign : sign.toList.length = 2) (x : Balance) :
    readAmount (sign ++ formatBal x) = x.val := by
  have htext : (sign ++ formatBal x).toList.drop 2 = (formatBal x).toList := by
    rw [String.toList_append, ← hsign, List.drop_left]
  rw [readAmount, htext, String.ofList_toList, formatBal, Nat.toNat?_repr, Option.getD_some]

theorem readAmount_credit (x : Balance) : readAmount ("+ " ++ formatBal x) = x.val :=
  readAmount_append rfl x

theorem readAmount_debit (x : Balance) : readAmount ("- " ++ formatBal x) = x.val :=
  readAmount_append rfl x

/-- The last three letters tell the statuses apart. -/
theorem lastLetters (text : String) (status : ProposalStatus) :
    (text ++ statusToString status).toList.reverse.take 3 =
      (statusToString status).toList.reverse.take 3 := by
  rw [String.toList_append, List.reverse_append]
  cases status <;> rfl

theorem finalizedText_inj {i j : ProposalId} {status status' : ProposalStatus}
    (h : "#" ++ Nat.repr i.val ++ " → " ++ statusToString status =
      "#" ++ Nat.repr j.val ++ " → " ++ statusToString status') : i = j ∧ status = status' := by
  -- the status is at the end of the text, and the id is the rest
  have hletters : (statusToString status).toList.reverse.take 3 =
      (statusToString status').toList.reverse.take 3 := by
    rw [← lastLetters ("#" ++ Nat.repr i.val ++ " → "), h, lastLetters]
  have hstatus : status = status' := by
    revert hletters
    cases status <;> cases status' <;> decide
  subst hstatus
  rw [String.append_left_inj, String.append_left_inj, String.append_right_inj,
    Nat.repr_inj] at h
  exact ⟨BoundedNat.ext h, rfl⟩

/-- Which event a creation row of the account stands for. -/
theorem txRow_created_iff {a : AccountId} {b : ℕ} {e : Event AccountId} {id : ProposalId} :
    txRow (some a) b e = some ⟨b, .proposalCreated, "Proposal #" ++ Nat.repr id.val⟩ ↔
      e = .proposalCreated id a := by
  constructor
  · intro h
    cases e with
    | proposalCreated i author =>
      obtain ⟨hsame, hrow⟩ := Option.ite_none_right_eq_some.1 h
      have htext := congrArg TxRow.details (Option.some.inj hrow)
      rw [String.append_right_inj, Nat.repr_inj] at htext
      rw [BoundedNat.ext htext, of_decide_eq_true hsame]
    | deposited | withdrawn | proposalVoted =>
      obtain ⟨-, hrow⟩ := Option.ite_none_right_eq_some.1 h
      cases congrArg TxRow.kind (Option.some.inj hrow)
    | proposalFinalized => cases congrArg TxRow.kind (Option.some.inj h)
    | swapExecuted | vaultSeeded => cases h
  · rintro rfl
    exact if_pos (decide_eq_true rfl)

/-- Which event a finalization row stands for. -/
theorem txRow_finalized_iff {account : Option AccountId} {b : ℕ} {e : Event AccountId}
    {id : ProposalId} {status : ProposalStatus} :
    txRow account b e = some ⟨b, .proposalFinalized,
        "#" ++ Nat.repr id.val ++ " → " ++ statusToString status⟩ ↔
      e = .proposalFinalized id status := by
  constructor
  · intro h
    cases e with
    | proposalFinalized i status' =>
      obtain ⟨rfl, rfl⟩ := finalizedText_inj (congrArg TxRow.details (Option.some.inj h))
      rfl
    | deposited | withdrawn | proposalCreated | proposalVoted =>
      obtain ⟨-, hrow⟩ := Option.ite_none_right_eq_some.1 h
      cases congrArg TxRow.kind (Option.some.inj hrow)
    | swapExecuted | vaultSeeded => cases h
  · rintro rfl
    rfl

theorem shownTotal_append (kind : TxKind) (rows rows' : List TxRow) :
    shownTotal kind (rows ++ rows') = shownTotal kind rows + shownTotal kind rows' := by
  rw [shownTotal, List.filter_append, List.map_append, List.sum_append]
  rfl

theorem shownTotal_perm (kind : TxKind) {rows rows' : List TxRow} (h : rows.Perm rows') :
    shownTotal kind rows = shownTotal kind rows' :=
  ((h.filter _).map _).sum_eq

theorem shownTotal_flatMap {α : Type} (kind : TxKind) (l : List α) (f : α → List TxRow) :
    shownTotal kind (l.flatMap f) = (l.map fun x => shownTotal kind (f x)).sum := by
  induction l with
  | nil => rfl
  | cons x l ih =>
    rw [List.flatMap_cons, shownTotal_append, ih, List.map_cons, List.sum_cons]

/-- The deposit and withdrawal rows of events show what the events say. -/
theorem shownTotal_rows (a : AccountId) (b : ℕ) (es : List (Event AccountId)) :
    shownTotal .deposited (es.filterMap (txRow (some a) b)) = (es.map (Event.creditOf a)).sum ∧
      shownTotal .withdrawn (es.filterMap (txRow (some a) b)) =
        (es.map (Event.debitOf a)).sum := by
  induction es with
  | nil => exact ⟨rfl, rfl⟩
  | cons e es ih =>
    obtain ⟨hcredit, hdebit⟩ := ih
    rw [List.map_cons, List.sum_cons, List.map_cons, List.sum_cons, ← hcredit, ← hdebit]
    -- a row with an amount for each stake event of the account, other rows without one
    cases e with
    | deposited who amount =>
      by_cases hwho : who = a
      · simp [txRow, sameAccount, Event.creditOf, Event.debitOf, hwho, shownTotal,
          readAmount_credit]
      · simp [txRow, sameAccount, Event.creditOf, Event.debitOf, hwho]
    | withdrawn who amount =>
      by_cases hwho : who = a
      · simp [txRow, sameAccount, Event.creditOf, Event.debitOf, hwho, shownTotal,
          readAmount_debit]
      · simp [txRow, sameAccount, Event.creditOf, Event.debitOf, hwho]
    | proposalCreated id author =>
      by_cases hwho : author = a <;>
        simp [txRow, sameAccount, Event.creditOf, Event.debitOf, hwho, shownTotal]
    | proposalVoted id voter vote =>
      by_cases hwho : voter = a <;>
        simp [txRow, sameAccount, Event.creditOf, Event.debitOf, hwho, shownTotal]
    | proposalFinalized id status =>
      simp [txRow, Event.creditOf, Event.debitOf, shownTotal]
    | swapExecuted | vaultSeeded =>
      rw [List.filterMap_cons_none rfl]
      exact ⟨(Nat.zero_add _).symm, (Nat.zero_add _).symm⟩

/-! ## The scan -/

theorem txRow_block {account : Option AccountId} {b : ℕ} {e : Event AccountId} {r : TxRow}
    (h : txRow account b e = some r) : r.block = b := by
  cases e with
  | deposited | withdrawn | proposalCreated | proposalVoted =>
    obtain ⟨-, hrow⟩ := Option.ite_none_right_eq_some.1 h
    cases hrow
    rfl
  | proposalFinalized =>
    cases h
    rfl
  | swapExecuted | vaultSeeded => cases h

theorem number_of_block {account : Option AccountId}
    {events : ℕ → Option (List (Event AccountId))} {b : ℕ} {rs : List TxRow}
    (hrs : rowsAt account events b = some rs) :
    ∀ r ∈ rs, r.block = b := by
  obtain ⟨es, -, rfl⟩ := Option.map_eq_some_iff.1 hrs
  intro r hr
  obtain ⟨e, -, he⟩ := List.mem_filterMap.1 hr
  exact txRow_block he

/-- The rows are found in the order in which they are shown. -/
theorem transactions_eq_scan (account : Option AccountId)
    (events : ℕ → Option (List (Event AccountId))) (current maxHashes : ℕ) :
    transactions account events current maxHashes =
      Archive.scan (rowsAt account events) current
        (current + 1 - fromBlock current maxHashes) := by
  apply List.mergeSort_of_pairwise
  -- the sort of the page finds nothing to do
  refine (Archive.scan_pairwise _ TxRow.block ?_ _ _).imp ?_
  · intro b rs hrs
    exact number_of_block hrs
  · intro r r' hle
    simpa using hle

section Runs

variable {T : Config AccountId}

/-- The blocks that a profile page has read on the chain after a run. -/
structure Shows (s : State T) (ops : List (Op T)) (kept : ℕ → Bool) (maxHashes first : ℕ)
    (rows : List TxRow) (account : Option AccountId) : Prop where
  from_le : fromBlock (run s ops).blockNumber.val maxHashes ≤ first
  all_kept : ∀ b, first ≤ b → b ≤ (run s ops).blockNumber.val → kept b = true
  stopped : fromBlock (run s ops).blockNumber.val maxHashes < first → kept (first - 1) = false
  rows_at : ∀ b, rows.filter (fun r => r.block = b) =
    if first ≤ b ∧ b ≤ (run s ops).blockNumber.val then
      (eventsAt (history s ops) b).filterMap (txRow account b)
    else []

variable (account : Option AccountId) (s : State T) (ops : List (Op T)) (kept : ℕ → Bool)
  (maxHashes : ℕ)

theorem rowsAt_of_kept {b : ℕ} (hb : kept b = true) :
    rowsAt account (servedEvents (history s ops) kept) b =
      some ((eventsAt (history s ops) b).filterMap (txRow account b)) := by
  rw [rowsAt, servedEvents_of_kept _ hb, Option.map_some]

theorem rowsAt_eq_none_iff {b : ℕ} :
    rowsAt account (servedEvents (history s ops) kept) b = none ↔ kept b = false := by
  rw [rowsAt, Option.map_eq_none_iff, servedEvents_eq_none_iff]

theorem kept_of_isSome {b : ℕ}
    (h : (rowsAt account (servedEvents (history s ops) kept) b).isSome = true) :
    kept b = true := by
  by_contra hkept
  rw [(rowsAt_eq_none_iff account s ops kept).2 (Bool.eq_false_of_not_eq_true hkept)] at h
  cases h

/-- The page shows the events of the blocks that it has read, and nothing else. -/
theorem shows_transactions :
    Shows s ops kept maxHashes
      (firstShown account (servedEvents (history s ops) kept) (run s ops).blockNumber.val maxHashes)
      (transactions account (servedEvents (history s ops) kept) (run s ops).blockNumber.val
        maxHashes) account := by
  generalize hcurrent : (run s ops).blockNumber.val = current
  have hfrom : 1 ≤ fromBlock current maxHashes := Nat.le_max_left _ _
  have hle := fromBlock_le current maxHashes
  have hreach := Archive.reach_le (rowsAt account (servedEvents (history s ops) kept)) current
    (current + 1 - fromBlock current maxHashes)
  -- a block that was read was kept
  have hall : ∀ b, firstShown account (servedEvents (history s ops) kept) current maxHashes ≤ b →
      b ≤ current → kept b = true := by
    intro b hfirst hb
    unfold firstShown at hfirst
    have hlt : current - b < Archive.reach (rowsAt account (servedEvents (history s ops) kept))
        current (current + 1 - fromBlock current maxHashes) := by
      omega
    have hsome := Archive.kept_of_lt_reach _ hlt
    rw [Nat.sub_sub_self hb] at hsome
    exact kept_of_isSome account s ops kept hsome
  refine ⟨?_, ?_, ?_, ?_⟩
  · rw [hcurrent]
    unfold firstShown
    omega
  · rw [hcurrent]
    exact hall
  · rw [hcurrent]
    intro hlt
    unfold firstShown at hlt ⊢
    -- the loop has left early, so the next block was gone
    have hstop := Archive.not_kept_of_reach_lt
      (rowsAt account (servedEvents (history s ops) kept)) (b := current)
        (n := current + 1 - fromBlock current maxHashes) (by omega)
    rw [rowsAt_eq_none_iff] at hstop
    rw [← hstop]
    congr 1
    omega
  · rw [hcurrent]
    intro b
    rw [transactions_eq_scan, Archive.filter_scan (rowsAt account _) TxRow.block
      (fun _ _ hrs => number_of_block hrs) (by omega)]
    -- the rows of a block that was read, and none of another one
    by_cases hb : firstShown account (servedEvents (history s ops) kept) current maxHashes ≤ b ∧
        b ≤ current
    · rw [if_pos hb, if_pos, rowsAt_of_kept _ _ _ _ (hall b hb.1 hb.2), Option.getD_some]
      unfold firstShown at hb
      omega
    · rw [if_neg hb, if_neg]
      unfold firstShown at hb
      omega

/-- The rows of a page are those of the operations executed since the first block shown. -/
theorem transactions_perm :
    (transactions account (servedEvents (history s ops) kept) (run s ops).blockNumber.val
      maxHashes).Perm
        (((history s ops).filter fun e =>
          firstShown account (servedEvents (history s ops) kept) (run s ops).blockNumber.val
            maxHashes ≤ e.before.blockNumber.val).flatMap
              fun e => (emitted e).filterMap (txRow account e.before.blockNumber.val)) := by
  have hreach := Archive.reach_le (rowsAt account (servedEvents (history s ops) kept))
    (run s ops).blockNumber.val
      ((run s ops).blockNumber.val + 1 - fromBlock (run s ops).blockNumber.val maxHashes)
  have hblocks : transactions account (servedEvents (history s ops) kept)
      (run s ops).blockNumber.val maxHashes =
        (List.range (Archive.reach (rowsAt account (servedEvents (history s ops) kept))
          (run s ops).blockNumber.val ((run s ops).blockNumber.val + 1 -
            fromBlock (run s ops).blockNumber.val maxHashes))).flatMap fun i =>
              ((history s ops).filter fun e => e.before.blockNumber.val =
                (run s ops).blockNumber.val - i).flatMap fun e =>
                  (emitted e).filterMap (txRow account e.before.blockNumber.val) := by
    rw [transactions_eq_scan, Archive.scan_eq_flatMap]
    apply List.flatMap_congr
    intro i hi
    have hsome := Archive.kept_of_lt_reach _ (List.mem_range.1 hi)
    -- what was read was kept, and a kept block serves its events
    have hkept : kept ((run s ops).blockNumber.val - i) = true :=
      kept_of_isSome account s ops kept hsome
    rw [rowsAt_of_kept _ _ _ _ hkept, Option.getD_some, eventsAt, List.filterMap_flatMap]
    apply List.flatMap_congr
    intro e he
    have hstamp := (List.mem_filter.1 he).2
    rw [decide_eq_true_eq] at hstamp
    rw [hstamp]
  rw [hblocks]
  exact blocks_perm _ s ops (by omega)

omit kept maxHashes in
variable {s ops} in
/-- The rows of the operations of a run show its deposits and withdrawals. -/
theorem shownTotal_history (hcalls : CallsAfterGenesis (history s ops)) (a : AccountId) :
    shownTotal .deposited ((history s ops).flatMap
        fun e => (emitted e).filterMap (txRow (some a) e.before.blockNumber.val)) =
        deposited a (history s ops) ∧
      shownTotal .withdrawn ((history s ops).flatMap
        fun e => (emitted e).filterMap (txRow (some a) e.before.blockNumber.val)) =
        withdrawn a (history s ops) := by
  obtain ⟨hcredit, hdebit⟩ := stakes_emitted hcalls a
  rw [shownTotal_flatMap, shownTotal_flatMap, ← hcredit, ← hdebit]
  constructor
  · rw [List.map_congr_left fun e _ => (shownTotal_rows a _ (emitted e)).1]
  · rw [List.map_congr_left fun e _ => (shownTotal_rows a _ (emitted e)).2]

end Runs

section Complete

variable {T : Config AccountId}

/-- A page that can read all blocks after the genesis block does so. -/
theorem firstShown_eq_one (account : Option AccountId) (s : State T) (ops : List (Op T))
    {kept : ℕ → Bool} {maxHashes : ℕ}
    (hkept : ∀ b, 1 ≤ b → b ≤ (run s ops).blockNumber.val → kept b = true)
    (hwindow : (run s ops).blockNumber.val ≤ window maxHashes) :
    firstShown account (servedEvents (history s ops) kept) (run s ops).blockNumber.val
      maxHashes = 1 := by
  have hshows := shows_transactions account s ops kept maxHashes
  have hfrom : fromBlock (run s ops).blockNumber.val maxHashes = 1 := by
    unfold fromBlock
    omega
  have hle := hshows.from_le
  rw [hfrom] at hle
  refine Nat.le_antisymm ?_ hle
  by_contra hlt
  -- else the page would have stopped at a block that was kept
  have hgone := hshows.stopped (by omega)
  have hbound : firstShown account (servedEvents (history s ops) kept)
      (run s ops).blockNumber.val maxHashes ≤ (run s ops).blockNumber.val + 1 := Nat.sub_le _ _
  rw [hkept _ (by omega) (by omega)] at hgone
  cases hgone

/-- Such a page shows the rows of all operations. -/
theorem transactions_perm_history (account : Option AccountId) {s : State T} {ops : List (Op T)}
    (hcalls : CallsAfterGenesis (history s ops)) {kept : ℕ → Bool} {maxHashes : ℕ}
    (hkept : ∀ b, 1 ≤ b → b ≤ (run s ops).blockNumber.val → kept b = true)
    (hwindow : (run s ops).blockNumber.val ≤ window maxHashes) :
    (transactions account (servedEvents (history s ops) kept) (run s ops).blockNumber.val
      maxHashes).Perm ((history s ops).flatMap
        fun e => (emitted e).filterMap (txRow account e.before.blockNumber.val)) := by
  have hperm := transactions_perm account s ops kept maxHashes
  rw [firstShown_eq_one account s ops hkept hwindow, Archive.flatMap_filter_of_nil] at hperm
  · exact hperm
  · -- operations before the first block have no events
    intro e he hearly
    rcases emitted_transition (transition_of_mem he) with ⟨hnone, -⟩ | ⟨origin, call, hinput, -⟩
    · show (emitted e).filterMap _ = []
      rw [show emitted e = [] from hnone, List.filterMap_nil]
    · have hblock := of_decide_eq_false hearly
      exact absurd (BoundedNat.eq_zero_iff.2 (by omega)) (hcalls e he origin call hinput)

theorem txRow_of_block {account : Option AccountId} {b : ℕ} (b' : ℕ) {e : Event AccountId}
    {kind : TxKind} {details : String} (h : txRow account b e = some ⟨b, kind, details⟩) :
    txRow account b' e = some ⟨b', kind, details⟩ := by
  cases e with
  | deposited | withdrawn | proposalCreated | proposalVoted =>
    obtain ⟨hsame, hrow⟩ := Option.ite_none_right_eq_some.1 h
    cases hrow
    exact if_pos hsame
  | proposalFinalized =>
    cases h
    rfl
  | swapExecuted | vaultSeeded => cases h

/-- Such a page has a row exactly for the events of the log that have one. -/
theorem exists_row_iff (account : Option AccountId) (l : T.currency.Ledger) {ops : List (Op T)}
    (hcalls : CallsAfterGenesis (history (genesis T l) ops)) {kept : ℕ → Bool} {maxHashes : ℕ}
    (hkept : ∀ b, 1 ≤ b → b ≤ (run (genesis T l) ops).blockNumber.val → kept b = true)
    (hwindow : (run (genesis T l) ops).blockNumber.val ≤ window maxHashes) (kind : TxKind)
    (details : String) :
    (∃ b, ⟨b, kind, details⟩ ∈ transactions account (servedEvents (history (genesis T l) ops) kept)
        (run (genesis T l) ops).blockNumber.val maxHashes) ↔
      ∃ e ∈ (run (genesis T l) ops).events, ∃ b, txRow account b e = some ⟨b, kind, details⟩ := by
  have hperm := transactions_perm_history account hcalls hkept hwindow
  have hlog : (run (genesis T l) ops).events = (history (genesis T l) ops).flatMap emitted :=
    events_run (genesis T l) ops
  constructor
  · rintro ⟨b, hrow⟩
    obtain ⟨entry, hentry, hrow⟩ := List.mem_flatMap.1 (hperm.mem_iff.1 hrow)
    obtain ⟨e, he, hrow⟩ := List.mem_filterMap.1 hrow
    -- a row carries the number of its block, and the number says nothing else
    have hb : b = entry.before.blockNumber.val := txRow_block hrow
    refine ⟨e, ?_, b, hb ▸ hrow⟩
    rw [hlog]
    exact List.mem_flatMap.2 ⟨entry, hentry, he⟩
  · rintro ⟨e, he, b, hrow⟩
    rw [hlog] at he
    obtain ⟨entry, hentry, he⟩ := List.mem_flatMap.1 he
    refine ⟨entry.before.blockNumber.val, hperm.mem_iff.2 (List.mem_flatMap.2 ⟨entry, hentry, ?_⟩)⟩
    exact List.mem_filterMap.2 ⟨e, he, txRow_of_block _ hrow⟩

end Complete

/-- The stake shown above the rows, the rows, and the stake when the first block shown began. -/
structure Explained {T : Config AccountId} (a : AccountId) (s : State T) (ops : List (Op T))
    (first : ℕ) (rows : List TxRow) (before after : List (Op T)) : Prop where
  split : ops = before ++ after
  earlier : ∀ e ∈ history s before, e.before.blockNumber.val < first
  since : ∀ e ∈ history (run s before) after, first ≤ e.before.blockNumber.val
  balance : ((run s before).deposits a).val + shownTotal .deposited rows =
    ((run s ops).deposits a).val + shownTotal .withdrawn rows

end Profile

open Profile

variable {AccountId : Type} [DecidableEq AccountId] {T : Config AccountId}

/-- **The rows of the profile page explain the stake above them.** After every run whose calls come
after the genesis block, and whatever states the node has dropped, the page of an account shows the
events of all blocks from some block on, which is where the window ends or the state of the block
below is gone. The amounts in its texts lead from the stake the account had when that block began to
the stake it has now. -/
theorem profile_explains_stake (hC : T.currency.Lawful) (l : T.currency.Ledger)
    (hzero : ∀ a, T.currency.reservedBalance l a = 0) (ops : List (Op T))
    (hcalls : CallsAfterGenesis (history (genesis T l) ops)) (kept : ℕ → Bool) (maxHashes : ℕ)
    (a : AccountId) :
    let s := genesis T l
    let rows := transactions (some a) (servedEvents (history s ops) kept)
      (run s ops).blockNumber.val maxHashes
    ∃ first before after, Shows s ops kept maxHashes first rows (some a) ∧
      Explained a s ops first rows before after := by
  intro s rows
  obtain ⟨before, after, rfl, hbefore, hafter⟩ :=
    Archive.exists_cut blockNumber_le_step s ops (firstShown (some a)
      (servedEvents (history s ops) kept) (run s ops).blockNumber.val maxHashes)
  refine ⟨_, before, after, shows_transactions (some a) s _ kept maxHashes, rfl, hbefore, hafter,
    ?_⟩
  -- the rows are those of the operations after the cut
  obtain ⟨book, hbook⟩ := holdsStakes_run hC hzero before
  have hperm := transactions_perm (some a) s (before ++ after) kept maxHashes
  rw [Archive.filter_trace_of_cut (fun s : State T => s.blockNumber.val) hbefore hafter] at hperm
  have hlate : CallsAfterGenesis (history (run s before) after) := by
    intro e he
    apply hcalls e
    rw [history, Machine.trace_append]
    exact List.mem_append_right _ he
  obtain ⟨hdeposited, hwithdrawn⟩ := shownTotal_history hlate a
  have hrun : run s (before ++ after) = run (run s before) after := Machine.run_append step s _ _
  rw [shownTotal_perm _ hperm, shownTotal_perm _ hperm, hdeposited, hwithdrawn, hrun]
  exact (deposits_run hC hbook after a).symm

/-- Alice stakes in the first two blocks, next to Bob, and withdraws in the third. -/
def aliceInThreeBlocks : List (Op DevConfig) :=
  [.block (.clamp _ 1), .call (.signed .alice) (.deposit (.clamp _ 5)),
    .block (.clamp _ 2), .call (.signed .bob) (.deposit (.clamp _ 3)),
    .call (.signed .alice) (.deposit (.clamp _ 7)),
    .block (.clamp _ 3), .call (.signed .alice) (.withdraw (.clamp _ 4))]

/-- The page of Alice on a node that has dropped the state of the first block: two rows, and the
stake of five units with which the second block began. -/
theorem profile_explains_stake_alice :
    let s := developmentGenesis
    let kept := fun b => decide (2 ≤ b)
    let rows := transactions (some DevAccount.alice)
      (servedEvents (history s aliceInThreeBlocks) kept)
      (run s aliceInThreeBlocks).blockNumber.val 2400
    rows = [⟨3, .withdrawn, "- 4"⟩, ⟨2, .deposited, "+ 7"⟩] ∧
      ∃ first before after, Shows s aliceInThreeBlocks kept 2400 first rows (some .alice) ∧
        Explained .alice s aliceInThreeBlocks first rows before after ∧
        ((run s before).deposits .alice).val = 5 := by
  intro s kept rows
  have hrows : rows = [⟨3, .withdrawn, "- " ++ formatBal (.clamp _ 4)⟩,
      ⟨2, .deposited, "+ " ++ formatBal (.clamp _ 7)⟩] := by
    -- the window is larger than the chain
    have hfrom : fromBlock 3 2400 = 1 := by decide
    show transactions _ _ 3 _ = _
    rw [transactions_eq_scan, hfrom]
    rfl
  have hcalls : CallsAfterGenesis (history s aliceInThreeBlocks) :=
    callsAfterGenesis_block_cons (by decide) _
  obtain ⟨first, before, after, hshows, hexplained⟩ :=
    profile_explains_stake (T := DevConfig) PlainLedger.currency_lawful _ (fun _ => rfl)
      aliceInThreeBlocks hcalls kept 2400 .alice
  refine ⟨hrows, first, before, after, hshows, hexplained, ?_⟩
  -- five units, and seven, are eight units, and four
  have hbalance := hexplained.balance
  have hnow : ((run s aliceInThreeBlocks).deposits .alice).val = 8 := rfl
  have hdeposited : shownTotal .deposited rows = 7 := by
    rw [hrows]
    exact readAmount_credit (.clamp _ 7)
  have hwithdrawn : shownTotal .withdrawn rows = 4 := by
    rw [hrows]
    exact readAmount_debit (.clamp _ 4)
  change ((run s before).deposits .alice).val + shownTotal .deposited rows =
    ((run s aliceInThreeBlocks).deposits .alice).val + shownTotal .withdrawn rows at hbalance
  rw [hdeposited, hwithdrawn, hnow] at hbalance
  omega

/-- The proposals that the rows of a page show as created by its account and as approved. -/
def shownApproved (rows : List TxRow) : Set ProposalId :=
  {id | (∃ b, ⟨b, .proposalCreated, "Proposal #" ++ Nat.repr id.val⟩ ∈ rows) ∧
    ∃ b, ⟨b, .proposalFinalized,
      "#" ++ Nat.repr id.val ++ " → " ++ statusToString .approved⟩ ∈ rows}

/-- **A page that reaches back to the first block tells the whole story.** If the window covers the
chain and no state is gone, the stake of an account is what its rows show as deposited and not as
withdrawn, and its karma is the number of proposals that the rows show as its own and as
approved. -/
theorem profile_tells_all (hC : T.currency.Lawful) (l : T.currency.Ledger)
    (hzero : ∀ a, T.currency.reservedBalance l a = 0) (ops : List (Op T))
    (hcalls : CallsAfterGenesis (history (genesis T l) ops)) (kept : ℕ → Bool) (maxHashes : ℕ)
    (hkept : ∀ b, 1 ≤ b → b ≤ (run (genesis T l) ops).blockNumber.val → kept b = true)
    (hwindow : (run (genesis T l) ops).blockNumber.val ≤ window maxHashes) (a : AccountId) :
    let s := run (genesis T l) ops
    let rows := transactions (some a) (servedEvents (history (genesis T l) ops) kept)
      s.blockNumber.val maxHashes
    (s.deposits a).val + shownTotal .withdrawn rows = shownTotal .deposited rows ∧
      (s.karma a).val = (shownApproved rows).ncard := by
  intro s rows
  constructor
  · have hperm := transactions_perm_history (some a) hcalls hkept hwindow
    obtain ⟨hdeposited, hwithdrawn⟩ := shownTotal_history hcalls a
    rw [shownTotal_perm _ hperm, shownTotal_perm _ hperm, hdeposited, hwithdrawn]
    exact deposits_eq_history hC hzero ops a
  · have hkarma : KarmaInv (history (genesis T l) ops) s :=
      history_induction (karmaInv_genesis l) (fun _ _ _ _ ih ht => ih.snoc ht) ops
    -- the texts of the rows name the events, and the events name the storage
    have hset : shownApproved rows = approvedOf s a := by
      apply Set.ext
      intro id
      unfold shownApproved
      rw [Set.mem_ofPred_eq, exists_row_iff (some a) l hcalls hkept hwindow,
        exists_row_iff (some a) l hcalls hkept hwindow]
      constructor
      · rintro ⟨⟨e, he, b, hrow⟩, e', he', b', hrow'⟩
        rw [txRow_created_iff.1 hrow, mem_events_created_iff l hcalls] at he
        rw [txRow_finalized_iff.1 hrow', mem_events_approved_iff l hcalls] at he'
        obtain ⟨p, hp, hauthor⟩ := he
        obtain ⟨q, hq, happroved⟩ := he'
        cases hp.symm.trans hq
        exact ⟨p, hp, hauthor, happroved⟩
      · rintro ⟨p, hp, hauthor, happroved⟩
        exact ⟨⟨_, (mem_events_created_iff l hcalls id a).2 ⟨p, hp, hauthor⟩, 0,
            txRow_created_iff.2 rfl⟩,
          ⟨_, (mem_events_approved_iff l hcalls id).2 ⟨p, hp, happroved⟩, 0,
            txRow_finalized_iff.2 rfl⟩⟩
    rw [hset]
    exact hkarma.karma_val a

/-- Alice's page shows the approval that has earned her one karma. -/
theorem profile_tells_all_alice :
    let ops := beforeEarlyFinalization ++ [aliceFinalizes]
    let rows := transactions (some DevAccount.alice)
      (servedEvents (history developmentGenesis ops) fun _ => true)
      (run developmentGenesis ops).blockNumber.val 2400
    (shownApproved rows).ncard = 1 :=
  (profile_tells_all (T := DevConfig) PlainLedger.currency_lawful _ (fun _ => rfl) _
    (callsAfterGenesis_block_cons (by decide) _) _ 2400 (fun _ _ _ => rfl) (by decide)
    .alice).2.symm

end MulticoinTreasury
