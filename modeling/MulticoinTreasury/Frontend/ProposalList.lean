import Mathlib
import MulticoinTreasury.Frontend.Actions

/-!
# The list of proposals

`proposal-list.tsx` asks for the ids of the stored proposals, which come in no particular order,
then reads the proposals one by one while the chain goes on, and sorts what it has read by the start
block. Whatever the order of the ids and whenever the proposals are read, each is listed once, in
the order of creation. And a text that was typed into the form is the text that the list shows,
but for a byte order mark.
-/

set_option autoImplicit false

namespace MulticoinTreasury

/-- A number in JSON: as itself, or as a text where it is too large for that. -/
inductive JsonNumber where
  | number (n : ℕ)
  | text (digits : String)
  deriving DecidableEq, Repr

/-- What the page takes from its libraries and from the browser: the text of an account, the text
that is shown for bytes that are not UTF-8, the JSON form of a number, which is another one for
another number, and lower case. -/
structure Display (AccountId : Type) where
  address : AccountId → String
  lossy : List UInt8 → String
  toJSON : U128 → JsonNumber
  toJSON_injective : Function.Injective toJSON
  toLowerCase : String → String

variable {AccountId : Type} {T : Config AccountId}

/-- A text without a byte order mark at its start, which a decoder takes for itself. -/
def dropMark (text : String) : String :=
  match text.toList with
  | [] => text
  | c :: rest => if c.toNat = 65279 then String.ofList rest else text

def Display.hexToString (D : Display AccountId) (bytes : List UInt8) : String :=
  ((String.fromUTF8? ⟨bytes.toArray⟩).map dropMark).getD (D.lossy bytes)

/-- A swap as the page keeps it. -/
structure ListedSwap where
  fromCoin : Coin
  toCoin : Coin
  amount : JsonNumber
  deriving DecidableEq, Repr

/-- A proposal as the page keeps it. -/
structure ListedProposal where
  id : ℕ
  author : String
  title : String
  description : String
  votesFor : JsonNumber
  votesAgainst : JsonNumber
  duration : ℕ
  status : ProposalStatus
  start : ℕ
  swap : ListedSwap
  deriving DecidableEq, Repr

def listed (D : Display AccountId) (id : ProposalId) (p : Proposal T) : ListedProposal where
  id := id.val
  author := D.address p.author
  title := D.hexToString p.title.items
  description := D.hexToString p.description.items
  votesFor := D.toJSON p.forVotes
  votesAgainst := D.toJSON p.againstVotes
  duration := p.endBlock.val - p.start.val
  status := p.status
  start := p.start.val
  swap := match p.action with
    | .swap swap => ⟨swap.fromCoin, swap.toCoin, D.toJSON swap.amount⟩

/-- The page reads the proposals of the keys and sorts them by their start. -/
def proposalList (D : Display AccountId) (keys : List ProposalId)
    (read : ProposalId → Option (Proposal T)) : List ListedProposal :=
  (keys.filterMap fun id => (read id).map (listed D id)).mergeSort fun a b => a.start ≤ b.start

/-- The filters of the page: a part of the author's address, and a status. -/
def filteredProposals (D : Display AccountId) (authorFilter : String)
    (statusFilter : Option ProposalStatus) (proposals : List ListedProposal) :
    List ListedProposal :=
  proposals.filter fun p =>
    (if authorFilter.isEmpty then true
      else decide ((D.toLowerCase authorFilter).toList <:+: (D.toLowerCase p.author).toList)) &&
    match statusFilter with
      | some status => p.status = status
      | none => true

/-! ## Reading while the chain goes on -/

section Reading

variable [DecidableEq AccountId]

/-- The keys are the ids of the stored proposals, in any order. -/
structure Enumerates (keys : List ProposalId) (s : State T) : Prop where
  nodup : keys.Nodup
  mem_iff : ∀ id, id ∈ keys ↔ ∃ p, s.proposals id = some p

omit [DecidableEq AccountId] in
/-- In another order they are the same keys. -/
theorem Enumerates.perm {keys keys' : List ProposalId} {s : State T} (h : Enumerates keys s)
    (hperm : keys'.Perm keys) : Enumerates keys' s where
  nodup := hperm.nodup_iff.2 h.nodup
  mem_iff id := hperm.mem_iff.trans (h.mem_iff id)

/-- Each proposal is read in some later state. -/
def ReadLater (s : State T) (read : ProposalId → Option (Proposal T)) : Prop :=
  ∀ id, ∃ more, read id = (run s more).proposals id

theorem ReadLater.stored {s : State T} {read : ProposalId → Option (Proposal T)}
    (h : ReadLater s read) (hstore : StoreInv s) {id : ProposalId} {p : Proposal T}
    (hp : s.proposals id = some p) : ∃ p', read id = some p' ∧ p.Later p' := by
  obtain ⟨more, hmore⟩ := h id
  obtain ⟨p', hp', hlater⟩ := later_run hstore hp more
  exact ⟨p', hmore.trans hp', hlater⟩

variable (D : Display AccountId) {s : State T} {keys : List ProposalId}
  {read : ProposalId → Option (Proposal T)}

omit [DecidableEq AccountId] in
theorem proposalList_perm (keys : List ProposalId) (read : ProposalId → Option (Proposal T)) :
    (proposalList D keys read).Perm (keys.filterMap fun id => (read id).map (listed D id)) :=
  List.mergeSort_perm _ _

/-- What is listed was read from a stored proposal. -/
theorem mem_proposalList (hstore : StoreInv s) (hkeys : Enumerates keys s)
    (hread : ReadLater s read) {a : ListedProposal} (ha : a ∈ proposalList D keys read) :
    ∃ id p p', s.proposals id = some p ∧ read id = some p' ∧ p.Later p' ∧
      a = listed D id p' := by
  rw [(proposalList_perm D keys read).mem_iff] at ha
  obtain ⟨id, hid, hlisted⟩ := List.mem_filterMap.1 ha
  obtain ⟨p, hp⟩ := (hkeys.mem_iff id).1 hid
  obtain ⟨p', hp', hlater⟩ := hread.stored hstore hp
  rw [hp', Option.map_some] at hlisted
  cases hlisted
  exact ⟨id, p, p', hp, hp', hlater, rfl⟩

/-- Every proposal of the keys is listed once. -/
theorem map_id_proposalList (hstore : StoreInv s) (hkeys : Enumerates keys s)
    (hread : ReadLater s read) :
    ((proposalList D keys read).map ListedProposal.id).Perm (keys.map BoundedNat.val) := by
  have hids : (keys.filterMap fun id => (read id).map (listed D id)).map ListedProposal.id =
      keys.map BoundedNat.val := by
    rw [List.map_filterMap, ← List.filterMap_eq_map]
    apply List.filterMap_congr
    intro id hid
    obtain ⟨p, hp⟩ := (hkeys.mem_iff id).1 hid
    obtain ⟨p', hp', -⟩ := hread.stored hstore hp
    rw [hp']
    rfl
  rw [← hids]
  exact (proposalList_perm D keys read).map _

/-- The starts do not depend on when the proposals are read. -/
theorem map_start_proposalList (hstore : StoreInv s) (hkeys : Enumerates keys s)
    (hread : ReadLater s read) :
    ((proposalList D keys read).map ListedProposal.start).Perm
      (keys.filterMap fun id => (s.proposals id).map fun p => p.start.val) := by
  have hstarts : (keys.filterMap fun id => (read id).map (listed D id)).map
      ListedProposal.start =
        keys.filterMap fun id => (s.proposals id).map fun p => p.start.val := by
    rw [List.map_filterMap]
    apply List.filterMap_congr
    intro id hid
    obtain ⟨p, hp⟩ := (hkeys.mem_iff id).1 hid
    obtain ⟨p', hp', hlater⟩ := hread.stored hstore hp
    rw [hp, hp', Option.map_some, Option.map_some, Option.map_some, ← hlater.start_eq]
    rfl
  rw [← hstarts]
  exact (proposalList_perm D keys read).map _

omit [DecidableEq AccountId] in
theorem proposalList_sorted (keys : List ProposalId) (read : ProposalId → Option (Proposal T)) :
    (proposalList D keys read).Pairwise fun a b => a.start ≤ b.start := by
  refine (List.pairwise_mergeSort ?_ ?_ _).imp ?_
  · intro a b c hab hbc
    rw [decide_eq_true_eq] at hab hbc ⊢
    exact Nat.le_trans hab hbc
  · intro a b
    rw [Bool.or_eq_true, decide_eq_true_eq, decide_eq_true_eq]
    exact Nat.le_total _ _
  · intro a b hab
    exact of_decide_eq_true hab

/-- A proposal that started earlier has the smaller id. -/
theorem id_lt_of_start_lt (hstore : StoreInv s) (hschedule : ScheduleInv s)
    (hkeys : Enumerates keys s) (hread : ReadLater s read) {a b : ListedProposal}
    (ha : a ∈ proposalList D keys read) (hb : b ∈ proposalList D keys read)
    (hlt : a.start < b.start) : a.id < b.id := by
  obtain ⟨i, p, p', hp, -, hlater, rfl⟩ := mem_proposalList D hstore hkeys hread ha
  obtain ⟨j, q, q', hq, -, hlater', rfl⟩ := mem_proposalList D hstore hkeys hread hb
  by_contra hle
  -- ids are given in the order of the blocks
  have hstart := hschedule.start_le_start hq hp (Nat.le_of_not_lt hle)
  have hlt' : p'.start < q'.start := hlt
  rw [hlater.start_eq, hlater'.start_eq] at hlt'
  exact Nat.not_lt_of_le hstart hlt'

end Reading

/-! ## Filters -/

/-- The filter for a status picks from what the filter for the author has left. -/
theorem filteredProposals_status (D : Display AccountId) (authorFilter : String)
    (status : ProposalStatus) (shown : List ListedProposal) :
    filteredProposals D authorFilter (some status) shown =
      (filteredProposals D authorFilter none shown).filter fun p => p.status = status := by
  unfold filteredProposals
  rw [List.filter_filter]
  apply List.filter_congr
  intro p _
  rw [Bool.and_true, Bool.and_comm]

/-- The lists for the three statuses make up the list for all. -/
theorem filteredProposals_perm (D : Display AccountId) (authorFilter : String)
    {shown : List ListedProposal} (hstatus : ∀ a ∈ shown, a.status ≠ .cancelled) :
    (filteredProposals D authorFilter (some .active) shown ++
      (filteredProposals D authorFilter (some .approved) shown ++
        filteredProposals D authorFilter (some .rejected) shown)).Perm
          (filteredProposals D authorFilter none shown) := by
  have hnot : ∀ a ∈ filteredProposals D authorFilter none shown, a.status ≠ .cancelled :=
    fun a ha => hstatus a (List.mem_filter.1 ha).1
  rw [filteredProposals_status, filteredProposals_status, filteredProposals_status]
  generalize filteredProposals D authorFilter none shown = all at hnot
  -- the approved ones among those that are not active
  have happroved : (all.filter fun p => p.status = .approved) =
      (all.filter fun p => !decide (p.status = .active)).filter fun p => p.status = .approved := by
    rw [List.filter_filter]
    apply List.filter_congr
    intro p _
    cases p.status <;> rfl
  -- and the rest, since nothing is cancelled
  have hrejected : (all.filter fun p => p.status = .rejected) =
      (all.filter fun p => !decide (p.status = .active)).filter
        fun p => !decide (p.status = .approved) := by
    rw [List.filter_filter]
    apply List.filter_congr
    intro p hp
    have hne := hnot p hp
    cases hs : p.status with
    | cancelled => exact absurd hs hne
    | active | approved | rejected => rfl
  rw [happroved, hrejected]
  exact ((List.filter_append_perm _ _).append_left _).trans (List.filter_append_perm _ _)

/-! ## What the page shows -/

variable [DecidableEq AccountId]

/-- **Every proposal is listed once, in the order of creation.** In every reachable state, for any
order of the keys and any later moments at which the proposals are read, the list contains each
stored proposal exactly once; it is sorted by the start blocks, and of two proposals that started in
different blocks the earlier one has the smaller id. Another order and other moments give the same
starts line by line. The filters for the three statuses share out the list, and the filter for
cancelled proposals finds nothing. -/
theorem list_shows_all_in_order (D : Display AccountId) (l : T.currency.Ledger)
    (ops : List (Op T)) (keys : List ProposalId) (read : ProposalId → Option (Proposal T))
    (hkeys : Enumerates keys (run (genesis T l) ops))
    (hread : ReadLater (run (genesis T l) ops) read) :
    let shown := proposalList D keys read
    (shown.map ListedProposal.id).Perm (keys.map BoundedNat.val) ∧
      shown.Pairwise (fun a b => a.start ≤ b.start ∧ (a.start < b.start → a.id < b.id)) ∧
      (∀ keys' read', Enumerates keys' (run (genesis T l) ops) →
        ReadLater (run (genesis T l) ops) read' →
          (proposalList D keys' read').map ListedProposal.start =
            shown.map ListedProposal.start) ∧
      ∀ authorFilter,
        (filteredProposals D authorFilter (some .active) shown ++
          (filteredProposals D authorFilter (some .approved) shown ++
            filteredProposals D authorFilter (some .rejected) shown)).Perm
              (filteredProposals D authorFilter none shown) ∧
        filteredProposals D authorFilter (some .cancelled) shown = [] := by
  intro shown
  have hstore : StoreInv (run (genesis T l) ops) := storeInv_reached l ops
  have hstatus : ∀ a ∈ shown, a.status ≠ .cancelled := by
    intro a ha
    obtain ⟨id, p, p', -, hp', -, rfl⟩ := mem_proposalList D hstore hkeys hread ha
    -- what is read later is a proposal of a reachable state
    obtain ⟨more, hmore⟩ := hread id
    refine not_cancelled l (ops ++ more) id p' ?_
    rw [run, Machine.run_append]
    exact hmore.symm.trans hp'
  refine ⟨map_id_proposalList D hstore hkeys hread, ?_, ?_, fun authorFilter => ⟨?_, ?_⟩⟩
  · refine (proposalList_sorted D keys read).imp_of_mem ?_
    intro a b ha hb hle
    exact ⟨hle, id_lt_of_start_lt D hstore (scheduleInv_reached l ops) hkeys hread ha hb⟩
  · intro keys' read' hkeys' hread'
    -- both are sorted lists of the starts of the same proposals
    have hsame : keys'.Perm keys := by
      rw [List.perm_ext_iff_of_nodup hkeys'.nodup hkeys.nodup]
      intro id
      rw [hkeys'.mem_iff, hkeys.mem_iff]
    have hperm := (map_start_proposalList D hstore hkeys' hread').trans
      ((hsame.filterMap _).trans (map_start_proposalList D hstore hkeys hread).symm)
    have hsorted' : ((proposalList D keys' read').map ListedProposal.start).Pairwise (· ≤ ·) :=
      List.pairwise_map.2 (proposalList_sorted D keys' read')
    have hsorted : (shown.map ListedProposal.start).Pairwise (· ≤ ·) :=
      List.pairwise_map.2 (proposalList_sorted D keys read)
    exact hperm.eq_of_pairwise (fun _ _ _ _ => Nat.le_antisymm) hsorted' hsorted
  · exact filteredProposals_perm D authorFilter hstatus
  · rw [filteredProposals_status, List.filter_eq_nil_iff]
    intro a ha
    have hne := hstatus a (List.mem_filter.1 ha).1
    simpa using hne

/-- A display in which the accounts of the development chain go by their names, and which is right
for small numbers and Latin letters. -/
def devDisplay : Display DevAccount where
  address
    | .alice => "Alice"
    | .bob => "Bob"
    | .aliceStash => "Alice//stash"
    | .bobStash => "Bob//stash"
  lossy _ := "\uFFFD"
  toJSON x := .number x.val
  toJSON_injective _ _ h := BoundedNat.ext (JsonNumber.number.inj h)
  toLowerCase text := String.ofList (text.toList.map Char.toLower)

omit [DecidableEq AccountId] in
/-- The keys are the ids below the next one. -/
theorem enumerates_of_lt_next {s : State T} (hstore : StoreInv s) {keys : List ProposalId}
    {next : ProposalId} (hnext : s.nextProposalId = next) (hnodup : keys.Nodup)
    (hkeys : ∀ id, id ∈ keys ↔ id < next) : Enumerates keys s where
  nodup := hnodup
  mem_iff id := by
    rw [hstore.stored_iff, hnext]
    exact hkeys id

/-- The only key after a run that has created one proposal. -/
theorem enumerates_zero {ops : List (Op DevConfig)}
    (h : (run developmentGenesis ops).nextProposalId = .clamp _ 1) :
    Enumerates [0] (run developmentGenesis ops) := by
  refine enumerates_of_lt_next (storeInv_reached _ ops) h (List.nodup_singleton _) fun id => ?_
  rw [List.mem_singleton, BoundedNat.eq_zero_iff]
  show id.val = 0 ↔ id.val < 1
  omega

omit [DecidableEq AccountId] in
theorem readLater_now [DecidableEq AccountId] (s : State T) : ReadLater s s.proposals :=
  fun _ => ⟨[], rfl⟩

/-- Alice's first proposal is approved in its block; Bob and Alice create one more each. -/
def threeProposals : List (Op DevConfig) :=
  [.block (.clamp _ 1), .call (.signed .alice) (.deposit (.clamp _ 5)),
    .call (.signed .alice) (proposeSwap ⟨.dot, .kusama, 0⟩),
    .call (.signed .alice) (.voteProposal 0 .forVote),
    .call (.signed .bob) (.finalizeProposal 0),
    .block (.clamp _ 2), .call (.signed .bob) (proposeSwap ⟨.kusama, .usdc, 0⟩),
    .block (.clamp _ 5), .call (.signed .alice) (proposeSwap ⟨.usdc, .dot, 0⟩)]

/-- Bob's proposal is read after Alice has voted against it in the next block. -/
def readBobLater (s : State DevConfig) (id : ProposalId) : Option (Proposal DevConfig) :=
  if id = .clamp _ 1 then
    (run s [.block (.clamp _ 6),
      .call (.signed .alice) (.voteProposal (.clamp _ 1) .againstVote)]).proposals id
  else s.proposals id

theorem readLater_bob (s : State DevConfig) : ReadLater s (readBobLater s) := by
  intro id
  by_cases h : id = .clamp _ 1
  · exact ⟨_, if_pos h⟩
  · exact ⟨[], if_neg h⟩

theorem enumerates_three :
    Enumerates [.clamp _ 2, 0, .clamp _ 1] (run developmentGenesis threeProposals) := by
  refine enumerates_of_lt_next (storeInv_reached _ threeProposals) rfl (by decide) fun id => ?_
  have htwo : id = .clamp _ 2 ↔ id.val = 2 := BoundedNat.ext_iff
  have hone : id = .clamp _ 1 ↔ id.val = 1 := BoundedNat.ext_iff
  rw [List.mem_cons, List.mem_cons, List.mem_singleton, htwo, hone, BoundedNat.eq_zero_iff]
  show _ ↔ id.val < 3
  omega

/-- How the page lists them: Bob's proposal with the vote that came after the keys. -/
def threeEntries : List ListedProposal :=
  [⟨0, "Alice", "", "", .number 6, .number 0, 10, .approved, 1, ⟨.dot, .kusama, .number 0⟩⟩,
    ⟨1, "Bob", "", "", .number 0, .number 1000006, 10, .active, 2, ⟨.kusama, .usdc, .number 0⟩⟩,
    ⟨2, "Alice", "", "", .number 0, .number 0, 10, .active, 5, ⟨.usdc, .dot, .number 0⟩⟩]

theorem read_three : ([.clamp _ 2, 0, .clamp _ 1] : List ProposalId).filterMap (fun id =>
    (readBobLater (run developmentGenesis threeProposals) id).map (listed devDisplay id)) =
      [threeEntries[2], threeEntries[0], threeEntries[1]] := by
  rfl

/-- The list for keys in disorder: in order, with the same starts whatever else is read, and shared
out by the filters. -/
theorem list_shows_all_in_order_three :
    let s := run developmentGenesis threeProposals
    let shown := proposalList devDisplay [.clamp _ 2, 0, .clamp _ 1] (readBobLater s)
    shown = threeEntries ∧
      (proposalList devDisplay [0, .clamp _ 1, .clamp _ 2] s.proposals).map
        ListedProposal.start = [1, 2, 5] ∧
      (filteredProposals devDisplay "ALI" none shown).map ListedProposal.id = [0, 2] ∧
      ∀ authorFilter,
        (filteredProposals devDisplay authorFilter (some .active) shown ++
          (filteredProposals devDisplay authorFilter (some .approved) shown ++
            filteredProposals devDisplay authorFilter (some .rejected) shown)).Perm
              (filteredProposals devDisplay authorFilter none shown) ∧
        filteredProposals devDisplay authorFilter (some .cancelled) shown = [] := by
  intro s shown
  obtain ⟨-, hordered, hagain, hfilters⟩ := list_shows_all_in_order (T := DevConfig) devDisplay
    developmentGenesis.ledger threeProposals _ _ enumerates_three (readLater_bob s)
  -- the entries that were read, in the only order by their starts
  have hshown : shown = threeEntries := by
    have hperm : shown.Perm threeEntries :=
      (proposalList_perm _ _ _).trans (read_three ▸ by decide)
    refine hperm.eq_of_pairwise ?_ (hordered.imp And.left) (by decide)
    intro a b ha hb hab hba
    have hstarts : ∀ x ∈ threeEntries, ∀ y ∈ threeEntries, x.start = y.start → x = y := by
      decide
    exact hstarts a (hperm.mem_iff.1 ha) b hb (Nat.le_antisymm hab hba)
  refine ⟨hshown, ?_, ?_, hfilters⟩
  · rw [hagain _ _ (enumerates_three.perm (by decide)) (readLater_now s)]
    show shown.map _ = _
    rw [hshown]
    rfl
  · rw [hshown]
    decide

/-! ## From the form to the list -/

omit [DecidableEq AccountId] in
/-- The bytes of a text are shown as the text, up to a byte order mark. -/
theorem hexToString_encodeText (D : Display AccountId) {bound : U32} {text : String}
    {bytes : BoundedVec UInt8 bound} (h : encodeText bound text = some bytes) :
    D.hexToString bytes.items = dropMark text := by
  unfold encodeText at h
  split_ifs at h
  cases h
  have hvalid : String.fromUTF8? text.toUTF8 = some text := dif_pos text.isValidUTF8
  show ((String.fromUTF8? ⟨text.toUTF8.data.toList.toArray⟩).map dropMark).getD _ = dropMark text
  rw [Array.toArray_toList]
  exact congrArg (fun o : Option String => (o.map dropMark).getD _) hvalid

/-- The list entry of a proposal as it was typed into the form in the state `s`. -/
structure ListedProposal.Typed (D : Display AccountId) (f : CreateForm) (who : AccountId)
    (s : State T) (a : ListedProposal) : Prop where
  id_eq : a.id = s.nextProposalId.val
  author_eq : a.author = D.address who
  title_eq : a.title = dropMark f.title
  description_eq : a.description = dropMark f.description
  fromCoin_eq : a.swap.fromCoin = f.fromCoin
  toCoin_eq : a.swap.toCoin = f.toCoin
  amount_eq : ∃ x : U128, f.amount = some (x.val : ℤ) ∧ ∀ y, a.swap.amount = D.toJSON y ↔ y = x
  start_eq : a.start = s.blockNumber.val
  duration_eq : ∃ d : ℕ, f.duration = some (d : ℤ) ∧
    a.duration = min d (maxU32 - s.blockNumber.val)

/-- **What is typed is what is shown.** If a form that was submitted in a reachable state is
accepted, then in every later state, whatever has happened since, the list has exactly one entry
with the id that was next, and the entry has the texts, the swap and the duration of the form: a
text loses at most a byte order mark at its start, and the duration is cut off only at the last
block number. -/
theorem typed_is_shown (D : Display AccountId) (l : T.currency.Ledger) (ops : List (Op T))
    (who : AccountId) (f : CreateForm) (submitting : Bool) (call : Call T)
    (hsubmit : f.submit submitting = some call)
    (haccepted : (step (run (genesis T l) ops) (.call (.signed who) call)).1 = .ok ⟨⟩)
    (more : List (Op T)) (keys : List ProposalId) (read : ProposalId → Option (Proposal T))
    (hkeys : Enumerates keys (run (genesis T l) (ops ++ .call (.signed who) call :: more)))
    (hread : ReadLater (run (genesis T l) (ops ++ .call (.signed who) call :: more)) read) :
    ∃ a ∈ proposalList D keys read, a.Typed D f who (run (genesis T l) ops) ∧
      ∀ b ∈ proposalList D keys read, b.id = a.id → b = a := by
  obtain ⟨title, description, duration, amount, rfl, htitle, hdescription, hduration, hamount, -,
    -⟩ := CreateForm.submit_eq_some hsubmit
  have hstore' := storeInv_reached l (ops ++ .call (.signed who)
    (.createProposal title description duration (.swap ⟨f.fromCoin, f.toCoin, amount⟩)) :: more)
  have hstore := storeInv_reached l ops
  generalize hs : run (genesis T l) ops = s at haccepted hstore
  rw [run, Machine.run_append, show Machine.run step (genesis T l) ops = s from hs,
    Machine.run_cons] at hkeys hread hstore'
  -- the proposal is stored by the call, kept since, and found when it is read
  have ht := step_transition s (.call (.signed who)
    (.createProposal title description duration (.swap ⟨f.fromCoin, f.toCoin, amount⟩)))
  have ha := accepted_of_step_ok haccepted
  generalize (step s _).2 = s' at ha ht hkeys hread hstore'
  have hnew : s'.proposals s.nextProposalId = some (newProposal s who title description duration
      (.swap ⟨f.fromCoin, f.toCoin, amount⟩)) := by
    cases ha with
    | createProposal => exact Function.update_self _ _ _
  obtain ⟨p, hp, hlater⟩ := later_run (hstore.transition ht) hnew more
  obtain ⟨p', hp', hlater'⟩ := hread.stored hstore' hp
  have hall := hlater.trans hlater'
  refine ⟨listed D s.nextProposalId p', ?_, ?_, ?_⟩
  · rw [(proposalList_perm D keys read).mem_iff]
    refine List.mem_filterMap.2 ⟨s.nextProposalId, (hkeys.mem_iff _).2 ⟨p, hp⟩, ?_⟩
    rw [hp', Option.map_some]
  · have haction : p'.action = .swap ⟨f.fromCoin, f.toCoin, amount⟩ := hall.action_eq
    have hswap : (listed D s.nextProposalId p').swap =
        ⟨f.fromCoin, f.toCoin, D.toJSON amount⟩ := by
      unfold listed
      rw [haction]
    constructor
    · rfl
    · exact congrArg D.address hall.author_eq
    · show D.hexToString p'.title.items = dropMark f.title
      rw [hall.title_eq]
      exact hexToString_encodeText D htitle
    · show D.hexToString p'.description.items = dropMark f.description
      rw [hall.description_eq]
      exact hexToString_encodeText D hdescription
    · rw [hswap]
    · rw [hswap]
    · rw [hswap]
      -- no other amount looks like this one
      refine ⟨amount, hamount, fun y => ⟨fun h => (D.toJSON_injective h).symm, ?_⟩⟩
      rintro rfl
      rfl
    · exact congrArg BoundedNat.val hall.start_eq
    · refine ⟨duration.val, hduration, ?_⟩
      show p'.endBlock.val - p'.start.val = _
      -- the end was clipped at the last block number when it was stored
      rw [hall.endBlock_eq, hall.start_eq]
      show min (s.blockNumber.val + duration.val) maxU32 - s.blockNumber.val = _
      omega
  · -- another entry with the same id would be the same proposal
    intro b hb hid
    obtain ⟨j, q, q', -, hq', -, rfl⟩ := mem_proposalList D hstore' hkeys hread hb
    have hj : j = s.nextProposalId := BoundedNat.ext hid
    subst hj
    cases hp'.symm.trans hq'
    rfl

/-- Alice's form is shown while she stakes and votes. -/
theorem typed_is_shown_alice :
    let before : List (Op DevConfig) := [.block (.clamp _ 1)]
    let more : List (Op DevConfig) := [.call (.signed .alice) (.deposit (.clamp _ 7)),
      .call (.signed .alice) (.voteProposal 0 .forVote)]
    let s := run developmentGenesis (before ++ .call (.signed .alice) buyKusamaCall :: more)
    ∃ a ∈ proposalList devDisplay [0] s.proposals,
      a.Typed devDisplay buyKusama .alice (run developmentGenesis before) ∧
        ∀ b ∈ proposalList devDisplay [0] s.proposals, b.id = a.id → b = a :=
  typed_is_shown (T := DevConfig) devDisplay _ _ .alice buyKusama false _ submit_buyKusama rfl _
    [0] _ (enumerates_zero rfl) (readLater_now _)

end MulticoinTreasury
