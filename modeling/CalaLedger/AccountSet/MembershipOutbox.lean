import CalaLedger.AccountSet.MembershipLocks
import CalaLedger.Foundations.ChangeFeed

/-! # The membership events of the outbox

Every membership operation publishes what it inserts or deletes in a statement of its own, under the
locks it took for the rows. Inserts publish `AccountSetMemberCreated` exactly with the rows they
insert. A removal publishes `AccountSetMemberRemoved` whether or not it deleted a row; so the stream
of a pair alternates as long as every removal finds its row, and only so long
(`outbox_mirrors_memberships_iff`). -/

namespace CalaLedger

open Foundations

/-- A row of `cala_account_set_member_accounts` or of `cala_account_set_member_account_sets`, as its
member is an account or a set. -/
structure MemberRow where
  accountSetId : AccountSetId
  memberId : AccountSetMemberId
  deriving DecidableEq, Repr

def AccountMembership.toMemberRow (membership : AccountMembership) : MemberRow :=
  ⟨membership.accountSetId, .account membership.accountId⟩

def SetMembership.toMemberRow (edge : SetMembership) : MemberRow :=
  ⟨edge.accountSetId, .accountSet edge.memberAccountSetId⟩

/-- The events of `OutboxEventPayload` about memberships. -/
inductive MembershipEvent
  | accountSetMemberCreated (accountSetId : AccountSetId) (memberId : AccountSetMemberId)
  | accountSetMemberRemoved (accountSetId : AccountSetId) (memberId : AccountSetMemberId)
  deriving DecidableEq, Repr

namespace MembershipEvent

def accountSetId : MembershipEvent → AccountSetId
  | accountSetMemberCreated accountSetId _ => accountSetId
  | accountSetMemberRemoved accountSetId _ => accountSetId

def memberId : MembershipEvent → AccountSetMemberId
  | accountSetMemberCreated _ memberId => memberId
  | accountSetMemberRemoved _ memberId => memberId

def isCreated : MembershipEvent → Bool
  | accountSetMemberCreated _ _ => true
  | accountSetMemberRemoved _ _ => false

end MembershipEvent

/-- A published event, and whether its row was there when the statement before it ran. -/
abbrev MemberChange := Announcement MemberRow

/-- The event published. -/
def payload (change : MemberChange) : MembershipEvent :=
  if change.created then
    .accountSetMemberCreated change.row.accountSetId change.row.memberId
  else .accountSetMemberRemoved change.row.accountSetId change.row.memberId

/-! ## Statements -/

/-- An `INSERT` that fails on a row that is there, and one created event per row. -/
def insertRows (rows : List MemberRow) (view : MemberRow → Bool) : Option (List MemberChange) :=
  if rows.Nodup ∧ ∀ row ∈ rows, view row = false then
    some (rows.map (fun row => { row := row, created := true, present := false }))
  else none

/-- A `DELETE`, and one removed event whatever it deleted. -/
def deleteRow (row : MemberRow) (view : MemberRow → Bool) : Option (List MemberChange) :=
  some [{ row := row, created := false, present := view row }]

/-- `AccountSetMemberRepo::add_in_op`. -/
def addInOp (pairs : List AccountMembership) : (MemberRow → Bool) → Option (List MemberChange) :=
  insertRows (pairs.map AccountMembership.toMemberRow)

/-- `AccountSetMemberRepo::attach_new_accounts_in_op`. -/
def attachNewAccountsInOp (pairs : List AccountMembership) :
    (MemberRow → Bool) → Option (List MemberChange) :=
  insertRows (pairs.map AccountMembership.toMemberRow)

/-- `AccountSetRepo::insert_member_sets`. -/
def insertMemberSets (members : List SetMembership) :
    (MemberRow → Bool) → Option (List MemberChange) :=
  insertRows (members.map SetMembership.toMemberRow)

/-- `AccountSetMemberRepo::remove_in_op`. -/
def removeInOp (accountSetId : AccountSetId) (accountId : AccountId) :
    (MemberRow → Bool) → Option (List MemberChange) :=
  deleteRow ⟨accountSetId, .account accountId⟩

/-- `AccountSetRepo::remove_member_set`. -/
def removeMemberSet (accountSetId memberAccountSetId : AccountSetId) :
    (MemberRow → Bool) → Option (List MemberChange) :=
  deleteRow ⟨accountSetId, .accountSet memberAccountSetId⟩

/-- What an operation writes and publishes once it has its locks and its checks have passed. -/
def MembershipOp.write : MembershipOp → (MemberRow → Bool) → Option (List MemberChange)
  | addMember accountSetId (.account accountId) => addInOp [⟨accountSetId, accountId⟩]
  | addMember accountSetId (.accountSet memberId) => insertMemberSets [⟨accountSetId, memberId⟩]
  | addMembers members => addInOp members
  | addMemberSets members => insertMemberSets members
  | removeMember accountSetId (.account accountId) => removeInOp accountSetId accountId
  | removeMember accountSetId (.accountSet memberId) => removeMemberSet accountSetId memberId
  | createAccounts pairs => attachNewAccountsInOp pairs

/-- The lock that guards a row: of the member account, or of the graph. -/
def MemberRow.lock (row : MemberRow) : LockKey :=
  match row.memberId with
  | .account accountId => .member accountId
  | .accountSet _ => .graph

/-! ## The feed -/

theorem mem_lockMembers {accountIds : List AccountId} {accountId : AccountId}
    (h : accountId ∈ accountIds) :
    ⟨.member accountId, .exclusive⟩ ∈ MembershipLocks.lockMembers accountIds :=
  List.mem_map.mpr ⟨accountId, (mem_sortBy id).mpr (List.mem_dedup.mpr h), rfl⟩

theorem insertRows_eq_some {rows : List MemberRow} {view : MemberRow → Bool}
    {changes : List MemberChange} (h : insertRows rows view = some changes) :
    rows.Nodup ∧ (∀ row ∈ rows, view row = false)
      ∧ changes = rows.map (fun row => { row := row, created := true, present := false }) := by
  unfold insertRows at h
  split at h
  · rename_i hrows
    exact ⟨hrows.1, hrows.2, (Option.some.inj h).symm⟩
  · cases h

/-- Inserted rows were not there, and each is inserted once. -/
theorem faithful_insertRows {rows : List MemberRow} {view : MemberRow → Bool}
    {changes : List MemberChange} (h : insertRows rows view = some changes) (row : MemberRow) :
    ∃ there, Announcement.followAll (view row) (Announcement.on changes row) = some there := by
  obtain ⟨hnodup, habsent, rfl⟩ := insertRows_eq_some h
  have hon : Announcement.on (rows.map (fun row =>
        ({ row := row, created := true, present := false } : MemberChange))) row
      = (List.replicate (rows.count row) row).map
        (fun row => { row := row, created := true, present := false }) := by
    rw [Announcement.on, List.filter_map, ← List.filter_eq]
    rfl
  rw [hon]
  by_cases hmem : row ∈ rows
  · rw [List.count_eq_one_of_mem hnodup hmem, habsent row hmem]
    exact ⟨true, rfl⟩
  · rw [List.count_eq_zero_of_not_mem hmem]
    exact ⟨view row, rfl⟩

theorem faithful_deleteRow {deleted : MemberRow} {view : MemberRow → Bool}
    {changes : List MemberChange} (h : deleteRow deleted view = some changes) (row : MemberRow) :
    ∃ there, Announcement.followAll (view row) (Announcement.on changes row) = some there := by
  cases h
  by_cases hrow : deleted = row
  · subst hrow
    refine ⟨false, ?_⟩
    simp [Announcement.on, Announcement.followAll, Announcement.follow]
  · refine ⟨view row, ?_⟩
    simp [Announcement.on, hrow]

/-- Account members are locked as members. -/
theorem locks_insert_accounts {pairs : List AccountMembership} {view : MemberRow → Bool}
    {changes : List MemberChange}
    (h : insertRows (pairs.map AccountMembership.toMemberRow) view = some changes) :
    ∀ change ∈ changes, ∃ pair ∈ pairs, change.row.lock = .member pair.accountId := by
  obtain ⟨-, -, rfl⟩ := insertRows_eq_some h
  intro change hchange
  obtain ⟨row, hrow, rfl⟩ := List.mem_map.mp hchange
  obtain ⟨pair, hpair, rfl⟩ := List.mem_map.mp hrow
  exact ⟨pair, hpair, rfl⟩

/-- Set members are locked with the graph. -/
theorem locks_insert_sets {members : List SetMembership} {view : MemberRow → Bool}
    {changes : List MemberChange}
    (h : insertRows (members.map SetMembership.toMemberRow) view = some changes) :
    ∀ change ∈ changes, change.row.lock = .graph ∧ members ≠ [] := by
  obtain ⟨-, -, rfl⟩ := insertRows_eq_some h
  intro change hchange
  obtain ⟨row, hrow, rfl⟩ := List.mem_map.mp hchange
  obtain ⟨edge, hedge, rfl⟩ := List.mem_map.mp hrow
  exact ⟨rfl, List.ne_nil_of_mem hedge⟩

/-- **Every operation locks the rows it writes.** -/
theorem MembershipOp.locks_write {op : MembershipOp} {view : MemberRow → Bool}
    {changes : List MemberChange} (h : op.write view = some changes) :
    ∀ change ∈ changes, ⟨change.row.lock, .exclusive⟩ ∈ op.lockRequests := by
  intro change hchange
  cases op with
  | addMember accountSetId member =>
    cases member with
    | account accountId =>
      have hinsert : insertRows ([⟨accountSetId, accountId⟩].map AccountMembership.toMemberRow) view
          = some changes := h
      obtain ⟨pair, hpair, hlock⟩ := locks_insert_accounts hinsert change hchange
      rw [hlock, List.mem_singleton.mp hpair]
      exact List.mem_append_right _ (List.mem_append_right _
        (mem_lockMembers (List.mem_singleton_self _)))
    | accountSet memberId =>
      have hinsert : insertRows ([⟨accountSetId, memberId⟩].map SetMembership.toMemberRow) view
          = some changes := h
      rw [(locks_insert_sets hinsert change hchange).1]
      exact List.mem_append_right _ (List.mem_singleton_self _)
  | addMembers members =>
    obtain ⟨pair, hpair, hlock⟩ := locks_insert_accounts h change hchange
    rw [hlock, lockRequests, if_neg (List.ne_nil_of_mem hpair)]
    exact List.mem_append_right _ (mem_lockMembers (List.mem_map_of_mem hpair))
  | addMemberSets members =>
    obtain ⟨hlock, hmembers⟩ := locks_insert_sets h change hchange
    rw [hlock, lockRequests, if_neg hmembers]
    exact List.mem_append_right _ (List.mem_singleton_self _)
  | removeMember accountSetId member =>
    cases member with
    | account accountId =>
      cases h
      rw [List.mem_singleton.mp hchange]
      exact List.mem_append_right _ (List.mem_append_right _
        (mem_lockMembers (List.mem_singleton_self _)))
    | accountSet memberId =>
      cases h
      rw [List.mem_singleton.mp hchange]
      exact List.mem_append_right _ (List.mem_singleton_self _)
  | createAccounts pairs =>
    obtain ⟨pair, hpair, hlock⟩ := locks_insert_accounts h change hchange
    rw [hlock]
    exact List.mem_map.mpr ⟨pair.accountId, (mem_sortBy id).mpr (List.mem_map_of_mem hpair), rfl⟩

/-- **What an operation publishes fits the rows it saw.** -/
theorem MembershipOp.faithful_write {op : MembershipOp} {view : MemberRow → Bool}
    {changes : List MemberChange} (h : op.write view = some changes) (row : MemberRow) :
    ∃ there, Announcement.followAll (view row) (Announcement.on changes row) = some there := by
  cases op with
  | addMember accountSetId member =>
    cases member with
    | account accountId => exact faithful_insertRows h row
    | accountSet memberId => exact faithful_insertRows h row
  | addMembers members => exact faithful_insertRows h row
  | addMemberSets members => exact faithful_insertRows h row
  | removeMember accountSetId member =>
    cases member with
    | account accountId => exact faithful_deleteRow h row
    | accountSet memberId => exact faithful_deleteRow h row
  | createAccounts pairs => exact faithful_insertRows h row

/-- The membership operations as a change feed. -/
def membershipFeed : FeedProgram MembershipOp MemberRow LockKey where
  requests := MembershipOp.lockRequests
  execute := MembershipOp.write
  lockOf := MemberRow.lock
  locks := MembershipOp.locks_write
  faithful := MembershipOp.faithful_write

/-- The member tables and the outbox, with the operations that write them. -/
abbrev MembershipState (τ : Type) := FeedState τ MembershipOp MemberRow LockKey

/-- The events of the outbox about a pair. -/
def eventsOf {τ : Type} (outbox : List (τ × MemberChange)) (row : MemberRow) :
    List MembershipEvent :=
  (outbox.map (fun entry => payload entry.2)).filter
    (fun event => event.accountSetId = row.accountSetId ∧ event.memberId = row.memberId)

/-- The stream of every pair alternates, starting with a created event, and the pair is in the member
tables if and only if its last event is one. -/
def MirrorsTables {τ : Type} (state : MembershipState τ) (outbox : List (τ × MemberChange)) : Prop :=
  ∀ row, List.IsChain (· ≠ ·) (false :: (eventsOf outbox row).map MembershipEvent.isCreated)
    ∧ (state.rows row = true
      ↔ (eventsOf outbox row).getLast?.map MembershipEvent.isCreated = some true)

theorem payload_isCreated (change : MemberChange) : (payload change).isCreated = change.created := by
  unfold payload
  cases change.created <;> rfl

theorem eventsOf_eq {τ : Type} (outbox : List (τ × MemberChange)) (row : MemberRow) :
    eventsOf outbox row = (FeedState.feedOn outbox row).map payload := by
  have habout : ∀ change : MemberChange, ((payload change).accountSetId = row.accountSetId
      ∧ (payload change).memberId = row.memberId) ↔ change.row = row := by
    intro change
    rcases change with ⟨⟨accountSetId, memberId⟩, created, present⟩
    rcases row with ⟨accountSetId', memberId'⟩
    cases created <;> simp [payload, MembershipEvent.accountSetId, MembershipEvent.memberId]
  have hmap : outbox.map (fun entry => payload entry.2) = (outbox.map Prod.snd).map payload := by
    rw [List.map_map]
    rfl
  rw [eventsOf, FeedState.feedOn, Announcement.on, hmap, List.filter_map]
  congr 1
  exact List.filter_congr (fun change _ => decide_eq_decide.mpr (habout change))

theorem map_isCreated_eventsOf {τ : Type} (outbox : List (τ × MemberChange)) (row : MemberRow) :
    (eventsOf outbox row).map MembershipEvent.isCreated
      = (FeedState.feedOn outbox row).map Announcement.created := by
  rw [eventsOf_eq, List.map_map]
  exact List.map_congr_left (fun change _ => payload_isCreated change)

/-- An account that is in no set, and a set. -/
def absentMember : MemberRow := ⟨⟨1⟩, .account ⟨2⟩⟩

/-- It is removed from the set. -/
theorem exists_removal_of_absent : ∃ state : MembershipState Unit,
    FeedState.Reachable membershipFeed state
      ∧ state.Delivers [((), { row := absentMember, created := false, present := false })] := by
  have hfree : ∀ (state : MembershipState Unit) (request : AdvisoryLock), state.Free () request :=
    fun _ _ u hu => absurd (Subsingleton.elim u ()) hu
  refine ⟨_, Relation.ReflTransGen.refl
    |>.tail (.call (t := ()) (.removeMember ⟨1⟩ (.account ⟨2⟩)) rfl rfl)
    |>.tail (.lock (t := ()) rfl rfl (hfree _ _))
    |>.tail (.lock (t := ()) rfl rfl (hfree _ _))
    |>.tail (.lock (t := ()) rfl rfl (hfree _ _))
    |>.tail (.execute (t := ()) rfl rfl rfl)
    |>.tail (.publish (t := ()) rfl rfl)
    |>.tail (.commit (t := ()) (by rfl) (by rfl)), ?_, ?_⟩
  · exact List.Perm.refl _
  · exact fun _ _ _ => rfl

/-- **When the outbox mirrors the member tables.** Exactly when every removal of an operation that
committed has deleted a row. -/
theorem outbox_mirrors_memberships_iff {τ : Type} [DecidableEq τ] {state : MembershipState τ}
    (hstate : FeedState.Reachable membershipFeed state) {outbox : List (τ × MemberChange)}
    (houtbox : state.Delivers outbox) :
    MirrorsTables state outbox
      ↔ ∀ entry ∈ outbox, entry.2.created = false → entry.2.present = true := by
  have hmirrors := FeedState.mirrors_iff hstate houtbox
  constructor
  · intro h entry hentry hremoved
    have hchain := (h entry.2.row).1
    rw [map_isCreated_eventsOf] at hchain
    exact (hmirrors entry.2.row).2.mp hchain entry.2
      (Announcement.mem_on.mpr ⟨List.mem_map_of_mem hentry, rfl⟩) hremoved
  · intro h row
    constructor
    · rw [map_isCreated_eventsOf]
      refine (hmirrors row).2.mpr (fun change hchange hremoved => ?_)
      obtain ⟨entry, hentry, rfl⟩ := List.mem_map.mp (Announcement.mem_on.mp hchange).1
      exact h entry hentry hremoved
    · -- the last event tells whether the row is there, whatever the removals found
      rw [← List.getLast?_map, map_isCreated_eventsOf, List.getLast?_map, (hmirrors row).1]
      cases ((FeedState.feedOn outbox row).getLast?.map Announcement.created) <;> simp

theorem outbox_mirrors_memberships_iff_absent : ∃ (state : MembershipState Unit)
    (outbox : List (Unit × MemberChange)), FeedState.Reachable membershipFeed state
      ∧ state.Delivers outbox ∧ (MirrorsTables state outbox
        ↔ ∀ entry ∈ outbox, entry.2.created = false → entry.2.present = true) := by
  obtain ⟨state, hstate, houtbox⟩ := exists_removal_of_absent
  exact ⟨state, _, hstate, houtbox, outbox_mirrors_memberships_iff hstate houtbox⟩

/-- The removal of a member that was never added is published and committed; the stream of the pair
starts with a removed event. -/
theorem removal_of_absent_published : ∃ (state : MembershipState Unit)
    (outbox : List (Unit × MemberChange)), FeedState.Reachable membershipFeed state
      ∧ state.Delivers outbox ∧ ¬ MirrorsTables state outbox := by
  obtain ⟨state, hstate, houtbox⟩ := exists_removal_of_absent
  refine ⟨state, _, hstate, houtbox, fun h => ?_⟩
  have hchain : List.IsChain (· ≠ ·) [false, false] := (h absentMember).1
  exact (List.isChain_cons_cons.mp hchain).1 rfl

end CalaLedger
