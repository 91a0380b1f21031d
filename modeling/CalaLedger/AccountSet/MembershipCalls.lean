import CalaLedger.AccountSet.DoubleMembership
import CalaLedger.AccountSet.Entity
import CalaLedger.AccountSet.MembershipLocks
import CalaLedger.AccountSet.ScopedValidation
import CalaLedger.Foundations.Dialogue

/-! # Membership operations, statement by statement

`AccountSets::add_member`, `add_members`, `add_member_sets`, `remove_member` and `create_all`, and
`Accounts::create_all`, as dialogues with the database: every statement they issue, and what they
compute between two of them. A lock statement takes its locks one by one, and each is a statement of
its own here, so that other operations commit also while an operation waits for some of its locks.

What the operations publish is in `MembershipOutbox`. -/

namespace CalaLedger

open Foundations (Dialogue IterationOrder)
open Foundations.Dialogue (expect forEach)

/-! ## Statements -/

/-- The live memberships of some accounts, and the epoch at that time. -/
structure DirectMembershipProbe where
  epoch : ℤ
  seeds : List AccountMembership

/-- The statements of the membership operations. -/
inductive MembershipStatement
  | findAccountSets (setIds : List AccountSetId)
  | lock (request : AdvisoryLock)
  | memberHasBalanceHistory (journalId : JournalId) (memberId : AccountId)
  | membersWithBalanceHistory (pairs : List (JournalId × AccountId))
  | probeDirectMemberships (accountIds : List AccountId)
  /-- `SetGraphCache::load`, which asks the process and not the database -/
  | loadSnapshot
  | fetchSetGraphNodes (setIds : List AccountSetId)
  | assertNoDoubleMembership (members : List AccountMembership)
  | fetchSetGraphEpoch
  | fetchSetMembershipEdges
  | candidateAccounts (affectedSetIds : List AccountSetId)
  | membershipsOf (candidateAccountIds : List AccountId)
  | insertAccounts (rows : List (AccountId × AccountRow))
  | insertAccountSets (rows : List (AccountSetId × AccountSetRow))
  | insertMemberAccounts (pairs : List AccountMembership)
  | deleteMemberAccount (accountSetId : AccountSetId) (accountId : AccountId)
  | insertMemberSets (members : List SetMembership)
  | deleteMemberSet (accountSetId memberAccountSetId : AccountSetId)
  | bumpSetGraphEpoch

namespace MembershipTables

variable (tables : MembershipTables)

/-- The first query of `fetch_affected_account_memberships_in_op`. -/
def candidateAccounts (affectedSetIds : List AccountSetId) : List AccountId :=
  (Foundations.sortBy (id : AccountId → AccountId) ((tables.memberAccounts.filter
    (fun m => m.accountSetId ∈ affectedSetIds)).map AccountMembership.accountId)).dedup

/-- Its second query. -/
def membershipsOf (candidateAccountIds : List AccountId) : List AccountMembership :=
  Foundations.sortBy membershipOrder (tables.memberAccounts.filter
    (fun m => m.accountId ∈ candidateAccountIds))

end MembershipTables

/-- A member has settled activity in a journal: a row of its balances, or an entry. -/
def LedgerDb.HasBalanceHistory (db : LedgerDb) (journalId : JournalId) (memberId : AccountId) :
    Prop :=
  (∃ currency, db.balances.history ⟨journalId, memberId, currency⟩ ≠ [])
    ∨ ∃ entry ∈ db.entries, entry.journalId = journalId ∧ entry.accountId = memberId

/-- `AccountSetRepo::fetch_set_graph`, indexed. -/
def LedgerDb.Fetched (db : LedgerDb) (snapshot : GraphSnapshot) : Prop :=
  ∃ setIds nodes, setIds.Nodup
    ∧ (∀ setId, setId ∈ setIds ↔ (db.memberships.accountSets setId).isSome)
    ∧ nodes.Perm (db.setGraphNodes setIds)
    ∧ snapshot = { toIndexedNodes := SetGraphCache.indexNodes nodes
                   epoch := db.memberships.epoch }

namespace MembershipStatement

/-- What a statement returns. -/
abbrev Answer : MembershipStatement → Type
  | findAccountSets _ => AccountSetId → Option JournalId
  | memberHasBalanceHistory _ _ => Bool
  | membersWithBalanceHistory _ => List AccountId
  | probeDirectMemberships _ => DirectMembershipProbe
  | loadSnapshot => GraphSnapshot
  | fetchSetGraphNodes _ => List SetGraphNode
  | assertNoDoubleMembership _ => Bool
  | fetchSetGraphEpoch => ℤ
  | fetchSetMembershipEdges => List SetMembership
  | candidateAccounts _ => List AccountId
  | membershipsOf _ => List AccountMembership
  | _ => Unit

/-- Whether a statement inserts, updates or deletes rows. -/
def writes : MembershipStatement → Bool
  | insertAccounts _ => true
  | insertAccountSets _ => true
  | insertMemberAccounts _ => true
  | deleteMemberAccount _ _ => true
  | insertMemberSets _ => true
  | deleteMemberSet _ _ => true
  | bumpSetGraphEpoch => true
  | _ => false

/-- The lock a statement takes. -/
def requests : MembershipStatement → List AdvisoryLock
  | lock request => [request]
  | _ => []

/-- The rows a statement leaves; `none` when it violates a constraint. -/
def apply (db : LedgerDb) : MembershipStatement → Option LedgerDb
  | insertAccounts rows =>
      if (rows.map Prod.fst).Nodup ∧ ∀ row ∈ rows, (db.accounts row.1).isNone then
        some { db with
          accounts := fun accountId =>
            ((rows.find? (·.1 = accountId)).map Prod.snd).or (db.accounts accountId) }
      else none
  | insertAccountSets rows =>
      -- a set needs its account and its journal
      if (rows.map Prod.fst).Nodup ∧ (∀ row ∈ rows, (db.memberships.accountSets row.1).isNone)
          ∧ (∀ row ∈ rows, (db.accounts (AccountId.ofSet row.1)).isSome)
          ∧ ∀ row ∈ rows, (db.journals row.2.journalId).isSome then
        some { db with
          memberships := { db.memberships with
            accountSets := fun setId => ((rows.find? (·.1 = setId)).map (fun row =>
              row.2.journalId)).or (db.memberships.accountSets setId) } }
      else none
  | insertMemberAccounts pairs =>
      -- a pair is unique, also among those of the statement
      if pairs.Nodup ∧ (∀ pair ∈ pairs, pair ∉ db.memberships.memberAccounts)
          ∧ (∀ pair ∈ pairs, (db.memberships.accountSets pair.accountSetId).isSome)
          ∧ ∀ pair ∈ pairs, (db.accounts pair.accountId).isSome then
        some { db with
          memberships := { db.memberships with
            memberAccounts := db.memberships.memberAccounts ++ pairs } }
      else none
  | deleteMemberAccount accountSetId accountId =>
      some { db with
        memberships := { db.memberships with
          memberAccounts := db.memberships.memberAccounts.filter (· ≠ ⟨accountSetId, accountId⟩) } }
  | insertMemberSets members =>
      if members.Nodup ∧ (∀ edge ∈ members, edge ∉ db.memberships.memberAccountSets)
          ∧ (∀ edge ∈ members, (db.memberships.accountSets edge.accountSetId).isSome)
          ∧ ∀ edge ∈ members, (db.memberships.accountSets edge.memberAccountSetId).isSome then
        some { db with
          memberships := { db.memberships with
            memberAccountSets := db.memberships.memberAccountSets ++ members } }
      else none
  | deleteMemberSet accountSetId memberAccountSetId =>
      some { db with
        memberships := { db.memberships with
          memberAccountSets := db.memberships.memberAccountSets.filter
            (· ≠ ⟨accountSetId, memberAccountSetId⟩) } }
  | bumpSetGraphEpoch =>
      some { db with
        memberships := { db.memberships with epoch := db.memberships.epoch + 1 } }
  | _ => some db

/-- What a statement may return on some rows: SQL leaves the order of some rows open, and a process
may have fetched its snapshot from any rows that were ever committed. -/
def finds (committed : List LedgerDb) (db : LedgerDb) :
    (statement : MembershipStatement) → statement.Answer → Prop
  | findAccountSets setIds => fun sets => sets = onlyKeys setIds db.memberships.accountSets
  | memberHasBalanceHistory journalId memberId => fun found =>
      found = true ↔ db.HasBalanceHistory journalId memberId
  | membersWithBalanceHistory pairs => fun members =>
      members.Nodup ∧ ∀ memberId, memberId ∈ members
        ↔ ∃ pair ∈ pairs, pair.2 = memberId ∧ db.HasBalanceHistory pair.1 memberId
  | probeDirectMemberships accountIds => fun probe =>
      probe.epoch = db.memberships.epoch
        ∧ probe.seeds.Perm (db.memberships.memberAccounts.filter (·.accountId ∈ accountIds))
  | loadSnapshot => fun snapshot =>
      snapshot = SetGraphCache.cold ∨ ∃ earlier ∈ committed, earlier.Fetched snapshot
  | fetchSetGraphNodes setIds => fun nodes => nodes.Perm (db.setGraphNodes setIds)
  | assertNoDoubleMembership members => fun conflict =>
      ∃ fuel, db.memberships.assertNoDoubleMembership fuel members
        = some (if conflict then .error .memberAlreadyAdded else .ok ())
  | fetchSetGraphEpoch => fun epoch => epoch = db.memberships.epoch
  | fetchSetMembershipEdges => fun edges => edges.Perm db.memberships.memberAccountSets
  | candidateAccounts affectedSetIds => fun accountIds =>
      accountIds = db.memberships.candidateAccounts affectedSetIds
  | membershipsOf candidateAccountIds => fun memberships =>
      memberships = db.memberships.membershipsOf candidateAccountIds
  | _ => fun _ => True

/-- Reads and locks leave every row as it is. -/
theorem apply_of_reads {statement : MembershipStatement} (h : ¬ statement.writes) (db : LedgerDb) :
    statement.apply db = some db := by
  cases statement <;> first | rfl | exact (h rfl).elim

end MembershipStatement

/-! ## The service -/

/-- The errors of `AccountSetError` that the operations return. -/
inductive AccountSetError
  | couldNotFindById (accountSetId : AccountSetId)
  | journalIdMismatch
  | memberHasBalanceHistory (accountSetId : AccountSetId) (memberId : AccountId)
  | setMembership (error : SetMembershipError)
  deriving DecidableEq, Repr

/-- A part of a membership operation. -/
abbrev MembershipFlow (α : Type) : Type :=
  Dialogue MembershipStatement MembershipStatement.Answer AccountSetError α

/-- The orders in which hash maps are iterated. -/
structure MembershipOrders where
  accounts : IterationOrder (List AccountSetId)
  sets : IterationOrder AccountSetId
  edges : IterationOrder SetMembership

namespace MembershipFlow

namespace AccountSets

/-- Issue a statement on the operation. -/
def issue (statement : MembershipStatement) : MembershipFlow statement.Answer :=
  Dialogue.ask statement

/-- Take some locks, in order. -/
def takeLocks (requests : List AdvisoryLock) : MembershipFlow Unit :=
  forEach (fun request => issue (.lock request)) requests

/-- The value of a map, which the operation needs. -/
def get (sets : AccountSetId → Option JournalId) (accountSetId : AccountSetId) :
    Except AccountSetError JournalId :=
  match sets accountSetId with
  | some journalId => .ok journalId
  | none => .error (.couldNotFindById accountSetId)

/-! ### Checks -/

/-- The journal of the set and that of its member; both are removed from the map. -/
def matchJournals (sets : AccountSetId → Option JournalId) (accountSetId memberId : AccountSetId) :
    Except AccountSetError JournalId := do
  let target ← get sets accountSetId
  -- a set that is its own member is not found the second time
  let member ← get (Function.update sets accountSetId none) memberId
  if target ≠ member then .error .journalIdMismatch else .ok target

/-- The set that a member is added to or removed from. -/
def findTarget (accountSetId : AccountSetId) : AccountSetMemberId → MembershipFlow JournalId
  | .account _ => do
      let sets ← issue (.findAccountSets [accountSetId])
      .done (get sets accountSetId)
  | .accountSet memberId => do
      let sets ← issue (.findAccountSets [accountSetId, memberId])
      .done (matchJournals sets accountSetId memberId)

/-- `assert_member_history_empty_in_op`. -/
def assertMemberHistoryEmptyInOp (accountSetId : AccountSetId) (journalId : JournalId)
    (memberId : AccountId) : MembershipFlow Unit := do
  takeLocks (MembershipLocks.memberHasBalanceHistory memberId)
  let found ← issue (.memberHasBalanceHistory journalId memberId)
  if found then .done (.error (.memberHasBalanceHistory accountSetId memberId)) else pure ()

/-- The check of a batch: `sets` names the set of every pair, which the error names. -/
def assertMembersHistoryEmptyInOp (checkPairs : List (JournalId × AccountId))
    (sets : List (AccountSetId × AccountId)) : MembershipFlow Unit := do
  takeLocks (MembershipLocks.membersWithBalanceHistory (checkPairs.map Prod.snd))
  let withHistory ← issue (.membersWithBalanceHistory checkPairs)
  match withHistory.head? with
  | some memberId => do
      -- the member with history must be in the input
      let found ← expect (sets.find? (·.2 = memberId))
      .done (.error (.memberHasBalanceHistory found.1 memberId))
  | none => pure ()

/-- The parents of the sets that the snapshot or the overlay knows. -/
def knownParents (snapshot : GraphSnapshot) (overlay : Option IndexedNodes)
    (setId : AccountSetId) : Option (List AccountSetId) :=
  if (SetGraphCache.metaOf snapshot overlay setId).isSome then
    some (SetGraphCache.parentsOf snapshot overlay setId)
  else none

/-- The overlay for sets the snapshot does not know. -/
def fetchOverlay (missing : List AccountSetId) : MembershipFlow (Option IndexedNodes) :=
  if missing = [] then
    pure none
  else do
    let nodes ← issue (.fetchSetGraphNodes missing)
    pure (some (SetGraphCache.indexNodes nodes))

/-- `AccountSetRepo::assert_no_double_membership`. -/
def assertNoDoubleMembership (members : List AccountMembership) : MembershipFlow Unit := do
  let conflict ← issue (.assertNoDoubleMembership members)
  if conflict then .done (.error (.setMembership .memberAlreadyAdded)) else pure ()

/-- `SetGraphCache::assert_no_double_membership_in_op`. -/
def assertNoDoubleMembershipInOp (orders : MembershipOrders) (members : List AccountMembership) :
    MembershipFlow Unit := do
  let probe ← issue (.probeDirectMemberships
    (Foundations.sortBy id (members.map AccountMembership.accountId)).dedup)
  let snapshot ← issue .loadSnapshot
  if snapshot.epoch ≠ probe.epoch then
    -- the snapshot is of another graph
    assertNoDoubleMembership members
  else do
    let overlay ← fetchOverlay (SetGraphCache.missing snapshot (members ++ probe.seeds))
    -- the walk passes every edge once at most
    let answer ← expect (hasDuplicateAccountMembershipPaths (knownParents snapshot overlay)
      orders.accounts
      ((members ++ probe.seeds).length + Foundations.itemCount snapshot.parents) members
      probe.seeds)
    match answer with
    | some false => pure ()
    | some true => .done (.error (.setMembership .memberAlreadyAdded))
    -- a set on the way is not known
    | none => assertNoDoubleMembership members

/-- The affected sets of `fetch_affected_account_memberships_in_op`. -/
def affectedSets (existingEdges members : List SetMembership) : Option (List AccountSetId) :=
  let children : HashMap AccountSetId (List AccountSetId) :=
    (existingEdges ++ members).foldl (fun children edge =>
      Foundations.upsert children edge.accountSetId [] (· ++ [edge.memberAccountSetId])) ∅
  (Foundations.explore (fun setId => (children.lookup setId).getD []) (fun _ => false)
    (members.length + (existingEdges.length + members.length)) []
    (members.map SetMembership.memberAccountSetId).reverse).map Prod.snd

/-- `AccountSetRepo::fetch_affected_account_memberships_in_op`. -/
def fetchAffectedAccountMembershipsInOp (existingEdges members : List SetMembership) :
    MembershipFlow (List AccountMembership) := do
  let affectedSetIds ← expect (affectedSets existingEdges members)
  let candidateAccountIds ← issue (.candidateAccounts affectedSetIds)
  if candidateAccountIds = [] then pure [] else issue (.membershipsOf candidateAccountIds)

/-- The edges that proposed ones are validated with. -/
def existingEdgesInOp (orders : MembershipOrders) (members : List SetMembership) :
    MembershipFlow (List SetMembership) := do
  let snapshot ← issue .loadSnapshot
  let epoch ← issue .fetchSetGraphEpoch
  if snapshot.epoch = epoch then
    expect (SetGraphCache.edgesConnectedTo snapshot orders.edges members)
  else
    issue .fetchSetMembershipEdges

/-- `SetGraphCache::assert_valid_set_memberships_in_op`. -/
def assertValidSetMembershipsInOp (orders : MembershipOrders) (members : List SetMembership) :
    MembershipFlow Unit := do
  let existingEdges ← existingEdgesInOp orders members
  let accountMembers ← fetchAffectedAccountMembershipsInOp existingEdges members
  let result ← expect (validateSetMemberships orders.sets existingEdges members accountMembers)
  .done (result.mapError .setMembership)

/-! ### Writes -/

/-- `AccountSetMemberRepo::add_in_op`. -/
def addInOp (pairs : List AccountMembership) : MembershipFlow Unit :=
  if pairs = [] then pure () else issue (.insertMemberAccounts pairs)

/-- `AccountSetRepo::insert_member_sets`. -/
def insertMemberSets (members : List SetMembership) : MembershipFlow Unit :=
  if members = [] then
    pure ()
  else do
    issue (.insertMemberSets members)
    issue .bumpSetGraphEpoch

/-- `AccountSetRepo::remove_member_set`. -/
def removeMemberSet (accountSetId memberAccountSetId : AccountSetId) : MembershipFlow Unit := do
  takeLocks MembershipLocks.lockForSetMembership
  issue (.deleteMemberSet accountSetId memberAccountSetId)
  issue .bumpSetGraphEpoch

/-! ### Operations -/

/-- What follows the history check when accounts are attached. -/
def attachAccounts (orders : MembershipOrders) (members : List AccountMembership) :
    MembershipFlow Unit := do
  takeLocks MembershipLocks.lockGraphShared
  -- the graph comes before the members
  takeLocks (MembershipLocks.lockMembers (members.map AccountMembership.accountId))
  assertNoDoubleMembershipInOp orders members
  addInOp members

/-- What follows the history check when sets are attached. -/
def attachSets (orders : MembershipOrders) (members : List SetMembership) :
    MembershipFlow Unit := do
  takeLocks MembershipLocks.lockForSetMembership
  assertValidSetMembershipsInOp orders members
  insertMemberSets members

/-- `AccountSets::add_member_in_op`. -/
def addMemberInOp (orders : MembershipOrders) (accountSetId : AccountSetId)
    (member : AccountSetMemberId) : MembershipFlow Unit := do
  let journalId ← findTarget accountSetId member
  assertMemberHistoryEmptyInOp accountSetId journalId member.memberId
  match member with
  | .account accountId => attachAccounts orders [⟨accountSetId, accountId⟩]
  | .accountSet memberId => attachSets orders [⟨accountSetId, memberId⟩]

/-- `AccountSets::add_members_in_op`. -/
def addMembersInOp (orders : MembershipOrders) (members : List AccountMembership) :
    MembershipFlow Unit :=
  if members = [] then
    pure ()
  else do
    let sets ← issue (.findAccountSets (members.map AccountMembership.accountSetId))
    let checkPairs ← .done (members.mapM (fun membership => do
      let journalId ← get sets membership.accountSetId
      pure (journalId, membership.accountId)))
    assertMembersHistoryEmptyInOp checkPairs
      (members.map (fun membership => (membership.accountSetId, membership.accountId)))
    attachAccounts orders members

/-- The journals of an edge's two sets. -/
def checkPair (sets : AccountSetId → Option JournalId) (edge : SetMembership) :
    Except AccountSetError (JournalId × AccountId) := do
  let container ← get sets edge.accountSetId
  let member ← get sets edge.memberAccountSetId
  if container ≠ member then .error .journalIdMismatch
  else .ok (container, AccountId.ofSet edge.memberAccountSetId)

/-- `AccountSets::add_member_sets_in_op`. -/
def addMemberSetsInOp (orders : MembershipOrders) (members : List SetMembership) :
    MembershipFlow Unit :=
  if members = [] then
    pure ()
  else do
    let sets ← issue (.findAccountSets (Foundations.sortBy id (members.flatMap (fun edge =>
      [edge.accountSetId, edge.memberAccountSetId]))).dedup)
    let checkPairs ← .done (members.mapM (checkPair sets))
    assertMembersHistoryEmptyInOp checkPairs
      (members.map (fun edge => (edge.accountSetId, AccountId.ofSet edge.memberAccountSetId)))
    attachSets orders members

/-- `AccountSets::remove_member_in_op`. -/
def removeMemberInOp (accountSetId : AccountSetId) (member : AccountSetMemberId) :
    MembershipFlow Unit := do
  let journalId ← findTarget accountSetId member
  assertMemberHistoryEmptyInOp accountSetId journalId member.memberId
  match member with
  | .account accountId => do
      takeLocks MembershipLocks.lockGraphShared
      takeLocks (MembershipLocks.lockMembers [accountId])
      issue (.deleteMemberAccount accountSetId accountId)
  | .accountSet memberId => removeMemberSet accountSetId memberId

/-- The row that `AccountRepo` creates. -/
def accountRow (new : NewAccount) : AccountId × AccountRow := (new.id, accountSchema.createRow new)

/-- `AccountSets::create_all_in_op`: the backing accounts first. -/
def createAllInOp (newAccountSets : List NewAccountSet) : MembershipFlow Unit := do
  issue (.insertAccounts (newAccountSets.map (fun new => accountRow new.backingAccount)))
  issue (.insertAccountSets (newAccountSets.map (fun new =>
    (new.id, accountSetSchema.createRow new))))

end AccountSets

namespace Accounts

open MembershipFlow.AccountSets (issue takeLocks accountRow)

/-- `initial_membership_pairs`, of accounts with their `initial_account_set`. -/
def initialMembershipPairs (newAccounts : List (NewAccount × Option AccountSetId)) :
    List AccountMembership :=
  newAccounts.filterMap (fun new => new.2.map (fun setId => ⟨setId, new.1.id⟩))

/-- `attach_initial_account_set_in_op`. -/
def attachInitialAccountSetInOp (pairs : List AccountMembership) : MembershipFlow Unit :=
  if pairs = [] then
    pure ()
  else do
    takeLocks (MembershipLocks.attachNewAccounts pairs)
    issue (.insertMemberAccounts pairs)

/-- `Accounts::create_all_in_op`. -/
def createAllInOp (newAccounts : List (NewAccount × Option AccountSetId)) :
    MembershipFlow Unit := do
  issue (.insertAccounts (newAccounts.map (fun new => accountRow new.1)))
  attachInitialAccountSetInOp (initialMembershipPairs newAccounts)

end Accounts

end MembershipFlow

/-- The calls on memberships, accounts and sets that an operation may make. -/
inductive MembershipCall : MembershipFlow Unit → Prop
  | addMember (orders : MembershipOrders) (accountSetId : AccountSetId)
      (member : AccountSetMemberId) :
      MembershipCall (MembershipFlow.AccountSets.addMemberInOp orders accountSetId member)
  | addMembers (orders : MembershipOrders) (members : List AccountMembership) :
      MembershipCall (MembershipFlow.AccountSets.addMembersInOp orders members)
  | addMemberSets (orders : MembershipOrders) (members : List SetMembership) :
      MembershipCall (MembershipFlow.AccountSets.addMemberSetsInOp orders members)
  | removeMember (accountSetId : AccountSetId) (member : AccountSetMemberId) :
      MembershipCall (MembershipFlow.AccountSets.removeMemberInOp accountSetId member)
  | createAccounts (newAccounts : List (NewAccount × Option AccountSetId)) :
      MembershipCall (MembershipFlow.Accounts.createAllInOp newAccounts)
  | createAccountSets (newAccountSets : List NewAccountSet) :
      MembershipCall (MembershipFlow.AccountSets.createAllInOp newAccountSets)

end CalaLedger
