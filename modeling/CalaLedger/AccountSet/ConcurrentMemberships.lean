import CalaLedger.AccountSet.AttachedSets
import CalaLedger.Posting.Reachable

/-! # Memberships under concurrency

Operations add and remove members, create accounts inside a set and create sets, in any number at
the same time, over any hash of the lock keys, while caches hold any graph that was ever committed
and the rest of the ledger goes on. Each call leaves what its operation sees valid
(`MembershipCall.keepsGraph`), and so the committed graph is valid in every state reached: acyclic,
at most as deep as allowed, and with every account and every set contained at most once in any set
(`membership_graph_valid`). -/

namespace CalaLedger

open Foundations Arrow
open MembershipFlow MembershipFlow.AccountSets
open SetGraphCache (seedSets)

variable {hashtext : LockKey → BitVec 32}

/-! ## New accounts -/

/-- The accounts of some memberships, one by one. -/
theorem length_seedSets (rows : List AccountMembership) (accountId : AccountId) :
    (seedSets rows accountId).length = (rows.map AccountMembership.accountId).count accountId := by
  rw [seedSets, List.length_map, ← List.countP_eq_length_filter, List.count, List.countP_map]
  refine List.countP_congr (fun m _ => ?_)
  simp

theorem initialMembershipPairs_sublist (newAccounts : List (NewAccount × Option AccountSetId)) :
    ((Accounts.initialMembershipPairs newAccounts).map AccountMembership.accountId).Sublist
      (newAccounts.map (fun new => new.1.id)) := by
  induction newAccounts with
  | nil => exact List.Sublist.refl _
  | cons new newAccounts ih =>
      obtain ⟨account, _ | setId⟩ := new
      · exact ih.cons _
      · exact ih.cons_cons _

/-- An operation that has just created accounts. -/
structure Created (hashtext : LockKey → BitVec 32) (rows : List (AccountId × AccountRow))
    (session : MembershipSession) : Prop where
  settled : SettledSession hashtext session
  written : ∃ before, session.written = before ++ [.insertAccounts rows]

theorem lasting_created {rows : List (AccountId × AccountRow)} :
    LastingMembership hashtext (Created hashtext rows) where
  stable := fun session session' hothers h => by
    refine ⟨lasting_settled.stable hothers h.settled, ?_⟩
    rw [hothers.1]
    exact h.written
  locks := fun more h => ⟨lasting_settled.locks more h.settled, h.written⟩

/-- **A created account is in no set**, whatever has been committed meanwhile. -/
theorem Created.fresh {rows : List (AccountId × AccountRow)} {session : MembershipSession}
    (h : Created hashtext rows session) {db : LedgerDb}
    (hview : (membershipStore hashtext).view session = some db) :
    (rows.map Prod.fst).Nodup ∧ ∀ accountId ∈ rows.map Prod.fst,
      session.committed.memberships.directSets accountId = []
        ∧ session.sets accountId = [] := by
  obtain ⟨before, hwritten⟩ := h.written
  unfold Store.view at hview
  rw [hwritten, List.foldlM_append] at hview
  obtain ⟨earlier, hearlier, hinsert⟩ := Option.bind_eq_some_iff.mp hview
  have hbegun : (membershipStore hashtext).view { session with written := before }
      = some earlier := hearlier
  have hfollows : session.committed.Follows earlier before :=
    MembershipSession.follows_of_view hbegun
  obtain ⟨inserted, happly, -⟩ := Option.bind_eq_some_iff.mp hinsert
  have hvalid : (rows.map Prod.fst).Nodup ∧ ∀ row ∈ rows, (earlier.accounts row.1).isNone :=
    (Option.ite_none_right_eq_some.mp happly).1
  refine ⟨hvalid.1, fun accountId haccount => ?_⟩
  obtain ⟨row, hrow, rfl⟩ := List.mem_map.mp haccount
  have hnone : earlier.accounts row.1 = none := Option.isNone_iff_eq_none.mp (hvalid.2 row hrow)
  -- the insert does not fail on what the operation sees, which has the committed accounts too
  have hcommitted : session.committed.accounts row.1 = none := by
    by_contra hsome
    have hstored := hfollows.accounts row.1 (Option.isSome_iff_ne_none.mpr hsome)
    rw [hnone] at hstored
    cases hstored
  have hbefore := (hfollows.keys h.settled.committed.keys).directSets_eq_nil hnone
  refine ⟨h.settled.committed.keys.directSets_eq_nil hcommitted, ?_⟩
  rw [MembershipSession.sets, hwritten, List.foldl_append, ← hfollows.sets, hbefore]
  rfl

/-- **Accounts that are created inside sets** leave a valid graph: each has no other set. -/
theorem triple_createAccounts (newAccounts : List (NewAccount × Option AccountSetId)) :
    (membershipServer hashtext).Triple (SettledSession hashtext)
      (MembershipFlow.Accounts.createAllInOp newAccounts) (fun _ => SettledSession hashtext)
      (fun _ => True) := by
  have hrows : (newAccounts.map (fun new => accountRow new.1)).map Prod.fst
      = newAccounts.map (fun new => new.1.id) := by
    rw [List.map_map]
    rfl
  generalize hcreated : newAccounts.map (fun new => accountRow new.1) = rows at hrows
  unfold MembershipFlow.Accounts.createAllInOp
  rw [hcreated]
  have hinsert : (membershipServer hashtext).Triple (SettledSession hashtext)
      (issue (.insertAccounts rows)) (fun _ => Created hashtext rows) (fun _ => True) := by
    refine Store.triple_write rfl lasting_settled.stable lasting_created.stable rfl ?_
    intro session _ _ h _ _
    exact ⟨h.write (fun _ => rfl) (fun _ => rfl) (fun _ => Or.inl (fun _ => rfl)) h.contained,
      session.written, rfl⟩
  refine Server.Triple.bind hinsert (fun _ => ?_)
  unfold Accounts.attachInitialAccountSetInOp
  split
  · exact Server.Triple.ok lasting_created.stable () (fun _ h => h.settled)
  have hlocked : LastingMembership hashtext (fun session => Created hashtext rows session
      ∧ ∀ request ∈ MembershipLocks.attachNewAccounts
        (Accounts.initialMembershipPairs newAccounts), request.hashed hashtext ∈ session.locks) :=
    lasting_created.and (lasting_lockedAll _)
  refine Server.Triple.bind (triple_takeLocks lasting_created _)
    (fun _ => Store.triple_write rfl hlocked.stable lasting_settled.stable rfl ?_)
  rintro session db _ ⟨h, hheld⟩ hview -
  obtain ⟨hnodup, hfresh⟩ := h.fresh hview
  rw [hrows] at hnodup hfresh
  have hsublist := initialMembershipPairs_sublist newAccounts
  have hfirst : ∀ m ∈ Accounts.initialMembershipPairs newAccounts,
      session.committed.memberships.directSets m.accountId = []
        ∧ (MembershipSession.sets session m.accountId
          ++ seedSets (Accounts.initialMembershipPairs newAccounts) m.accountId).length ≤ 1 := by
    intro m hm
    obtain ⟨hcommitted, hsets⟩ := hfresh m.accountId (hsublist.subset (List.mem_map_of_mem hm))
    rw [hsets, List.nil_append, length_seedSets]
    exact ⟨hcommitted, List.nodup_iff_count_le_one.mp (hsublist.nodup hnodup) _⟩
  refine h.settled.insertMembers (fun m hm => ⟨?_, Or.inr (hfirst m hm)⟩)
    (fun m hm => containedOnce_of_length_le (hfirst m hm).2)
  refine hheld (lockExclusive (.member m.accountId)) (List.mem_map_of_mem ?_)
  rw [mem_sortBy]
  exact List.mem_map_of_mem hm

/-- New sets are in no set. -/
theorem triple_createAccountSets (newAccountSets : List NewAccountSet) :
    (membershipServer hashtext).Triple (SettledSession hashtext)
      (MembershipFlow.AccountSets.createAllInOp newAccountSets) (fun _ => SettledSession hashtext)
      (fun _ => True) := by
  refine Server.Triple.bind (Store.triple_write rfl lasting_settled.stable lasting_settled.stable
    rfl ?_) (fun _ => Store.triple_write rfl lasting_settled.stable lasting_settled.stable rfl ?_)
  all_goals
    intro session _ _ h _ _
    exact h.write (fun _ => rfl) (fun _ => rfl) (fun _ => Or.inl (fun _ => rfl)) h.contained

/-! ## What operations read before they write -/

/-- A part of an operation that writes nothing. -/
abbrev ReadsOnly {α : Type} (d : MembershipFlow α) : Prop :=
  d.ReadOnly (fun statement => statement.writes)

theorem readsOnly_issue {statement : MembershipStatement} (h : ¬ statement.writes) :
    ReadsOnly (issue statement) :=
  Dialogue.ReadOnly.ask h

theorem readsOnly_takeLocks (requests : List AdvisoryLock) : ReadsOnly (takeLocks requests) :=
  Dialogue.ReadOnly.forEach (fun _ => readsOnly_issue (by nofun)) requests

theorem readsOnly_findTarget (accountSetId : AccountSetId) (member : AccountSetMemberId) :
    ReadsOnly (findTarget accountSetId member) := by
  cases member <;>
    exact (readsOnly_issue (by nofun)).bind_readOnly (fun _ => trivial)

theorem readsOnly_assertMemberHistoryEmptyInOp (accountSetId : AccountSetId)
    (journalId : JournalId) (memberId : AccountId) :
    ReadsOnly (assertMemberHistoryEmptyInOp accountSetId journalId memberId) := by
  refine (readsOnly_takeLocks _).bind_readOnly (fun _ =>
    (readsOnly_issue (by nofun)).bind_readOnly (fun found => ?_))
  split <;> trivial

theorem readsOnly_assertMembersHistoryEmptyInOp (checkPairs : List (JournalId × AccountId))
    (sets : List (AccountSetId × AccountId)) :
    ReadsOnly (assertMembersHistoryEmptyInOp checkPairs sets) := by
  refine (readsOnly_takeLocks _).bind_readOnly (fun _ =>
    (readsOnly_issue (by nofun)).bind_readOnly (fun withHistory => ?_))
  split
  · exact (Dialogue.ReadOnly.expect _).bind_readOnly (fun _ => trivial)
  · trivial

theorem readsOnly_assertNoDoubleMembership (members : List AccountMembership) :
    ReadsOnly (assertNoDoubleMembership members) := by
  refine (readsOnly_issue (by nofun)).bind_readOnly (fun conflict => ?_)
  split <;> trivial

theorem readsOnly_fetchOverlay (missing : List AccountSetId) :
    ReadsOnly (fetchOverlay missing) := by
  unfold fetchOverlay
  split
  · trivial
  · exact (readsOnly_issue (by nofun)).bind_readOnly (fun _ => trivial)

theorem readsOnly_assertNoDoubleMembershipInOp (orders : MembershipOrders)
    (members : List AccountMembership) :
    ReadsOnly (assertNoDoubleMembershipInOp orders members) := by
  refine (readsOnly_issue (by nofun)).bind_readOnly (fun probe =>
    (readsOnly_issue (by nofun)).bind_readOnly (fun snapshot => ?_))
  split
  · exact readsOnly_assertNoDoubleMembership members
  · refine (readsOnly_fetchOverlay _).bind_readOnly (fun overlay =>
      (Dialogue.ReadOnly.expect _).bind_readOnly (fun answer => ?_))
    split
    · trivial
    · trivial
    · exact readsOnly_assertNoDoubleMembership members

theorem readsOnly_assertValidSetMembershipsInOp (orders : MembershipOrders)
    (members : List SetMembership) :
    ReadsOnly (assertValidSetMembershipsInOp orders members) := by
  refine Dialogue.ReadOnly.bind_readOnly ?_ (fun existing =>
    Dialogue.ReadOnly.bind_readOnly ?_ (fun affected =>
      (Dialogue.ReadOnly.expect _).bind_readOnly (fun _ => trivial)))
  · refine (readsOnly_issue (by nofun)).bind_readOnly (fun snapshot =>
      (readsOnly_issue (by nofun)).bind_readOnly (fun epoch => ?_))
    split
    · exact Dialogue.ReadOnly.expect _
    · exact readsOnly_issue (by nofun)
  · refine (Dialogue.ReadOnly.expect _).bind_readOnly (fun setIds =>
      (readsOnly_issue (by nofun)).bind_readOnly (fun candidates => ?_))
    split
    · trivial
    · exact readsOnly_issue (by nofun)

/-! ## Calls -/

/-- An operation after which a graph is valid again, and which writes nothing before it errs. -/
structure KeepsGraph (hashtext : LockKey → BitVec 32) (call : MembershipFlow Unit) : Prop where
  careful : call.Careful (fun statement => statement.writes)
  triple : (membershipServer hashtext).Triple (SettledSession hashtext) call
    (fun _ => SettledSession hashtext) (fun _ => True)

/-- Something is read first. -/
theorem ReadsOnly.keepsGraph {α : Type} {d : MembershipFlow α} {f : α → MembershipFlow Unit}
    (h : ReadsOnly d) (hf : ∀ a, KeepsGraph hashtext (f a)) : KeepsGraph hashtext (d.bind f) where
  careful := h.bind (fun a => (hf a).careful)
  triple := Server.Triple.bind (lasting_settled.readOnly h) (fun a => (hf a).triple)

theorem keepsGraph_pure : KeepsGraph hashtext (pure ()) where
  careful := trivial
  triple := Server.Triple.ok lasting_settled.stable () (fun _ h => h)

theorem keepsGraph_attachAccounts (orders : MembershipOrders) (members : List AccountMembership) :
    KeepsGraph hashtext (attachAccounts orders members) where
  careful := by
    refine (readsOnly_takeLocks _).bind (fun _ => (readsOnly_takeLocks _).bind (fun _ =>
      (readsOnly_assertNoDoubleMembershipInOp orders members).bind (fun _ => ?_)))
    unfold MembershipFlow.AccountSets.addInOp
    split
    · trivial
    · exact (Dialogue.Unfailing.ask _).careful
  triple := triple_attachAccounts orders members

theorem keepsGraph_attachSets (orders : MembershipOrders) (members : List SetMembership) :
    KeepsGraph hashtext (attachSets orders members) where
  careful := by
    refine (readsOnly_takeLocks _).bind (fun _ =>
      (readsOnly_assertValidSetMembershipsInOp orders members).bind (fun _ => ?_))
    unfold MembershipFlow.AccountSets.insertMemberSets
    split
    · trivial
    · exact ((Dialogue.Unfailing.ask _).bind (fun _ => Dialogue.Unfailing.ask _)).careful
  triple := triple_attachSets orders members

/-- **Each call** keeps the graph valid. -/
theorem MembershipCall.keepsGraph {call : MembershipFlow Unit} (h : MembershipCall call) :
    KeepsGraph hashtext call := by
  cases h with
  | addMember orders accountSetId member =>
      refine (readsOnly_findTarget _ _).keepsGraph (fun journalId =>
        (readsOnly_assertMemberHistoryEmptyInOp _ _ _).keepsGraph (fun _ => ?_))
      cases member with
      | account accountId => exact keepsGraph_attachAccounts orders _
      | accountSet memberId => exact keepsGraph_attachSets orders _
  | addMembers orders members =>
      unfold addMembersInOp
      split
      · exact keepsGraph_pure
      · refine (readsOnly_issue (by nofun)).keepsGraph (fun sets => ReadsOnly.keepsGraph trivial
          (fun checkPairs => (readsOnly_assertMembersHistoryEmptyInOp _ _).keepsGraph
            (fun _ => ?_)))
        exact keepsGraph_attachAccounts orders members
  | addMemberSets orders members =>
      unfold addMemberSetsInOp
      split
      · exact keepsGraph_pure
      · refine (readsOnly_issue (by nofun)).keepsGraph (fun sets => ReadsOnly.keepsGraph trivial
          (fun checkPairs => (readsOnly_assertMembersHistoryEmptyInOp _ _).keepsGraph
            (fun _ => ?_)))
        exact keepsGraph_attachSets orders members
  | removeMember accountSetId member =>
      refine (readsOnly_findTarget _ _).keepsGraph (fun journalId =>
        (readsOnly_assertMemberHistoryEmptyInOp _ _ _).keepsGraph (fun _ => ?_))
      cases member with
      | account accountId =>
          refine ⟨(readsOnly_takeLocks _).bind (fun _ =>
            (readsOnly_takeLocks _).bind (fun _ => ?_)),
            triple_removeAccount accountSetId accountId⟩
          exact (Dialogue.Unfailing.ask _).careful
      | accountSet memberId =>
          refine ⟨(readsOnly_takeLocks _).bind (fun _ => ?_),
            triple_removeMemberSet accountSetId memberId⟩
          exact ((Dialogue.Unfailing.ask _).bind (fun _ => Dialogue.Unfailing.ask _)).careful
  | createAccounts newAccounts =>
      refine ⟨((Dialogue.Unfailing.ask _).bind (fun _ => ?_)).careful,
        triple_createAccounts newAccounts⟩
      unfold Accounts.attachInitialAccountSetInOp
      split
      · exact ⟨(), rfl⟩
      · exact (Dialogue.Unfailing.forEach (fun _ => Dialogue.Unfailing.ask _) _).bind
          (fun _ => Dialogue.Unfailing.ask _)
  | createAccountSets newAccountSets =>
      exact ⟨((Dialogue.Unfailing.ask _).bind (fun _ => Dialogue.Unfailing.ask _)).careful,
        triple_createAccountSets newAccountSets⟩

/-! ## The system -/

/-- A ledger without memberships: all there is of sets is that each has an account. -/
structure LedgerDb.NoMemberships (db : LedgerDb) : Prop where
  memberAccounts : db.memberships.memberAccounts = []
  memberAccountSets : db.memberships.memberAccountSets = []
  epoch : db.memberships.epoch = 0
  backed : ∀ setId, (db.memberships.accountSets setId).isSome →
    (db.accounts (AccountId.ofSet setId)).isSome

theorem LedgerDb.NoMemberships.soundGraph {db : LedgerDb} (h : db.NoMemberships) :
    db.SoundGraph [] where
  keys :=
    { backed := h.backed
      edges := by
        rw [h.memberAccountSets]
        exact nofun
      members := by
        rw [h.memberAccounts]
        exact nofun }
  valid := by
    rw [h.memberAccountSets]
    exact validGraph_nil
  contained := fun accountId => by
    rw [MembershipTables.directSets, h.memberAccounts]
    exact List.Pairwise.nil
  epoch := h.epoch.ge
  past := nofun

/-- Operations on memberships, on a ledger that begins without any. -/
def membershipProgram (hashtext : LockKey → BitVec 32) : TransactionProgram MembershipStatement
    MembershipStatement.Answer LedgerDb LockTag AccountSetError Unit where
  toStore := membershipStore hashtext
  initial := LedgerDb.NoMemberships
  outside := LedgerDb.Beside
  calls := MembershipCall

/-- Why operations on memberships keep the graph valid. -/
def membershipDiscipline (hashtext : LockKey → BitVec 32) :
    LockDiscipline (membershipProgram hashtext) where
  rely := LedgerDb.Leaves hashtext
  global := LedgerDb.SoundGraph
  session := SettledSession hashtext
  initial := fun h => h.soundGraph
  outside := fun h hbeside => ⟨hbeside.soundGraph h, hbeside.leaves hashtext⟩
  begun := SettledSession.begun
  lasting := lasting_settled
  calls := fun call hcall => by
    have hkeeps : KeepsGraph hashtext call := MembershipCall.keepsGraph hcall
    exact ⟨hkeeps.careful, hkeeps.triple⟩
  commits := fun _ h hview => ⟨h.soundGraph_of_commit hview, fun _ hcompatible =>
    h.leaves_of_commit hview hcompatible⟩

/-- **The epoch names a graph**: what was fetched at any time from the graph of the epoch that is
committed now holds the edges that are committed now. -/
theorem cached_graph_current (hashtext : LockKey → BitVec 32)
    {system : TransactionSystem MembershipStatement MembershipStatement.Answer LedgerDb LockTag
      AccountSetError Unit}
    (h : TransactionSystem.Reached (membershipProgram hashtext) system) {earlier : LedgerDb}
    (hearlier : earlier ∈ system.committed :: system.past) {snapshot : GraphSnapshot}
    (hfetched : earlier.Fetched snapshot)
    (hepoch : snapshot.epoch = system.committed.memberships.epoch) :
    SetGraphCache.Reflects snapshot system.committed.memberships.memberAccountSets := by
  have hsound : system.committed.SoundGraph system.past :=
    ((membershipDiscipline hashtext).holds h).committed
  exact (hsound.fetched hearlier hfetched).2 hepoch

/-- **The committed set graph is valid**, whatever operations ran at the same time. -/
theorem membership_graph_valid (hashtext : LockKey → BitVec 32)
    {system : TransactionSystem MembershipStatement MembershipStatement.Answer LedgerDb LockTag
      AccountSetError Unit}
    (h : TransactionSystem.Reached (membershipProgram hashtext) system) :
    ValidMemberships system.committed.memberships.memberAccountSets
      system.committed.memberships.memberAccounts := by
  have hsound : system.committed.SoundGraph system.past :=
    ((membershipDiscipline hashtext).holds h).committed
  exact validMemberships_iff_containedOnce.mpr ⟨hsound.valid, hsound.contained⟩

/-! ### An example -/

/-- Two sets and all accounts, with some memberships. -/
def linkedDb (memberAccounts : List AccountMembership) (memberAccountSets : List SetMembership)
    (epoch : ℤ) : LedgerDb :=
  LedgerDb.fresh { twoComponents with
    memberships :=
      { accountSets := fun setId => if setId.uuid ∈ [1, 2] then some ⟨0⟩ else none
        memberAccounts := memberAccounts
        memberAccountSets := memberAccountSets
        epoch := epoch } } (fun _ => none) (fun _ => none)

theorem not_hasBalanceHistory_linkedDb {memberAccounts : List AccountMembership}
    {memberAccountSets : List SetMembership} {epoch : ℤ} {journalId : JournalId}
    {memberId : AccountId} :
    ¬ (linkedDb memberAccounts memberAccountSets epoch).HasBalanceHistory journalId memberId := by
  rintro (⟨currency, hrows⟩ | ⟨entry, hentry, -⟩)
  · exact hrows rfl
  · exact List.not_mem_nil hentry

/-- Hash maps in the order of their entries. -/
def storedOrders : MembershipOrders := ⟨.asStored _, .asStored _, .asStored _⟩

/-- A lock that no other transaction holds. -/
theorem returns_takeLock {session : MembershipSession} {db : LedgerDb}
    (hview : (membershipStore hashtext).view session = some db) (request : AdvisoryLock) :
    (membershipStore hashtext).Returns session (takeLocks [request]) ()
      ((membershipStore hashtext).execute session (.lock request)) := by
  have hlock : (membershipStore hashtext).Returns session (issue (.lock request)) ()
      ((membershipStore hashtext).execute session (.lock request)) := .ask hview rfl trivial
  exact hlock.bind (.done _ _)

/-- A set is added to another. -/
theorem returns_addMember_set :
    (membershipProgram hashtext).Returns ⟨linkedDb [] [] 0, [], [], []⟩
      (addMemberInOp storedOrders ⟨1⟩ (.accountSet ⟨2⟩)) ()
      ⟨linkedDb [] [] 0, [], [.insertMemberSets [⟨⟨1⟩, ⟨2⟩⟩], .bumpSetGraphEpoch],
        [lockExclusive (.fence (AccountId.ofSet ⟨2⟩)), lockExclusive .graph].map
          (AdvisoryLock.hashed hashtext)⟩ := by
  have hvalidate : validateSetMemberships storedOrders.sets [] [⟨⟨1⟩, ⟨2⟩⟩] []
      = some (.ok ()) := by decide +kernel
  have haffected : affectedSets [] [⟨⟨1⟩, ⟨2⟩⟩] = some [⟨2⟩] := by decide +kernel
  have hhistory : false = true ↔ (linkedDb [] [] 0).HasBalanceHistory ⟨0⟩ (AccountId.ofSet ⟨2⟩) :=
    iff_of_false nofun not_hasBalanceHistory_linkedDb
  -- the set is found, and its member has no history
  refine .bind (.bind (.ask rfl rfl rfl) (.done _ _)) ?_
  refine .bind (.bind (returns_takeLock rfl _)
    (.bind (.ask rfl rfl hhistory) (.done _ _))) ?_
  -- the edge is validated against the whole graph
  refine .bind (returns_takeLock rfl _) ?_
  refine .bind (.bind (.bind (.ask rfl rfl (Or.inl rfl)) (.bind (.ask rfl rfl rfl)
    (.ask rfl rfl (List.Perm.refl _)))) (.bind (.bind (.expect _ haffected)
      (.bind (.ask rfl rfl rfl) (.done _ _))) (.bind (.expect _ hvalidate) (.done _ _)))) ?_
  exact .bind (show Store.Returns _ _ _ () _ from .ask rfl rfl trivial)
    (.ask rfl rfl trivial)

/-- An account is added to a set. -/
theorem returns_addMember_account :
    (membershipProgram hashtext).Returns
      ⟨linkedDb [] [⟨⟨1⟩, ⟨2⟩⟩] 1, [linkedDb [] [] 0], [], []⟩
      (addMemberInOp storedOrders ⟨2⟩ (.account ⟨10⟩)) ()
      ⟨linkedDb [] [⟨⟨1⟩, ⟨2⟩⟩] 1, [linkedDb [] [] 0], [.insertMemberAccounts [⟨⟨2⟩, ⟨10⟩⟩]],
        [lockExclusive (.fence ⟨10⟩), lockShared .graph, lockExclusive (.member ⟨10⟩)].map
          (AdvisoryLock.hashed hashtext)⟩ := by
  have hhistory : false = true
      ↔ (linkedDb [] [⟨⟨1⟩, ⟨2⟩⟩] 1).HasBalanceHistory ⟨0⟩ ⟨10⟩ :=
    iff_of_false nofun not_hasBalanceHistory_linkedDb
  have hquery : ∃ fuel, (linkedDb [] [⟨⟨1⟩, ⟨2⟩⟩] 1).memberships.assertNoDoubleMembership fuel
      [⟨⟨2⟩, ⟨10⟩⟩] = some (if false then .error .memberAlreadyAdded else .ok ()) :=
    ⟨2, by decide +kernel⟩
  have hprobe : (⟨1, []⟩ : DirectMembershipProbe).epoch = 1
      ∧ (⟨1, []⟩ : DirectMembershipProbe).seeds.Perm [] := ⟨rfl, List.Perm.refl _⟩
  refine .bind (.bind (.ask rfl rfl rfl) (.done _ _)) ?_
  refine .bind (.bind (returns_takeLock rfl _)
    (.bind (.ask rfl rfl hhistory) (.done _ _))) ?_
  refine .bind (returns_takeLock rfl _) ?_
  refine .bind (returns_takeLock rfl _) ?_
  -- the process has fetched no graph, so the query decides
  refine .bind (.bind (.ask rfl rfl hprobe) (.bind (.ask rfl rfl (Or.inl rfl))
    (.bind (.ask rfl rfl hquery) (.done _ _)))) ?_
  exact .ask rfl rfl trivial

/-- A set in a set, and an account in it, by two operations one after the other. -/
theorem reached_linkedDb (hashtext : LockKey → BitVec 32) :
    TransactionSystem.Reached (membershipProgram hashtext)
      ⟨linkedDb [⟨⟨2⟩, ⟨10⟩⟩] [⟨⟨1⟩, ⟨2⟩⟩] 1, [linkedDb [] [⟨⟨1⟩, ⟨2⟩⟩] 1, linkedDb [] [] 0],
        fun _ => none⟩ := by
  have hstart : TransactionSystem.Reached (membershipProgram hashtext)
      ⟨linkedDb [] [] 0, [], fun _ => none⟩ := .start ⟨rfl, rfl, rfl, fun _ _ => rfl⟩
  have hlinked := hstart.commitAlone (.addMember _ _ _) returns_addMember_set rfl
  exact hlinked.commitAlone (.addMember _ _ _) returns_addMember_account rfl

/-- All lock keys have one hash. -/
theorem membership_graph_valid_sample :
    ValidMemberships (linkedDb [⟨⟨2⟩, ⟨10⟩⟩] [⟨⟨1⟩, ⟨2⟩⟩] 1).memberships.memberAccountSets
      (linkedDb [⟨⟨2⟩, ⟨10⟩⟩] [⟨⟨1⟩, ⟨2⟩⟩] 1).memberships.memberAccounts :=
  membership_graph_valid (fun _ => 0) (reached_linkedDb (fun _ => 0))

/-- The graph as the second operation found it. -/
theorem cached_graph_current_sample :
    SetGraphCache.Reflects
      { toIndexedNodes := SetGraphCache.indexNodes
          ((linkedDb [] [⟨⟨1⟩, ⟨2⟩⟩] 1).setGraphNodes [⟨1⟩, ⟨2⟩])
        epoch := 1 } [⟨⟨1⟩, ⟨2⟩⟩] := by
  have hsets : ∀ setId : AccountSetId, setId ∈ ([⟨1⟩, ⟨2⟩] : List AccountSetId)
      ↔ ((linkedDb [] [⟨⟨1⟩, ⟨2⟩⟩] 1).memberships.accountSets setId).isSome := by
    rintro ⟨uuid⟩
    show _ ↔ (if uuid ∈ [1, 2] then some (⟨0⟩ : JournalId) else none).isSome
    by_cases huuid : uuid ∈ [1, 2] <;> simp_all
  exact cached_graph_current (fun _ => 0) (reached_linkedDb (fun _ => 0))
    (List.mem_cons_of_mem _ List.mem_cons_self)
    ⟨_, _, by decide, hsets, List.Perm.refl _, rfl⟩ rfl

end CalaLedger
