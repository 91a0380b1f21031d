import CalaLedger.AccountSet.ContainedOnce
import CalaLedger.AccountSet.MembershipCalls
import CalaLedger.Foundations.Transactions

/-! # What membership operations write

The set edges, the epoch and the direct sets of every account after some statements, whatever rows
they start from (`edgesAfter`, `epochAfter`, `setsAfter`): what an operation sees follows from them
(`follows_of_view`). `SoundGraph` is claimed of the committed graph, and `Leaves` is what others may
commit while an operation holds some locks. -/

namespace CalaLedger

open Foundations Arrow

/-! ## Statements -/

namespace MembershipStatement

/-- The set edges after a statement. -/
def edgesAfter (edges : List SetMembership) : MembershipStatement → List SetMembership
  | insertMemberSets members => edges ++ members
  | deleteMemberSet accountSetId memberAccountSetId =>
      edges.filter (· ≠ ⟨accountSetId, memberAccountSetId⟩)
  | _ => edges

/-- The epoch after a statement. -/
def epochAfter (epoch : ℤ) : MembershipStatement → ℤ
  | bumpSetGraphEpoch => epoch + 1
  | _ => epoch

/-- The direct sets of an account after a statement. -/
def setsAfter (accountId : AccountId) (sets : List AccountSetId) :
    MembershipStatement → List AccountSetId
  | insertMemberAccounts pairs => sets ++ SetGraphCache.seedSets pairs accountId
  | deleteMemberAccount accountSetId memberId =>
      if memberId = accountId then sets.filter (· ≠ accountSetId) else sets
  | _ => sets

theorem le_epochAfter (statements : List MembershipStatement) :
    ∀ epoch, epoch ≤ statements.foldl epochAfter epoch := by
  induction statements with
  | nil => exact fun _ => le_rfl
  | cons statement statements ih =>
      intro epoch
      have hstep : epoch ≤ epochAfter epoch statement := by
        cases statement <;> simp [epochAfter]
      exact hstep.trans (ih _)

end MembershipStatement

open MembershipStatement (edgesAfter epochAfter setsAfter)

/-- The direct sets of an account, when a membership is deleted. -/
theorem MembershipTables.seedSets_delete (rows : List AccountMembership) (m : AccountMembership)
    (accountId : AccountId) :
    SetGraphCache.seedSets (rows.filter (· ≠ m)) accountId
      = if m.accountId = accountId then
          (SetGraphCache.seedSets rows accountId).filter (· ≠ m.accountSetId)
        else SetGraphCache.seedSets rows accountId := by
  unfold SetGraphCache.seedSets
  rw [List.filter_filter]
  split
  · rename_i haccount
    subst haccount
    rw [List.filter_map, List.filter_filter]
    congr 1
    refine List.filter_congr (fun row _ => ?_)
    obtain ⟨rowSetId, rowAccountId⟩ := row
    obtain ⟨setId, memberId⟩ := m
    by_cases haccount : rowAccountId = memberId <;> simp [haccount]
  · rename_i haccount
    congr 1
    refine List.filter_congr (fun row _ => ?_)
    obtain ⟨rowSetId, rowAccountId⟩ := row
    obtain ⟨setId, memberId⟩ := m
    by_cases hrow : rowAccountId = accountId
    · simp [hrow, Ne.symm haccount]
    · simp [hrow]

/-- The foreign keys of sets and memberships. -/
structure LedgerDirectory.ForeignKeys (directory : LedgerDirectory) : Prop where
  backed : ∀ setId, (directory.memberships.accountSets setId).isSome →
    (directory.accounts (AccountId.ofSet setId)).isSome
  edges : ∀ edge ∈ directory.memberships.memberAccountSets,
    (directory.memberships.accountSets edge.accountSetId).isSome
      ∧ (directory.memberships.accountSets edge.memberAccountSetId).isSome
  members : ∀ row ∈ directory.memberships.memberAccounts,
    (directory.memberships.accountSets row.accountSetId).isSome
      ∧ (directory.accounts row.accountId).isSome

/-- An account that is not there is in no set. -/
theorem LedgerDirectory.ForeignKeys.directSets_eq_nil {directory : LedgerDirectory}
    (h : directory.ForeignKeys) {accountId : AccountId}
    (hnone : directory.accounts accountId = none) :
    directory.memberships.directSets accountId = [] := by
  refine List.eq_nil_iff_forall_not_mem.mpr (fun setId hmem => ?_)
  have hstored := (h.members _ (MembershipTables.mem_directSets.mp hmem)).2
  rw [hnone] at hstored
  cases hstored

/-- Some rows are what statements leave of others. -/
structure LedgerDb.Follows (db db' : LedgerDb) (statements : List MembershipStatement) : Prop where
  edges : db'.memberships.memberAccountSets
    = statements.foldl edgesAfter db.memberships.memberAccountSets
  epoch : db'.memberships.epoch = statements.foldl epochAfter db.memberships.epoch
  sets : ∀ accountId, db'.memberships.directSets accountId
    = statements.foldl (setsAfter accountId) (db.memberships.directSets accountId)
  accounts : ∀ accountId, (db.accounts accountId).isSome → (db'.accounts accountId).isSome
  keys : db.ForeignKeys → db'.ForeignKeys

namespace LedgerDb.Follows

variable {db db' db'' : LedgerDb} {statement : MembershipStatement}
  {front back : List MembershipStatement}

theorem refl (db : LedgerDb) : db.Follows db [] :=
  ⟨rfl, rfl, fun _ => rfl, fun _ h => h, id⟩

theorem trans (h : db.Follows db' front) (h' : db'.Follows db'' back) :
    db.Follows db'' (front ++ back) where
  edges := by rw [List.foldl_append, ← h.edges, h'.edges]
  epoch := by rw [List.foldl_append, ← h.epoch, h'.epoch]
  sets := fun accountId => by rw [List.foldl_append, ← h.sets, h'.sets]
  accounts := fun accountId hstored => h'.accounts accountId (h.accounts accountId hstored)
  keys := fun hkeys => h'.keys (h.keys hkeys)

/-- **One statement.** -/
theorem of_apply (h : statement.apply db = some db') : db.Follows db' [statement] := by
  cases statement with
  | insertAccounts rows =>
      rw [MembershipStatement.apply, Option.ite_none_right_eq_some] at h
      obtain ⟨-, ⟨⟩⟩ := h
      have hkept : ∀ accountId, (db.accounts accountId).isSome →
          (((rows.find? (·.1 = accountId)).map Prod.snd).or (db.accounts accountId)).isSome := by
        intro accountId hstored
        rw [Option.isSome_or, hstored, Bool.or_true]
      exact ⟨rfl, rfl, fun _ => rfl, hkept, fun hkeys => ⟨fun setId hset =>
        hkept _ (hkeys.backed setId hset), hkeys.edges, fun row hrow =>
          ⟨(hkeys.members row hrow).1, hkept _ (hkeys.members row hrow).2⟩⟩⟩
  | insertAccountSets rows =>
      rw [MembershipStatement.apply, Option.ite_none_right_eq_some] at h
      obtain ⟨⟨-, -, hbacked, -⟩, ⟨⟩⟩ := h
      have hkept : ∀ setId, (db.memberships.accountSets setId).isSome →
          (((rows.find? (·.1 = setId)).map (fun row => row.2.journalId)).or
            (db.memberships.accountSets setId)).isSome := by
        intro setId hstored
        rw [Option.isSome_or, hstored, Bool.or_true]
      refine ⟨rfl, rfl, fun _ => rfl, fun _ hstored => hstored, fun hkeys => ⟨?_, ?_, ?_⟩⟩
      · intro setId hset
        have hset : (((rows.find? (·.1 = setId)).map (fun row => row.2.journalId)).or
          (db.memberships.accountSets setId)).isSome := hset
        rw [Option.isSome_or, Bool.or_eq_true, Option.isSome_map] at hset
        rcases hset with hnew | hold
        · obtain ⟨row, hrow⟩ := Option.isSome_iff_exists.mp hnew
          have hid := List.find?_some hrow
          rw [decide_eq_true_eq] at hid
          exact hid ▸ hbacked row (List.mem_of_find?_eq_some hrow)
        · exact hkeys.backed setId hold
      · exact fun edge hedge => ⟨hkept _ (hkeys.edges edge hedge).1,
          hkept _ (hkeys.edges edge hedge).2⟩
      · exact fun row hrow => ⟨hkept _ (hkeys.members row hrow).1, (hkeys.members row hrow).2⟩
  | insertMemberAccounts pairs =>
      rw [MembershipStatement.apply, Option.ite_none_right_eq_some] at h
      obtain ⟨⟨-, -, hsets, haccounts⟩, ⟨⟩⟩ := h
      refine ⟨rfl, rfl, fun accountId => ?_, fun _ hstored => hstored, fun hkeys =>
        ⟨hkeys.backed, hkeys.edges, fun row hrow => ?_⟩⟩
      · exact MembershipTables.seedSets_append db.memberships.memberAccounts pairs accountId
      · -- the statement checks the keys of the rows it inserts
        rcases List.mem_append.mp hrow with hold | hnew
        · exact hkeys.members row hold
        · exact ⟨hsets row hnew, haccounts row hnew⟩
  | deleteMemberAccount accountSetId memberId =>
      cases h
      refine ⟨rfl, rfl, fun accountId => ?_, fun _ hstored => hstored, fun hkeys =>
        ⟨hkeys.backed, hkeys.edges, fun row hrow => hkeys.members row (List.mem_filter.mp hrow).1⟩⟩
      exact MembershipTables.seedSets_delete db.memberships.memberAccounts _ accountId
  | insertMemberSets members =>
      rw [MembershipStatement.apply, Option.ite_none_right_eq_some] at h
      obtain ⟨⟨-, -, hcontainers, hmembers⟩, ⟨⟩⟩ := h
      refine ⟨rfl, rfl, fun _ => rfl, fun _ hstored => hstored, fun hkeys =>
        ⟨hkeys.backed, fun edge hedge => ?_, hkeys.members⟩⟩
      rcases List.mem_append.mp hedge with hold | hnew
      · exact hkeys.edges edge hold
      · exact ⟨hcontainers edge hnew, hmembers edge hnew⟩
  | deleteMemberSet accountSetId memberAccountSetId =>
      cases h
      exact ⟨rfl, rfl, fun _ => rfl, fun _ hstored => hstored, fun hkeys =>
        ⟨hkeys.backed, fun edge hedge => hkeys.edges edge (List.mem_filter.mp hedge).1,
          hkeys.members⟩⟩
  | bumpSetGraphEpoch =>
      cases h
      exact ⟨rfl, rfl, fun _ => rfl, fun _ hstored => hstored, fun hkeys =>
        ⟨hkeys.backed, hkeys.edges, hkeys.members⟩⟩
  | _ =>
      cases h
      exact ⟨rfl, rfl, fun _ => rfl, fun _ hstored => hstored, id⟩

end LedgerDb.Follows

/-! ## Operations under locks -/

/-- The database, as membership operations use it. Postgres tells advisory locks apart by `hashtext`
of their keys. -/
def membershipStore (hashtext : LockKey → BitVec 32) :
    Store MembershipStatement MembershipStatement.Answer LedgerDb LockTag where
  apply := MembershipStatement.apply
  writes := MembershipStatement.writes
  finds := MembershipStatement.finds
  requests := fun statement => statement.requests.map (AdvisoryLock.hashed hashtext)
  apply_of_reads := MembershipStatement.apply_of_reads

/-- An operation on memberships: its rows, those committed before, and what it has written and
locked. -/
abbrev MembershipSession := Session MembershipStatement LedgerDb LockTag

section Locks

variable (hashtext : LockKey → BitVec 32) (locks : List (LockRequest LockTag))

/-- A lock is held, shared or alone. -/
def HoldsLock (key : LockKey) : Prop := ∃ mode, ⟨key.tag hashtext, mode⟩ ∈ locks

/-- A lock is held exclusively. -/
def HoldsAlone (key : LockKey) : Prop := ⟨key.tag hashtext, .exclusive⟩ ∈ locks

variable {hashtext} {locks} {others : List (LockRequest LockTag)} {key : LockKey}

theorem HoldsAlone.holdsLock (h : HoldsAlone hashtext locks key) : HoldsLock hashtext locks key :=
  ⟨.exclusive, h⟩

/-- A lock held alone is not held by anyone else. -/
theorem HoldsAlone.not_holdsLock (h : HoldsAlone hashtext locks key)
    (hcompatible : Compatible locks others) : ¬ HoldsLock hashtext others key := by
  rintro ⟨mode, hother⟩
  exact hcompatible _ h _ hother ⟨rfl, Or.inl rfl⟩

theorem HoldsLock.append (h : HoldsLock hashtext locks key) (more : List (LockRequest LockTag)) :
    HoldsLock hashtext (locks ++ more) key := by
  obtain ⟨mode, hmem⟩ := h
  exact ⟨mode, List.mem_append_left _ hmem⟩

theorem HoldsAlone.append (h : HoldsAlone hashtext locks key) (more : List (LockRequest LockTag)) :
    HoldsAlone hashtext (locks ++ more) key :=
  List.mem_append_left _ h

end Locks

namespace LedgerDb

/-- What a committed graph is, and what it has to do with those committed before it. -/
structure SoundGraph (db : LedgerDb) (past : List LedgerDb) : Prop where
  keys : db.ForeignKeys
  valid : ValidGraph db.memberships.memberAccountSets
  contained : ∀ accountId,
    ContainedOnce db.memberships.memberAccountSets (db.memberships.directSets accountId)
  epoch : 0 ≤ db.memberships.epoch
  past : ∀ earlier ∈ past, earlier.ForeignKeys
    ∧ earlier.memberships.epoch ≤ db.memberships.epoch
    ∧ (earlier.memberships.epoch = db.memberships.epoch →
        earlier.memberships.memberAccountSets = db.memberships.memberAccountSets)

/-- What others may commit while some locks are held: no edges under a lock on the graph, no
memberships of a locked account, and under a graph locked alone first memberships only. -/
structure Leaves (hashtext : LockKey → BitVec 32) (locks : List (LockRequest LockTag))
    (db db' : LedgerDb) : Prop where
  graph : HoldsLock hashtext locks .graph →
    db'.memberships.memberAccountSets = db.memberships.memberAccountSets
      ∧ db'.memberships.epoch = db.memberships.epoch
  attached : HoldsAlone hashtext locks .graph → ∀ accountId,
    db'.memberships.directSets accountId = db.memberships.directSets accountId
      ∨ db.memberships.directSets accountId = []
        ∧ (db'.memberships.directSets accountId).length ≤ 1
  members : ∀ accountId, HoldsAlone hashtext locks (.member accountId) →
    db'.memberships.directSets accountId = db.memberships.directSets accountId

/-- What is committed beside the membership operations: postings, rollups, templates, journals,
accounts and sets of their own. -/
structure Beside (db db' : LedgerDb) : Prop where
  memberAccounts : db'.memberships.memberAccounts = db.memberships.memberAccounts
  memberAccountSets : db'.memberships.memberAccountSets = db.memberships.memberAccountSets
  epoch : db'.memberships.epoch = db.memberships.epoch
  accounts : ∀ accountId, (db.accounts accountId).isSome → (db'.accounts accountId).isSome
  accountSets : ∀ setId, (db.memberships.accountSets setId).isSome →
    (db'.memberships.accountSets setId).isSome
  backed : ∀ setId, (db'.memberships.accountSets setId).isSome →
    (db'.accounts (AccountId.ofSet setId)).isSome

variable {db db' : LedgerDb} {past : List LedgerDb}

theorem Beside.directSets (h : db.Beside db') (accountId : AccountId) :
    db'.memberships.directSets accountId = db.memberships.directSets accountId := by
  unfold MembershipTables.directSets
  rw [h.memberAccounts]

theorem Beside.leaves (h : db.Beside db') (hashtext : LockKey → BitVec 32)
    (locks : List (LockRequest LockTag)) : Leaves hashtext locks db db' :=
  ⟨fun _ => ⟨h.memberAccountSets, h.epoch⟩, fun _ accountId => Or.inl (h.directSets accountId),
    fun accountId _ => h.directSets accountId⟩

/-- A later graph of the same epoch has the same edges. -/
theorem SoundGraph.past_cons (h : db.SoundGraph past)
    (hepoch : db.memberships.epoch ≤ db'.memberships.epoch)
    (hedges : db.memberships.epoch = db'.memberships.epoch →
      db.memberships.memberAccountSets = db'.memberships.memberAccountSets) :
    ∀ earlier ∈ db :: past, earlier.ForeignKeys
      ∧ earlier.memberships.epoch ≤ db'.memberships.epoch
      ∧ (earlier.memberships.epoch = db'.memberships.epoch →
          earlier.memberships.memberAccountSets = db'.memberships.memberAccountSets) := by
  intro earlier hearlier
  rcases List.mem_cons.mp hearlier with rfl | hearlier
  · exact ⟨h.keys, hepoch, hedges⟩
  · obtain ⟨hkeys, hle, hsame⟩ := h.past earlier hearlier
    refine ⟨hkeys, hle.trans hepoch, fun heq => ?_⟩
    -- the epoch has not moved in between either
    have hmid : earlier.memberships.epoch = db.memberships.epoch :=
      le_antisymm hle (hepoch.trans heq.ge)
    rw [hsame hmid, hedges (hmid.symm.trans heq)]

theorem Beside.soundGraph (h : db.Beside db') (hdb : db.SoundGraph past) :
    db'.SoundGraph (db :: past) where
  keys :=
    { backed := h.backed
      edges := fun edge hedge => by
        rw [h.memberAccountSets] at hedge
        exact ⟨h.accountSets _ (hdb.keys.edges edge hedge).1,
          h.accountSets _ (hdb.keys.edges edge hedge).2⟩
      members := fun row hrow => by
        rw [h.memberAccounts] at hrow
        exact ⟨h.accountSets _ (hdb.keys.members row hrow).1,
          h.accounts _ (hdb.keys.members row hrow).2⟩ }
  valid := by
    rw [h.memberAccountSets]
    exact hdb.valid
  contained := fun accountId => by
    rw [h.memberAccountSets, h.directSets]
    exact hdb.contained accountId
  epoch := by
    rw [h.epoch]
    exact hdb.epoch
  past := hdb.past_cons h.epoch.ge (fun _ => h.memberAccountSets.symm)

end LedgerDb

/-! ## Sessions -/

section Sessions

variable {hashtext : LockKey → BitVec 32}

/-- The server of a membership operation. -/
abbrev membershipServer (hashtext : LockKey → BitVec 32) :
    Server MembershipStatement MembershipStatement.Answer MembershipSession :=
  (membershipStore hashtext).server (LedgerDb.Leaves hashtext) LedgerDb.SoundGraph

namespace MembershipSession

variable (session : MembershipSession)

/-- The set edges the operation sees. -/
def edges : List SetMembership :=
  session.written.foldl edgesAfter session.committed.memberships.memberAccountSets

/-- The epoch the operation sees. -/
def epoch : ℤ := session.written.foldl epochAfter session.committed.memberships.epoch

/-- The direct sets of an account that the operation sees. -/
def sets (accountId : AccountId) : List AccountSetId :=
  session.written.foldl (setsAfter accountId) (session.committed.memberships.directSets accountId)

variable {session}

theorem edges_write (statement : MembershipStatement) :
    MembershipSession.edges { session with written := session.written ++ [statement] }
      = edgesAfter (MembershipSession.edges session) statement :=
  List.foldl_append

theorem sets_write (statement : MembershipStatement) (accountId : AccountId) :
    MembershipSession.sets { session with written := session.written ++ [statement] } accountId
      = setsAfter accountId (MembershipSession.sets session accountId) statement :=
  List.foldl_append

/-- **What the operation sees** follows the committed rows. -/
theorem follows_of_view {db : LedgerDb} (h : (membershipStore hashtext).view session = some db) :
    session.committed.Follows db session.written := by
  unfold Store.view at h
  generalize session.committed = start at h ⊢
  generalize session.written = written at h ⊢
  induction written generalizing start with
  | nil =>
      cases h
      exact LedgerDb.Follows.refl _
  | cons statement written ih =>
      rw [List.foldlM_cons] at h
      obtain ⟨next, hnext, hrest⟩ := Option.bind_eq_some_iff.mp h
      exact (LedgerDb.Follows.of_apply hnext).trans (ih next hrest)

theorem memberAccountSets_of_view {db : LedgerDb}
    (h : (membershipStore hashtext).view session = some db) :
    db.memberships.memberAccountSets = MembershipSession.edges session := (follows_of_view h).edges

theorem epoch_of_view {db : LedgerDb} (h : (membershipStore hashtext).view session = some db) :
    db.memberships.epoch = MembershipSession.epoch session := (follows_of_view h).epoch

theorem directSets_of_view {db : LedgerDb} (h : (membershipStore hashtext).view session = some db)
    (accountId : AccountId) :
    db.memberships.directSets accountId = MembershipSession.sets session accountId :=
  (follows_of_view h).sets accountId

end MembershipSession

end Sessions

end CalaLedger
