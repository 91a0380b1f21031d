import CalaLedger.AccountSet.MembershipLocks
import CalaLedger.Foundations.LockCrossing
import CalaLedger.Posting.LockPhases

/-! # The advisory-lock protocol

Posting batches and membership operations, run as transactions of one lock table. Every operation
requests its locks along one rank as long as no batch has an entry on the account behind a set whose
balances are written inline, and then no transactions ever wait for each other in a cycle
(`lock_protocol_acyclic`); of an eventually consistent set nobody locks a balance. The fence takes
such an entry's balance before the entry is rejected, among the entry balances and out of the order
in which other batches take it as an ancestor's: two batches deadlock (`lock_protocol_deadlocks`). -/

namespace CalaLedger

open Foundations (Dialogue Server LockTable LockRequest)
open Foundations.LockTable (Ascending ascending_nil Crossing)

/-! ## Membership operations -/

namespace MembershipOp

variable {display : JsonDisplay} {sets : AccountSetId → Prop}

/-- Accounts locked in ascending order; one that comes again is held. -/
theorem ascending_accounts {lock : AccountId → LockKey}
    (hlock : ∀ a b, a < b → (lock a).rank display sets < (lock b).rank display sets)
    {accountIds : List AccountId} (hsorted : Foundations.SortedBy id accountIds) :
    Ascending (LockKey.rank display sets)
      (accountIds.map (fun accountId => lockExclusive (lock accountId))) := by
  induction accountIds using List.reverseRecOn with
  | nil => exact ascending_nil
  | append_singleton accountIds accountId ih =>
      obtain ⟨hsorted, -, hle⟩ := List.pairwise_append.mp hsorted
      rw [List.map_append, List.map_singleton]
      refine (ih hsorted).concat ?_
      by_cases hmem : accountId ∈ accountIds
      · exact Or.inl ⟨_, List.mem_map_of_mem hmem, rfl, Or.inl rfl⟩
      · refine Or.inr (fun own hown => ?_)
        obtain ⟨other, hother, rfl⟩ := List.mem_map.mp hown
        refine hlock other accountId (lt_of_le_of_ne ?_ ?_)
        · exact hle other hother accountId (List.mem_singleton_self accountId)
        · rintro rfl
          exact hmem hother

theorem fence_ascends (a b : AccountId) (h : a < b) :
    LockKey.rank display sets (.fence a) < LockKey.rank display sets (.fence b) :=
  LockRank.fence_lt_fence.mpr h

theorem member_ascends (a b : AccountId) (h : a < b) :
    LockKey.rank display sets (.member a) < LockKey.rank display sets (.member b) :=
  Sum.Lex.inr_lt_inr_iff.mpr (Sum.Lex.inr_lt_inr_iff.mpr
    (Sum.Lex.inr_lt_inr_iff.mpr (WithBot.coe_lt_coe.mpr h)))

/-- Fences first, then the graph, then the members. -/
theorem ascending_phases {fenced members : List AccountId} {graph : AdvisoryLock}
    (hgraph : graph.lock = .graph) (hfenced : Foundations.SortedBy id fenced)
    (hmembers : Foundations.SortedBy id members) :
    Ascending (LockKey.rank display sets)
      (fenced.map (fun accountId => lockExclusive (.fence accountId)) ++ graph
        :: members.map (fun accountId => lockExclusive (.member accountId))) := by
  have hlast : Ascending (LockKey.rank display sets)
      ([graph] ++ members.map (fun accountId => lockExclusive (.member accountId))) := by
    refine (ascending_nil.concat (Or.inr ?_)).append (ascending_accounts member_ascends hmembers) ?_
    · exact fun _ h => absurd h List.not_mem_nil
    · intro own hown request hrequest
      rw [List.nil_append, List.mem_singleton] at hown
      obtain ⟨accountId, -, rfl⟩ := List.mem_map.mp hrequest
      rw [hown, hgraph]
      exact Sum.Lex.inr_lt_inr_iff.mpr (Sum.Lex.inr_lt_inr_iff.mpr
        (Sum.Lex.inr_lt_inr_iff.mpr (WithBot.bot_lt_coe _)))
  refine (ascending_accounts fence_ascends hfenced).append hlast ?_
  intro own hown request hrequest
  obtain ⟨accountId, -, rfl⟩ := List.mem_map.mp hown
  rcases List.mem_cons.mp hrequest with rfl | hrequest
  · rw [hgraph]
    exact Sum.Lex.inl_lt_inr _ _
  · obtain ⟨memberId, -, rfl⟩ := List.mem_map.mp hrequest
    exact Sum.Lex.inl_lt_inr _ _

theorem sorted_singleton (accountId : AccountId) : Foundations.SortedBy id [accountId] :=
  List.pairwise_singleton _ _

/-- **The locks of a membership operation ascend.** -/
theorem ascending_lockRequests (op : MembershipOp) :
    Ascending (LockKey.rank display sets) op.lockRequests := by
  have hmember : ∀ member : AccountSetMemberId, Ascending (LockKey.rank display sets)
      (MembershipLocks.memberHasBalanceHistory member.memberId ++ memberLocks member) := by
    rintro (accountId | setId)
    · exact ascending_phases rfl (sorted_singleton _) (sorted_singleton _)
    · exact ascending_phases rfl (sorted_singleton _) List.Pairwise.nil
  cases op with
  | addMember accountSetId member => exact hmember member
  | addMembers members =>
      rw [lockRequests]
      split
      · exact ascending_nil
      · rw [List.append_assoc]
        exact ascending_phases rfl (Foundations.sortBy_sorted _ _) (Foundations.sortBy_sorted _ _)
  | addMemberSets members =>
      rw [lockRequests]
      split
      · exact ascending_nil
      · exact ascending_phases rfl (Foundations.sortBy_sorted _ _) List.Pairwise.nil
  | removeMember accountSetId member => exact hmember member
  | createAccounts pairs => exact ascending_accounts member_ascends (Foundations.sortBy_sorted _ _)

end MembershipOp

/-! ## Transactions -/

/-- What one transaction of the protocol performs: a posting batch, with the templates it finds and
what its process has cached, or an operation on the members of sets. -/
inductive LockingTransaction
  | posting (templates : String → Option TxTemplateValues) (cache : HashMap String ResolvedTemplate)
      (graph : JournalId → GraphSnapshot) (ids : EntryIds) (batch : List PostingInput)
  | membership (op : MembershipOp)

namespace LockingTransaction

/-- What a batch may rely on while it posts: the templates of its codes do not move, and the account
sets that are not eventually consistent are among `sets`. -/
def batchScope (display : JsonDisplay) (sets : AccountSetId → Prop)
    (templates : String → Option TxTemplateValues) (batch : List PostingInput) : LockScope :=
  { display := display
    sets := sets
    templates := templates
    codes := sortedDedup (batch.map PostingInput.txTemplateCode) }

/-- The locks a transaction requests in one of its runs, beside any other operations. -/
def Requests (display : JsonDisplay) (sets : AccountSetId → Prop) :
    LockingTransaction → List AdvisoryLock → Prop
  | posting templates cache graph ids batch, locks =>
      Postings.CurrentCache (batchScope display sets templates batch) cache
        ∧ (∀ journalId, Postings.KnowsSets (batchScope display sets templates batch)
          (graph journalId).toIndexedNodes)
        ∧ ∃ ledger issued outcome session,
            (batchScope display sets templates batch).Settled ledger
            ∧ (PostingSession.server (batchScope display sets templates batch).rely).Run
                ⟨ledger, [], []⟩ (Postings.postAllInOp cache graph display ids batch) issued outcome
                session
            ∧ locks = session.locks
  | membership op, locks => locks = op.lockRequests

/-- No posting batch has an entry on the account behind one of the sets. -/
def EntersNoSet (sets : AccountSetId → Prop) : LockingTransaction → Prop
  | posting templates _ _ ids batch => ∀ prepared, prepareAll ids templates batch = .ok prepared →
      Postings.EntersNoSet sets prepared
  | membership _ => True

/-- **Every transaction's locks ascend.** -/
theorem ascending {display : JsonDisplay} {sets : AccountSetId → Prop}
    {transaction : LockingTransaction} {locks : List AdvisoryLock}
    (h : transaction.Requests display sets locks) (hentries : transaction.EntersNoSet sets) :
    Ascending (LockKey.rank display sets) locks := by
  cases transaction with
  | posting templates cache graph ids batch =>
      obtain ⟨hcache, hgraph, ledger, issued, outcome, session, hsettled, hrun, rfl⟩ := h
      have hordered : (batchScope display sets templates batch).Orders (fun _ => True)
          (Postings.postAllInOp cache graph display ids batch) (fun _ => False) (fun _ => True) :=
        (Postings.orders_postBatchInOp hcache hgraph rfl hentries).bind
          (fun _ _ => LockScope.Orders.compute _)
      have hbegin : (batchScope display sets templates batch).Ordered (fun _ => True)
          ⟨ledger, [], []⟩ :=
        ⟨hsettled, ascending_nil, fun _ h => absurd h List.not_mem_nil⟩
      have hleaves := hordered hrun hbegin
      match outcome, hleaves with
      | .failed, hleaves => exact hleaves.ascending
      | .panicked, hleaves => exact hleaves.ascending
      | .returned (.error _), hleaves => exact hleaves.ascending
      | .returned (.ok _), hleaves => exact hleaves.2.ascending
  | membership op =>
      rw [show locks = op.lockRequests from h]
      exact op.ascending_lockRequests

end LockingTransaction

/-- **The lock protocol has no deadlock while no batch has an entry on the account behind a set that
is not eventually consistent**: in no reachable lock table do transactions wait for each other in a
cycle. -/
theorem lock_protocol_acyclic {τ : Type} [DecidableEq τ] (display : JsonDisplay)
    (sets : AccountSetId → Prop) (transactions : τ → LockingTransaction)
    (locks : τ → List AdvisoryLock)
    (hlocks : ∀ t, (transactions t).Requests display sets (locks t))
    (hentries : ∀ t, (transactions t).EntersNoSet sets) {table : LockTable τ LockKey}
    (htable : LockTable.Reachable locks table) (t : τ) :
    ¬ Relation.TransGen (table.WaitsFor locks) t t :=
  LockTable.acyclic_of_ascending
    (fun u => LockingTransaction.ascending (hlocks u) (hentries u)) htable

/-! ## Two batches -/

/-- Templates that move ten dollars between two accounts each. -/
def crossingTemplates (code : String) : Option TxTemplateValues :=
  if code = "on the set" then some (sampleTemplate code (3, .credit) (4, .debit))
  else if code = "below the set" then some (sampleTemplate code (2, .credit) (4, .debit))
  else if code = "beside the set" then some (sampleTemplate code (1, .credit) (2, .debit))
  else none

/-- The second account is a member of the set that the third one is behind. -/
def crossingDb : LedgerDb :=
  { sampleDb with
    accounts := fun accountId =>
      if accountId.uuid = 4 then
        (sampleDb.accounts ⟨1⟩).map (fun row =>
          { row with velocityContextValues := ⟨accountId, "account", .debit, none, none⟩ })
      else
        sampleDb.accounts accountId
    templates := crossingTemplates }

/-- A posting of one of the templates, with an empty cache. -/
def crossingBatch (onSet : Bool) : List PostingInput :=
  [⟨⟨if onSet then 1 else 2⟩, if onSet then "on the set" else "below the set", []⟩]

def crossingTransaction (onSet : Bool) : LockingTransaction :=
  .posting crossingTemplates ∅ (fun _ => SetGraphCache.cold) sampleIds (crossingBatch onSet)

noncomputable def sampleDisplay : JsonDisplay := Classical.choice JsonDisplay.nonempty

/-- The locks of a posting that meets no other. -/
noncomputable def crossingLocks (onSet : Bool) : List AdvisoryLock :=
  (PostingSession.runAlone default 0 ⟨crossingDb, [], []⟩ (Postings.postAllInOp ∅
    (fun _ => SetGraphCache.cold) sampleDisplay sampleIds (crossingBatch onSet))).2.2.locks

theorem crossingLocks_true : crossingLocks true
    = [lockShared (.fence ⟨3⟩), lockExclusive (.balance ⟨⟨1⟩, ⟨3⟩, ⟨"USD"⟩⟩),
      lockShared (.fence ⟨4⟩), lockExclusive (.balance ⟨⟨1⟩, ⟨4⟩, ⟨"USD"⟩⟩)] := by
  decide +kernel

theorem crossingLocks_false : crossingLocks false
    = [lockShared (.fence ⟨2⟩), lockExclusive (.balance ⟨⟨1⟩, ⟨2⟩, ⟨"USD"⟩⟩),
      lockShared (.fence ⟨4⟩), lockExclusive (.balance ⟨⟨1⟩, ⟨4⟩, ⟨"USD"⟩⟩),
      lockExclusive (.balance ⟨⟨1⟩, ⟨3⟩, ⟨"USD"⟩⟩)] := by
  decide +kernel

theorem requests_crossing (onSet : Bool) :
    (crossingTransaction onSet).Requests sampleDisplay (fun setId => setId = ⟨3⟩)
      (crossingLocks onSet) := by
  refine ⟨fun code _ resolved h => ?_, fun journalId setId found h => ?_, crossingDb, _, _, _, ?_,
    PostingSession.run_runAlone _ default 0 _ _, rfl⟩
  · cases h
  · cases h
  · refine ⟨fun code _ => rfl, fun setId journalId h _ => ?_⟩
    replace h : (if setId.uuid = 3 then some _ else none) = some journalId := h
    split at h
    · exact EntityId.uuid_injective _ ‹_›
    · cases h

/-- A batch holds the balance of the set and waits for the fourth account, which the other has
locked; that one waits for the set above its first entry. -/
theorem lock_protocol_deadlocks :
    ∃ (display : JsonDisplay) (locks : Bool → List AdvisoryLock) (table : LockTable Bool LockKey),
      (∀ onSet, (crossingTransaction onSet).Requests display (fun setId => setId = ⟨3⟩)
        (locks onSet))
      ∧ LockTable.Reachable locks table
      ∧ ∃ t, Relation.TransGen (table.WaitsFor locks) t t := by
  have hcrossing : Crossing crossingLocks {true, false} (fun onSet => if onSet then 3 else 4) := by
    refine ⟨⟨true, by decide⟩, ?_, ?_⟩
    · rintro (_ | _) (_ | _) - - hne
      · exact absurd rfl hne
      · rw [crossingLocks_true, crossingLocks_false]
        decide
      · rw [crossingLocks_true, crossingLocks_false]
        decide
      · exact absurd rfl hne
    · rintro (_ | _) -
      · rw [crossingLocks_false]
        refine ⟨_, rfl, true, by decide, by decide, ?_⟩
        rw [crossingLocks_true]
        decide
      · rw [crossingLocks_true]
        refine ⟨_, rfl, false, by decide, by decide, ?_⟩
        rw [crossingLocks_false]
        decide
  obtain ⟨table, hreachable, t, hcycle⟩ := LockTable.cycle_iff_crossing.mpr ⟨_, _, hcrossing⟩
  exact ⟨sampleDisplay, crossingLocks, table, requests_crossing, hreachable, t,
    Relation.TransGen.mono (fun _ _ => Or.inl) t t hcycle⟩

/-- A batch below the set, beside the removal of a member. -/
def orderedTransaction : Bool → LockingTransaction
  | true => .membership (.removeMember ⟨3⟩ (.account ⟨2⟩))
  | false => crossingTransaction false

noncomputable def orderedLocks : Bool → List AdvisoryLock
  | true => (MembershipOp.removeMember ⟨3⟩ (.account ⟨2⟩)).lockRequests
  | false => crossingLocks false

theorem lock_protocol_acyclic_sample :
    ∃ table : LockTable Bool LockKey, LockTable.Reachable orderedLocks table
      ∧ table.granted true = 1 ∧ ∀ t, ¬ Relation.TransGen (table.WaitsFor orderedLocks) t t := by
  have hreachable : LockTable.Reachable orderedLocks (LockTable.start.grant true) := by
    have hnext : LockTable.start.next orderedLocks true = some (lockExclusive (.fence ⟨2⟩)) := rfl
    refine Relation.ReflTransGen.refl.tail
      (LockTable.Step.grant hnext List.not_mem_nil (Or.inr ⟨?_, ?_⟩))
    · rintro ⟨u, -, own, hown, -⟩
      exact absurd hown List.not_mem_nil
    · rintro ⟨u, hu, -⟩
      exact absurd hu List.not_mem_nil
  have hentries : ∀ prepared, prepareAll sampleIds crossingTemplates (crossingBatch false)
      = .ok prepared → Postings.EntersNoSet (fun setId => setId = ⟨3⟩) prepared := by
    have hkeys : ((prepareAll sampleIds crossingTemplates (crossingBatch false)).toOption.map
        (fun prepared => (entryBalanceKeys prepared).map BalanceKey.accountId))
        = some [⟨2⟩, ⟨4⟩] := by
      decide +kernel
    intro prepared hprepared key hkey setId hset haccount
    rw [hprepared] at hkeys
    have hmap : (entryBalanceKeys prepared).map BalanceKey.accountId = [⟨2⟩, ⟨4⟩] :=
      Option.some.inj hkeys
    have hmem : key.accountId ∈ (entryBalanceKeys prepared).map BalanceKey.accountId :=
      List.mem_map_of_mem hkey
    rw [hmap, haccount, hset] at hmem
    exact absurd hmem (by decide)
  refine ⟨_, hreachable, rfl, lock_protocol_acyclic sampleDisplay (fun setId => setId = ⟨3⟩)
    orderedTransaction orderedLocks ?_ ?_ hreachable⟩
  · rintro (_ | _)
    · exact requests_crossing false
    · rfl
  · rintro (_ | _)
    · exact hentries
    · trivial

end CalaLedger
