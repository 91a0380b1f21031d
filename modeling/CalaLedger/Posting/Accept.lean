import CalaLedger.Posting.Fold

/-! # When a batch is accepted

On a `Valid` database a prepared batch is accepted exactly when `Accepts` holds, a condition on the
tables and the postings; an accepted batch leaves `posted`, the tables with the entries of its
postings run over them (`postPreparedInOp_spec`). Nothing in `Accepts` and `posted` refers to the
phases of the flow, so a batch and a sequence of smaller batches can be compared. -/

namespace CalaLedger

open Foundations (VersionedTable)

/-- The invariant of the ledger's tables. -/
structure LedgerDb.Valid (db : LedgerDb) : Prop where
  balances : db.balances.WellFormed
  velocity : VersionedTable.Mirrors BalanceSnapshot.version db.velocityBalances
  unique : FreshRows db []
  identified : Identified db.entries
  effective : ∃ timelines, TableReplays db.effectiveBalances timelines
    ∧ ∀ key, ∀ dated ∈ timelines key, dated.2 ∈ db.entries

/-- The entries of a prepared batch are those `prep_entries` makes. -/
def WellPrepared (ids : EntryIds) (prepared : List PreparedTransaction) : Prop :=
  ∀ posting ∈ prepared, PreparedEntries ids posting.txId posting.journalId 0 posting.entries

/-- A prepared batch is accepted. -/
structure Accepts (db : LedgerDb) (now : Timestamp) (prepared : List PreparedTransaction) :
    Prop where
  postable : ∀ posting ∈ prepared, Postable db.toLedgerDirectory posting
  matchable : ∀ target ∈ batchTargets db.memberships.walkMappings (hydrate now prepared),
    Foundations.Succeeds (matchTarget db.accountControls target)
  enforced : ∀ key, EnforcedAlong now key (VelocityTable.value db.velocityBalances key)
    (velocityEvents db.accountControls
      (batchTargets db.memberships.walkMappings (hydrate now prepared)) key)
  fresh : FreshRows db (hydrate now prepared)

/-- What an accepted batch leaves, up to the effective balances. -/
def LedgerDb.posted (db : LedgerDb) (now : Timestamp) (postings : List HydratedPosting)
    (effectiveBalances : EffectiveTable) : LedgerDb :=
  { db with
    balances := db.balances.advance (batchEvents db.toLedgerDirectory now postings)
    effectiveBalances := effectiveBalances
    velocityBalances := VelocityTable.advance now db.velocityBalances
      (velocityEvents db.accountControls (batchTargets db.memberships.walkMappings postings))
    transactions := db.transactions ++ postings.map Prod.fst
    entries := db.entries ++ postings.flatMap Prod.snd
    outbox := db.outbox ++ postings.flatMap postingEvents }

/-- Postings leave the accounts, journals and memberships as they are. -/
@[simp] theorem LedgerDb.posted_toLedgerDirectory (db : LedgerDb) (now : Timestamp)
    (postings : List HydratedPosting) (effectiveBalances : EffectiveTable) :
    (db.posted now postings effectiveBalances).toLedgerDirectory = db.toLedgerDirectory :=
  rfl

/-- Rows are fresh together when the first are, and the rest are after them. -/
theorem freshRows_append {db : LedgerDb} (now : Timestamp) {front back : List HydratedPosting}
    (effectiveBalances : EffectiveTable) :
    FreshRows db (front ++ back)
      ↔ FreshRows db front ∧ FreshRows (db.posted now front effectiveBalances) back := by
  have htransactions : db.transactions ++ (front ++ back).map Prod.fst
      = (db.transactions ++ front.map Prod.fst) ++ back.map Prod.fst := by
    rw [List.map_append, List.append_assoc]
  have hentries : db.entries ++ (front ++ back).flatMap Prod.snd
      = (db.entries ++ front.flatMap Prod.snd) ++ back.flatMap Prod.snd := by
    rw [List.flatMap_append, List.append_assoc]
  constructor
  · intro h
    have ht := h.transactions
    have hx := h.externalIds
    have he := h.entries
    rw [htransactions] at ht hx
    rw [hentries] at he
    exact ⟨⟨ht.sublist ((List.sublist_append_left _ _).map _),
      hx.sublist ((List.sublist_append_left _ _).filterMap _),
      he.sublist ((List.sublist_append_left _ _).map _)⟩, ⟨ht, hx, he⟩⟩
  · rintro ⟨-, h⟩
    exact ⟨htransactions ▸ h.transactions, htransactions ▸ h.externalIds, hentries ▸ h.entries⟩

/-- What a batch adds to the effective timeline of a balance. -/
def batchDated (directory : LedgerDirectory) (now : Timestamp) (postings : List HydratedPosting)
    (key : BalanceKey) : List DatedEntry :=
  (effectiveGroups directory postings).flatMap (fun group =>
    (groupCall directory.accounts directory.memberships.walkMappings now group).dated key)

section Prepared

variable {ids : EntryIds} {prepared : List PreparedTransaction} {now : Timestamp}

theorem WellPrepared.journal (h : WellPrepared ids prepared) :
    ∀ posting ∈ prepared, ∀ entry ∈ posting.entries, entry.journalId = posting.journalId :=
  fun posting hposting => (h posting hposting).journal

theorem flatMap_hydrate (now : Timestamp) (prepared : List PreparedTransaction) :
    (hydrate now prepared).flatMap Prod.snd = prepared.flatMap PreparedTransaction.entries := by
  rw [hydrate, List.flatMap_map]
  rfl

/-- Entry ids are assigned when they are drawn. -/
theorem WellPrepared.assigned (h : WellPrepared ids prepared) {entry : EntryValues}
    (hentry : entry ∈ prepared.flatMap PreparedTransaction.entries) :
    entry.id ≠ UNASSIGNED_ENTRY_ID := by
  obtain ⟨posting, hposting, hentry⟩ := List.mem_flatMap.mp hentry
  have hid : entry.id ∈ posting.entries.map EntryValues.id := List.mem_map_of_mem hentry
  rw [(h posting hposting).id] at hid
  obtain ⟨index, -, hdraw⟩ := List.mem_map.mp hid
  exact hdraw ▸ ids.assigned _ _

/-- **Entries stay identified**: the new ids are assigned, and the primary key keeps them apart. -/
theorem identified_append {db : LedgerDb} (hdb : Identified db.entries)
    (h : WellPrepared ids prepared) (hfresh : FreshRows db (hydrate now prepared)) :
    Identified (db.entries ++ (hydrate now prepared).flatMap Prod.snd) where
  assigned := by
    intro entry hentry
    rcases List.mem_append.mp hentry with hold | hnew
    · exact hdb.assigned entry hold
    · rw [flatMap_hydrate] at hnew
      exact h.assigned hnew
  unique := fun entry hentry entry' hentry' hid =>
    List.inj_on_of_nodup_map hfresh.entries hentry hentry' hid

end Prepared

section Effective

variable {order : RowOrder} {db : LedgerDb} {prepared : List PreparedTransaction}
  {mappings : AncestorMappings} {now : Timestamp}

/-- Where the mappings are the walk's, a group adds the same entries to every timeline. -/
theorem groupCall_dated
    (hmappings : ∀ posting ∈ prepared, ∀ entry ∈ posting.entries,
      mappings posting.journalId entry.accountId = order.walk entry.accountId
        (db.memberships.walkMappings posting.journalId entry.accountId))
    {group : (JournalId × NaiveDate) × List EntryValues}
    (hgroup : group ∈ effectiveGroups db.toLedgerDirectory (hydrate now prepared))
    (key : BalanceKey) :
    (groupCall db.accounts mappings now group).dated key
        = (groupCall db.accounts db.memberships.walkMappings now group).dated key
      ∧ (groupCall db.accounts mappings now group).pushed key
        ⊆ (hydrate now prepared).flatMap Prod.snd := by
  have hentry : ∀ entry ∈ group.2, ∃ posting ∈ prepared, posting.journalId = group.1.1
      ∧ entry ∈ posting.entries := by
    intro entry hentry
    rw [(mem_effectiveGroups.mp hgroup).2, List.mem_flatMap] at hentry
    obtain ⟨hydrated, hmem, hentry⟩ := hentry
    obtain ⟨hmem, hkey⟩ := List.mem_filter.mp hmem
    obtain ⟨posting, hposting, rfl⟩ := List.mem_map.mp hmem
    exact ⟨posting, hposting, congrArg Prod.fst (of_decide_eq_true hkey).2, hentry⟩
  constructor
  · have hpushed : (groupCall db.accounts mappings now group).pushed key
        = (groupCall db.accounts db.memberships.walkMappings now group).pushed key := by
      change pushedOn false db.accounts group.1.1 (inlineTargets (mappings group.1.1)) group.2 key
        = pushedOn false db.accounts group.1.1
            (inlineTargets (db.memberships.walkMappings group.1.1)) group.2 key
      unfold pushedOn
      refine congrArg (ite _ · _) (hits_congr _ _ _ (fun entry hmem => ?_))
      obtain ⟨posting, hposting, hjournal, hmem⟩ := hentry entry hmem
      rw [← hjournal]
      exact inlineTargets_walk_filter db.toLedgerDirectory
        (hmappings posting hposting entry hmem) key.accountId
    unfold EffectiveCall.dated
    rw [hpushed]
    rfl
  · intro entry hmem
    obtain ⟨posting, hposting, -, hmem⟩ := hentry entry (EffectiveCall.mem_entries_of_pushed _ hmem)
    rw [flatMap_hydrate]
    exact List.mem_flatMap.mpr ⟨posting, hposting, hmem⟩

/-- What the groups of a batch push is identified beside the timelines they push it to. -/
theorem identified_groupCalls (hmappings : ∀ posting ∈ prepared, ∀ entry ∈ posting.entries,
      mappings posting.journalId entry.accountId = order.walk entry.accountId
        (db.memberships.walkMappings posting.journalId entry.accountId))
    (hids : Identified (db.entries ++ (hydrate now prepared).flatMap Prod.snd))
    {timelines : BalanceKey → List DatedEntry}
    (htimelines : ∀ key, ∀ dated ∈ timelines key, dated.2 ∈ db.entries) (key : BalanceKey) :
    Identified ((timelines key).map Prod.snd
      ++ ((effectiveGroups db.toLedgerDirectory (hydrate now prepared)).map
          (groupCall db.accounts mappings now)).flatMap (fun call => call.pushed key)) := by
  refine hids.subset (fun entry hentry => ?_)
  rcases List.mem_append.mp hentry with hold | hnew
  · obtain ⟨dated, hdated, rfl⟩ := List.mem_map.mp hold
    exact List.mem_append_left _ (htimelines key dated hdated)
  · obtain ⟨call, hcall, hmem⟩ := List.mem_flatMap.mp hnew
    obtain ⟨group, hgroup, rfl⟩ := List.mem_map.mp hcall
    exact List.mem_append_right _ ((groupCall_dated hmappings hgroup key).2 hmem)

/-- **The effective updates of a batch go through**, and insert its entries into the timelines. -/
theorem runEffectiveCalls_batch (hmappings : ∀ posting ∈ prepared, ∀ entry ∈ posting.entries,
      mappings posting.journalId entry.accountId = order.walk entry.accountId
        (db.memberships.walkMappings posting.journalId entry.accountId))
    (hids : Identified (db.entries ++ (hydrate now prepared).flatMap Prod.snd))
    {timelines : BalanceKey → List DatedEntry} (htable : TableReplays db.effectiveBalances timelines)
    (htimelines : ∀ key, ∀ dated ∈ timelines key, dated.2 ∈ db.entries) :
    ∃ effectiveBalances, runEffectiveCalls order.toScanOrder
        ((effectiveGroups db.toLedgerDirectory (hydrate now prepared)).map
          (groupCall db.accounts mappings now)) db.effectiveBalances = some effectiveBalances
      ∧ TableReplays effectiveBalances (fun key => Foundations.sortBy Prod.fst
          (timelines key ++ batchDated db.toLedgerDirectory now (hydrate now prepared) key)) := by
  set calls := (effectiveGroups db.toLedgerDirectory (hydrate now prepared)).map
    (groupCall db.accounts mappings now) with hcalls
  have hsorted : (fun key => Foundations.sortBy Prod.fst (timelines key)) = timelines :=
    funext (fun key => Foundations.sortBy_eq_self.mpr (htable.sorted key))
  obtain ⟨effectiveBalances, hrun, hreplays⟩ := runEffectiveCalls_replays order.toScanOrder calls
    timelines (by rw [hsorted]; exact htable) (identified_groupCalls hmappings hids htimelines)
  refine ⟨effectiveBalances, hrun, ?_⟩
  have hdated : ∀ key, calls.flatMap (fun call => call.dated key)
      = batchDated db.toLedgerDirectory now (hydrate now prepared) key := by
    intro key
    rw [hcalls, List.flatMap_map]
    exact List.flatMap_congr (fun group hgroup => (groupCall_dated hmappings hgroup key).1)
  simpa only [hdated] using hreplays

/-- The entries a batch adds to a timeline are its own. -/
theorem mem_of_mem_batchDated {directory : LedgerDirectory} {postings : List HydratedPosting}
    {key : BalanceKey} {dated : DatedEntry} (h : dated ∈ batchDated directory now postings key) :
    dated.2 ∈ postings.flatMap Prod.snd := by
  obtain ⟨group, hgroup, hdated⟩ := List.mem_flatMap.mp h
  obtain ⟨entry, hentry, rfl⟩ := List.mem_map.mp hdated
  rw [Foundations.mem_sortBy] at hentry
  have hmem := EffectiveCall.mem_entries_of_pushed _ hentry
  change entry ∈ group.2 at hmem
  rw [(mem_effectiveGroups.mp hgroup).2] at hmem
  obtain ⟨posting, hposting, hmem⟩ := List.mem_flatMap.mp hmem
  exact List.mem_flatMap.mpr ⟨posting, (List.mem_filter.mp hposting).1, hmem⟩

end Effective

/-! ## The flow -/

section Flow

variable {order : RowOrder} {ids : EntryIds} {now : Timestamp} {db : LedgerDb}
  {prepared : List PreparedTransaction}

variable (order) in
/-- The static checks are the two phases of the flow that look at accounts. -/
theorem postable_iff :
    (∀ posting ∈ prepared, Postable db.toLedgerDirectory posting)
      ↔ validateFrom (readFor db prepared) 0 prepared = .ok ()
        ∧ Foundations.Succeeds (resolveAncestors order db prepared (readFor db prepared)) := by
  rw [validateFrom_readFor, resolveAncestors_spec.1, ← forall₂_and]
  refine forall₂_congr (fun posting _ => ?_)
  exact ⟨fun h => ⟨⟨h.journal, h.accounts⟩, h.ancestors⟩, fun h => ⟨h.1.1, h.1.2, h.2⟩⟩

/-- The phases of the flow, one after the other. -/
theorem postPreparedInOp_eq_ok {db' : LedgerDb} :
    postPreparedInOp order now db prepared = .ok db'
      ↔ validateFrom (readFor db prepared) 0 prepared = .ok ()
        ∧ ∃ result, resolveAncestors order db prepared (readFor db prepared) = .ok result
        ∧ ∃ velocityBalances, enforceBatchInOp now db.velocityBalances (hydrate now prepared)
            result.2.controls result.1 = .ok velocityBalances
        ∧ ∃ next, insertPostingsAndBalancesInOp { db with velocityBalances := velocityBalances }
            (hydrate now prepared) (foldBalances (hydrate now prepared) result.2 result.1 now)
              = .ok next
        ∧ ∃ effectiveBalances, updateEffectiveBalances order.toScanOrder next.accounts
            next.effectiveBalances (hydrate now prepared) result.2 result.1 now
              = some effectiveBalances
        ∧ db' = { next with
            effectiveBalances := effectiveBalances
            outbox := next.outbox ++ (hydrate now prepared).flatMap postingEvents } := by
  rw [postPreparedInOp]
  constructor
  · intro h
    obtain ⟨⟨⟩, hvalidate, h⟩ := Foundations.bind_eq_ok.mp h
    obtain ⟨result, hresult, h⟩ := Foundations.bind_eq_ok.mp h
    obtain ⟨velocityBalances, hvelocity, h⟩ := Foundations.bind_eq_ok.mp h
    obtain ⟨next, hnext, h⟩ := Foundations.bind_eq_ok.mp h
    obtain ⟨effectiveBalances, heffective, h⟩ := Foundations.bind_eq_ok.mp h
    cases h
    refine ⟨hvalidate, result, hresult, velocityBalances,
      Foundations.mapError_eq_ok.mp hvelocity, next, hnext, effectiveBalances, ?_, rfl⟩
    exact BalanceError.ofOption_eq_ok.mp (Foundations.mapError_eq_ok.mp heffective)
  · rintro ⟨hvalidate, result, hresult, velocityBalances, hvelocity, next, hnext,
      effectiveBalances, heffective, rfl⟩
    exact Foundations.bind_eq_ok.mpr ⟨(), hvalidate, Foundations.bind_eq_ok.mpr ⟨result, hresult,
      Foundations.bind_eq_ok.mpr ⟨velocityBalances, Foundations.mapError_eq_ok.mpr hvelocity,
        Foundations.bind_eq_ok.mpr ⟨next, hnext, Foundations.bind_eq_ok.mpr ⟨effectiveBalances,
          Foundations.mapError_eq_ok.mpr (BalanceError.ofOption_eq_ok.mpr heffective), rfl⟩⟩⟩⟩⟩

/-- The insert goes through when the rows are fresh. -/
theorem insertPostingsAndBalancesInOp_eq_ok (hdb : db.Valid) (hprepared : WellPrepared ids prepared)
    {mappings : AncestorMappings} {read : PostingState}
    (hcovers : Covers order db prepared mappings read) {velocityBalances : VelocityTable}
    {next : LedgerDb} :
    insertPostingsAndBalancesInOp { db with velocityBalances := velocityBalances }
        (hydrate now prepared) (foldBalances (hydrate now prepared) read mappings now) = .ok next
      ↔ FreshRows db (hydrate now prepared) ∧ next =
        { db with
          velocityBalances := velocityBalances
          balances := db.balances.advance
            (batchEvents db.toLedgerDirectory now (hydrate now prepared))
          transactions := db.transactions ++ (hydrate now prepared).map Prod.fst
          entries := db.entries ++ (hydrate now prepared).flatMap Prod.snd } := by
  have hspells := foldBalances_spells hcovers hdb.balances hprepared.journal now
  have hfresh : FreshRows { db with velocityBalances := velocityBalances } (hydrate now prepared)
      ↔ FreshRows db (hydrate now prepared) :=
    ⟨fun h => ⟨h.transactions, h.externalIds, h.entries⟩,
      fun h => ⟨h.transactions, h.externalIds, h.entries⟩⟩
  rw [insertPostingsAndBalancesInOp]
  simp only [insertBalancesInOp_advance hdb.balances hspells]
  by_cases h : FreshRows db (hydrate now prepared)
  · rw [if_pos (hfresh.mpr h)]
    exact ⟨fun heq => ⟨h, (Except.ok.inj heq).symm⟩, fun heq => congrArg Except.ok heq.2.symm⟩
  · rw [if_neg (mt hfresh.mp h)]
    exact ⟨nofun, fun heq => (h heq.1).elim⟩

variable (order now) in
/-- **The flow on a prepared batch**: it is accepted exactly when `Accepts` holds, and leaves the
posted tables with the effective updates of its groups. -/
theorem postPreparedInOp_spec (hdb : db.Valid) (hprepared : WellPrepared ids prepared) :
    (Foundations.Succeeds (postPreparedInOp order now db prepared) ↔ Accepts db now prepared)
      ∧ ∀ db', postPreparedInOp order now db prepared = .ok db' →
          ∃ effectiveBalances,
            db' = db.posted now (hydrate now prepared) effectiveBalances
            ∧ ∀ timelines, TableReplays db.effectiveBalances timelines →
                (∀ key, ∀ dated ∈ timelines key, dated.2 ∈ db.entries) →
                TableReplays effectiveBalances (fun key => Foundations.sortBy Prod.fst
                  (timelines key
                    ++ batchDated db.toLedgerDirectory now (hydrate now prepared) key)) := by
  constructor
  · constructor
    · rintro ⟨db', h⟩
      obtain ⟨hvalidate, result, hresult, velocityBalances, hvelocity, next, hnext, -⟩ :=
        postPreparedInOp_eq_ok.mp h
      have hcovers := resolveAncestors_spec.2 result hresult
      obtain ⟨hmatchable, henforced, -⟩ :=
        (enforceBatchInOp_inline hcovers hdb.velocity).mp hvelocity
      exact ⟨(postable_iff order).mpr ⟨hvalidate, result, hresult⟩, hmatchable, henforced,
        ((insertPostingsAndBalancesInOp_eq_ok hdb hprepared hcovers).mp hnext).1⟩
    · intro h
      obtain ⟨hvalidate, result, hresult⟩ := (postable_iff order).mp h.postable
      have hcovers := resolveAncestors_spec.2 result hresult
      obtain ⟨timelines, htable, htimelines⟩ := hdb.effective
      obtain ⟨effectiveBalances, hrun, -⟩ := runEffectiveCalls_batch hcovers.walked
        (identified_append hdb.identified hprepared h.fresh) htable htimelines
      exact ⟨_, postPreparedInOp_eq_ok.mpr ⟨hvalidate, result, hresult, _,
        (enforceBatchInOp_inline hcovers hdb.velocity).mpr ⟨h.matchable, h.enforced, rfl⟩, _,
        (insertPostingsAndBalancesInOp_eq_ok hdb hprepared hcovers).mpr ⟨h.fresh, rfl⟩,
        effectiveBalances, (updateEffectiveBalances_eq hcovers _).trans hrun, rfl⟩⟩
  · intro db' h
    obtain ⟨-, result, hresult, velocityBalances, hvelocity, next, hnext, effectiveBalances,
      heffective, rfl⟩ := postPreparedInOp_eq_ok.mp h
    have hcovers := resolveAncestors_spec.2 result hresult
    obtain ⟨-, -, rfl⟩ := (enforceBatchInOp_inline hcovers hdb.velocity).mp hvelocity
    obtain ⟨hfresh, rfl⟩ := (insertPostingsAndBalancesInOp_eq_ok hdb hprepared hcovers).mp hnext
    refine ⟨effectiveBalances, rfl, fun timelines htable htimelines => ?_⟩
    obtain ⟨table, hrun, hreplays⟩ := runEffectiveCalls_batch hcovers.walked
      (identified_append hdb.identified hprepared hfresh) htable htimelines
    have heq := heffective.symm.trans ((updateEffectiveBalances_eq hcovers _).trans hrun)
    exact Option.some.inj heq ▸ hreplays

/-- The effective updates an accepted batch runs. -/
theorem postPreparedInOp_effective (hdb : db.Valid) (hprepared : WellPrepared ids prepared)
    {db' : LedgerDb} (h : postPreparedInOp order now db prepared = .ok db') :
    ∃ mappings : AncestorMappings,
      (∀ posting ∈ prepared, ∀ entry ∈ posting.entries,
        mappings posting.journalId entry.accountId = order.walk entry.accountId
          (db.memberships.walkMappings posting.journalId entry.accountId))
      ∧ runEffectiveCalls order.toScanOrder ((effectiveGroups db.toLedgerDirectory
          (hydrate now prepared)).map (groupCall db.accounts mappings now)) db.effectiveBalances
        = some db'.effectiveBalances := by
  obtain ⟨-, result, hresult, velocityBalances, hvelocity, next, hnext, effectiveBalances,
    heffective, rfl⟩ := postPreparedInOp_eq_ok.mp h
  have hcovers := resolveAncestors_spec.2 result hresult
  obtain ⟨-, rfl⟩ := (insertPostingsAndBalancesInOp_eq_ok hdb hprepared hcovers).mp hnext
  exact ⟨result.1, hcovers.walked, (updateEffectiveBalances_eq hcovers _).symm.trans heffective⟩

end Flow

end CalaLedger
