import CalaLedger.Posting.EffectiveHistory
import CalaLedger.Posting.SteadyCalls
import CalaLedger.Posting.VelocityLimits

/-! # Serial runs

In a serial run every batch is posted by itself, one after the other, by the sequential flow. A
batch that was posted under what the tables have, while other operations went on, could have been
posted so: the flow accepts it by itself and leaves the same rows (`HoldsLog.post`). -/

namespace CalaLedger

open Foundations (VersionedTable)
open Postings (PostedBatch)

/-! ## Orders -/

theorem MembershipTables.journal_of_mem_walkMappings {memberships : MembershipTables}
    {journalId : JournalId} {accountId : AccountId} {setId : AccountSetId}
    (h : setId ∈ memberships.walkMappings journalId accountId) :
    memberships.accountSets setId = some journalId :=
  of_decide_eq_true (List.mem_filter.mp h).2

open Classical in
/-- The order in which a walk has returned some mappings. -/
noncomputable def orderOf (memberships : MembershipTables) (mappings : AncestorMappings) :
    RowOrder :=
  { (default : RowOrder) with
    walk := fun accountId sets =>
      if h : ∃ journalId, memberships.walkMappings journalId accountId = sets
          ∧ (mappings journalId accountId).Perm sets then
        mappings h.choose accountId
      else
        sets
    walk_perm := fun accountId sets => by
      split
      · rename_i h
        exact h.choose_spec.2
      · exact List.Perm.refl _ }

/-- **Mappings that hold what a walk finds** are what it returns, in the order they have. -/
theorem walk_orderOf {memberships : MembershipTables} {mappings : AncestorMappings}
    {journalId : JournalId} {accountId : AccountId}
    (h : (mappings journalId accountId).Perm (memberships.walkMappings journalId accountId)) :
    mappings journalId accountId = (orderOf memberships mappings).walk accountId
      (memberships.walkMappings journalId accountId) := by
  have hasked : ∃ journalId', memberships.walkMappings journalId' accountId
        = memberships.walkMappings journalId accountId
      ∧ (mappings journalId' accountId).Perm (memberships.walkMappings journalId accountId) :=
    ⟨journalId, rfl, h⟩
  have hwalk : (orderOf memberships mappings).walk accountId
      (memberships.walkMappings journalId accountId) = mappings hasked.choose accountId :=
    dif_pos hasked
  obtain ⟨hsame, hperm⟩ := hasked.choose_spec
  rw [hwalk]
  by_cases hnone : memberships.walkMappings journalId accountId = []
  · have hnil := hperm.trans (List.Perm.of_eq hnone)
    rw [hnone] at h
    rw [h.eq_nil, hnil.eq_nil]
  · -- a set is in one journal only
    obtain ⟨setId, hset⟩ := List.exists_mem_of_ne_nil _ hnone
    have hjournal := MembershipTables.journal_of_mem_walkMappings hset
    rw [← hsame] at hset
    rw [MembershipTables.journal_of_mem_walkMappings hset] at hjournal
    rw [Option.some.inj hjournal]

section Posted

variable {db : LedgerDb} {now : Timestamp} {prepared : List PreparedTransaction}
  {found : AncestorMappings × PostingState}

/-- What was found covers the postings, with the balances of the tables. -/
theorem ReadsTargets.covers (h : ReadsTargets db prepared found) :
    Covers (orderOf db.memberships found.1) db prepared found.1
      { found.2 with balances := db.balances.value } where
  walked := fun posting hposting entry hentry =>
    walk_orderOf (h.walked posting hposting entry hentry)
  journals := h.journals
  accounts := h.accounts
  controls := h.controls
  balances := fun _ _ _ _ _ _ => rfl

/-! ## Effective calls -/

/-- An update looks at the mappings of its entries only. -/
theorem EffectiveCall.run_mappings (order : ScanOrder) (update : EffectiveUpdate)
    {mappings : AccountSetMappings}
    (h : ∀ entry ∈ update.entries, mappings entry.accountId = update.mappings entry.accountId)
    (table : EffectiveTable) :
    (inline { update with mappings := mappings }).run order table
      = (inline update).run order table := by
  have htargets : ∀ entry ∈ update.entries,
      inlineTargets mappings entry = inlineTargets update.mappings entry := by
    intro entry hentry
    rw [inlineTargets, inlineTargets, h entry hentry]
  have hinvolved : (inline { update with mappings := mappings }).involved
      = (inline update).involved := by
    show ((reached (inlineTargets mappings) update.entries).filter _).dedup
      = ((reached (inlineTargets update.mappings) update.entries).filter _).dedup
    rw [reached_congr htargets]
  unfold run
  rw [hinvolved]
  split
  · rfl
  · show writeCumulative (inlineTargets mappings) _ _ _ _ _
      = writeCumulative (inlineTargets update.mappings) _ _ _ _ _
    unfold writeCumulative pushEntries
    simp only [carry_congr _ htargets]

theorem runEffectiveCalls_mappings (order : ScanOrder) {mappings mappings' : AncestorMappings}
    (h : ∀ posting ∈ prepared, ∀ entry ∈ posting.entries,
      mappings posting.journalId entry.accountId = mappings' posting.journalId entry.accountId)
    (table : EffectiveTable) :
    runEffectiveCalls order ((effectiveGroups db.toLedgerDirectory (hydrate now prepared)).map
        (groupCall db.accounts mappings now)) table
      = runEffectiveCalls order ((effectiveGroups db.toLedgerDirectory (hydrate now prepared)).map
          (groupCall db.accounts mappings' now)) table := by
  rw [runEffectiveCalls, runEffectiveCalls, List.foldlM_map, List.foldlM_map]
  refine Foundations.foldlM_congr (fun group hgroup table => ?_) table
  refine EffectiveCall.run_mappings order
    { accounts := db.accounts
      journalId := group.1.1
      entries := group.2
      effective := group.1.2
      createdAt := now
      mappings := mappings' group.1.1 } (fun entry hentry => ?_) table
  rw [(mem_effectiveGroups.mp hgroup).2, List.mem_flatMap] at hentry
  obtain ⟨hydrated, hmem, hentry⟩ := hentry
  obtain ⟨hmem, hkey⟩ := List.mem_filter.mp hmem
  obtain ⟨posting, hposting, rfl⟩ := List.mem_map.mp hmem
  have hjournal : posting.journalId = group.1.1 := congrArg Prod.fst (of_decide_eq_true hkey).2
  have hsame := h posting hposting entry hentry
  rw [hjournal] at hsame
  exact hsame

/-- The journals that were read to keep effective balances are those that do. -/
theorem ReadsTargets.groups (h : ReadsTargets db prepared found) (now : Timestamp) :
    enabledGroups found.2.keepsEffective (hydrate now prepared)
      = effectiveGroups db.toLedgerDirectory (hydrate now prepared) := by
  have hfilter : (hydrate now prepared).filter
        (fun posting => found.2.keepsEffective posting.1.journalId)
      = (hydrate now prepared).filter (fun posting => db.keepsEffective posting.1.journalId) := by
    refine List.filter_congr (fun hydrated hmem => ?_)
    obtain ⟨posting, hposting, rfl⟩ := List.mem_map.mp hmem
    exact congrArg (Option.any _) (h.journals posting hposting)
  rw [enabledGroups, effectiveGroups, hfilter]

/-! ## One batch by itself -/

/-- Every version passed its limit, so the chain is enforced. -/
theorem enforcedAlong_of_passes {key : VelocityBalanceKey} (events : List Matched) :
    ∀ {base : Option BalanceSnapshot},
      List.Forall₂ PassesLimit (events.map (fun matched => (now, matched)))
        (VersionedTable.run (nextVelocity now key) base events) →
      EnforcedAlong now key base events := by
  induction events with
  | nil => exact fun _ => trivial
  | cons matched events ih =>
      intro base h
      rw [List.map_cons, VersionedTable.run_cons] at h
      obtain ⟨hfirst, hrest⟩ := List.forall₂_cons.mp h
      exact ⟨hfirst, ih hrest⟩

/-- The rows a batch adds. -/
structure AddsRows (batch : PostedBatch) (db db' : LedgerDb) : Prop where
  same : SameAdministration db db'
  balances : ∀ key, db'.balances.history key = db.balances.history key
    ++ VersionedTable.run (nextTimed key) (db.balances.value key) (batch.folded key)
  velocity : ∀ key, db'.velocityBalances.history key = db.velocityBalances.history key
    ++ VersionedTable.run (nextTimedVelocity key) (VelocityTable.value db.velocityBalances key)
      (batch.counted key)
  transactions : db'.transactions = db.transactions ++ batch.postings.map Prod.fst
  entries : db'.entries = db.entries ++ batch.postings.flatMap Prod.snd
  outbox : db'.outbox = db.outbox ++ batch.postings.flatMap postingEvents

/-- **A batch that is posted under what the tables have** is accepted by itself, and adds its
rows. -/
theorem PostableUnder.posted {ids : EntryIds} (h : PostableUnder db now prepared found)
    (hdb : db.Valid) (hprepared : WellPrepared ids prepared)
    (hfresh : FreshRows db (hydrate now prepared))
    (hpasses : ∀ key, List.Forall₂ PassesLimit
      ((Postings.postedUnder now prepared found).counted key)
      (VersionedTable.run (nextTimedVelocity key) (VelocityTable.value db.velocityBalances key)
        ((Postings.postedUnder now prepared found).counted key))) :
    ∃ db', postPreparedInOp (orderOf db.memberships found.1) now db prepared = .ok db'
      ∧ AddsRows (Postings.postedUnder now prepared found) db db'
      ∧ runEffectiveCalls (orderOf db.memberships found.1).toScanOrder
          ((enabledGroups found.2.keepsEffective (hydrate now prepared)).map
            (groupCall db.accounts found.1 now)) db.effectiveBalances
        = some db'.effectiveBalances := by
  set batch := Postings.postedUnder now prepared found with hbatch
  set order := orderOf db.memberships found.1 with horder
  have hcovers := h.targets.covers
  have hcounted : ∀ key, batch.counted key = (velocityEvents found.2.controls
      (batchTargets found.1 (hydrate now prepared)) key).map (fun matched => (now, matched)) := by
    intro key
    rw [velocityEvents_eq_countedTowards h.matchable]
    rfl
  have henforced : ∀ key, EnforcedAlong now key (VelocityTable.value db.velocityBalances key)
      (velocityEvents found.2.controls (batchTargets found.1 (hydrate now prepared)) key) := by
    intro key
    have hkey := hpasses key
    rw [hcounted, run_timed] at hkey
    exact enforcedAlong_of_passes _ hkey
  -- the check enforces the same as with the walk's mappings
  obtain ⟨hmatchable, hwalked, htable⟩ := (enforceBatchInOp_inline hcovers hdb.velocity).mp
    ((enforceBatchInOp_eq_ok hdb.velocity).mpr ⟨h.matchable, henforced, rfl⟩)
  have hpostable := (postable_iff order).mpr
    ⟨h.valid, (resolveAncestors_spec).1.mpr h.targets.unlocked⟩
  have hspec := postPreparedInOp_spec order now hdb hprepared
  obtain ⟨db', hdb'⟩ := hspec.1.mpr ⟨hpostable, hmatchable, hwalked, hfresh⟩
  obtain ⟨mappings, hmappings, heffective⟩ := postPreparedInOp_effective hdb hprepared hdb'
  obtain ⟨effectiveBalances, rfl, -⟩ := hspec.2 db' hdb'
  refine ⟨_, hdb', ⟨⟨rfl, rfl, rfl⟩, fun key => ?_, fun key => ?_, rfl, rfl, rfl⟩, ?_⟩
  · -- both spell out the snapshots of the fold
    have hspells := foldBalances_spells hcovers hdb.balances hprepared.journal now key
    have hjournal : ∀ posting ∈ hydrate now prepared, ∀ entry ∈ posting.2,
        entry.journalId = posting.1.journalId := by
      intro hydrated hmem entry hentry
      obtain ⟨posting, hposting, rfl⟩ := List.mem_map.mp hmem
      exact hprepared.journal posting hposting entry hentry
    have hfolded := @foldBalances_spellsFrom _ { found.2 with balances := db.balances.value }
      found.1 now hjournal (fun key _ s hs => hdb.balances.value_keyed hs) key
    exact congrArg (_ ++ ·) (hspells.symm.trans hfolded)
  · show (VelocityTable.advance now db.velocityBalances _).history key = _
    rw [← htable, hcounted, run_timed]
    rfl
  · rw [h.targets.groups, ← heffective]
    refine runEffectiveCalls_mappings _ (fun posting hposting entry hentry => ?_) _
    rw [hmappings posting hposting entry hentry]
    exact walk_orderOf (h.targets.walked posting hposting entry hentry)

end Posted

/-! ## What committed batches leave -/

/-- The rows of a ledger are those of its committed batches, and of their effective updates. -/
structure HoldsLog (db : LedgerDb) (log : List PostedBatch) (updates : List BatchUpdate) :
    Prop where
  balances : balanceWriter.RunsLog db log
  velocity : velocityWriter.RunsLog db log
  postings : HoldsPostings db log
  events : HoldsEvents db log
  knows : KnowsBatches db.toLedgerDirectory log
  made : UpdatesOf log updates
  effective : db.effectiveBalances = fun key => updatesOn updates key []

/-- Some batches can be committed: their versions are as they should be, their targets are known,
and their rows are among those of a ledger. -/
structure Admits (directory : LedgerDirectory) (log : List PostedBatch) : Prop where
  balances : balanceWriter.Allows log
  velocity : velocityWriter.Allows log
  knows : KnowsBatches directory log
  postings : ∃ db rest, HoldsPostings db (log ++ rest)

section Log

variable {db db' : LedgerDb} {log : List PostedBatch} {updates : List BatchUpdate}

/-- **The batches and their updates determine the rows.** -/
theorem HoldsLog.unique (h : HoldsLog db log updates) (h' : HoldsLog db' log updates)
    (hsame : SameAdministration db db') : db' = db := by
  have hbalances : db.balances = db'.balances := h.balances.table_eq h'.balances
  have hvelocity : db.velocityBalances = db'.velocityBalances := h.velocity.table_eq h'.velocity
  have heffective : db'.effectiveBalances = db.effectiveBalances :=
    h'.effective.trans h.effective.symm
  have htransactions : db'.transactions = db.transactions :=
    h'.postings.transactions.trans h.postings.transactions.symm
  have hentries : db'.entries = db.entries := h'.postings.entries.trans h.postings.entries.symm
  have houtbox : db'.outbox = db.outbox := h'.events.outbox.trans h.events.outbox.symm
  obtain ⟨hdirectory, htemplates, hcontrols⟩ := hsame
  cases db with
  | mk directory tables templates controls velocity transactions entries outbox =>
    cases db' with
    | mk directory' tables' templates' controls' velocity' transactions' entries' outbox' =>
      obtain ⟨balances, effective⟩ := tables
      obtain ⟨balances', effective'⟩ := tables'
      cases hbalances
      cases hvelocity
      cases heffective
      cases htransactions
      cases hentries
      cases houtbox
      cases hdirectory
      cases htemplates
      cases hcontrols
      rfl

theorem HoldsLog.admits (h : HoldsLog db log updates) : Admits db.toLedgerDirectory log :=
  ⟨h.balances.allows, h.velocity.allows, h.knows, db, [], by rw [List.append_nil]; exact h.postings⟩

theorem Admits.front {directory : LedgerDirectory} {front back : List PostedBatch}
    (h : Admits directory (front ++ back)) : Admits directory front := by
  obtain ⟨db, rest, hpostings⟩ := h.postings
  rw [List.append_assoc] at hpostings
  exact ⟨h.balances.front, h.velocity.front,
    ⟨h.knows.backed, fun batch hbatch => h.knows.targets batch (List.mem_append_left _ hbatch)⟩,
    db, back ++ rest, hpostings⟩

/-- The rows of the last batch are fresh. -/
theorem Admits.fresh {directory : LedgerDirectory} {batch : PostedBatch}
    (h : Admits directory (log ++ [batch])) (hlog : HoldsPostings db log) :
    FreshRows db batch.postings := by
  obtain ⟨final, rest, hfinal⟩ := h.postings
  have hall : postingsOf (log ++ [batch] ++ rest)
      = (postingsOf log ++ batch.postings) ++ postingsOf rest := by
    rw [postingsOf_append, postingsOf_append]
    exact congrArg (_ ++ · ++ _) (List.flatMap_singleton _ _)
  have htransactions : db.transactions ++ batch.postings.map Prod.fst <+: final.transactions := by
    rw [hlog.transactions, hfinal.transactions, hall, List.map_append, List.map_append]
    exact List.prefix_append _ _
  have hentries : db.entries ++ batch.postings.flatMap Prod.snd <+: final.entries := by
    rw [hlog.entries, hfinal.entries, hall, List.flatMap_append, List.flatMap_append]
    exact List.prefix_append _ _
  have hfresh := hfinal.fresh.transactions
  have hexternal := hfinal.fresh.externalIds
  have hids := hfinal.fresh.entries
  rw [List.map_nil, List.append_nil] at hfresh hexternal
  rw [List.flatMap_nil, List.append_nil] at hids
  exact ⟨hfresh.sublist (htransactions.sublist.map _),
    hexternal.sublist (htransactions.sublist.filterMap _), hids.sublist (hentries.sublist.map _)⟩

end Log

/-! ## One batch after the others -/

/-- What a call prepares from its input. -/
structure Prepares (db : LedgerDb) (ids : EntryIds) (input : List PostingInput)
    (prepared : List PreparedTransaction) : Prop where
  nonempty : input ≠ []
  templates : input.mapM (prepareInput ids db.templates) = some prepared
  distinct : DistinctIds prepared
  cap : (entryBalanceKeys prepared).length ≤ MAX_DISTINCT_BALANCES_PER_BATCH

section Post

variable {db : LedgerDb} {log : List PostedBatch} {updates more : List BatchUpdate} {ids : EntryIds}
  {now : Timestamp} {input : List PostingInput} {prepared : List PreparedTransaction}
  {found : AncestorMappings × PostingState}

/-- The effective updates of a batch go on from those of the batches before it. -/
theorem HoldsLog.effective_concat (h : HoldsLog db log updates) {batch : PostedBatch}
    {enabled : JournalId → Bool} (hmade : MadeFor enabled batch more) {db' : LedgerDb}
    (hsame : SameAdministration db db') (hidentified : Identified db'.entries)
    (hknows : KnowsBatches db'.toLedgerDirectory (log ++ [batch]))
    (hposted : HoldsPostings db' (log ++ [batch])) {order : ScanOrder}
    (hrun : runEffectiveCalls order ((enabledGroups enabled batch.postings).map
      (groupCall db.accounts batch.mappings batch.now)) db.effectiveBalances
        = some db'.effectiveBalances) :
    db'.effectiveBalances = fun key => updatesOn (updates ++ more) key [] := by
  have hcommitted := (h.made.concat enabled hmade).committed hknows hposted
  have haccounts : db'.accounts = db.accounts := congrArg LedgerDirectory.accounts hsame.directory
  have hall := (runEffectiveCalls_updates hidentified order hcommitted).1
  have hearlier := (runEffectiveCalls_updates hidentified order
    (fun update hupdate => hcommitted update (List.mem_append_left _ hupdate))).1
  rw [List.map_append, runEffectiveCalls, List.foldlM_append, ← runEffectiveCalls, hearlier,
    hmade.calls, haccounts, ← h.effective] at hall
  exact Option.some.inj (hrun.symm.trans hall)

/-- **A batch that was posted under what the tables have** could have been posted by itself, after
the batches before it. -/
theorem HoldsLog.post (h : HoldsLog db log updates) (hdb : db.Valid)
    (hinput : Prepares db ids input prepared) (hpost : PostableUnder db now prepared found)
    (hmade : MadeFor found.2.keepsEffective (Postings.postedUnder now prepared found) more)
    (hadmits : Admits db.toLedgerDirectory (log ++ [Postings.postedUnder now prepared found])) :
    ∃ order db', postAllInOp order ids now db input = .ok db'
      ∧ AddsRows (Postings.postedUnder now prepared found) db db'
      ∧ HoldsLog db' (log ++ [Postings.postedUnder now prepared found]) (updates ++ more) := by
  set batch := Postings.postedUnder now prepared found with hbatch
  have hprepared := wellPrepared_of_mapM hinput.templates
  obtain ⟨db', hdb', hadds, heffective⟩ := hpost.posted hdb hprepared (hadmits.fresh h.postings)
    (h.velocity.last hadmits.velocity)
  have hvalid := hdb.post hprepared hdb'
  have hknows : KnowsBatches db'.toLedgerDirectory (log ++ [batch]) := by
    rw [hadds.same.directory]
    exact hadmits.knows
  have hlast : postingsOf (log ++ [batch]) = postingsOf log ++ batch.postings := by
    rw [postingsOf_append]
    exact congrArg _ (List.flatMap_singleton _ _)
  have hposted : HoldsPostings db' (log ++ [batch]) := by
    refine ⟨?_, ?_, hvalid.unique⟩
    · rw [hadds.transactions, h.postings.transactions, hlast, List.map_append]
    · rw [hadds.entries, h.postings.entries, hlast, List.flatMap_append]
  refine ⟨_, db', (postAllInOp_eq_ok hinput.nonempty).mpr
    ⟨prepared, hinput.templates, hinput.distinct, hinput.cap, hdb'⟩, hadds, ?_⟩
  refine ⟨h.balances.concat hadmits.balances hvalid.balances.mirrors hadds.balances,
    h.velocity.concat hadmits.velocity hvalid.velocity hadds.velocity, hposted, ⟨?_, ?_⟩, hknows,
    h.made.concat found.2.keepsEffective hmade,
    h.effective_concat hmade hadds.same hvalid.identified hknows hposted heffective⟩
  · rw [hadds.outbox, h.events.outbox, hlast, List.flatMap_append]
  · intro own hown
    rcases List.mem_append.mp hown with hearlier | hlast
    · exact h.events.stamped own hearlier
    · rw [List.mem_singleton.mp hlast]
      exact ⟨ids, prepared, hprepared, rfl⟩

end Post

/-! ## Runs -/

/-- A ledger after some batches, each posted by itself, one after the other; it may be administered
in between. -/
inductive SerialRun : LedgerDb → List PostedBatch → Prop
  | start (directory : LedgerDirectory) (templates : String → Option TxTemplateValues)
      (accountControls : ControlTable) :
      SerialRun (LedgerDb.fresh directory templates accountControls) []
  | administer {db : LedgerDb} {log : List PostedBatch} (directory : LedgerDirectory)
      (templates : String → Option TxTemplateValues) (accountControls : ControlTable) :
      SerialRun db log →
      SerialRun { db with
        toLedgerDirectory := directory
        templates := templates
        accountControls := accountControls } log
  | post {db db' : LedgerDb} {log : List PostedBatch} (order : RowOrder) (ids : EntryIds)
      (input : List PostingInput) (batch : PostedBatch) :
      SerialRun db log → postAllInOp order ids batch.now db input = .ok db' →
      db'.transactions = db.transactions ++ batch.postings.map Prod.fst →
      db'.entries = db.entries ++ batch.postings.flatMap Prod.snd →
      SerialRun db' (log ++ [batch])

theorem SerialRun.reachable {db : LedgerDb} {log : List PostedBatch} (h : SerialRun db log) :
    Reachable db := by
  induction h with
  | start directory templates accountControls => exact .start directory templates accountControls
  | administer directory templates accountControls _ ih =>
      exact .administer directory templates accountControls ih
  | post order ids input batch _ hpost _ _ ih => exact .post order ids batch.now input ih hpost

/-- The batches of an operation, as it has posted them under one administration, and the effective
updates it has made. -/
inductive SerialBatches (base : LedgerDb) : List PostedBatch → List BatchUpdate → Prop
  | nil : SerialBatches base [] []
  | nothing {posted : List PostedBatch} {updates : List BatchUpdate} (ids : EntryIds) :
      SerialBatches base posted updates →
      SerialBatches base (posted ++ [⟨0, [], fun _ => none, fun _ => none, fun _ _ => []⟩]) updates
  | concat {posted : List PostedBatch} {updates more : List BatchUpdate} {ids : EntryIds}
      {now : Timestamp} {input : List PostingInput} {prepared : List PreparedTransaction}
      {found : AncestorMappings × PostingState} :
      SerialBatches base posted updates → Prepares base ids input prepared →
      PostableUnder base now prepared found →
      MadeFor found.2.keepsEffective (Postings.postedUnder now prepared found) more →
      SerialBatches base (posted ++ [Postings.postedUnder now prepared found]) (updates ++ more)

section Runs

variable {base base' : LedgerDb} {log posted : List PostedBatch}
  {earlier updates : List BatchUpdate} {prepared : List PreparedTransaction} {found : AncestorMappings × PostingState}

theorem Prepares.same {ids : EntryIds} {input : List PostingInput}
    (h : Prepares base ids input prepared) (hsame : SameAdministration base base') :
    Prepares base' ids input prepared := by
  refine ⟨h.nonempty, ?_, h.distinct, h.cap⟩
  rw [hsame.templates]
  exact h.templates

theorem PostableUnder.same {now : Timestamp} (h : PostableUnder base now prepared found)
    (hsame : SameAdministration base base') : PostableUnder base' now prepared found := by
  obtain ⟨hdirectory, -, hcontrols⟩ := hsame
  refine ⟨⟨?_, ?_, ?_, ?_, ?_⟩, ?_, h.matchable⟩
  · simpa only [hdirectory] using h.targets.walked
  · simpa only [hdirectory] using h.targets.journals
  · simpa only [hdirectory] using h.targets.accounts
  · simpa only [hcontrols] using h.targets.controls
  · simpa only [hdirectory] using h.targets.unlocked
  · have hvalid := validateFrom_readFor.mp h.valid
    rw [validateFrom_readFor, hdirectory]
    exact hvalid

theorem SerialBatches.same (h : SerialBatches base posted updates)
    (hsame : SameAdministration base base') : SerialBatches base' posted updates := by
  induction h with
  | nil => exact .nil
  | nothing ids _ ih => exact .nothing ids ih
  | concat _ hprepares hpost hmade ih =>
      exact .concat ih (hprepares.same hsame) (hpost.same hsame) hmade

theorem SerialBatches.updatesOf (h : SerialBatches base posted updates) :
    UpdatesOf posted updates := by
  induction h with
  | nil => exact .nil
  | nothing ids _ ih => exact ih.nothing
  | @concat posted updates more ids now input prepared found _ _ _ hmade ih =>
      exact ih.concat found.2.keepsEffective hmade

/-- A batch without postings leaves nothing. -/
theorem HoldsLog.nothing (h : HoldsLog base log updates) (ids : EntryIds)
    (hadmits : Admits base.toLedgerDirectory
      (log ++ [⟨0, [], fun _ => none, fun _ => none, fun _ _ => []⟩])) :
    HoldsLog base (log ++ [⟨0, [], fun _ => none, fun _ => none, fun _ _ => []⟩]) updates := by
  have hlast : postingsOf (log ++ [⟨0, [], fun _ => none, fun _ => none, fun _ _ => []⟩])
      = postingsOf log := by
    rw [postingsOf_append]
    exact List.append_nil _
  refine ⟨h.balances.concat hadmits.balances h.balances.mirrors
      (fun key => (List.append_nil _).symm),
    h.velocity.concat hadmits.velocity h.velocity.mirrors (fun key => (List.append_nil _).symm),
    ⟨?_, ?_, h.postings.fresh⟩, ⟨?_, ?_⟩, hadmits.knows, h.made.nothing,
    h.effective⟩
  · rw [hlast]
    exact h.postings.transactions
  · rw [hlast]
    exact h.postings.entries
  · rw [hlast]
    exact h.events.outbox
  · intro own hown
    rcases List.mem_append.mp hown with hearlier | hempty
    · exact h.events.stamped own hearlier
    · rw [List.mem_singleton.mp hempty]
      exact ⟨ids, [], fun _ hmem => (List.not_mem_nil hmem).elim, rfl⟩

/-- **The batches of an operation** can be posted by themselves, one after the other. -/
theorem SerialBatches.run (h : SerialBatches base posted updates) (hserial : SerialRun base log)
    (hlog : HoldsLog base log earlier) (hadmits : Admits base.toLedgerDirectory (log ++ posted)) :
    ∃ db, SerialRun db (log ++ posted) ∧ HoldsLog db (log ++ posted) (earlier ++ updates)
      ∧ SameAdministration base db := by
  induction h with
  | nil =>
      rw [List.append_nil, List.append_nil]
      exact ⟨base, hserial, hlog, SameAdministration.refl base⟩
  | @nothing posted updates ids _ ih =>
      rw [← List.append_assoc] at hadmits ⊢
      obtain ⟨db, hrun, hholds, hsame⟩ := ih hadmits.front
      rw [← hsame.directory] at hadmits
      refine ⟨db, .post default ids [] _ hrun rfl ?_ ?_, hholds.nothing ids hadmits, hsame⟩
      · exact (List.append_nil _).symm
      · exact (List.append_nil _).symm
  | @concat posted updates more ids now input prepared found _ hprepares hpost hmade ih =>
      rw [← List.append_assoc] at hadmits ⊢
      rw [← List.append_assoc]
      obtain ⟨db, hrun, hholds, hsame⟩ := ih hadmits.front
      rw [← hsame.directory] at hadmits
      obtain ⟨order, db', hdb', hadds, hholds'⟩ := hholds.post hrun.reachable.valid
        (hprepares.same hsame) (hpost.same hsame) hmade hadmits
      exact ⟨db', .post order ids input _ hrun hdb' hadds.transactions hadds.entries, hholds',
        hsame.trans hadds.same⟩

end Runs

end CalaLedger
