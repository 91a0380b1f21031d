import CalaLedger.Balance.FoldLaw
import CalaLedger.Posting.CommittedPostings
import CalaLedger.Posting.KnownAccounts
import CalaLedger.Posting.PublishedEvents

/-! # Settled histories under interleaved operations

In every run, the history of a balance that is written inline is the run of the entries folded into
it, of all committed postings: no version is lost, whichever way the ancestors of a posting were
found and whatever was committed between its statements. -/

namespace CalaLedger

open Foundations (Dialogue Server VersionedTable rowsOf)
open Postings (PostedBatch)

/-! ## The settled tables -/

/-- The balances a statement inserts. -/
def PostingStatement.settledRows : PostingStatement → List (BalanceKey × BalanceSnapshot)
  | .insertPostingsAndBalances _ snapshots => balanceRows snapshots
  | .insertSnapshots snapshots => balanceRows snapshots
  | _ => []

/-- `insertSnapshotsInOp`, of the rows. -/
def insertBalanceRows (table : BalanceTable) (rows : List (BalanceKey × BalanceSnapshot)) :
    Option BalanceTable := do
  let history ← VersionedTable.appendHistory BalanceSnapshot.version table rows
  some
    { history := history
      current := fun key => upsertCurrent (table.current key) (rowsOf rows key) }

theorem inserts_insertBalanceRows :
    VersionedTable.Inserts BalanceSnapshot.version insertBalanceRows where
  appends := fun {table table' rows} h key => by
    obtain ⟨history, hhistory, h⟩ := Option.bind_eq_some_iff.mp h
    cases h
    obtain ⟨happended, hapart⟩ := VersionedTable.appendHistory_eq_some hhistory
    exact ⟨happended key, hapart key⟩
  mirrors := fun {table table' rows} h hmirrors hrows => by
    obtain ⟨history, hhistory, h⟩ := Option.bind_eq_some_iff.mp h
    cases h
    have hextend : (⟨history, fun key => upsertCurrent (table.current key) (rowsOf rows key)⟩ :
        BalanceTable) = table.extend BalanceSnapshot.version rows := by
      have happended := (VersionedTable.appendHistory_eq_some hhistory).1
      refine congrArg₂ VersionedTable.mk (funext happended) (funext (fun key => ?_))
      exact upsertCurrent_eq (hrows key) (fun row hrow => (hmirrors.current_version hrow).1)
    rw [hextend]
    exact hmirrors.extend hrows

@[simp] theorem insertBalanceRows_nil (table : BalanceTable) :
    insertBalanceRows table [] = some table := by
  cases table
  simp [insertBalanceRows, VersionedTable.appendHistory, upsertCurrent, newestRow]

/-- What a statement does to the settled balances. -/
theorem insertBalanceRows_apply {db db' : LedgerDb} {statement : PostingStatement}
    (h : statement.apply db = some db') :
    insertBalanceRows db.balances statement.settledRows = some db'.balances := by
  cases statement with
  | insertPostingsAndBalances postings snapshots =>
      rw [PostingStatement.apply] at h
      split at h
      · obtain ⟨table, htable, rfl⟩ := Option.map_eq_some_iff.mp h
        exact htable
      · cases h
  | insertSnapshots snapshots =>
      obtain ⟨table, htable, rfl⟩ := Option.map_eq_some_iff.mp h
      exact htable
  | insertVelocitySnapshots newBalances =>
      obtain ⟨table, -, rfl⟩ := Option.map_eq_some_iff.mp h
      exact insertBalanceRows_nil _
  | insertEffectiveSnapshots newBalances =>
      obtain ⟨table, -, rfl⟩ := Option.map_eq_some_iff.mp h
      exact insertBalanceRows_nil _
  | _ =>
      cases h
      exact insertBalanceRows_nil _

/-- The entries a posted batch folded into a balance. -/
def Postings.PostedBatch.folded (batch : PostedBatch) (key : BalanceKey) : List TimedEntry :=
  foldedEvents batch.involves batch.mappings batch.now batch.postings key

/-- `cala_balance_history` and `cala_current_balances`, as the flow writes them. -/
def balanceWriter : TableWriter BalanceKey BalanceSnapshot TimedEntry where
  version := BalanceSnapshot.version
  next := nextTimed
  ok := fun key _ snapshot => snapshot.key = key
  events := Postings.PostedBatch.folded
  table := fun db => db.balances
  rows := PostingStatement.settledRows
  insert := insertBalanceRows
  counts := countsEvents_nextTimed
  inserts := inserts_insertBalanceRows
  applies := insertBalanceRows_apply
  reads := fun {statement} hreads => by
    cases statement <;> first | rfl | exact (hreads rfl).elim
  fresh := fun _ _ _ => rfl
  administered := fun _ _ _ _ => rfl

/-! ## The flow -/

section Flow

open TableWriter (readOnly_touches triple_seen triple_spelled triple_write Unseen)

variable {posted : List PostedBatch}

/-- A statement that leaves the settled balances alone. -/
theorem readOnly_issue_settled {statement : PostingStatement} (h : statement.settledRows = []) :
    (Postings.issue statement).ReadOnly balanceWriter.Touches :=
  Dialogue.ReadOnly.ask (fun htouches => htouches h)

variable {prepared : List PreparedTransaction} {mappings : AncestorMappings} {keys : List BalanceKey}

/-- The first read sees the balances of the entry accounts, and no others. -/
theorem triple_readPostingState (accountIds : List AccountId) (journalIds : List JournalId)
    (keys : List BalanceKey) :
    balanceWriter.server.Triple (balanceWriter.Unseen posted)
      (Postings.issue (.readPostingState accountIds journalIds keys))
      (fun found session => (∀ key ∉ keys, found.2.balances key = none)
        ∧ balanceWriter.Seen (· ∈ keys) found.2.balances posted session) (fun _ => True) := by
  refine Server.Triple.ask TableWriter.stable_seen
    (fun _ _ _ hothers h => ⟨h.1, TableWriter.stable_seen hothers h.2⟩) (fun _ _ => trivial) ?_
  rintro session answer _ ⟨order, time, db, hview, -, rfl, rfl⟩ hsession
  refine ⟨fun key hkey => if_neg hkey, ?_⟩
  refine TableWriter.Seen.untouched (fun htouches => htouches rfl) ?_
  exact hsession.read hview (fun key hkey => Or.inr (onlyKeys_of_mem hkey _))

variable {seen : BalanceKey → Prop} {base : BalanceKey → Option BalanceSnapshot}

/-- The journal loop collects the keys of all ancestors, whichever way it finds them. -/
theorem triple_resolveJournal (graph : JournalId → GraphSnapshot)
    (prepared : List PreparedTransaction) (epoch : ℤ) (seeds : List AccountMembership)
    (found : AncestorMappings × List BalanceKey) (journalId : JournalId) :
    balanceWriter.server.Triple
      (fun session => CoversAncestors prepared found ∧ balanceWriter.Seen seen base posted session)
      (Postings.resolveJournal graph prepared epoch seeds found journalId)
      (fun found session => CoversAncestors prepared found
        ∧ balanceWriter.Seen seen base posted session) (fun _ => True) := by
  refine Server.Triple.of_fact (fun hcovers => ?_)
  unfold Postings.resolveJournal
  split
  · exact Server.Triple.ok TableWriter.stable_seen _ (fun _ h => ⟨hcovers, h⟩)
  · refine (triple_seen (readOnly_touches
      (Postings.readOnly_resolveFromProbeInOp _ _ _ _ _))).bind (fun resolved => ?_)
    exact Server.Triple.ok TableWriter.stable_seen _
      (fun _ h => ⟨hcovers.update journalId resolved, h⟩)

/-- **The two reads** see the newest version of every balance an entry has among its targets. -/
theorem triple_resolveAncestors (graph : JournalId → GraphSnapshot)
    (prepared : List PreparedTransaction) (epoch : ℤ) (read : PostingState)
    (hothers : ∀ key ∉ sortedDeduped (entryBalanceKeys prepared), read.balances key = none) :
    balanceWriter.server.Triple
      (balanceWriter.Seen (· ∈ sortedDeduped (entryBalanceKeys prepared)) read.balances posted)
      (Postings.resolveAncestors graph prepared epoch read)
      (fun resolved => balanceWriter.Seen (Targeted prepared resolved.1) resolved.2.balances posted)
      (fun _ => True) := by
  -- without ancestor keys the first read has seen every target
  have hfirst : ∀ {mappings : AncestorMappings} {session : PostingSession},
      CoversAncestors prepared (mappings, []) →
      balanceWriter.Seen (· ∈ sortedDeduped (entryBalanceKeys prepared)) read.balances posted
        session → balanceWriter.Seen (Targeted prepared mappings) read.balances posted session := by
    intro mappings session hcovers hsession
    have hkeys : ∀ key, Targeted prepared mappings key →
        key ∈ sortedDeduped (entryBalanceKeys prepared) :=
      fun key htargeted => mem_sortedDeduped.mpr
        ((htargeted.cases hcovers).resolve_right (fun h => List.not_mem_nil h.1))
    exact ⟨hsession.spelled, fun key hkey => hsession.ok key (hkeys key hkey),
      fun key hkey => hsession.saw key (hkeys key hkey)⟩
  unfold Postings.resolveAncestors
  split
  · exact Server.Triple.ok TableWriter.stable_seen _
      (fun session => hfirst (coversAncestors_nil []))
  · have hloop := Server.Triple.foldEach
      (fun _ found session => CoversAncestors prepared found
        ∧ balanceWriter.Seen (· ∈ sortedDeduped (entryBalanceKeys prepared)) read.balances posted
            session)
      (fun _ _ _ hothers h => ⟨h.1, TableWriter.stable_seen hothers h.2⟩)
      (fun journalId _ found => triple_resolveJournal graph prepared epoch read.seeds found journalId)
      (sortedDedup (prepared.map PreparedTransaction.journalId)) (fun _ _ => [], [])
    refine (hloop.weaken (fun _ h => ⟨coversAncestors_nil [], h⟩) (fun _ _ h => h)
      (fun _ h => h)).bind (fun found => Server.Triple.of_fact (fun hcovers => ?_))
    obtain ⟨mappings, keys⟩ := found
    dsimp only
    split
    · rename_i hnone
      refine Server.Triple.ok TableWriter.stable_seen _ (fun session => hfirst ?_)
      rw [← hnone]
      exact hcovers
    · have hread : balanceWriter.server.Triple
          (balanceWriter.Seen (· ∈ sortedDeduped (entryBalanceKeys prepared)) read.balances posted)
          (Postings.issue (.readAncestorState (sortedDedup (keys.map BalanceKey.accountId))
            (sortedDeduped keys)))
          (fun supplemental => balanceWriter.Seen (Targeted prepared mappings)
            (read.extend supplemental).balances posted) (fun _ => True) := by
        refine Server.Triple.ask TableWriter.stable_seen (fun _ => TableWriter.stable_seen)
          (fun _ _ => trivial) ?_
        rintro session answer _ ⟨order, time, db, hview, -, rfl, rfl⟩ hsession
        refine TableWriter.Seen.untouched (fun htouches => htouches rfl) ?_
        refine hsession.read hview (fun key htargeted => ?_)
        show _ ∧ (onlyKeys _ db.balances.value key).or (read.balances key) = read.balances key
          ∨ (onlyKeys _ db.balances.value key).or (read.balances key) = db.balances.value key
        by_cases hkey : key ∈ sortedDeduped keys
        · rw [onlyKeys_of_mem hkey]
          cases hvalue : db.balances.value key with
          | some balance => exact Or.inr rfl
          | none =>
              -- no row yet: the first read found none either, if it looked
              rw [Option.none_or]
              by_cases hentry : key ∈ sortedDeduped (entryBalanceKeys prepared)
              · exact Or.inl ⟨hentry, rfl⟩
              · exact Or.inr (hothers key hentry)
        · have hentry : key ∈ sortedDeduped (entryBalanceKeys prepared) := by
            refine mem_sortedDeduped.mpr ((htargeted.cases hcovers).resolve_right ?_)
            exact fun h => hkey (mem_sortedDeduped.mpr h.1)
          rw [onlyKeys, if_neg hkey, Option.none_or]
          exact Or.inl ⟨hentry, rfl⟩
      refine hread.bind (fun supplemental => ?_)
      split
      · exact Server.Triple.error TableWriter.stable_seen _ (fun _ _ => trivial)
      · exact Server.Triple.ok TableWriter.stable_seen _ (fun _ h => h)

/-- **The fold** computes, from the balances that were seen, the versions that follow. -/
theorem spelled_foldBalances {session : PostingSession} {ids : EntryIds} {read : PostingState}
    {now : Timestamp} (hprepared : WellPrepared ids prepared)
    (h : balanceWriter.Seen (Targeted prepared mappings) read.balances posted session) :
    balanceWriter.Spelled
      (balanceRows (foldBalances (hydrate now prepared) read mappings now))
      (posted ++ [⟨now, hydrate now prepared, read.accounts, read.controls, mappings⟩]) session := by
  set batch : PostedBatch := ⟨now, hydrate now prepared, read.accounts, read.controls, mappings⟩
    with hbatch
  have hfolded : ∀ key, batch.folded key
      = foldedEvents read.involves mappings now (hydrate now prepared) key := fun _ => rfl
  have htargeted : ∀ key, batch.folded key ≠ [] → Targeted prepared mappings key := by
    intro key hsome
    obtain ⟨timed, htimed⟩ := List.exists_mem_of_ne_nil _ hsome
    rw [hfolded] at htimed
    obtain ⟨-, -, ⟨hydrated, hmem, hjournal, hentry⟩, hcurrency, htarget⟩ :=
      mem_foldedEvents.mp htimed
    obtain ⟨posting, hposting, rfl⟩ := List.mem_map.mp hmem
    exact ⟨posting, hposting, hjournal, timed.2, hentry, hcurrency, htarget⟩
  have hkeyed : ∀ key, batch.folded key ≠ [] → ∀ s ∈ read.balances key, s.key = key := by
    intro key hsome s hs
    obtain ⟨_, hkey⟩ := h.ok key (htargeted key hsome) s hs
    exact hkey
  have hjournals : ∀ posting ∈ hydrate now prepared, ∀ entry ∈ posting.2,
      entry.journalId = posting.1.journalId := by
    intro hydrated hmem entry hentry
    obtain ⟨posting, hposting, rfl⟩ := List.mem_map.mp hmem
    exact hprepared.journal posting hposting entry hentry
  have hspells := foldBalances_spellsFrom hjournals hkeyed
  refine h.spell htargeted (fun key => ?_) (fun key => ?_)
  · rw [rowsOf_balanceRows]
    exact hspells key
  · -- every version names its balance
    by_cases hnone : batch.folded key = []
    · show List.Forall₂ _ (batch.folded key) (VersionedTable.run _ _ (batch.folded key))
      rw [hnone]
      exact List.Forall₂.nil
    · have hevents : ∀ timed ∈ batch.folded key,
          timed.2.journalId = key.journalId ∧ timed.2.currency = key.currency := by
        intro timed htimed
        obtain ⟨-, -, ⟨posting, hposting, hjournal, hentry⟩, hcurrency, -⟩ :=
          mem_foldedEvents.mp htimed
        exact ⟨(hjournals posting hposting _ hentry).trans hjournal, hcurrency⟩
      refine List.forall₂_iff_zip.mpr ⟨(VersionedTable.run_length _ _ _).symm, fun hmem => ?_⟩
      exact run_keyed _ (hkeyed key hnone) hevents _ (List.of_mem_zip hmem).2

/-- The chunks behind the head. -/
theorem triple_insertChunks (chunks : List (List BalanceSnapshot)) :
    balanceWriter.server.Triple (balanceWriter.Spelled (balanceRows chunks.flatten) posted)
      (Dialogue.forEach (fun chunk => Postings.issue (.insertSnapshots chunk)) chunks)
      (fun _ => balanceWriter.Spelled [] posted) (fun _ => True) := by
  induction chunks with
  | nil => exact Server.Triple.ok TableWriter.stable_spelled () (fun _ h => h)
  | cons chunk chunks ih =>
      refine Server.Triple.bind ?_ (fun _ => ih)
      rw [List.flatten_cons, balanceRows_append]
      exact triple_write balanceWriter (.insertSnapshots chunk)

/-- **The insert** writes what was folded, wherever its chunks are cut. -/
theorem triple_insertSettled (postings : List HydratedPosting) (snapshots : List BalanceSnapshot) :
    balanceWriter.server.Triple (balanceWriter.Spelled (balanceRows snapshots) posted)
      (Postings.insertPostingsAndBalancesInOp postings snapshots)
      (fun _ => balanceWriter.Spelled [] posted) (fun _ => True) := by
  have hsplit : snapshots = snapshots.take (min snapshots.length INSERT_SNAPSHOT_BATCH_SIZE)
      ++ (Foundations.chunks INSERT_SNAPSHOT_BATCH_SIZE
        (snapshots.drop (min snapshots.length INSERT_SNAPSHOT_BATCH_SIZE))).flatten := by
    rw [Foundations.flatten_chunks (by decide), List.take_append_drop]
  unfold Postings.insertPostingsAndBalancesInOp
  refine Server.Triple.bind ?_ (fun _ => triple_insertChunks _)
  nth_rewrite 1 [hsplit]
  rw [balanceRows_append]
  exact triple_write balanceWriter (.insertPostingsAndBalances postings _)

/-- **Up to the insert**, every version of the batch is computed and written. -/
theorem triple_settlePreparedInOp {ids : EntryIds} (graph : JournalId → GraphSnapshot)
    (display : JsonDisplay) (now : Timestamp) (hprepared : WellPrepared ids prepared) :
    balanceWriter.server.Triple (balanceWriter.Unseen posted)
      (Postings.settlePreparedInOp graph display now prepared)
      (fun found => balanceWriter.Spelled [] (posted ++ [Postings.postedUnder now prepared found]))
      (fun _ => True) := by
  unfold Postings.settlePreparedInOp
  refine (triple_readPostingState _ _ _).bind (fun found => Server.Triple.of_fact (fun hothers => ?_))
  refine (triple_seen (d := .done _) trivial).bind (fun _ => ?_)
  refine (triple_resolveAncestors graph prepared found.1 found.2 hothers).bind (fun resolved => ?_)
  obtain ⟨mappings, read⟩ := resolved
  -- velocity balances are another table
  have hreads : ∀ statement, balanceWriter.Touches statement → Postings.Writing statement :=
    fun statement htouches => by
      by_contra hreads
      exact TableWriter.not_touches hreads htouches
  refine (triple_seen (Postings.readOnly_enforceBatchInOp hreads
    (fun _ htouches => htouches rfl) _ _ _ _ _)).bind (fun _ => ?_)
  refine ((triple_insertSettled _ _).weaken (fun _ h => spelled_foldBalances hprepared h)
    (fun _ _ h => h) (fun _ h => h)).bind (fun _ => ?_)
  exact Server.Triple.ok TableWriter.stable_spelled _ (fun _ h => h)

theorem triple_postSettledInOp {ids : EntryIds} (graph : JournalId → GraphSnapshot)
    (display : JsonDisplay) (now : Timestamp) (hprepared : WellPrepared ids prepared) :
    balanceWriter.server.Triple (balanceWriter.Unseen posted)
      (Postings.postPreparedInOp graph display now prepared)
      (fun batch => balanceWriter.Spelled [] (posted ++ [batch])) (fun _ => True) := by
  rw [Postings.postPreparedInOp_eq]
  refine (triple_settlePreparedInOp graph display now hprepared).bind (fun found => ?_)
  -- so are the effective balances
  refine (triple_spelled (Postings.readOnly_updateEffectiveBalances
    (fun _ _ _ htouches => htouches rfl) (fun _ htouches => htouches rfl) _ _ _ _)).bind
      (fun _ => ?_)
  refine (triple_spelled (readOnly_issue_settled rfl)).bind (fun _ => ?_)
  exact Server.Triple.ok TableWriter.stable_spelled _ (fun _ h => h)

end Flow

/-! ## Runs -/

theorem calls_balanceWriter : balanceWriter.Calls :=
  TableWriter.calls_of_postPreparedInOp (fun _ => rfl)
    (fun _ graph display _ now _ hprepared => triple_postSettledInOp graph display now hprepared)

/-- What the versions of a balance are made of: the entries folded into it, of the batches in
order. -/
def foldedOf (batches : List PostedBatch) (key : BalanceKey) : List TimedEntry :=
  batches.flatMap (fun batch => batch.folded key)

/-- **No version is lost**: the committed versions of a balance are the run of the entries folded
into it. -/
theorem settledHistory_eq_run {system : LedgerSystem} (h : LedgerSystem.Reached system)
    (key : BalanceKey) :
    system.committed.balances.history key
      = VersionedTable.run (nextTimed key) none (foldedOf system.log key) :=
  (TableWriter.runsLog_of_reached calls_balanceWriter h).history key

/-- Every version adds one entry to the one before; the first to an empty balance. -/
inductive AddsOneByOne (accountId : AccountId) :
    Option BalanceSnapshot → List TimedEntry → List BalanceSnapshot → Prop
  | nil (base : Option BalanceSnapshot) : AddsOneByOne accountId base [] []
  | cons {base : Option BalanceSnapshot} {timed : TimedEntry} {events : List TimedEntry}
      {snapshot : BalanceSnapshot} {snapshots : List BalanceSnapshot}
      (first : AddsEntry timed.1 timed.2 (base.getD (firstSnapshot timed.1 accountId timed.2))
        snapshot)
      (rest : AddsOneByOne accountId (some snapshot) events snapshots) :
      AddsOneByOne accountId base (timed :: events) (snapshot :: snapshots)

theorem run_addsOneByOne (key : BalanceKey) (events : List TimedEntry) :
    ∀ base, AddsOneByOne key.accountId base events
      (VersionedTable.run (nextTimed key) base events) := by
  induction events with
  | nil => exact fun base => AddsOneByOne.nil base
  | cons timed events ih =>
      exact fun base => AddsOneByOne.cons (nextSnapshot_adds timed.1 key.accountId base timed.2) (ih _)

/-- Every version names its entry. -/
theorem AddsOneByOne.entryIds {accountId : AccountId} {base : Option BalanceSnapshot}
    {events : List TimedEntry} {snapshots : List BalanceSnapshot}
    (h : AddsOneByOne accountId base events snapshots) :
    snapshots.map BalanceSnapshot.entryId = events.map (fun timed => timed.2.id) := by
  induction h with
  | nil base => rfl
  | cons first rest ih => rw [List.map_cons, List.map_cons, ih, first.entryId]

/-- The entry was posted by a committed batch that has the balance among the targets of the entry,
and the balance is kept inline. -/
def FoldedInto (system : LedgerSystem) (key : BalanceKey) (timed : TimedEntry) : Prop :=
  system.committed.accounts.consistency false key.accountId
    ∧ ∃ batch ∈ system.log, timed.1 = batch.now
      ∧ ∃ posting ∈ batch.postings, posting.1.journalId = key.journalId
        ∧ timed.2 ∈ posting.2 ∧ timed.2.currency = key.currency
        ∧ key.accountId ∈ inlineTargets (batch.mappings posting.1.journalId) timed.2

section Runs

variable {system : LedgerSystem} {key : BalanceKey}

theorem mem_foldedOf (h : KnowsBatches system.committed.toLedgerDirectory system.log)
    {timed : TimedEntry} : timed ∈ foldedOf system.log key ↔ FoldedInto system key timed := by
  have hfolded : ∀ batch : PostedBatch, timed ∈ batch.folded key
      ↔ batch.involves key.accountId = true ∧ timed.1 = batch.now
        ∧ (∃ posting ∈ batch.postings, posting.1.journalId = key.journalId ∧ timed.2 ∈ posting.2)
        ∧ timed.2.currency = key.currency
        ∧ key.accountId ∈ inlineTargets (batch.mappings key.journalId) timed.2 :=
    fun batch => mem_foldedEvents
  rw [foldedOf, List.mem_flatMap]
  constructor
  · rintro ⟨batch, hbatch, hmem⟩
    obtain ⟨hinvolves, hnow, ⟨posting, hposting, hjournal, hentry⟩, hcurrency, htarget⟩ :=
      (hfolded batch).mp hmem
    rw [← hjournal] at htarget
    have hmode := (h.targets batch hbatch).involves hposting hentry htarget
    exact ⟨hmode.mp hinvolves, batch, hbatch, hnow, posting, hposting, hjournal, hentry, hcurrency,
      htarget⟩
  · rintro ⟨hmode, batch, hbatch, hnow, posting, hposting, hjournal, hentry, hcurrency, htarget⟩
    have hinvolves := ((h.targets batch hbatch).involves hposting hentry htarget).mpr hmode
    rw [hjournal] at htarget
    exact ⟨batch, hbatch, (hfolded batch).mpr
      ⟨hinvolves, hnow, ⟨posting, hposting, hjournal, hentry⟩, hcurrency, htarget⟩⟩

/-- A batch folds each of its entries at most once into a balance. -/
theorem folded_sublist {directory : LedgerDirectory} {batch : PostedBatch}
    (h : batch.KnowsTargets directory) :
    ((batch.folded key).map Prod.snd).Sublist (batch.postings.flatMap Prod.snd) := by
  unfold Postings.PostedBatch.folded foldedEvents
  split
  · rw [List.map_map]
    have hall : ((batch.postings.filter (fun posting => posting.1.journalId = key.journalId)).flatMap
        Prod.snd).Sublist (batch.postings.flatMap Prod.snd) := List.filter_sublist.flatMap _
    refine List.Sublist.trans ?_ hall
    have hid : Prod.snd ∘ (fun entry : EntryValues => (batch.now, entry)) = id := rfl
    rw [hid, List.map_id]
    refine hits_sublist _ _ _ (fun entry hentry => ?_)
    obtain ⟨posting, hposting, hentry⟩ := List.mem_flatMap.mp hentry
    obtain ⟨hposting, hjournal⟩ := List.mem_filter.mp hposting
    rw [← of_decide_eq_true hjournal]
    exact h.distinct posting hposting entry hentry
  · exact List.nil_sublist _

/-- So do all committed batches. -/
theorem foldedOf_sublist (h : KnowsBatches system.committed.toLedgerDirectory system.log) :
    ((foldedOf system.log key).map Prod.snd).Sublist
      ((postingsOf system.log).flatMap Prod.snd) := by
  rw [foldedOf, postingsOf, List.map_flatMap, List.flatMap_assoc]
  exact List.Sublist.flatMap_right _ (fun batch hbatch => folded_sublist (h.targets batch hbatch))

/-- **No lost update.** Whatever operations interleave, the committed rows are those of the committed
batches, and the settled history of a balance is a chain of versions without a gap: the first is one
entry on an empty balance, each later one is the one before with one more entry. The entries of the
chain are those folded into the balance, if it is kept inline, each of them once: batch by batch in
the order of the commits, and within a batch in the order of its postings. -/
theorem no_lost_update {system : LedgerSystem} (h : LedgerSystem.Reached system) :
    HoldsPostings system.committed system.log
    ∧ ∀ key,
        AddsOneByOne key.accountId none (foldedOf system.log key)
          (system.committed.balances.history key)
        ∧ (system.committed.balances.history key).map BalanceSnapshot.version
          = List.range' 1 (foldedOf system.log key).length
        ∧ ((system.committed.balances.history key).map BalanceSnapshot.entryId).Nodup
        ∧ (∀ timed, timed ∈ foldedOf system.log key ↔ FoldedInto system key timed)
        ∧ ((foldedOf system.log key).map Prod.snd).Sublist
            ((postingsOf system.log).flatMap Prod.snd)
        ∧ ∀ batch ∈ system.log,
            ((batch.folded key).map Prod.snd).Sublist (batch.postings.flatMap Prod.snd) := by
  have hposted := holdsPostings_of_reached h
  have hknows := knowsBatches_of_reached h
  refine ⟨hposted, fun key => ?_⟩
  have hrun := settledHistory_eq_run h key
  have hadds : AddsOneByOne key.accountId none (foldedOf system.log key)
      (system.committed.balances.history key) := by
    rw [hrun]
    exact run_addsOneByOne key _ none
  refine ⟨hadds, ?_, ?_, fun timed => mem_foldedOf hknows, foldedOf_sublist hknows,
    fun batch hbatch => folded_sublist (hknows.targets batch hbatch)⟩
  · have hcounts := (TableWriter.runsLog_of_reached calls_balanceWriter h).mirrors.counts key
    have hlength : (system.committed.balances.history key).length = (foldedOf system.log key).length := by
      rw [hrun, VersionedTable.run_length]
    rw [← hlength]
    exact hcounts
  · have hunique : (system.committed.entries.map EntryValues.id).Nodup := by
      simpa using hposted.fresh.entries
    rw [hposted.entries] at hunique
    have hsublist : (((foldedOf system.log key).map Prod.snd).map EntryValues.id).Sublist _ :=
      (foldedOf_sublist hknows).map EntryValues.id
    rw [List.map_map] at hsublist
    rw [hadds.entryIds]
    exact hunique.sublist hsublist

end Runs

/-- Two postings below an account set, committed. -/
theorem no_lost_update_sample :
    ∃ system : LedgerSystem, LedgerSystem.Reached system
      ∧ (system.committed.balances.history ⟨⟨1⟩, ⟨3⟩, ⟨"USD"⟩⟩).length = 2
      ∧ ((system.committed.balances.history ⟨⟨1⟩, ⟨3⟩, ⟨"USD"⟩⟩).map
          BalanceSnapshot.entryId).Nodup := by
  obtain ⟨system, hreached, hlength⟩ := @exists_reached_sample _
    (fun db => (db.balances.history ⟨⟨1⟩, ⟨3⟩, ⟨"USD"⟩⟩).length) 2 (by decide +kernel)
  obtain ⟨-, hchains⟩ := no_lost_update hreached
  obtain ⟨-, -, hunique, -⟩ := hchains ⟨⟨1⟩, ⟨3⟩, ⟨"USD"⟩⟩
  exact ⟨system, hreached, hlength, hunique⟩

end CalaLedger
