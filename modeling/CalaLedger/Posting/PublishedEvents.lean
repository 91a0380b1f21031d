import CalaLedger.EcRollup.Streaming
import CalaLedger.Posting.CommittedPostings
import CalaLedger.Posting.PreparedCalls

/-! # What interleaved operations publish

In every run of interleaved operations the outbox carries each committed transaction and each
committed entry once, and every transaction is complete in the entry table. The outbox delivers the
events in an order of its own, that of sequences drawn before the commits: in whatever order, and
however they are cut into landings, the rollup is handed the transactions delivered, each with its
complete entry set (`interleaved_outbox_complete`). -/

namespace CalaLedger

open Foundations (Dialogue Server)
open Postings (PostedBatch)

/-! ## Events -/

/-- The events a statement publishes. -/
def PostingStatement.publishedEvents : PostingStatement → List OutboxEventPayload
  | .publishAll payloads => payloads
  | _ => []

/-- A statement appends the events it publishes. -/
theorem PostingStatement.apply_publishes {db db' : LedgerDb} {statement : PostingStatement}
    (h : statement.apply db = some db') :
    db'.outbox = db.outbox ++ statement.publishedEvents := by
  cases statement with
  | publishAll payloads =>
      cases h
      rfl
  | insertPostingsAndBalances postings snapshots =>
      rw [PostingStatement.apply] at h
      split at h
      · obtain ⟨table, -, rfl⟩ := Option.map_eq_some_iff.mp h
        exact (List.append_nil _).symm
      · cases h
  | insertVelocitySnapshots newBalances =>
      obtain ⟨table, -, rfl⟩ := Option.map_eq_some_iff.mp h
      exact (List.append_nil _).symm
  | insertSnapshots snapshots =>
      obtain ⟨table, -, rfl⟩ := Option.map_eq_some_iff.mp h
      exact (List.append_nil _).symm
  | insertEffectiveSnapshots newBalances =>
      obtain ⟨table, -, rfl⟩ := Option.map_eq_some_iff.mp h
      exact (List.append_nil _).symm
  | _ =>
      cases h
      exact (List.append_nil _).symm

/-- What an operation sees are the committed events and those it has published. -/
theorem foldlM_publishes (written : List PostingStatement) : ∀ {db db' : LedgerDb},
    written.foldlM (fun db statement => statement.apply db) db = some db' →
      db'.outbox = db.outbox ++ written.flatMap PostingStatement.publishedEvents := by
  induction written with
  | nil =>
      rintro db _ ⟨⟩
      exact (List.append_nil _).symm
  | cons statement written ih =>
      intro db db' hrun
      rw [List.foldlM_cons] at hrun
      obtain ⟨next, hnext, hrest⟩ := Option.bind_eq_some_iff.mp hrun
      rw [ih hrest, PostingStatement.apply_publishes hnext, List.flatMap_cons, List.append_assoc]

/-- The postings of a batch were prepared together and stamped with its time. -/
def Postings.PostedBatch.Stamped (batch : PostedBatch) : Prop :=
  ∃ ids prepared, WellPrepared ids prepared ∧ batch.postings = hydrate batch.now prepared

/-- What an operation has published are the events of its batches. -/
structure HasPublished (posted : List PostedBatch) (session : PostingSession) : Prop where
  events : session.written.flatMap PostingStatement.publishedEvents
    = (postingsOf posted).flatMap postingEvents
  stamped : ∀ batch ∈ posted, batch.Stamped

/-! ## What a call publishes -/

section Calls

variable {rely : LedgerDb → LedgerDb → Prop} {posted : List PostedBatch} {α : Type}

theorem HasPublished.reads {session session' : PostingSession}
    (hwritten : session'.written = session.written) (h : HasPublished posted session) :
    HasPublished posted session' := by
  refine ⟨?_, h.stamped⟩
  rw [hwritten]
  exact h.events

theorem stable_hasPublished : (PostingSession.server rely).Stable (HasPublished posted) :=
  fun _ _ hothers h => h.reads hothers.1

/-- Whether a statement publishes events. -/
def Publishes (statement : PostingStatement) : Prop :=
  statement.publishedEvents ≠ []

theorem writing_of_publishes (statement : PostingStatement) (h : Publishes statement) :
    Postings.Writing statement := by
  cases statement <;> first | rfl | exact (h rfl).elim

theorem published_execute (session : PostingSession) (db : LedgerDb)
    (statement : PostingStatement) :
    (session.execute db statement).written.flatMap PostingStatement.publishedEvents
      = session.written.flatMap PostingStatement.publishedEvents ++ statement.publishedEvents := by
  show List.flatMap _ (if statement.writes then _ else _) = _
  by_cases hwrites : statement.writes
  · rw [if_pos hwrites, List.flatMap_append, List.flatMap_singleton]
  · have hnone : statement.publishedEvents = [] := by
      by_contra hpublishes
      exact hwrites (writing_of_publishes statement hpublishes)
    rw [if_neg hwrites, hnone, List.append_nil]

/-- Parts of the flow that publish nothing. -/
theorem triple_hasPublished {d : PostingFlow α} (hd : d.ReadOnly Publishes) :
    (PostingSession.server rely).Triple (HasPublished posted) d (fun _ => HasPublished posted)
      (fun _ => True) := by
  refine Server.Triple.of_readOnly stable_hasPublished ?_ (fun _ _ => trivial) hd
  rintro session statement answer _ hnone ⟨_, _, _, -, -, -, rfl⟩ h
  refine ⟨?_, h.stamped⟩
  rw [published_execute, not_not.mp hnone, List.append_nil]
  exact h.events

theorem triple_publishesNothing {d : PostingFlow α} (hd : d.ReadOnly Postings.Writing) :
    (PostingSession.server rely).Triple (HasPublished posted) d (fun _ => HasPublished posted)
      (fun _ => True) :=
  triple_hasPublished (hd.mono writing_of_publishes)

/-- **The last statement** publishes the postings of the batch. -/
theorem triple_publishAll (batch : PostedBatch) (hbatch : batch.Stamped) :
    (PostingSession.server rely).Triple (HasPublished posted)
      (Postings.issue (.publishAll (batch.postings.flatMap postingEvents)))
      (fun _ => HasPublished (posted ++ [batch])) (fun _ => True) := by
  refine Server.Triple.ask stable_hasPublished (fun _ => stable_hasPublished)
    (fun _ _ => trivial) ?_
  rintro session answer _ ⟨_, _, _, -, -, -, rfl⟩ h
  constructor
  · rw [published_execute, h.events, postingsOf_append, List.flatMap_append]
    show _ = _ ++ List.flatMap postingEvents (List.flatMap PostedBatch.postings [batch])
    rw [List.flatMap_singleton]
    rfl
  · intro own hown
    rcases List.mem_append.mp hown with hearlier | hlast
    · exact h.stamped own hearlier
    · rw [List.mem_singleton.mp hlast]
      exact hbatch

theorem triple_postPreparedInOp_publishes {ids : EntryIds} (graph : JournalId → GraphSnapshot)
    (display : JsonDisplay) (now : Timestamp) {prepared : List PreparedTransaction}
    (hprepared : WellPrepared ids prepared) :
    (PostingSession.server rely).Triple (HasPublished posted)
      (Postings.postPreparedInOp graph display now prepared)
      (fun batch => HasPublished (posted ++ [batch])) (fun _ => True) := by
  unfold Postings.postPreparedInOp
  refine (triple_publishesNothing (Postings.readOnly_issue rfl)).bind (fun found => ?_)
  refine (triple_publishesNothing (d := .done _) trivial).bind (fun _ => ?_)
  refine (triple_publishesNothing (Postings.readOnly_resolveAncestors _ _ _ _)).bind
    (fun resolved => ?_)
  obtain ⟨mappings, read⟩ := resolved
  -- the writes before the last statement publish nothing
  refine (triple_hasPublished (Postings.readOnly_enforceBatchInOp writing_of_publishes
    (fun _ hpublishes => hpublishes rfl) _ _ _ _ _)).bind (fun _ => ?_)
  refine (triple_hasPublished (Postings.readOnly_insertPostingsAndBalancesInOp
    (fun _ _ hpublishes => hpublishes rfl) (fun _ hpublishes => hpublishes rfl) _ _)).bind
      (fun _ => ?_)
  refine (triple_hasPublished (Postings.readOnly_updateEffectiveBalances
    (fun _ _ _ hpublishes => hpublishes rfl) (fun _ hpublishes => hpublishes rfl) _ _ _ _)).bind
      (fun _ => ?_)
  refine (triple_publishAll ⟨now, hydrate now prepared, read.accounts, read.controls, mappings⟩
    ⟨ids, prepared, hprepared, rfl⟩).bind (fun _ => ?_)
  exact Server.Triple.ok stable_hasPublished _ (fun _ h => h)

/-- A batch without postings publishes nothing. -/
theorem HasPublished.nothing (ids : EntryIds) {session : PostingSession}
    (h : HasPublished posted session) :
    HasPublished (posted ++ [⟨0, [], fun _ => none, fun _ => none, fun _ _ => []⟩]) session := by
  constructor
  · rw [postingsOf_append, List.flatMap_append]
    exact h.events.trans (List.append_nil _).symm
  · intro own hown
    rcases List.mem_append.mp hown with hearlier | hlast
    · exact h.stamped own hearlier
    · rw [List.mem_singleton.mp hlast]
      exact ⟨ids, [], fun _ hmem => (List.not_mem_nil hmem).elim, rfl⟩

theorem triple_postBatchInOp_publishes (templates : HashMap String ResolvedTemplate)
    (graph : JournalId → GraphSnapshot) (display : JsonDisplay) (ids : EntryIds)
    (batch : List PostingInput) :
    (PostingSession.server rely).Triple (HasPublished posted)
      (Postings.postBatchInOp templates graph display ids batch)
      (fun batch => HasPublished (posted ++ [batch])) (fun _ => True) :=
  Postings.triple_postBatchInOp_of stable_hasPublished (fun _ hwritten h => h.reads hwritten)
    templates batch (fun _ h => h.nothing ids)
    (fun now _ hprepared => triple_postPreparedInOp_publishes graph display now hprepared)

end Calls

/-! ## Runs -/

/-- The outbox holds the events of the committed batches. -/
structure HoldsEvents (db : LedgerDb) (log : List PostedBatch) : Prop where
  outbox : db.outbox = (postingsOf log).flatMap postingEvents
  stamped : ∀ batch ∈ log, batch.Stamped

/-- The argument, put together. -/
def publishingDiscipline : Discipline where
  rely := fun _ _ => True
  global := HoldsEvents
  session := HasPublished
  fresh := fun _ _ _ _ => ⟨rfl, fun _ hmem => (List.not_mem_nil hmem).elim⟩
  administered := fun _ _ _ _ h => ⟨⟨h.outbox, h.stamped⟩, trivial⟩
  begun := fun _ => ⟨rfl, fun _ hmem => (List.not_mem_nil hmem).elim⟩
  stable := fun _ => stable_hasPublished
  reads := fun _ hwritten h => h.reads hwritten
  calls := fun _ templates graph display ids batch =>
    (triple_postBatchInOp_publishes templates graph display ids batch).weaken (fun _ h => h.2)
      (fun _ _ h => h) (fun _ h => h)
  commits := fun {db db' log posted written locks} hlog hposted hview => by
    refine ⟨⟨?_, fun batch hbatch => ?_⟩, trivial⟩
    · rw [foldlM_publishes written hview, hlog.outbox, postingsOf_append, List.flatMap_append]
      exact congrArg _ hposted.events
    · exact (List.mem_append.mp hbatch).elim (hlog.stamped batch) (hposted.stamped batch)

theorem holdsEvents_of_reached {system : LedgerSystem} (h : LedgerSystem.Reached system) :
    HoldsEvents system.committed system.log :=
  (publishingDiscipline.holds h).committed

/-! ## The stream -/

/-- Of a ledger, only its transactions, entries and events matter. -/
theorem Published.congr {db db' : LedgerDb} (h : Published db)
    (htransactions : db'.transactions = db.transactions) (hentries : db'.entries = db.entries)
    (houtbox : db'.outbox = db.outbox) : Published db' := by
  constructor
  · rw [htransactions, houtbox]
    exact h.transactions
  · rw [hentries, houtbox]
    exact h.entries
  · rw [htransactions, hentries]
    exact h.complete
  · rw [htransactions, hentries]
    exact h.owned

/-- What the committed batches have published is what they have committed: batch by batch. -/
theorem HoldsPostings.published {log : List PostedBatch} : ∀ {db : LedgerDb},
    HoldsPostings db log → HoldsEvents db log → Published db := by
  induction log using List.reverseRecOn with
  | nil =>
      intro db hposted hevents
      have hempty : Published (LedgerDb.fresh db.toLedgerDirectory db.templates db.accountControls) :=
        (Reachable.start _ _ _).published
      exact hempty.congr hposted.transactions hposted.entries hevents.outbox
  | append_singleton log batch ih =>
      intro db hposted hevents
      obtain ⟨ids, prepared, hprepared, hbatch⟩ :=
        hevents.stamped batch (List.mem_append_right _ List.mem_cons_self)
      -- the ledger before the last batch
      set before : LedgerDb :=
        { db with
          transactions := (postingsOf log).map Prod.fst
          entries := (postingsOf log).flatMap Prod.snd
          outbox := (postingsOf log).flatMap postingEvents } with hbefore
      have hpostings : postingsOf (log ++ [batch]) = postingsOf log ++ hydrate batch.now prepared := by
        rw [postingsOf_append, ← hbatch]
        exact congrArg _ (List.flatMap_singleton _ _)
      have hfresh : FreshRows before (hydrate batch.now prepared) := by
        have htransactions := hposted.fresh.transactions
        have hexternal := hposted.fresh.externalIds
        have hentries := hposted.fresh.entries
        rw [hposted.transactions, hpostings, List.map_nil, List.append_nil, List.map_append]
          at htransactions hexternal
        rw [hposted.entries, hpostings, List.flatMap_nil, List.append_nil, List.flatMap_append]
          at hentries
        exact ⟨htransactions, hexternal, hentries⟩
      have hearlier : FreshRows before [] := by
        have hsplit := (@freshRows_append before batch.now [] (hydrate batch.now prepared)
          before.effectiveBalances).mp hfresh
        exact hsplit.1
      have hpublished : Published before :=
        ih ⟨rfl, rfl, hearlier⟩ ⟨rfl, fun own hown =>
          hevents.stamped own (List.mem_append_left _ hown)⟩
      refine (hpublished.posted hprepared hfresh before.effectiveBalances).congr ?_ ?_ ?_
      · rw [hposted.transactions, hpostings, List.map_append]
        rfl
      · rw [hposted.entries, hpostings, List.flatMap_append]
        rfl
      · rw [hevents.outbox, hpostings, List.flatMap_append]
        rfl

/-- A ledger that has published what it has committed has a committed stream. -/
theorem Published.committedStream {db : LedgerDb} (h : Published db) (hfresh : FreshRows db []) :
    CommittedStream db.entries db.outbox := by
  have htransactions := hfresh.transactions
  have hentries := hfresh.entries
  rw [List.map_nil, List.append_nil] at htransactions
  rw [List.flatMap_nil, List.append_nil] at hentries
  constructor
  · rw [h.transactions]
    exact htransactions
  · rw [h.transactions]
    exact h.complete
  · rw [h.entries]
    exact hentries.of_map _
  · rw [h.entries]
    exact fun _ hentry => hentry

/-- **Interleaved operations publish what they commit.** Whatever operations interleave, a delivery of
the published events in any order carries each committed transaction and each committed entry once;
and however the events that have been delivered are cut into landings, in whatever order, the rollup
is handed their transactions, each with its complete entry set. -/
theorem interleaved_outbox_complete {system : LedgerSystem} (h : LedgerSystem.Reached system) :
    (system.committed.transactions.map TransactionValues.id).Nodup
      ∧ (system.committed.entries.map EntryValues.id).Nodup
      ∧ (∀ transaction ∈ system.committed.transactions,
          CompleteTransaction system.committed.entries transaction)
      ∧ (∀ stream : List OutboxEventPayload, stream.Perm system.committed.outbox →
          (transactionsOf stream).Perm system.committed.transactions
            ∧ (entriesOf stream).Perm system.committed.entries)
      ∧ ∀ cut : Cut, cut.stream.Subperm system.committed.outbox →
          cut.handed system.committed.entries
            = (transactionsOf cut.stream).map (committedTxn system.committed.entries) := by
  have hposted := holdsPostings_of_reached h
  have hpublished := hposted.published (holdsEvents_of_reached h)
  have hstream := hpublished.committedStream hposted.fresh
  have htransactions := hposted.fresh.transactions
  have hentries := hposted.fresh.entries
  rw [List.map_nil, List.append_nil] at htransactions
  rw [List.flatMap_nil, List.append_nil] at hentries
  refine ⟨htransactions, hentries, hpublished.complete, fun stream hperm => ⟨?_, ?_⟩,
    fun cut hcut => Cut.handed_eq hentries (hstream.subperm hcut)⟩
  · rw [← hpublished.transactions]
    exact hperm.filterMap _
  · rw [← hpublished.entries]
    exact hperm.filterMap _

/-- An operation may post the sample batch and commit it. -/
theorem exists_reached_sample {ν : Type} {measure : LedgerDb → ν} {value : ν}
    (hmeasure : (PostingSession.runAlone default 0 ⟨sampleDb, [], []⟩
      (Postings.postBatchInOp ∅ (fun _ => SetGraphCache.cold) (Classical.choice JsonDisplay.nonempty)
        sampleIds sampleBatch)).2.2.view.map measure = some value) :
    ∃ system, LedgerSystem.Reached system ∧ measure system.committed = value := by
  set alone := PostingSession.runAlone default 0 ⟨sampleDb, [], []⟩
    (Postings.postBatchInOp ∅ (fun _ => SetGraphCache.cold) (Classical.choice JsonDisplay.nonempty)
      sampleIds sampleBatch) with halone
  have hresult : alone.2.1.result?.isSome = true := by decide +kernel
  obtain ⟨posted, hposted⟩ := Option.isSome_iff_exists.mp hresult
  obtain ⟨db, hdb, hvalue⟩ := Option.map_eq_some_iff.mp hmeasure
  have hstart := LedgerSystem.Reached.start sampleDirectory sampleDb.templates (fun _ => none)
    setsBacked_sampleDirectory
  have hreached := hstart.postAlone 0 rfl ∅ (fun _ => SetGraphCache.cold)
    (Classical.choice JsonDisplay.nonempty) sampleIds sampleBatch (LedgerDirectory.knows_cold _)
    default 0 (Foundations.Outcome.result?_eq_some.mp hposted) hdb
  exact ⟨_, hreached, hvalue⟩

/-- The stream of the sample batch, its last four events delivered first. -/
theorem interleaved_outbox_complete_sample :
    ∃ system : LedgerSystem, system.committed.outbox.length = 6
      ∧ (transactionsOf (system.committed.outbox.drop 2 ++ system.committed.outbox.take 2)).Perm
          system.committed.transactions
      ∧ Cut.handed system.committed.entries
          [(default, system.committed.outbox.drop 2), (default, system.committed.outbox.take 2)]
        = (transactionsOf (system.committed.outbox.drop 2 ++ system.committed.outbox.take 2)).map
            (committedTxn system.committed.entries) := by
  obtain ⟨system, hreached, hlength⟩ :=
    @exists_reached_sample _ (fun db => db.outbox.length) 6 (by decide +kernel)
  obtain ⟨-, -, -, hdelivered, hhanded⟩ := interleaved_outbox_complete hreached
  have hperm : (system.committed.outbox.drop 2 ++ system.committed.outbox.take 2).Perm
      system.committed.outbox :=
    List.perm_append_comm.trans (List.Perm.of_eq (List.take_append_drop _ _))
  have hstream : Cut.stream [((default : RowOrder), system.committed.outbox.drop 2),
      (default, system.committed.outbox.take 2)]
      = system.committed.outbox.drop 2 ++ system.committed.outbox.take 2 := by
    simp [Cut.stream]
  refine ⟨system, hlength, (hdelivered _ hperm).1, ?_⟩
  rw [hhanded _ (hstream ▸ hperm.subperm), hstream]

end CalaLedger
