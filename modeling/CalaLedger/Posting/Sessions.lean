import CalaLedger.Balance.ModifiedSince
import CalaLedger.Posting.Batch

/-! # Operations in flight

An operation takes its time when it begins (`NOW()` of its transaction) and commits later, so the
times along the commits of a ledger come in any order. The balances an operation writes stay locked
from before it reads them until it commits, so what it posts is taken at its commit.

Along such a run the stamps of the effective rows are those of the updates committed
(`Sessions.Run.sound`), and the listing of changed rows keeps its promise exactly when no balance and
day is overtaken (`modified_since_latest_iff`). -/

namespace CalaLedger

/-- What a batch prepares, given the templates it reads. -/
def preparedOf (ids : EntryIds) (db : LedgerDb) (batch : List PostingInput) :
    List PreparedTransaction :=
  (batch.mapM (prepareInput ids db.templates)).getD []

/-- The effective updates of a batch. -/
def batchCalls (directory : LedgerDirectory) (now : Timestamp)
    (prepared : List PreparedTransaction) : List EffectiveCall :=
  (effectiveGroups directory (hydrate now prepared)).map
    (groupCall directory.accounts directory.memberships.walkMappings now)

/-- The effective updates of a rollup. -/
def rollupCalls (order : RowOrder) (directory : LedgerDirectory) (txns : List EcRollupTxn) :
    List EffectiveCall :=
  (txns.filter (fun tx => directory.keepsEffective tx.journalId)).map (ecCall order directory)

/-- The committed tables, the database clock, the times of the operations in flight, and the
effective updates committed so far. -/
structure Sessions where
  db : LedgerDb
  clock : Timestamp
  begun : List Timestamp
  updates : List EffectiveCall

namespace Sessions

/-- The runs of a ledger whose operations overlap. -/
inductive Run : Sessions → Prop
  | start (directory : LedgerDirectory) (templates : String → Option TxTemplateValues)
      (accountControls : ControlTable) (clock : Timestamp) :
      Run ⟨LedgerDb.fresh directory templates accountControls, clock, [], []⟩
  | tick {s : Sessions} {clock : Timestamp} : Run s → s.clock ≤ clock → Run { s with clock := clock }
  | beginOp {s : Sessions} : Run s → Run { s with begun := s.clock :: s.begun }
  | endOp {s : Sessions} (now : Timestamp) : Run s → Run { s with begun := s.begun.erase now }
  | post {s : Sessions} {db' : LedgerDb} (order : RowOrder) (ids : EntryIds) {now : Timestamp}
      (batch : List PostingInput) :
      Run s → now ∈ s.begun → postAllInOp order ids now s.db batch = .ok db' →
      Run { s with
        db := db'
        updates := s.updates ++ batchCalls s.db.toLedgerDirectory now (preparedOf ids s.db batch) }
  | rollup {s : Sessions} {tables : BalanceTables} (order : RowOrder) (txns : List EcRollupTxn) :
      Run s → Committed s.db txns →
      applyEcRollupInOp order s.db.toLedgerDirectory s.db.toBalanceTables txns = .ok tables →
      Run { s with
        db := { s.db with toBalanceTables := tables }
        updates := s.updates ++ rollupCalls order s.db.toLedgerDirectory txns }
  | administer {s : Sessions} (directory : LedgerDirectory)
      (templates : String → Option TxTemplateValues) (accountControls : ControlTable) :
      Run s →
      Run { s with
        db := { s.db with
          toLedgerDirectory := directory
          templates := templates
          accountControls := accountControls } }

/-- The tables are reachable, and their rows carry the stamps of the committed updates. -/
structure Sound (s : Sessions) : Prop where
  reachable : Reachable s.db
  stamps : ∀ key, (s.db.effectiveBalances key).map EffectiveBalanceSnapshot.stamp
    = stampsAfter s.updates key

/-! ## What each operation stamps -/

/-- Calls that bring a balance the same number of entries restamp it alike. -/
theorem restamped_congr (call call' : EffectiveCall) (hupdate : call.update.effective
      = call'.update.effective) (hcreated : call.update.createdAt = call'.update.createdAt)
    {key : BalanceKey} (hdated : call.dated key = call'.dated key)
    (stamps : List (NaiveDate × Timestamp)) :
    call.restamped key stamps = call'.restamped key stamps := by
  have hlength : ∀ call : EffectiveCall, (call.dated key).length = (call.pushed key).length := by
    intro call
    rw [EffectiveCall.dated, List.length_map, (Foundations.sortBy_perm _ _).length_eq]
  unfold EffectiveCall.restamped
  rw [hupdate, hcreated, ← hlength, ← hlength, hdated]

/-- **A batch stamps its rows with the time of its operation.** -/
theorem post_stamps {order : RowOrder} {ids : EntryIds} {now : Timestamp} {db db' : LedgerDb}
    {batch : List PostingInput} (hdb : db.Valid) (h : postAllInOp order ids now db batch = .ok db')
    (key : BalanceKey) :
    (db'.effectiveBalances key).map EffectiveBalanceSnapshot.stamp
      = (batchCalls db.toLedgerDirectory now (preparedOf ids db batch)).foldl
          (fun stamps call => call.restamped key stamps)
          ((db.effectiveBalances key).map EffectiveBalanceSnapshot.stamp) := by
  by_cases hbatch : batch = []
  · subst hbatch
    cases h
    rfl
  · obtain ⟨prepared, hmap, -, -, hpost⟩ := (postAllInOp_eq_ok hbatch).mp h
    have hprepared := wellPrepared_of_mapM hmap
    have haccepts := (postPreparedInOp_spec order now hdb hprepared).1.mp ⟨db', hpost⟩
    obtain ⟨mappings, hmappings, hrun⟩ := postPreparedInOp_effective hdb hprepared hpost
    obtain ⟨timelines, htable, htimelines⟩ := hdb.effective
    have hids := identified_append hdb.identified hprepared haccepts.fresh
    rw [runEffectiveCalls_stamp order.toScanOrder _ htable
      (identified_groupCalls hmappings hids htimelines) hrun key, preparedOf, hmap, Option.getD_some,
      batchCalls, List.foldl_map, List.foldl_map]
    refine List.foldl_ext _ _ _ (fun stamps group hgroup => ?_)
    exact restamped_congr (groupCall db.accounts mappings now group)
      (groupCall db.accounts db.memberships.walkMappings now group) rfl rfl
      (groupCall_dated hmappings hgroup key).1 stamps

/-- **A rollup stamps its rows with the times of its transactions.** -/
theorem foldlM_ecStep_stamps {order : RowOrder} {directory : LedgerDirectory}
    {entries : List EntryValues} (hentries : Identified entries) {txns : List EcRollupTxn} :
    ∀ {tables tables' : BalanceTables}, tables.Valid entries →
      (∀ tx ∈ txns, ∀ entry ∈ tx.entries, entry ∈ entries ∧ entry.journalId = tx.journalId) →
      txns.foldlM (ecStep order directory) tables = some tables' →
      ∀ key, (tables'.effectiveBalances key).map EffectiveBalanceSnapshot.stamp
        = (rollupCalls order directory txns).foldl (fun stamps call => call.restamped key stamps)
            ((tables.effectiveBalances key).map EffectiveBalanceSnapshot.stamp) := by
  induction txns with
  | nil =>
      rintro tables _ - - ⟨⟩ key
      rfl
  | cons tx txns ih =>
      intro tables tables' hvalid htxns hrun key
      obtain ⟨htx, hrest⟩ := List.forall_mem_cons.mp htxns
      rw [List.foldlM_cons] at hrun
      obtain ⟨next, hnext, hrun⟩ := Option.bind_eq_some_iff.mp hrun
      rw [ih (hvalid.ecStep hentries htx hnext) hrest hrun key]
      rw [ecStep] at hnext
      split at hnext
      · obtain ⟨effectiveBalances, heffective, rfl⟩ := Option.map_eq_some_iff.mp hnext
        rw [ecEffectiveStep] at heffective
        by_cases hkeeps : directory.keepsEffective tx.journalId = true
        · rw [if_pos hkeeps] at heffective
          obtain ⟨timelines, htable, htimelines⟩ := hvalid.effective
          have hids : ∀ key, Identified ((timelines key).map Prod.snd
              ++ (ecCall order directory tx).pushed key) := by
            intro key
            refine hentries.subset (fun entry hentry => ?_)
            rcases List.mem_append.mp hentry with hold | hnew
            · obtain ⟨dated, hdated, rfl⟩ := List.mem_map.mp hold
              exact htimelines key dated hdated
            · exact (htx entry ((ecCall order directory tx).mem_entries_of_pushed hnew)).1
          have hcalls : rollupCalls order directory (tx :: txns)
              = ecCall order directory tx :: rollupCalls order directory txns := by
            simp [rollupCalls, hkeeps]
          rw [hcalls, List.foldl_cons, ← EffectiveCall.run_stamp htable hids heffective key]
        · rw [if_neg hkeeps] at heffective
          obtain rfl : tables.effectiveBalances = effectiveBalances := Option.some.inj heffective
          have hcalls : rollupCalls order directory (tx :: txns)
              = rollupCalls order directory txns := by
            simp [rollupCalls, hkeeps]
          rw [hcalls]
      · cases hnext

/-! ## The run -/

/-- **The invariant of a run.** -/
theorem Run.sound {s : Sessions} (h : Run s) : s.Sound := by
  induction h with
  | start directory templates accountControls clock => exact ⟨Reachable.start _ _ _, fun _ => rfl⟩
  | tick _ _ ih => exact ⟨ih.reachable, ih.stamps⟩
  | beginOp _ ih => exact ⟨ih.reachable, ih.stamps⟩
  | endOp now _ ih => exact ⟨ih.reachable, ih.stamps⟩
  | post order ids batch _ _ hpost ih =>
      refine ⟨ih.reachable.post _ _ _ _ hpost, fun key => ?_⟩
      show _ = stampsAfter (_ ++ _) key
      rw [post_stamps ih.reachable.valid hpost key, stampsAfter_append, ih.stamps key]
  | @rollup s tables order txns _ htxns hrollup ih =>
      have hdb := ih.reachable.valid
      refine ⟨ih.reachable.rollup _ _ htxns hrollup, fun key => ?_⟩
      have hrun := applyEcRollupInOp_eq order s.db.toLedgerDirectory hdb.balances
        (fun tx htx entry hentry => (htxns tx htx entry hentry).2)
      rw [hrollup] at hrun
      show _ = stampsAfter (_ ++ _) key
      rw [foldlM_ecStep_stamps hdb.identified ⟨hdb.balances, hdb.effective⟩ htxns hrun.symm key,
        stampsAfter_append, ih.stamps key]
  | administer directory templates accountControls _ ih =>
      exact ⟨ih.reachable.administer _ _ _, ih.stamps⟩

/-- A balance with rows was reached by an update. -/
theorem exists_pushed {calls : List EffectiveCall} {key : BalanceKey}
    (h : stampsAfter calls key ≠ []) : ∃ call ∈ calls, call.pushed key ≠ [] := by
  induction calls using List.reverseRecOn with
  | nil => exact (h rfl).elim
  | append_singleton calls call ih =>
      by_cases hpushed : call.pushed key = []
      · rw [stampsAfter_concat, EffectiveCall.restamped, hpushed, List.length_nil, restamp,
          if_pos rfl] at h
        obtain ⟨call', hcall', hne⟩ := ih h
        exact ⟨call', List.mem_append_left _ hcall', hne⟩
      · exact ⟨call, List.mem_append_right _ List.mem_cons_self, hpushed⟩

/-- The balances a call can reach. -/
def reachedKeys (call : EffectiveCall) : List BalanceKey :=
  (reached call.targets call.update.entries).map (fun pair => ⟨call.journalId, pair.1, pair.2⟩)

theorem mem_reachedKeys {call : EffectiveCall} {key : BalanceKey} (h : call.pushed key ≠ []) :
    key ∈ reachedKeys call := by
  rw [EffectiveCall.pushed, pushedOn] at h
  split at h
  · rename_i hkey
    refine List.mem_map.mpr ⟨(key.accountId, key.currency), mem_reached.mpr h, ?_⟩
    rw [EffectiveCall.journalId, ← hkey.1]
  · exact (h rfl).elim

/-- The rows of a run can be scanned. -/
theorem Sound.exists_scans {s : Sessions} (h : s.Sound) :
    ∃ rows, Scans rows s.db.effectiveBalances := by
  obtain ⟨timelines, htable, -⟩ := h.reachable.valid.effective
  refine CalaLedger.exists_scans (s.updates.flatMap reachedKeys) (fun key hne => ?_) htable.filed
  have hstamps : stampsAfter s.updates key ≠ [] := by
    rw [← h.stamps key]
    exact fun hnil => hne (List.map_eq_nil_iff.mp hnil)
  obtain ⟨call, hcall, hpushed⟩ := exists_pushed hstamps
  exact List.mem_flatMap.mpr ⟨call, hcall, mem_reachedKeys hpushed⟩

/-! ## The listing -/

section Listing

variable {s : Sessions} {rows entities : List EffectiveBalanceSnapshot} {journalId : JournalId}
  {since : Timestamp}

/-- The stamps of one day, from its rows. -/
theorem Sound.tupleStamps (h : s.Sound) (key : BalanceKey) (day : NaiveDate) :
    (tupleRows s.db.effectiveBalances key day).map EffectiveBalanceSnapshot.modifiedAt
      = CalaLedger.tupleStamps s.updates key day := by
  rw [CalaLedger.tupleStamps, ← h.stamps key, filter_map_stamp _ (fun d => d = day), List.map_map]
  rfl

theorem Sound.listsLatest_iff (h : s.Sound) (hscan : Scans rows s.db.effectiveBalances)
    (hlisted : Foundations.Listed (listModifiedSince rows journalId since) none entities) :
    ListsLatest s.db.effectiveBalances journalId since entities
      ↔ ¬ ∃ key day, key.journalId = journalId ∧ Overtaken since key day s.updates := by
  obtain ⟨timelines, htable, -⟩ := h.reachable.valid.effective
  rw [CalaLedger.listsLatest_iff htable hscan hlisted]
  have hchanged : ∀ key day, (∃ row ∈ tupleRows s.db.effectiveBalances key day,
        since ≤ row.modifiedAt)
      ↔ ∃ stamp ∈ CalaLedger.tupleStamps s.updates key day, since ≤ stamp := by
    intro key day
    rw [← h.tupleStamps key day]
    simp
  have hlast : ∀ key day, (∃ last ∈ (CalaLedger.tupleStamps s.updates key day).getLast?,
        last < since)
      ↔ ∃ last ∈ (tupleRows s.db.effectiveBalances key day).getLast?,
        last.modifiedAt < since := by
    intro key day
    rw [← h.tupleStamps key day, List.getLast?_map]
    simp [Option.mem_def]
  constructor
  · rintro hkeeps ⟨key, day, hjournal, hovertaken⟩
    obtain ⟨hsome, hbefore⟩ := overtaken_iff.mp hovertaken
    obtain ⟨last, hmem, hlt⟩ := (hlast key day).mp hbefore
    exact absurd (hkeeps key day hjournal ((hchanged key day).mpr hsome) last hmem)
      (not_le.mpr hlt)
  · intro hnone key day hjournal hsome last hmem
    by_contra hlt
    exact hnone ⟨key, day, hjournal, overtaken_iff.mpr ⟨(hchanged key day).mp hsome,
      (hlast key day).mpr ⟨last, hmem, not_le.mp hlt⟩⟩⟩

theorem exists_listing (rows : List EffectiveBalanceSnapshot) (journalId : JournalId)
    (since : Timestamp) {first : ℕ} (hfirst : 0 < first) :
    ∃ entities, Foundations.Listed (listModifiedSince rows journalId since) none entities :=
  Foundations.exists_listed (Foundations.distinctOn_ascending _ _ _)
    (listModifiedSince_eq rows journalId since) hfirst none

end Listing

end Sessions

/-- **When the listing of changed rows keeps its promise.** In every run of overlapping operations,
every page size reads the listing to its end, and what is read names each balance and day changed
since the watermark once, with its latest row, exactly when none of them is overtaken. -/
theorem modified_since_latest_iff {s : Sessions} (hrun : s.Run) (journalId : JournalId)
    (since : Timestamp) :
    (∃ rows, Scans rows s.db.effectiveBalances)
      ∧ ∀ rows, Scans rows s.db.effectiveBalances →
        (∀ first, 0 < first →
          ∃ entities, Foundations.Listed (listModifiedSince rows journalId since) none entities)
        ∧ ∀ entities, Foundations.Listed (listModifiedSince rows journalId since) none entities →
          (ListsLatest s.db.effectiveBalances journalId since entities
            ↔ ¬ ∃ key day, key.journalId = journalId ∧ Overtaken since key day s.updates) :=
  ⟨hrun.sound.exists_scans, fun rows hscan =>
    ⟨fun _ hfirst => Sessions.exists_listing rows journalId since hfirst,
      fun _ hlisted => hrun.sound.listsLatest_iff hscan hlisted⟩⟩

/-- The second operation to begin posts first, with the later time. -/
theorem exists_overlap : ∃ s : Sessions, s.Run
    ∧ tupleStamps s.updates ⟨⟨1⟩, ⟨1⟩, ⟨"USD"⟩⟩ 0 = [2, 1] := by
  have hwhole : ((postAllInOp default sampleIds 2 sampleDb (sampleBatch.take 1)).toOption.bind
      (fun first =>
        (postAllInOp default sampleIds 1 first (sampleBatch.drop 1)).toOption.map (fun _ =>
          tupleStamps (batchCalls sampleDirectory 2 (preparedOf sampleIds sampleDb
              (sampleBatch.take 1))
            ++ batchCalls first.toLedgerDirectory 1 (preparedOf sampleIds first
              (sampleBatch.drop 1))) ⟨⟨1⟩, ⟨1⟩, ⟨"USD"⟩⟩ 0))) = some [2, 1] := by
    decide +kernel
  obtain ⟨first, hfirst, hwhole⟩ := Option.bind_eq_some_iff.mp hwhole
  obtain ⟨second, hsecond, hstamps⟩ := Option.map_eq_some_iff.mp hwhole
  have hstart := Sessions.Run.start sampleDirectory sampleDb.templates sampleDb.accountControls 1
  have hlater := hstart.beginOp.tick (show (1 : Timestamp) ≤ 2 by decide)
  have hbegun := hlater.beginOp
  have hrun := hbegun.post default sampleIds (sampleBatch.take 1)
    (show (2 : Timestamp) ∈ [2, 1] by decide) (Foundations.toOption_eq_some.mp hfirst)
  have hrun := hrun.post default sampleIds (sampleBatch.drop 1)
    (show (1 : Timestamp) ∈ [2, 1] by decide) (Foundations.toOption_eq_some.mp hsecond)
  exact ⟨_, hrun, hstamps⟩

theorem modified_since_latest_iff_overlap :
    ∃ s : Sessions, (∃ rows, Scans rows s.db.effectiveBalances)
      ∧ ∀ rows, Scans rows s.db.effectiveBalances →
        (∀ first, 0 < first →
          ∃ entities, Foundations.Listed (listModifiedSince rows ⟨1⟩ 2) none entities)
        ∧ ∀ entities, Foundations.Listed (listModifiedSince rows ⟨1⟩ 2) none entities →
          (ListsLatest s.db.effectiveBalances ⟨1⟩ 2 entities
            ↔ ¬ ∃ key day, key.journalId = ⟨1⟩ ∧ Overtaken 2 key day s.updates) := by
  obtain ⟨s, hrun, -⟩ := exists_overlap
  exact ⟨s, modified_since_latest_iff hrun ⟨1⟩ 2⟩

/-- **A changed row may be listed in place of the latest**: the operation that began first commits
last, and the row it leaves on top is stamped before the watermark. -/
theorem modified_since_stale :
    ¬ ∀ s : Sessions, s.Run → ∀ (journalId : JournalId) (since : Timestamp)
      (rows entities : List EffectiveBalanceSnapshot), Scans rows s.db.effectiveBalances →
      Foundations.Listed (listModifiedSince rows journalId since) none entities →
      ListsLatest s.db.effectiveBalances journalId since entities := by
  intro hpromise
  obtain ⟨s, hrun, hstamps⟩ := exists_overlap
  obtain ⟨rows, hscan⟩ := hrun.sound.exists_scans
  obtain ⟨entities, hlisted⟩ := Sessions.exists_listing rows ⟨1⟩ 2 (Nat.succ_pos 0)
  refine (hrun.sound.listsLatest_iff hscan hlisted).mp (hpromise s hrun ⟨1⟩ 2 rows entities hscan
    hlisted) ⟨⟨⟨1⟩, ⟨1⟩, ⟨"USD"⟩⟩, 0, rfl, overtaken_iff.mpr ?_⟩
  rw [hstamps]
  decide

end CalaLedger
