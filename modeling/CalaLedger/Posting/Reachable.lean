import CalaLedger.Posting.Accept

/-! # Reachable databases

The tables any run of the ledger can produce: postings, rollups of committed entries, and
administration, which may change accounts, journals, memberships, templates and controls at will
but writes no balance. Every reachable database is `Valid`. -/

namespace CalaLedger

open Foundations (VersionedTable)

/-- The tables of a ledger that has posted nothing. -/
def LedgerDb.fresh (directory : LedgerDirectory) (templates : String → Option TxTemplateValues)
    (accountControls : ControlTable) : LedgerDb :=
  { toLedgerDirectory := directory
    balances := ⟨fun _ => [], fun _ => none⟩
    effectiveBalances := fun _ => []
    templates := templates
    accountControls := accountControls
    velocityBalances := ⟨fun _ => [], fun _ => none⟩
    transactions := []
    entries := []
    outbox := [] }

/-- A transaction handed to the rollup carries committed entries of its journal. -/
def Committed (db : LedgerDb) (txns : List EcRollupTxn) : Prop :=
  ∀ tx ∈ txns, ∀ entry ∈ tx.entries, entry ∈ db.entries ∧ entry.journalId = tx.journalId

/-- The tables a run of the ledger can reach. -/
inductive Reachable : LedgerDb → Prop
  | start (directory : LedgerDirectory) (templates : String → Option TxTemplateValues)
      (accountControls : ControlTable) :
      Reachable (LedgerDb.fresh directory templates accountControls)
  | administer {db : LedgerDb} (directory : LedgerDirectory)
      (templates : String → Option TxTemplateValues) (accountControls : ControlTable) :
      Reachable db →
      Reachable { db with
        toLedgerDirectory := directory
        templates := templates
        accountControls := accountControls }
  | post {db db' : LedgerDb} (order : RowOrder) (ids : EntryIds) (now : Timestamp)
      (batch : List PostingInput) :
      Reachable db → postAllInOp order ids now db batch = .ok db' → Reachable db'
  | rollup {db : LedgerDb} (order : RowOrder) (txns : List EcRollupTxn) {tables : BalanceTables} :
      Reachable db → Committed db txns →
      applyEcRollupInOp order db.toLedgerDirectory db.toBalanceTables txns = .ok tables →
      Reachable { db with toBalanceTables := tables }

theorem LedgerDb.valid_fresh (directory : LedgerDirectory)
    (templates : String → Option TxTemplateValues) (accountControls : ControlTable) :
    (LedgerDb.fresh directory templates accountControls).Valid where
  balances := ⟨⟨fun _ => rfl, fun _ => rfl⟩, fun _ _ h => (List.not_mem_nil h).elim⟩
  velocity := ⟨fun _ => rfl, fun _ => rfl⟩
  unique := ⟨List.nodup_nil, List.nodup_nil, List.nodup_nil⟩
  identified := ⟨fun _ h => (List.not_mem_nil h).elim, fun _ h => (List.not_mem_nil h).elim⟩
  effective := ⟨fun _ => [], ⟨fun _ => List.Pairwise.nil, fun _ => rfl, fun _ _ _ _ => rfl⟩,
    fun _ _ h => (List.not_mem_nil h).elim⟩

/-! ## Postings -/

section Post

variable {order : RowOrder} {ids : EntryIds} {now : Timestamp} {db db' : LedgerDb}

/-- What was prepared from templates is well prepared. -/
theorem wellPrepared_of_mapM {templates : String → Option TxTemplateValues}
    {batch : List PostingInput} {prepared : List PreparedTransaction}
    (h : batch.mapM (prepareInput ids templates) = some prepared) : WellPrepared ids prepared := by
  intro posting hposting
  obtain ⟨input, -, hinput⟩ := Foundations.exists_of_mem_mapM h posting hposting
  obtain ⟨template, -, htransaction⟩ := prepareInput_eq_some.mp hinput
  obtain ⟨htxId, hentries⟩ := prepareTransaction_eq_ok htransaction
  exact htxId ▸ hentries

/-- **Posting a prepared batch keeps the tables valid.** -/
theorem LedgerDb.Valid.post {prepared : List PreparedTransaction} (hdb : db.Valid)
    (hprepared : WellPrepared ids prepared)
    (h : postPreparedInOp order now db prepared = .ok db') : db'.Valid := by
  have hspec := postPreparedInOp_spec order now hdb hprepared
  have haccepts := hspec.1.mp ⟨db', h⟩
  obtain ⟨effectiveBalances, rfl, heffective⟩ := hspec.2 db' h
  obtain ⟨timelines, htable, htimelines⟩ := hdb.effective
  refine ⟨?_, ?_, ?_, ?_, ?_⟩
  · exact hdb.balances.advance (keyedEvents_batchEvents hprepared.journal now)
  · exact hdb.velocity.advance (countsEvents_nextVelocity now) _
  · have hfresh := haccepts.fresh
    rw [← List.append_nil (hydrate now prepared)] at hfresh
    exact ((freshRows_append now _).mp hfresh).2
  · exact identified_append hdb.identified hprepared haccepts.fresh
  · refine ⟨_, heffective timelines htable htimelines, fun key dated hdated => ?_⟩
    rw [Foundations.mem_sortBy, List.mem_append] at hdated
    rcases hdated with hold | hnew
    · exact List.mem_append_left _ (htimelines key dated hold)
    · exact List.mem_append_right _ (mem_of_mem_batchDated hnew)

/-- The flow is preparation, the cap, and the flow on what was prepared. -/
theorem postAllInOp_eq_ok {batch : List PostingInput} (hbatch : batch ≠ []) :
    postAllInOp order ids now db batch = .ok db'
      ↔ ∃ prepared, batch.mapM (prepareInput ids db.templates) = some prepared
        ∧ DistinctIds prepared
        ∧ (entryBalanceKeys prepared).length ≤ MAX_DISTINCT_BALANCES_PER_BATCH
        ∧ postPreparedInOp order now db prepared = .ok db' := by
  rw [postAllInOp, if_neg hbatch, Foundations.bind_eq_ok]
  refine exists_congr (fun prepared => ?_)
  rw [prepareAll_eq_ok, and_assoc]
  refine and_congr_right' (and_congr_right' ?_)
  by_cases hcap : MAX_DISTINCT_BALANCES_PER_BATCH < (entryBalanceKeys prepared).length
  · simp only [hcap, if_true]
    exact ⟨nofun, fun h => (not_le.mpr hcap h.1).elim⟩
  · simp only [hcap, if_false]
    exact (and_iff_right (not_lt.mp hcap)).symm

end Post

/-! ## Rollups -/

section Rollup

variable {order : RowOrder} {directory : LedgerDirectory} {entries : List EntryValues}

/-- The part of the invariant a rollup touches. -/
structure BalanceTables.Valid (tables : BalanceTables) (entries : List EntryValues) : Prop where
  balances : tables.balances.WellFormed
  effective : ∃ timelines, TableReplays tables.effectiveBalances timelines
    ∧ ∀ key, ∀ dated ∈ timelines key, dated.2 ∈ entries

variable (order directory) in
/-- **The effective update of one transaction goes through**, and leaves replayed timelines. -/
theorem BalanceTables.Valid.ecEffectiveStep (hentries : Identified entries) {tables : BalanceTables}
    (h : tables.Valid entries) {tx : EcRollupTxn} (htx : ∀ entry ∈ tx.entries, entry ∈ entries) :
    ∃ effectiveBalances, CalaLedger.ecEffectiveStep order directory tables.effectiveBalances tx
        = some effectiveBalances
      ∧ ∃ timelines, TableReplays effectiveBalances timelines
        ∧ ∀ key, ∀ dated ∈ timelines key, dated.2 ∈ entries := by
  obtain ⟨timelines, htable, htimelines⟩ := h.effective
  rw [CalaLedger.ecEffectiveStep]
  split
  · set call := ecCall order directory tx with hcall
    have hpushed : ∀ key, ∀ entry ∈ call.pushed key, entry ∈ entries := fun key entry hmem =>
      htx entry (call.mem_entries_of_pushed hmem)
    obtain ⟨effectiveBalances, hrun, hreplays⟩ := call.run_replays order.toScanOrder htable
      (fun key => by
        refine hentries.subset (fun entry hentry => ?_)
        rcases List.mem_append.mp hentry with hold | hnew
        · obtain ⟨dated, hdated, rfl⟩ := List.mem_map.mp hold
          exact htimelines key dated hdated
        · exact hpushed key entry hnew)
    refine ⟨effectiveBalances, hrun, _, hreplays, fun key dated hdated => ?_⟩
    rw [Foundations.mem_sortBy, List.mem_append] at hdated
    rcases hdated with hold | hnew
    · exact htimelines key dated hold
    · obtain ⟨entry, hentry, rfl⟩ := List.mem_map.mp hnew
      rw [Foundations.mem_sortBy] at hentry
      exact hpushed key entry hentry
  · exact ⟨_, rfl, timelines, htable, htimelines⟩

/-- **The rollup of one transaction keeps the balance tables valid.** -/
theorem BalanceTables.Valid.ecStep (hentries : Identified entries) {tables tables' : BalanceTables}
    (h : tables.Valid entries) {tx : EcRollupTxn}
    (htx : ∀ entry ∈ tx.entries, entry ∈ entries ∧ entry.journalId = tx.journalId)
    (hstep : CalaLedger.ecStep order directory tables tx = some tables') :
    tables'.Valid entries := by
  refine ⟨ecStep_wellFormed h.balances (fun entry hentry => (htx entry hentry).2) hstep, ?_⟩
  obtain ⟨effectiveBalances, heffective, hreplays⟩ := h.ecEffectiveStep order directory
    hentries (fun entry hentry => (htx entry hentry).1)
  rw [CalaLedger.ecStep] at hstep
  split at hstep
  · rw [heffective] at hstep
    cases hstep
    exact hreplays
  · cases hstep

theorem BalanceTables.Valid.foldlM_ecStep (hentries : Identified entries) {txns : List EcRollupTxn} :
    ∀ {tables tables' : BalanceTables}, tables.Valid entries →
      (∀ tx ∈ txns, ∀ entry ∈ tx.entries, entry ∈ entries ∧ entry.journalId = tx.journalId) →
      txns.foldlM (CalaLedger.ecStep order directory) tables = some tables' →
      tables'.Valid entries := by
  induction txns with
  | nil =>
      rintro tables _ h _ ⟨⟩
      exact h
  | cons tx txns ih =>
      intro tables tables' h htxns hrun
      rw [List.foldlM_cons] at hrun
      obtain ⟨next, hnext, hrun⟩ := Option.bind_eq_some_iff.mp hrun
      exact ih (h.ecStep hentries (htxns tx List.mem_cons_self) hnext)
        (fun t ht => htxns t (List.mem_cons_of_mem _ ht)) hrun

/-- **A rollup of committed entries keeps the tables valid.** -/
theorem LedgerDb.Valid.rollup {db : LedgerDb} (hdb : db.Valid) {txns : List EcRollupTxn}
    (htxns : Committed db txns) {tables : BalanceTables}
    (h : applyEcRollupInOp order db.toLedgerDirectory db.toBalanceTables txns = .ok tables) :
    LedgerDb.Valid { db with toBalanceTables := tables } := by
  have hrun := applyEcRollupInOp_eq order db.toLedgerDirectory hdb.balances
    (fun tx htx entry hentry => (htxns tx htx entry hentry).2)
  rw [h] at hrun
  have hvalid := BalanceTables.Valid.foldlM_ecStep hdb.identified
    (⟨hdb.balances, hdb.effective⟩ : db.toBalanceTables.Valid db.entries) htxns hrun.symm
  exact ⟨hvalid.balances, hdb.velocity, ⟨hdb.unique.1, hdb.unique.2, hdb.unique.3⟩,
    hdb.identified, hvalid.effective⟩

end Rollup

/-- **Every reachable database is valid.** -/
theorem Reachable.valid {db : LedgerDb} (h : Reachable db) : db.Valid := by
  induction h with
  | start directory templates accountControls => exact LedgerDb.valid_fresh _ _ _
  | administer directory templates accountControls _ ih =>
      exact ⟨ih.balances, ih.velocity, ⟨ih.unique.1, ih.unique.2, ih.unique.3⟩, ih.identified,
        ih.effective⟩
  | post order ids now batch _ hpost ih =>
      by_cases hbatch : batch = []
      · subst hbatch
        cases hpost
        exact ih
      · obtain ⟨prepared, hprepared, -, -, hpost⟩ := (postAllInOp_eq_ok hbatch).mp hpost
        exact ih.post (wellPrepared_of_mapM hprepared) hpost
  | rollup order txns _ htxns hrollup ih => exact ih.rollup htxns hrollup

end CalaLedger
