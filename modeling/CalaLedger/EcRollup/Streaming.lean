import CalaLedger.EcRollup.Landing
import CalaLedger.Posting.Batch

/-! # Cutting the stream

The outbox of a reachable ledger carries each committed transaction and each committed entry once
(`Published`), so every part of it is a `CommittedStream`. However such a stream is cut into
landings, the landings hand the rollup the same transactions and leave the same tables
(`ec_rollup_cut_independent`); the orders SQL leaves open in each landing do not show
(`ecStep_congr`). -/

namespace CalaLedger

/-- A stream cut into landings, each flushed under some row order. -/
abbrev Cut := List (RowOrder × List OutboxEventPayload)

/-- The events of the landings, in order. -/
def Cut.stream (cut : Cut) : List OutboxEventPayload :=
  cut.flatMap Prod.snd

/-- The transactions the landings hand to the apply, in order. -/
def Cut.handed (entries : List EntryValues) (cut : Cut) : List EcRollupTxn :=
  cut.flatMap (fun landing => handedOver entries landing.2)

/-- Flush the landings, one after the other. -/
def runLandings (directory : LedgerDirectory) (entries : List EntryValues) (cut : Cut)
    (tables : BalanceTables) : Except BalanceError BalanceTables :=
  cut.foldlM (fun tables landing => flush landing.1 directory entries tables landing.2) tables

/-! ## What the outbox carries -/

/-- The outbox carries what is committed, and every committed transaction is complete. -/
structure Published (db : LedgerDb) : Prop where
  transactions : transactionsOf db.outbox = db.transactions
  entries : entriesOf db.outbox = db.entries
  complete : ∀ transaction ∈ db.transactions, CompleteTransaction db.entries transaction
  owned : ∀ entry ∈ db.entries, entry.transactionId ∈ db.transactions.map TransactionValues.id

section Publish

variable {ids : EntryIds} {now : Timestamp} {prepared : List PreparedTransaction}

theorem transactionsOf_postingEvents (postings : List HydratedPosting) :
    transactionsOf (postings.flatMap postingEvents) = postings.map Prod.fst := by
  induction postings with
  | nil => rfl
  | cons posting postings ih =>
      have hentries : transactionsOf (posting.2.map .entryCreated) = [] := by
        rw [transactionsOf, List.filterMap_map]
        exact List.filterMap_eq_nil_iff.mpr (fun _ _ => rfl)
      rw [List.flatMap_cons, transactionsOf_append, ih, List.map_cons]
      change posting.1 :: transactionsOf (posting.2.map .entryCreated) ++ _ = _
      rw [hentries]
      rfl

theorem entriesOf_postingEvents (postings : List HydratedPosting) :
    entriesOf (postings.flatMap postingEvents) = postings.flatMap Prod.snd := by
  induction postings with
  | nil => rfl
  | cons posting postings ih =>
      have hentries : entriesOf (posting.2.map .entryCreated) = posting.2 := by
        rw [entriesOf, List.filterMap_map]
        exact List.filterMap_some
      rw [List.flatMap_cons, entriesOf_append, ih, List.flatMap_cons]
      change entriesOf (posting.2.map .entryCreated) ++ _ = _
      rw [hentries]

/-- Each posting's entries are told apart by its transaction. -/
theorem filter_flatMap_own {postings : List HydratedPosting}
    (hnodup : (postings.map (fun posting => posting.1.id)).Nodup)
    (hown : ∀ posting ∈ postings, ∀ entry ∈ posting.2, entry.transactionId = posting.1.id)
    {posting : HydratedPosting} (hposting : posting ∈ postings) :
    (postings.flatMap Prod.snd).filter (fun entry => entry.transactionId = posting.1.id)
      = posting.2 := by
  induction postings with
  | nil => cases hposting
  | cons first postings ih =>
      rw [List.map_cons, List.nodup_cons] at hnodup
      obtain ⟨hfirst, hrest⟩ := List.forall_mem_cons.mp hown
      have hforeign : ∀ other ∈ postings, other.1.id ≠ first.1.id := fun other hother heq =>
        hnodup.1 (heq ▸ List.mem_map_of_mem hother)
      rw [List.flatMap_cons, List.filter_append]
      rcases List.mem_cons.mp hposting with rfl | hmem
      · have hnone : (postings.flatMap Prod.snd).filter
            (fun entry => entry.transactionId = posting.1.id) = [] := by
          refine List.filter_eq_nil_iff.mpr (fun entry hentry => ?_)
          obtain ⟨other, hother, hentry⟩ := List.mem_flatMap.mp hentry
          rw [hrest other hother entry hentry, decide_eq_true_eq]
          exact hforeign other hother
        rw [hnone, List.append_nil, List.filter_eq_self]
        exact fun entry hentry => decide_eq_true (hfirst entry hentry)
      · have hnone : first.2.filter (fun entry => entry.transactionId = posting.1.id) = [] := by
          refine List.filter_eq_nil_iff.mpr (fun entry hentry => ?_)
          rw [hfirst entry hentry, decide_eq_true_eq]
          exact (hforeign posting hmem).symm
        rw [hnone, List.nil_append]
        exact ih hnodup.2 hrest hmem

/-- The postings of a well-prepared batch: their entries are their own, in sequence. -/
theorem WellPrepared.hydrated (h : WellPrepared ids prepared) :
    ∀ posting ∈ hydrate now prepared,
      posting.1.entryIds = posting.2.map EntryValues.id
        ∧ posting.2.Pairwise (fun a b => a.sequence < b.sequence)
        ∧ (∀ entry ∈ posting.2, entry.journalId = posting.1.journalId)
        ∧ ∀ entry ∈ posting.2, entry.transactionId = posting.1.id := by
  intro posting hposting
  obtain ⟨transaction, htransaction, rfl⟩ := List.mem_map.mp hposting
  have hentries := h transaction htransaction
  refine ⟨rfl, ?_, hentries.journal, hentries.transaction⟩
  have hsorted : (transaction.entries.map EntryValues.sequence).Pairwise (· < ·) := by
    rw [hentries.sequence]
    exact List.pairwise_lt_range'
  exact List.pairwise_map.mp hsorted

/-- Fresh rows keep the postings apart from each other and from the stored transactions. -/
theorem FreshRows.apart {db : LedgerDb} {postings : List HydratedPosting}
    (hfresh : FreshRows db postings) :
    (postings.map (fun posting => posting.1.id)).Nodup
      ∧ ∀ transaction ∈ db.transactions, ∀ posting ∈ postings,
          transaction.id ≠ posting.1.id := by
  have hdistinct := hfresh.transactions
  rw [List.map_append, List.nodup_append, List.map_map] at hdistinct
  obtain ⟨-, hnodup, hapart⟩ := hdistinct
  exact ⟨hnodup, fun t ht posting hposting =>
    hapart _ (List.mem_map_of_mem ht) _ (List.mem_map_of_mem hposting)⟩

/-- A posting leaves the entry set of a stored transaction as it was. -/
theorem committedTxn_posted {db : LedgerDb} (hprepared : WellPrepared ids prepared)
    (hfresh : FreshRows db (hydrate now prepared)) {transaction : TransactionValues}
    (htransaction : transaction ∈ db.transactions) :
    committedTxn (db.entries ++ (hydrate now prepared).flatMap Prod.snd) transaction
      = committedTxn db.entries transaction := by
  have hnone : ((hydrate now prepared).flatMap Prod.snd).filter
      (fun entry => entry.transactionId = transaction.id) = [] := by
    refine List.filter_eq_nil_iff.mpr (fun entry hentry => ?_)
    obtain ⟨posting, hposting, hentry⟩ := List.mem_flatMap.mp hentry
    rw [(hprepared.hydrated posting hposting).2.2.2 entry hentry, decide_eq_true_eq]
    exact (hfresh.apart.2 transaction htransaction posting hposting).symm
  rw [committedTxn, List.filter_append, hnone, List.append_nil]
  rfl

/-- The entry set of a new transaction is that of its posting. -/
theorem committedTxn_new {db : LedgerDb} (h : Published db) (hprepared : WellPrepared ids prepared)
    (hfresh : FreshRows db (hydrate now prepared)) {posting : HydratedPosting}
    (hposting : posting ∈ hydrate now prepared) :
    (committedTxn (db.entries ++ (hydrate now prepared).flatMap Prod.snd) posting.1).entries
      = posting.2 := by
  have hnone : db.entries.filter (fun entry => entry.transactionId = posting.1.id) = [] := by
    refine List.filter_eq_nil_iff.mpr (fun entry hentry => ?_)
    obtain ⟨transaction, htransaction, hid⟩ := List.mem_map.mp (h.owned entry hentry)
    rw [decide_eq_true_eq, ← hid]
    exact hfresh.apart.2 transaction htransaction posting hposting
  rw [committedTxn, List.filter_append, hnone, List.nil_append]
  exact filter_flatMap_own hfresh.apart.1
    (fun posting hposting => (hprepared.hydrated posting hposting).2.2.2) hposting

/-- **A posting publishes what it commits.** -/
theorem Published.posted {db : LedgerDb} (h : Published db) (hprepared : WellPrepared ids prepared)
    (hfresh : FreshRows db (hydrate now prepared)) (effectiveBalances : EffectiveTable) :
    Published (db.posted now (hydrate now prepared) effectiveBalances) := by
  set postings := hydrate now prepared with hpostings
  refine ⟨?_, ?_, ?_, ?_⟩
  · change transactionsOf (db.outbox ++ postings.flatMap postingEvents) = _
    rw [transactionsOf_append, h.transactions, transactionsOf_postingEvents]
    rfl
  · change entriesOf (db.outbox ++ postings.flatMap postingEvents) = _
    rw [entriesOf_append, h.entries, entriesOf_postingEvents]
    rfl
  · intro transaction htransaction
    change CompleteTransaction (db.entries ++ postings.flatMap Prod.snd) transaction
    rcases List.mem_append.mp htransaction with hmem | hmem
    · obtain ⟨hids, hordered, hjournal⟩ := h.complete transaction hmem
      constructor <;> rw [committedTxn_posted hprepared hfresh hmem] <;> assumption
    · obtain ⟨posting, hposting, rfl⟩ := List.mem_map.mp hmem
      obtain ⟨hids, hordered, hjournal, -⟩ := hprepared.hydrated posting hposting
      constructor <;> rw [committedTxn_new h hprepared hfresh hposting] <;> assumption
  · intro entry hentry
    change entry.transactionId ∈ (db.transactions ++ postings.map Prod.fst).map _
    rw [List.map_append, List.mem_append]
    rcases List.mem_append.mp hentry with hmem | hmem
    · exact Or.inl (h.owned entry hmem)
    · obtain ⟨posting, hposting, hentry⟩ := List.mem_flatMap.mp hmem
      rw [(hprepared.hydrated posting hposting).2.2.2 entry hentry]
      exact Or.inr (List.mem_map_of_mem (List.mem_map_of_mem hposting))

/-- **A reachable ledger has published what it committed.** -/
theorem Reachable.published {db : LedgerDb} (h : Reachable db) : Published db := by
  induction h with
  | start directory templates accountControls =>
      exact ⟨rfl, rfl, fun _ h => (List.not_mem_nil h).elim, fun _ h => (List.not_mem_nil h).elim⟩
  | administer directory templates accountControls _ ih => exact ⟨ih.1, ih.2, ih.3, ih.4⟩
  | post order ids now batch hdb hpost ih =>
      by_cases hbatch : batch = []
      · subst hbatch
        cases hpost
        exact ih
      · obtain ⟨prepared, hmap, -, -, hpost⟩ := (postAllInOp_eq_ok hbatch).mp hpost
        have hprepared := wellPrepared_of_mapM hmap
        have hspec := postPreparedInOp_spec order now hdb.valid hprepared
        have haccepts := hspec.1.mp ⟨_, hpost⟩
        obtain ⟨effectiveBalances, rfl, -⟩ := hspec.2 _ hpost
        exact ih.posted hprepared haccepts.fresh effectiveBalances
  | rollup order txns _ htxns hrollup ih => exact ⟨ih.1, ih.2, ih.3, ih.4⟩

/-- **The outbox is a committed stream.** -/
theorem Reachable.committedStream {db : LedgerDb} (h : Reachable db) :
    CommittedStream db.entries db.outbox := by
  have hvalid := h.valid
  have hpublished := h.published
  have htransactions := hvalid.unique.transactions
  have hentries := hvalid.unique.entries
  rw [List.map_nil, List.append_nil] at htransactions
  rw [List.flatMap_nil, List.append_nil] at hentries
  refine ⟨?_, ?_, ?_, ?_⟩
  · rw [hpublished.transactions]
    exact htransactions
  · rw [hpublished.transactions]
    exact hpublished.complete
  · rw [hpublished.entries]
    exact hentries.of_map _
  · rw [hpublished.entries]
    exact fun _ hentry => hentry

end Publish

/-! ## Row orders -/

section Order

variable {order order' : RowOrder} {directory : LedgerDirectory}

/-- A walk's order does not show in the targets that are one account. -/
theorem ecTargets_walk_filter (journalId : JournalId) (ecLeaves : List AccountId)
    (entry : EntryValues) (accountId : AccountId) :
    (ecTargets (directory.ecMappings order journalId) ecLeaves entry).filter (· = accountId)
      = (ecTargets (directory.ecMappings order' journalId) ecLeaves entry).filter
          (· = accountId) := by
  have hperm : ((directory.ecMappings order journalId entry.accountId).map AccountId.ofSet).Perm
      ((directory.ecMappings order' journalId entry.accountId).map AccountId.ofSet) :=
    ((order.walk_perm _ _).trans (order'.walk_perm _ _).symm).map _
  unfold ecTargets
  rw [List.filter_append, List.filter_append]
  refine congrArg (· ++ _) ?_
  -- a permutation of copies of one account is equal to it
  rw [List.filter_eq, List.filter_eq, hperm.count_eq]

theorem hits_walk (journalId : JournalId) (ecLeaves : List AccountId) (entries : List EntryValues)
    (accountId : AccountId) (currency : Currency) :
    hits (ecTargets (directory.ecMappings order journalId) ecLeaves) accountId currency entries
      = hits (ecTargets (directory.ecMappings order' journalId) ecLeaves) accountId currency
          entries :=
  hits_congr _ _ _ (fun entry _ => ecTargets_walk_filter journalId ecLeaves entry accountId)

variable (order order') in
theorem ecEvents_congr (tx : EcRollupTxn) :
    ecEvents order directory tx = ecEvents order' directory tx := by
  funext key
  unfold ecEvents
  refine congrArg (ite _ · _) (congrArg _ (hits_congr _ _ _ (fun entry _ => ?_)))
  exact ecTargets_walk_filter tx.journalId _ entry key.accountId

theorem ecReady_congr (tx : EcRollupTxn) :
    EcReady order directory tx ↔ EcReady order' directory tx := by
  have hmem : ∀ pair, pair ∈ reached (directory.ecTargetsOf order tx.journalId) tx.entries
      ↔ pair ∈ reached (directory.ecTargetsOf order' tx.journalId) tx.entries := by
    intro pair
    rw [mem_reached, mem_reached]
    refine not_congr (Eq.congr (hits_congr _ _ _ (fun entry _ => ?_)) rfl)
    exact ecTargets_walk_filter tx.journalId _ entry pair.1
  exact forall_congr' (fun pair => imp_congr_left (hmem pair))

variable (order order') in
/-- **The rollup of a transaction does not depend on the row order.** -/
theorem ecStep_congr {entries : List EntryValues} (hentries : Identified entries)
    {tables : BalanceTables} (h : tables.Valid entries) {tx : EcRollupTxn}
    (htx : ∀ entry ∈ tx.entries, entry ∈ entries) :
    ecStep order directory tables tx = ecStep order' directory tables tx := by
  have heffective : ecEffectiveStep order directory tables.effectiveBalances tx
      = ecEffectiveStep order' directory tables.effectiveBalances tx := by
    unfold ecEffectiveStep
    refine congrArg (ite _ · _) ?_
    obtain ⟨timelines, htable, htimelines⟩ := h.effective
    refine EffectiveCall.run_congr order.toScanOrder order'.toScanOrder htable
      (fun accountId currency => hits_walk _ _ _ accountId currency) (fun key => ?_)
    refine hentries.subset (fun entry hentry => ?_)
    rcases List.mem_append.mp hentry with hold | hnew
    · obtain ⟨dated, hdated, rfl⟩ := List.mem_map.mp hold
      exact htimelines key dated hdated
    · exact htx entry (EffectiveCall.mem_entries_of_pushed _ hnew)
  unfold ecStep
  rw [heffective, ecEvents_congr order order']
  exact if_congr (ecReady_congr tx) rfl rfl

variable (order order') in
theorem foldlM_ecStep_congr {entries : List EntryValues} (hentries : Identified entries)
    {txns : List EcRollupTxn} :
    ∀ {tables : BalanceTables}, tables.Valid entries →
      (∀ tx ∈ txns, ∀ entry ∈ tx.entries, entry ∈ entries ∧ entry.journalId = tx.journalId) →
      txns.foldlM (ecStep order directory) tables = txns.foldlM (ecStep order' directory) tables := by
  induction txns with
  | nil => exact fun _ _ => rfl
  | cons tx txns ih =>
      intro tables h htxns
      have htx := htxns tx List.mem_cons_self
      rw [List.foldlM_cons, List.foldlM_cons,
        ecStep_congr order order' hentries h (fun entry hentry => (htx entry hentry).1)]
      refine Option.bind_congr (fun next hnext => ?_)
      exact ih (h.ecStep hentries htx hnext) (fun t ht => htxns t (List.mem_cons_of_mem _ ht))

end Order

/-! ## Landings -/

section Landings

variable {directory : LedgerDirectory} {entries : List EntryValues}

/-- The complete entry set of a committed transaction is stored, in its journal. -/
theorem CommittedStream.handed_stored {events : List OutboxEventPayload}
    (h : CommittedStream entries events) :
    ∀ tx ∈ (transactionsOf events).map (committedTxn entries), ∀ entry ∈ tx.entries,
      entry ∈ entries ∧ entry.journalId = tx.journalId := by
  intro tx htx entry hentry
  obtain ⟨transaction, htransaction, rfl⟩ := List.mem_map.mp htx
  exact ⟨(List.mem_filter.mp hentry).1, (h.complete transaction htransaction).journal entry hentry⟩

theorem CommittedStream.left {front back : List OutboxEventPayload}
    (h : CommittedStream entries (front ++ back)) : CommittedStream entries front :=
  h.subperm (List.sublist_append_left _ _).subperm

theorem CommittedStream.right {front back : List OutboxEventPayload}
    (h : CommittedStream entries (front ++ back)) : CommittedStream entries back :=
  h.subperm (List.sublist_append_right _ _).subperm

/-- **The landings hand over every transaction once, complete, in stream order.** -/
theorem Cut.handed_eq (hentries : (entries.map EntryValues.id).Nodup) {cut : Cut}
    (h : CommittedStream entries cut.stream) :
    cut.handed entries = (transactionsOf cut.stream).map (committedTxn entries) := by
  induction cut with
  | nil => rfl
  | cons landing cut ih =>
      rw [Cut.stream, List.flatMap_cons] at h ⊢
      rw [Cut.handed, List.flatMap_cons, handedOver_eq hentries h.left, transactionsOf_append,
        List.map_append]
      exact congrArg _ (ih h.right)

/-- One landing is the run of its transactions. -/
theorem flush_eq (hentries : (entries.map EntryValues.id).Nodup) {order : RowOrder}
    {tables : BalanceTables} (htables : tables.Valid entries) {events : List OutboxEventPayload}
    (h : CommittedStream entries events) :
    (flush order directory entries tables events).toOption
      = ((transactionsOf events).map (committedTxn entries)).foldlM (ecStep order directory)
          tables := by
  rw [flush, handedOver_eq hentries h]
  exact applyEcRollupInOp_eq order directory htables.balances
    (fun tx htx entry hentry => (h.handed_stored tx htx entry hentry).2)

/-- **The landings are the run of their transactions**, whatever the cut. -/
theorem runLandings_eq (hids : Identified entries) (hentries : (entries.map EntryValues.id).Nodup)
    (order : RowOrder) {cut : Cut} :
    ∀ {tables : BalanceTables}, tables.Valid entries → CommittedStream entries cut.stream →
      (runLandings directory entries cut tables).toOption
        = ((transactionsOf cut.stream).map (committedTxn entries)).foldlM (ecStep order directory)
            tables := by
  induction cut with
  | nil => exact fun _ _ => rfl
  | cons landing cut ih =>
      intro tables htables h
      rw [Cut.stream, List.flatMap_cons] at h
      rw [runLandings, List.foldlM_cons, toOption_bind, flush_eq hentries htables h.left,
        Cut.stream, List.flatMap_cons, transactionsOf_append, List.map_append, List.foldlM_append,
        foldlM_ecStep_congr landing.1 order hids htables h.left.handed_stored]
      refine Option.bind_congr (fun next hnext => ?_)
      exact ih (htables.foldlM_ecStep hids h.left.handed_stored hnext) h.right

/-- Transactions that are ready go through. -/
theorem exists_foldlM_ecStep (hids : Identified entries) {order : RowOrder}
    {txns : List EcRollupTxn} :
    ∀ {tables : BalanceTables}, tables.Valid entries →
      (∀ tx ∈ txns, ∀ entry ∈ tx.entries, entry ∈ entries ∧ entry.journalId = tx.journalId) →
      (∀ tx ∈ txns, EcReady order directory tx) →
      ∃ tables', txns.foldlM (ecStep order directory) tables = some tables' := by
  induction txns with
  | nil => exact fun _ _ _ => ⟨_, rfl⟩
  | cons tx txns ih =>
      intro tables h htxns hready
      have htx := htxns tx List.mem_cons_self
      obtain ⟨next, hnext⟩ : ∃ next, ecStep order directory tables tx = some next := by
        obtain ⟨effectiveBalances, heffective, -⟩ := h.ecEffectiveStep order directory
          hids (fun entry hentry => (htx entry hentry).1)
        rw [ecStep, if_pos (hready tx List.mem_cons_self), heffective]
        exact ⟨_, rfl⟩
      obtain ⟨tables', hrun⟩ := ih (h.ecStep hids htx hnext)
        (fun t ht => htxns t (List.mem_cons_of_mem _ ht))
        (fun t ht => hready t (List.mem_cons_of_mem _ ht))
      exact ⟨tables', by rw [List.foldlM_cons, hnext]; exact hrun⟩

end Landings

/-- **The rollup does not depend on how the stream is cut.** For committed events, each delivered
once, every transaction is complete and in entry sequence; whatever the cut, the landings together
hand over every transaction once, in stream order, and leave the same tables. They go through unless
an account they reach is locked or its journal unknown, and then they do so for no cut. -/
theorem ec_rollup_cut_independent {db : LedgerDb} (hdb : Reachable db)
    {stream : List OutboxEventPayload} (hstream : stream.Subperm db.outbox) :
    (∀ transaction ∈ transactionsOf stream, CompleteTransaction db.entries transaction)
      ∧ (∀ cut : Cut, cut.stream = stream →
          cut.handed db.entries = (transactionsOf stream).map (committedTxn db.entries))
      ∧ (∀ cut cut' : Cut, cut.stream = stream → cut'.stream = stream →
          (runLandings db.toLedgerDirectory db.entries cut db.toBalanceTables).toOption
            = (runLandings db.toLedgerDirectory db.entries cut' db.toBalanceTables).toOption)
      ∧ ∀ order, (∀ transaction ∈ transactionsOf stream,
            EcReady order db.toLedgerDirectory (committedTxn db.entries transaction)) →
          ∀ cut : Cut, cut.stream = stream → Foundations.Succeeds
            (runLandings db.toLedgerDirectory db.entries cut db.toBalanceTables) := by
  have hvalid := hdb.valid
  have hcommitted := hdb.committedStream.subperm hstream
  have htables : db.toBalanceTables.Valid db.entries := ⟨hvalid.balances, hvalid.effective⟩
  have hentries := hvalid.unique.entries
  rw [List.flatMap_nil, List.append_nil] at hentries
  refine ⟨hcommitted.complete, ?_, ?_, ?_⟩
  · rintro cut rfl
    exact Cut.handed_eq hentries hcommitted
  · rintro cut cut' rfl hcut'
    rw [runLandings_eq hvalid.identified hentries default htables hcommitted,
      runLandings_eq hvalid.identified hentries default htables (hcut' ▸ hcommitted), hcut']
  · rintro order hready cut rfl
    obtain ⟨tables, hrun⟩ := exists_foldlM_ecStep hvalid.identified htables
      hcommitted.handed_stored (fun tx htx => by
        obtain ⟨transaction, htransaction, rfl⟩ := List.mem_map.mp htx
        exact hready transaction htransaction)
    rw [← runLandings_eq hvalid.identified hentries order htables hcommitted] at hrun
    exact ⟨tables, Foundations.toOption_eq_some.mp hrun⟩

/-! ## A small stream -/

/-- The sample ledger with an eventually-consistent set. -/
def streamingDb : LedgerDb :=
  { sampleDb with
    accounts := fun accountId => (sampleDirectory.accounts accountId).map (fun row =>
      { row with eventuallyConsistent := row.isAccountSet }) }

theorem reachable_streamingDb : Reachable streamingDb := Reachable.start _ _ _

/-- One landing for all events, and one for each: both write two versions of the set's balance. -/
theorem ec_rollup_cut_independent_sample :
    ∃ db, postAllInOp default sampleIds 0 streamingDb sampleBatch = .ok db ∧ db.outbox.length = 6
      ∧ ∃ tables, runLandings db.toLedgerDirectory db.entries [(default, db.outbox)]
            db.toBalanceTables = .ok tables
          ∧ runLandings db.toLedgerDirectory db.entries
              (db.outbox.map (fun event => (default, [event]))) db.toBalanceTables = .ok tables
          ∧ (tables.balances.history ⟨⟨1⟩, ⟨3⟩, ⟨"USD"⟩⟩).length = 2 := by
  have hwhole : (postAllInOp default sampleIds 0 streamingDb sampleBatch).toOption.map (fun db =>
      (db.outbox.length, (runLandings db.toLedgerDirectory db.entries [(default, db.outbox)]
        db.toBalanceTables).toOption.map (fun tables =>
          (tables.balances.history ⟨⟨1⟩, ⟨3⟩, ⟨"USD"⟩⟩).length))) = some (6, some 2) := by
    decide +kernel
  obtain ⟨db, hdb, hsome⟩ := Option.map_eq_some_iff.mp hwhole
  rw [Prod.mk.injEq] at hsome
  obtain ⟨tables, htables, hlength⟩ := Option.map_eq_some_iff.mp hsome.2
  have hpost := Foundations.toOption_eq_some.mp hdb
  have hcut := (ec_rollup_cut_independent (Reachable.post _ _ _ _ reachable_streamingDb hpost)
    (List.Subperm.refl db.outbox)).2.2.1 [(default, db.outbox)]
    (db.outbox.map (fun event => (default, [event]))) (List.append_nil _)
    (by rw [Cut.stream, List.flatMap_map]; exact List.flatMap_singleton' _)
  exact ⟨db, hpost, hsome.1, tables, Foundations.toOption_eq_some.mp htables,
    Foundations.toOption_eq_some.mp (hcut.symm.trans htables), hlength⟩

end CalaLedger
