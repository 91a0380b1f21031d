import CalaLedger.EcRollup.Streaming

/-! # Postings and their rollup

A ledger with its rollup: postings write the balances kept inline and publish their events; landings
take the events in order and write the eventually-consistent balances. The two interleave freely
(`Pipeline.Run`); a ledger is drained when every event has landed.

Both folds bring a transaction to the same balances (`txnEvents`): the inline fold keeps those of
accounts that are not eventually consistent, the rollup those of accounts that are
(`inlineEvents_eq`, `ecEvents_eq`). The history of a balance is therefore the run of what its
folded transactions bring to it (`Run.follows`), and on a drained ledger these are all of them. -/

namespace CalaLedger

open Foundations (VersionedTable)

/-- The tables of the ledger, and how many events of its outbox have landed. -/
structure Pipeline where
  db : LedgerDb
  position : ℕ

namespace Pipeline

def start (directory : LedgerDirectory) (templates : String → Option TxTemplateValues)
    (accountControls : ControlTable) : Pipeline :=
  { db := .fresh directory templates accountControls
    position := 0 }

/-- The events that have landed. -/
def landed (p : Pipeline) : List OutboxEventPayload :=
  p.db.outbox.take p.position

/-- Every event has landed. -/
def Drained (p : Pipeline) : Prop := p.position = p.db.outbox.length

/-- A run of postings and landings in any order, with the administrative changes `Change` allows
between them. -/
inductive Run (Change : LedgerDirectory → LedgerDirectory → Prop) (first : Pipeline) :
    Pipeline → Prop
  | start : Run Change first first
  | post {p : Pipeline} {db' : LedgerDb} (order : RowOrder) (ids : EntryIds) (now : Timestamp)
      (batch : List PostingInput) :
      Run Change first p → postAllInOp order ids now p.db batch = .ok db' →
      Run Change first { p with db := db' }
  | land {p : Pipeline} {tables : BalanceTables} (order : RowOrder) (count : ℕ) :
      Run Change first p → p.position + count ≤ p.db.outbox.length →
      flush order p.db.toLedgerDirectory p.db.entries p.db.toBalanceTables
        ((p.db.outbox.drop p.position).take count) = .ok tables →
      Run Change first
        { db := { p.db with toBalanceTables := tables }
          position := p.position + count }
  | administer {p : Pipeline} (directory : LedgerDirectory)
      (templates : String → Option TxTemplateValues) (accountControls : ControlTable) :
      Run Change first p → Change p.db.toLedgerDirectory directory →
      Run Change first { p with
        db := { p.db with
          toLedgerDirectory := directory
          templates := templates
          accountControls := accountControls } }

end Pipeline

theorem setsBacked_streamingDb : streamingDb.SetsBacked := by
  intro setId journalId hset
  have hset : (if setId.uuid = 3 then some (⟨1⟩ : JournalId) else none) = some journalId := hset
  split at hset
  · rename_i huuid
    obtain rfl : setId = ⟨3⟩ := by
      cases setId
      exact congrArg _ huuid
    exact ⟨_, rfl, rfl⟩
  · cases hset

/-! ## Where a transaction goes -/

/-- What a transaction brings to a balance, whichever fold maintains it. -/
def txnEvents (directory : LedgerDirectory) (tx : EcRollupTxn) (key : BalanceKey) :
    List TimedEntry :=
  if key.journalId = tx.journalId then
    (hits (inlineTargets (directory.memberships.walkMappings key.journalId)) key.accountId
      key.currency tx.entries).map (fun entry => (tx.createdAt, entry))
  else
    []

section Split

variable {directory : LedgerDirectory}

/-- A posting, as the rollup will see it. -/
def HydratedPosting.rollupTxn (posting : HydratedPosting) : EcRollupTxn :=
  { journalId := posting.1.journalId
    effective := posting.1.effective
    createdAt := posting.1.createdAt
    entries := posting.2 }

/-- The inline fold keeps what a posting brings to accounts that are not eventually consistent. -/
theorem inlineEvents_eq {now : Timestamp} {posting : HydratedPosting}
    (hnow : posting.1.createdAt = now) (key : BalanceKey) :
    inlineEvents directory now posting key
      = if directory.accounts.consistency false key.accountId then
          txnEvents directory posting.rollupTxn key
        else [] := by
  subst hnow
  unfold inlineEvents txnEvents HydratedPosting.rollupTxn
  by_cases hjournal : key.journalId = posting.1.journalId <;> simp [hjournal]

/-- The eventually-consistent targets of an entry on a leaf are its targets of that mode. -/
theorem ecTargetsOf_filter (order : RowOrder) {entry : EntryValues}
    (hleaf : directory.Leaf entry.accountId) (journalId : JournalId) {accountId : AccountId}
    (hmode : directory.accounts.consistency true accountId) :
    (directory.ecTargetsOf order journalId entry).filter (· = accountId)
      = (inlineTargets (directory.memberships.walkMappings journalId) entry).filter
          (· = accountId) := by
  -- a set of another mode is not this account
  have hsets : ((directory.memberships.fetchEcSetMappings directory.accounts journalId
        entry.accountId).map AccountId.ofSet).filter (· = accountId)
      = ((directory.memberships.walkMappings journalId entry.accountId).map
          AccountId.ofSet).filter (· = accountId) := by
    rw [MembershipTables.fetchEcSetMappings, List.filter_map, List.filter_map, List.filter_filter]
    refine congrArg _ (List.filter_congr (fun setId _ => ?_))
    by_cases hset : AccountId.ofSet setId = accountId
    · subst hset
      simp [hmode]
    · simp [hset]
  have hown : (if entry.accountId ∈ fetchEcLeafAccounts directory.accounts [entry.accountId] then
        [entry.accountId] else []).filter (· = accountId)
      = [entry.accountId].filter (· = accountId) := by
    by_cases heq : entry.accountId = accountId
    · subst heq
      obtain ⟨row, hrow, hset⟩ := hleaf
      have hec : row.eventuallyConsistent = true := by
        rw [AccountTable.consistency, hrow, Option.map_some] at hmode
        exact Option.some.inj hmode
      have hmem : entry.accountId ∈ fetchEcLeafAccounts directory.accounts [entry.accountId] :=
        mem_fetchEcLeafAccounts.mpr ⟨List.mem_singleton_self _, row, hrow, hec, hset⟩
      rw [if_pos hmem]
    · split <;> simp [heq]
  have hperm := (order.walk_perm entry.accountId (directory.memberships.fetchEcSetMappings
    directory.accounts journalId entry.accountId)).map AccountId.ofSet
  unfold LedgerDirectory.ecTargetsOf ecTargets inlineTargets
  rw [List.filter_append, List.filter_append, hown, ← hsets]
  refine congrArg (· ++ _) ?_
  -- a permutation of copies of one account is equal to it
  rw [List.filter_eq, List.filter_eq, LedgerDirectory.ecMappings, hperm.count_eq]

/-- The rollup reaches eventually-consistent accounts only. -/
theorem consistency_of_mem_ecTargetsOf {order : RowOrder} {journalId : JournalId}
    {entry : EntryValues} {accountId : AccountId}
    (h : accountId ∈ directory.ecTargetsOf order journalId entry) :
    directory.accounts.consistency true accountId := by
  rcases List.mem_append.mp h with hset | hleaf
  · obtain ⟨setId, hmem, rfl⟩ := List.mem_map.mp hset
    have hmem := (order.walk_perm _ _).mem_iff.mp hmem
    exact MembershipTables.consistency_of_mem_fetchEcSetMappings hmem
  · split at hleaf
    · rename_i hmem
      rw [List.mem_singleton] at hleaf
      exact hleaf ▸ consistency_of_mem_fetchEcLeafAccounts hmem
    · cases hleaf

/-- **The rollup keeps what a transaction brings to eventually-consistent accounts.** -/
theorem ecEvents_eq (order : RowOrder) {tx : EcRollupTxn}
    (hleaf : ∀ entry ∈ tx.entries, directory.Leaf entry.accountId) (key : BalanceKey) :
    ecEvents order directory tx key
      = if directory.accounts.consistency true key.accountId then txnEvents directory tx key
        else [] := by
  unfold ecEvents txnEvents
  by_cases hjournal : key.journalId = tx.journalId
  · by_cases hmode : directory.accounts.consistency true key.accountId
    · rw [if_pos hjournal, if_pos hmode, if_pos hjournal, hjournal]
      exact congrArg _ (hits_congr _ _ _ (fun entry hentry =>
        ecTargetsOf_filter order (hleaf entry hentry) tx.journalId hmode))
    · have hnone : hits (directory.ecTargetsOf order tx.journalId) key.accountId key.currency
          tx.entries = [] := by
        rw [hits_eq_nil]
        exact fun entry _ _ htarget => hmode (consistency_of_mem_ecTargetsOf htarget)
      rw [if_pos hjournal, if_neg hmode, hnone, List.map_nil]
  · rw [if_neg hjournal, if_neg hjournal, ite_self]

end Split

/-! ## What a run keeps -/

/-- Everything an entry reaches exists. -/
theorem LedgerDirectory.SetsBacked.known {directory : LedgerDirectory} (h : directory.SetsBacked)
    {journalId : JournalId} {entry : EntryValues} (hleaf : directory.Leaf entry.accountId)
    {accountId : AccountId}
    (htarget : accountId ∈ inlineTargets (directory.memberships.walkMappings journalId) entry) :
    directory.accounts accountId ≠ none := by
  rcases List.mem_append.mp htarget with hset | hown
  · obtain ⟨setId, hmem, rfl⟩ := List.mem_map.mp hset
    have hjournal := of_decide_eq_true (List.mem_filter.mp hmem).2
    obtain ⟨row, hrow, -⟩ := h setId journalId hjournal
    rw [hrow]
    exact Option.some_ne_none row
  · obtain ⟨row, hrow, -⟩ := hleaf
    rw [List.mem_singleton.mp hown, hrow]
    exact Option.some_ne_none row

/-- No transaction brings anything to an account that does not exist. -/
theorem LedgerDirectory.SetsBacked.txnEvents_unknown {directory : LedgerDirectory}
    (h : directory.SetsBacked) {tx : EcRollupTxn}
    (hleaf : ∀ entry ∈ tx.entries, directory.Leaf entry.accountId) {key : BalanceKey}
    (hunknown : directory.accounts key.accountId = none) : txnEvents directory tx key = [] := by
  unfold txnEvents
  split
  · rw [List.map_eq_nil_iff, hits_eq_nil]
    exact fun entry hentry _ htarget => h.known (hleaf entry hentry) htarget hunknown
  · rfl

/-- **An accepted batch**, prepared and posted. -/
theorem postAllInOp_posted {order : RowOrder} {ids : EntryIds} {now : Timestamp}
    {db db' : LedgerDb} {batch : List PostingInput} (hdb : db.Valid)
    (h : postAllInOp order ids now db batch = .ok db') :
    ∃ prepared, batch.mapM (prepareInput ids db.templates) = some prepared
      ∧ Accepts db now prepared
      ∧ ∃ effectiveBalances, db' = db.posted now (hydrate now prepared) effectiveBalances
        ∧ ∀ timelines, TableReplays db.effectiveBalances timelines →
            (∀ key, ∀ dated ∈ timelines key, dated.2 ∈ db.entries) →
            TableReplays effectiveBalances (fun key => Foundations.sortBy Prod.fst (timelines key
              ++ batchDated db.toLedgerDirectory now (hydrate now prepared) key)) := by
  by_cases hbatch : batch = []
  · subst hbatch
    cases h
    refine ⟨[], rfl, accepts_nil hdb, db.effectiveBalances, (posted_nil rfl).symm, ?_⟩
    intro timelines htable _
    have hsorted : (fun key => Foundations.sortBy Prod.fst (timelines key
        ++ batchDated db.toLedgerDirectory now (hydrate now []) key)) = timelines := by
      funext key
      show Foundations.sortBy Prod.fst (timelines key ++ []) = timelines key
      rw [List.append_nil, Foundations.sortBy_eq_self.mpr (htable.sorted key)]
    rw [hsorted]
    exact htable
  · obtain ⟨prepared, hmap, -, -, hpost⟩ := (postAllInOp_eq_ok hbatch).mp h
    have hspec := postPreparedInOp_spec order now hdb (wellPrepared_of_mapM hmap)
    exact ⟨prepared, hmap, hspec.1.mp ⟨db', hpost⟩, hspec.2 db' hpost⟩

namespace Pipeline

/-- The invariant of a run. -/
structure Sound (p : Pipeline) : Prop where
  reachable : Reachable p.db
  position_le : p.position ≤ p.db.outbox.length
  backed : p.db.SetsBacked
  leaves : ∀ entry ∈ p.db.entries, p.db.Leaf entry.accountId

section Sound

variable {p : Pipeline}

/-- The stored transactions, each with its entries. -/
def committed (p : Pipeline) : List EcRollupTxn :=
  p.db.transactions.map (committedTxn p.db.entries)

theorem Sound.txn_leaf (h : p.Sound) (transaction : TransactionValues) :
    ∀ entry ∈ (committedTxn p.db.entries transaction).entries, p.db.Leaf entry.accountId :=
  fun entry hentry => h.leaves entry (List.mem_filter.mp hentry).1

/-- The events of one landing. -/
theorem Sound.part_stream (h : p.Sound) (count : ℕ) :
    CommittedStream p.db.entries ((p.db.outbox.drop p.position).take count) :=
  h.reachable.committedStream.subperm
    ((List.take_sublist _ _).trans (List.drop_sublist _ _)).subperm

theorem Sound.nodup_entries (h : p.Sound) : (p.db.entries.map EntryValues.id).Nodup := by
  have hentries := h.reachable.valid.unique.entries
  rwa [List.flatMap_nil, List.append_nil] at hentries

theorem Sound.tables_valid (h : p.Sound) : p.db.toBalanceTables.Valid p.db.entries :=
  ⟨h.reachable.valid.balances, h.reachable.valid.effective⟩

/-- **A landing**, as what it does to the tables. -/
theorem Sound.land_spec (h : p.Sound) {order : RowOrder} {count : ℕ} {tables : BalanceTables}
    (hland : flush order p.db.toLedgerDirectory p.db.entries p.db.toBalanceTables
      ((p.db.outbox.drop p.position).take count) = .ok tables) :
    Committed p.db (handedOver p.db.entries ((p.db.outbox.drop p.position).take count))
      ∧ ((transactionsOf ((p.db.outbox.drop p.position).take count)).map
          (committedTxn p.db.entries)).foldlM (ecStep order p.db.toLedgerDirectory)
            p.db.toBalanceTables = some tables := by
  have hstream := h.part_stream count
  constructor
  · rw [handedOver_eq h.nodup_entries hstream]
    exact hstream.handed_stored
  · rw [← flush_eq h.nodup_entries h.tables_valid hstream, hland]
    rfl

/-- The accounts a prepared batch enters on. -/
theorem accepts_leaf {db : LedgerDb} {now : Timestamp} {prepared : List PreparedTransaction}
    (h : Accepts db now prepared) {posting : HydratedPosting}
    (hposting : posting ∈ hydrate now prepared) :
    ∀ entry ∈ posting.2, db.Leaf entry.accountId := by
  obtain ⟨transaction, htransaction, rfl⟩ := List.mem_map.mp hposting
  intro entry hentry
  obtain ⟨row, hrow, hset, -⟩ := (h.postable transaction htransaction).accounts entry hentry
  exact ⟨row, hrow, hset⟩

variable {Change : LedgerDirectory → LedgerDirectory → Prop} {first : Pipeline}

theorem sound_start {directory : LedgerDirectory} (hbacked : directory.SetsBacked)
    (templates : String → Option TxTemplateValues) (accountControls : ControlTable) :
    (start directory templates accountControls).Sound :=
  ⟨Reachable.start _ _ _, le_rfl, hbacked, fun _ h => (List.not_mem_nil h).elim⟩

theorem Sound.post (h : p.Sound) {order : RowOrder} {ids : EntryIds} {now : Timestamp}
    {batch : List PostingInput} {db' : LedgerDb}
    (hpost : postAllInOp order ids now p.db batch = .ok db') : Sound { p with db := db' } := by
  have hreachable := Reachable.post order ids now batch h.reachable hpost
  obtain ⟨prepared, -, haccepts, effectiveBalances, rfl, -⟩ :=
    postAllInOp_posted h.reachable.valid hpost
  refine ⟨hreachable, ?_, h.backed, fun entry hentry => ?_⟩
  · show p.position ≤ (p.db.outbox ++ _).length
    rw [List.length_append]
    exact h.position_le.trans (Nat.le_add_right _ _)
  · rcases List.mem_append.mp hentry with hold | hnew
    · exact h.leaves entry hold
    · obtain ⟨posting, hposting, hentry⟩ := List.mem_flatMap.mp hnew
      exact accepts_leaf haccepts hposting entry hentry

theorem Sound.land (h : p.Sound) {order : RowOrder} {count : ℕ} {tables : BalanceTables}
    (hcount : p.position + count ≤ p.db.outbox.length)
    (hland : flush order p.db.toLedgerDirectory p.db.entries p.db.toBalanceTables
      ((p.db.outbox.drop p.position).take count) = .ok tables) :
    Sound { db := { p.db with toBalanceTables := tables }, position := p.position + count } :=
  ⟨h.reachable.rollup order _ (h.land_spec hland).1 hland, hcount, h.backed, h.leaves⟩

theorem Sound.administer (h : p.Sound) {directory : LedgerDirectory}
    (hkeeps : p.db.toLedgerDirectory.KeepsModes directory)
    (templates : String → Option TxTemplateValues) (accountControls : ControlTable) :
    Sound { p with
      db := { p.db with
        toLedgerDirectory := directory
        templates := templates
        accountControls := accountControls } } :=
  ⟨h.reachable.administer directory templates accountControls, h.position_le, hkeeps.backed,
    fun entry hentry => hkeeps.leaf (h.leaves entry hentry)⟩

/-- **Every run keeps the invariant.** -/
theorem Run.sound (hchange : ∀ directory directory', Change directory directory' →
      directory.KeepsModes directory') (hfirst : first.Sound) (hrun : Run Change first p) :
    p.Sound := by
  induction hrun with
  | start => exact hfirst
  | post order ids now batch _ hpost ih => exact ih.post hpost
  | land order count _ hcount hland ih => exact ih.land hcount hland
  | administer directory templates accountControls _ hkeeps ih =>
      exact ih.administer (hchange _ _ hkeeps) templates accountControls

end Sound

/-! ## The history of one balance -/

/-- The transactions that have been folded into an account: all of them where the posting flow
writes its balances, the landed ones where the rollup does. -/
def folded (p : Pipeline) (accountId : AccountId) : List EcRollupTxn :=
  (if p.db.accounts.consistency true accountId then transactionsOf p.landed
    else p.db.transactions).map (committedTxn p.db.entries)

/-- The history of a balance is the run of what its folded transactions bring. -/
structure Follows (events : EcRollupTxn → List TimedEntry) (key : BalanceKey) (p : Pipeline) :
    Prop where
  history : p.db.balances.history key
    = VersionedTable.run (nextTimed key) none ((p.folded key.accountId).flatMap events)
  unknown : p.db.accounts key.accountId = none → ∀ tx ∈ p.committed, events tx = []

section Follows

variable {events : EcRollupTxn → List TimedEntry} {key : BalanceKey} {p : Pipeline}

theorem transactionsOf_landed_subset (h : p.Sound) {transaction : TransactionValues}
    (htransaction : transaction ∈ transactionsOf p.landed) : transaction ∈ p.db.transactions := by
  rw [← h.reachable.published.transactions]
  exact ((List.take_sublist _ _).filterMap _).subset htransaction

theorem folded_subset (h : p.Sound) (accountId : AccountId) : p.folded accountId ⊆ p.committed := by
  unfold folded
  split
  · exact List.map_subset _ (fun _ => transactionsOf_landed_subset h)
  · exact List.Subset.refl _

/-- The current value of a balance, from its history. -/
theorem Follows.value (h : Follows events key p) (hsound : p.Sound) :
    p.db.balances.value key = VersionedTable.runLast (nextTimed key) none
      ((p.folded key.accountId).flatMap events) := by
  have hmirrors := hsound.reachable.valid.balances.mirrors
  rw [BalanceTable.value, hmirrors.current, h.history, VersionedTable.latest, Option.map_map]
  by_cases hnone : (p.folded key.accountId).flatMap events = []
  · rw [hnone]
    rfl
  · rw [VersionedTable.run_getLast? _ _ hnone]
    exact congrFun Option.map_id _

/-- Whatever runs next over the balance extends the run. -/
theorem Follows.advance (h : Follows events key p) (hsound : p.Sound)
    (more : BalanceKey → List TimedEntry) :
    (p.db.balances.advance more).history key = VersionedTable.run (nextTimed key) none
      ((p.folded key.accountId).flatMap events ++ more key) := by
  rw [VersionedTable.run_append, ← h.history, ← h.value hsound]
  rfl

/-- An account that exists and is not eventually consistent is kept inline. -/
theorem unknown_of_no_mode {accounts : AccountTable} {accountId : AccountId}
    (hec : ¬ accounts.consistency true accountId)
    (hinline : ¬ accounts.consistency false accountId) : accounts accountId = none := by
  cases hrow : accounts accountId with
  | none => rfl
  | some row =>
      rw [AccountTable.consistency, hrow, Option.map_some, Option.some.injEq] at hec hinline
      cases hmode : row.eventuallyConsistent
      · exact (hinline hmode).elim
      · exact (hec hmode).elim

/-- What a posting adds to the stored transactions. -/
theorem Sound.committed_post (hsound : p.Sound) {ids : EntryIds} {now : Timestamp}
    {prepared : List PreparedTransaction} (hprepared : WellPrepared ids prepared)
    (haccepts : Accepts p.db now prepared) (effectiveBalances : EffectiveTable) :
    let next : Pipeline := ⟨p.db.posted now (hydrate now prepared) effectiveBalances, p.position⟩
    next.committed = p.committed ++ (hydrate now prepared).map HydratedPosting.rollupTxn
      ∧ ∀ accountId, next.folded accountId = p.folded accountId
          ++ if p.db.accounts.consistency true accountId then []
            else (hydrate now prepared).map HydratedPosting.rollupTxn := by
  intro next
  have hpublished := hsound.reachable.published
  set postings := hydrate now prepared with hpostings
  set entries := p.db.entries ++ postings.flatMap Prod.snd with hentries
  have hstored : ∀ transactions : List TransactionValues, transactions ⊆ p.db.transactions →
      transactions.map (committedTxn entries) = transactions.map (committedTxn p.db.entries) :=
    fun transactions hsub => List.map_congr_left (fun transaction htransaction =>
      committedTxn_posted hprepared haccepts.fresh (hsub htransaction))
  have hnew : (postings.map Prod.fst).map (committedTxn entries)
      = postings.map HydratedPosting.rollupTxn := by
    rw [List.map_map]
    refine List.map_congr_left (fun posting hposting => ?_)
    show committedTxn entries posting.1 = HydratedPosting.rollupTxn posting
    have hown := committedTxn_new hpublished hprepared haccepts.fresh hposting
    rw [HydratedPosting.rollupTxn, ← hown]
    rfl
  have hcommitted : next.committed = p.committed ++ postings.map HydratedPosting.rollupTxn := by
    show (p.db.transactions ++ postings.map Prod.fst).map (committedTxn entries) = _
    rw [List.map_append, hnew, hstored _ (List.Subset.refl _)]
    rfl
  have hlanded : next.landed = p.landed := List.take_append_of_le_length hsound.position_le
  refine ⟨hcommitted, fun accountId => ?_⟩
  unfold folded
  show (if p.db.accounts.consistency true accountId then transactionsOf next.landed
    else next.db.transactions).map (committedTxn entries) = _
  by_cases hec : p.db.accounts.consistency true accountId
  · rw [if_pos hec, if_pos hec, if_pos hec, List.append_nil, hlanded,
      hstored _ (fun _ => transactionsOf_landed_subset hsound)]
  · rw [if_neg hec, if_neg hec, if_neg hec]
    exact hcommitted

/-- What a landing adds to the folded transactions. -/
theorem folded_land (p : Pipeline) (tables : BalanceTables) (count : ℕ) (accountId : AccountId) :
    folded { db := { p.db with toBalanceTables := tables }, position := p.position + count }
        accountId
      = p.folded accountId ++ if p.db.accounts.consistency true accountId then
          (transactionsOf ((p.db.outbox.drop p.position).take count)).map
            (committedTxn p.db.entries)
        else [] := by
  unfold folded
  show (if p.db.accounts.consistency true accountId then
    transactionsOf (p.db.outbox.take (p.position + count)) else p.db.transactions).map
      (committedTxn p.db.entries) = _
  by_cases hec : p.db.accounts.consistency true accountId
  · rw [if_pos hec, if_pos hec, if_pos hec, List.take_add, transactionsOf_append, List.map_append]
    rfl
  · rw [if_neg hec, if_neg hec, if_neg hec, List.append_nil]

/-- **A posting**: its transactions are folded at once into a balance kept inline. -/
theorem Follows.post (h : Follows events key p) (hsound : p.Sound)
    (hevents : ∀ tx : EcRollupTxn, (∀ entry ∈ tx.entries, p.db.Leaf entry.accountId) →
      txnEvents p.db.toLedgerDirectory tx key = events tx)
    {order : RowOrder} {ids : EntryIds} {now : Timestamp} {batch : List PostingInput}
    {db' : LedgerDb} (hpost : postAllInOp order ids now p.db batch = .ok db') :
    Follows events key { p with db := db' } := by
  obtain ⟨prepared, hmap, haccepts, effectiveBalances, rfl, -⟩ :=
    postAllInOp_posted hsound.reachable.valid hpost
  obtain ⟨hcommitted, hfolded⟩ := hsound.committed_post (wellPrepared_of_mapM hmap) haccepts
    effectiveBalances
  set postings := hydrate now prepared with hpostings
  have hbrought : ∀ posting ∈ postings,
      inlineEvents p.db.toLedgerDirectory now posting key
        = if p.db.accounts.consistency false key.accountId then
            events (HydratedPosting.rollupTxn posting)
          else [] := by
    intro posting hposting
    have hnow : posting.1.createdAt = now := by
      obtain ⟨transaction, -, rfl⟩ := List.mem_map.mp hposting
      rfl
    rw [inlineEvents_eq hnow, hevents _ (accepts_leaf haccepts hposting)]
  have hunknown : p.db.accounts key.accountId = none →
      ∀ tx ∈ postings.map HydratedPosting.rollupTxn, events tx = [] := by
    intro hnone tx htx
    obtain ⟨posting, hposting, rfl⟩ := List.mem_map.mp htx
    have hleaf : ∀ entry ∈ (HydratedPosting.rollupTxn posting).entries, p.db.Leaf entry.accountId :=
      accepts_leaf haccepts hposting
    rw [← hevents _ hleaf]
    exact hsound.backed.txnEvents_unknown hleaf hnone
  constructor
  · refine (h.advance hsound _).trans (congrArg _ ?_)
    rw [hfolded, List.flatMap_append]
    refine congrArg (_ ++ ·) ?_
    rw [batchEvents, List.flatMap_congr hbrought]
    by_cases hec : p.db.accounts.consistency true key.accountId
    · have hinline : ¬ p.db.accounts.consistency false key.accountId :=
        fun heq => Bool.noConfusion (Option.some.inj (heq.symm.trans hec))
      simp [hec, hinline]
    · by_cases hinline : p.db.accounts.consistency false key.accountId
      · simp [hec, hinline, List.flatMap_map]
      · -- the account is of neither mode, so it does not exist
        have hnone := List.flatMap_eq_nil_iff.mpr (hunknown (unknown_of_no_mode hec hinline))
        simp [hec, hinline, hnone]
  · intro hnone tx htx
    rw [hcommitted, List.mem_append] at htx
    rcases htx with hold | hnew
    · exact h.unknown hnone tx hold
    · exact hunknown hnone tx hnew

/-- **A landing**: its transactions are folded into an eventually-consistent balance. -/
theorem Follows.land (h : Follows events key p) (hsound : p.Sound)
    (hevents : ∀ tx : EcRollupTxn, (∀ entry ∈ tx.entries, p.db.Leaf entry.accountId) →
      txnEvents p.db.toLedgerDirectory tx key = events tx)
    {order : RowOrder} {count : ℕ} {tables : BalanceTables}
    (hland : flush order p.db.toLedgerDirectory p.db.entries p.db.toBalanceTables
      ((p.db.outbox.drop p.position).take count) = .ok tables) :
    Follows events key
      { db := { p.db with toBalanceTables := tables }, position := p.position + count } := by
  have hrun := (hsound.land_spec hland).2
  rw [foldlM_ecStep] at hrun
  split at hrun
  · obtain ⟨effectiveBalances, -, rfl⟩ := Option.map_eq_some_iff.mp hrun
    refine ⟨(h.advance hsound _).trans (congrArg _ ?_), h.unknown⟩
    rw [folded_land, List.flatMap_append]
    refine congrArg (_ ++ ·) ?_
    have hbrought : ∀ tx ∈ (transactionsOf ((p.db.outbox.drop p.position).take count)).map
        (committedTxn p.db.entries), ecEvents order p.db.toLedgerDirectory tx key
          = if p.db.accounts.consistency true key.accountId then events tx else [] := by
      intro tx htx
      obtain ⟨transaction, -, rfl⟩ := List.mem_map.mp htx
      rw [ecEvents_eq order (hsound.txn_leaf transaction), hevents _ (hsound.txn_leaf transaction)]
    rw [List.flatMap_congr hbrought]
    by_cases hec : p.db.accounts.consistency true key.accountId <;> simp [hec]
  · cases hrun

/-- **Administration** that keeps the accounts' modes. -/
theorem Follows.administer (h : Follows events key p) (hsound : p.Sound)
    {directory : LedgerDirectory} (hkeeps : p.db.toLedgerDirectory.KeepsModes directory)
    (templates : String → Option TxTemplateValues) (accountControls : ControlTable) :
    Follows events key { p with
      db := { p.db with
        toLedgerDirectory := directory
        templates := templates
        accountControls := accountControls } } := by
  by_cases hknown : p.db.accounts key.accountId = none
  · -- an account that was not there has no history
    have hnil : (p.folded key.accountId).flatMap events = [] := by
      rw [List.flatMap_eq_nil_iff]
      exact fun tx htx => h.unknown hknown tx (folded_subset hsound key.accountId htx)
    refine ⟨?_, fun _ => h.unknown hknown⟩
    have hempty := h.history
    rw [hnil] at hempty
    refine hempty.trans (congrArg _ (Eq.symm ?_))
    rw [List.flatMap_eq_nil_iff]
    intro tx htx
    refine h.unknown hknown tx ?_
    unfold folded at htx
    split at htx
    · exact List.map_subset _ (fun _ => transactionsOf_landed_subset hsound) htx
    · exact htx
  · refine ⟨h.history.trans (congrArg _ (congrArg _ ?_)), fun hnone => ?_⟩
    · unfold folded
      exact congrArg _ (if_congr (hkeeps.consistency hknown true).symm rfl rfl)
    · obtain ⟨row, hrow⟩ := Option.ne_none_iff_exists'.mp hknown
      obtain ⟨row', hrow', -⟩ := hkeeps.accounts _ row hrow
      exact (Option.some_ne_none row' (hrow'.symm.trans hnone)).elim

/-- **The history of a balance over a run**, as long as the directory says the same about what
transactions bring to it. -/
theorem Run.follows {Change : LedgerDirectory → LedgerDirectory → Prop} {first : Pipeline}
    (Keeps : LedgerDirectory → Prop)
    (hchange : ∀ directory directory', Change directory directory' →
      directory.KeepsModes directory')
    (hkeeps : ∀ directory directory', Change directory directory' → Keeps directory' →
      Keeps directory)
    (hevents : ∀ directory, Keeps directory → directory.SetsBacked → ∀ tx : EcRollupTxn,
      (∀ entry ∈ tx.entries, directory.Leaf entry.accountId) →
      txnEvents directory tx key = events tx)
    (hsound : first.Sound) (hfirst : Follows events key first) (hrun : Run Change first p) :
    Keeps p.db.toLedgerDirectory → Follows events key p := by
  induction hrun with
  | start => exact fun _ => hfirst
  | @post p db' order ids now batch hbefore hpost ih =>
      intro hkeep
      have hp := hbefore.sound hchange hsound
      obtain ⟨prepared, -, -, effectiveBalances, hposted, -⟩ :=
        postAllInOp_posted hp.reachable.valid hpost
      have hkeep : Keeps p.db.toLedgerDirectory := by
        have hsame : db'.toLedgerDirectory = p.db.toLedgerDirectory := by
          rw [hposted, LedgerDb.posted_toLedgerDirectory]
        exact hsame ▸ hkeep
      exact (ih hkeep).post hp (hevents _ hkeep hp.backed) hpost
  | @land p tables order count hbefore hcount hland ih =>
      intro hkeep
      have hp := hbefore.sound hchange hsound
      exact (ih hkeep).land hp (hevents _ hkeep hp.backed) hland
  | @administer p directory templates accountControls hbefore hadminister ih =>
      intro hkeep
      have hp := hbefore.sound hchange hsound
      exact (ih (hkeeps _ _ hadminister hkeep)).administer hp (hchange _ _ hadminister) _ _

/-- Before anything is posted no balance has a history. -/
theorem follows_start (directory : LedgerDirectory) (templates : String → Option TxTemplateValues)
    (accountControls : ControlTable) :
    Follows events key (start directory templates accountControls) := by
  refine ⟨?_, fun _ _ h => (List.not_mem_nil h).elim⟩
  unfold folded
  split <;> rfl

/-- On a drained ledger every transaction has been folded, whichever fold it was. -/
theorem Drained.folded_eq (hdrained : p.Drained) (hsound : p.Sound) (accountId : AccountId) :
    p.folded accountId = p.committed := by
  unfold folded
  split
  · rw [landed, hdrained, List.take_length, hsound.reachable.published.transactions]
    rfl
  · rfl

end Follows

end Pipeline

end CalaLedger
