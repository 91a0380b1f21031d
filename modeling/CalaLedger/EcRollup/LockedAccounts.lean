import CalaLedger.EcRollup.Pipeline

/-! # Locked accounts under the rollup

An account's status is checked when a posting reads it, and once more when the rollup reads the
balances of a landing. `StatusRun` is any interleaving of postings, status changes and landings; a
posting may have read its statuses at any earlier time of the run. A landing is refused for a locked
account exactly when one of its transactions enters on an eventually-consistent account that is
locked by then (`flush_refused_iff`): the entry was accepted and committed, and stays unfolded for as
long as the account is locked. -/

namespace CalaLedger

/-! ## Why a landing fails -/

section Errors

variable {order : RowOrder} {directory : LedgerDirectory}

/-- A balance a transaction reaches is locked. -/
def Blocked (order : RowOrder) (directory : LedgerDirectory) (tx : EcRollupTxn) : Prop :=
  ∃ pair ∈ reached (directory.ecTargetsOf order tx.journalId) tx.entries,
    directory.accounts.locked pair.1

/-- Where the journal is known, a transaction is ready unless it is blocked. -/
theorem not_blocked_iff {tx : EcRollupTxn} (hjournal : (directory.journals tx.journalId).isSome) :
    ¬ Blocked order directory tx ↔ EcReady order directory tx := by
  unfold Blocked EcReady
  push Not
  exact forall₂_congr (fun pair _ => (and_iff_left hjournal).symm)

/-- A group with a blocked transaction is refused for a locked account, before anything is
written. -/
theorem applyEcRollupGroupInOp_blocked {journalId : JournalId} {tables : BalanceTables}
    {group : List EcRollupTxn} (hjournal : ∀ tx ∈ group, tx.journalId = journalId)
    {tx : EcRollupTxn} (htx : tx ∈ group) (hblocked : Blocked order directory tx) :
    ∃ accountId, applyEcRollupGroupInOp order directory tables journalId group
      = .error (.accountLocked accountId) := by
  obtain ⟨pair, hpair, hlocked⟩ := hblocked
  set entries := group.flatMap EcRollupTxn.entries with hentries
  set ecLeaves := fetchEcLeafAccounts directory.accounts
    (entries.map EntryValues.accountId).dedup with hleaves
  set involved := (reached (ecTargets (directory.ecMappings order journalId) ecLeaves)
    entries).dedup with hinvolved
  have hmem : pair ∈ involved := by
    obtain ⟨entry, hentry, hpair⟩ := List.mem_flatMap.mp hpair
    have hin : entry ∈ entries := List.mem_flatMap.mpr ⟨tx, htx, hentry⟩
    rw [hinvolved, List.mem_dedup]
    refine List.mem_flatMap.mpr ⟨entry, hin, ?_⟩
    rw [hjournal tx htx] at hpair
    rw [ecTargets_eq_ecTargetsOf (List.mem_dedup.mpr (List.mem_map_of_mem hin))]
    exact hpair
  have hmode : directory.accounts.consistency true pair.1 := by
    rw [hinvolved, List.mem_dedup] at hmem
    exact consistency_of_mem_reached hmem
  have hfound : ∃ found, (involved.filter (fun pair =>
      directory.accounts.consistency true pair.1)).find?
        (fun pair => directory.accounts.locked pair.1) = some found := by
    rw [← Option.isSome_iff_exists, List.find?_isSome]
    exact ⟨pair, List.mem_filter.mpr ⟨hmem, decide_eq_true hmode⟩, decide_eq_true hlocked⟩
  obtain ⟨found, hfound⟩ := hfound
  refine ⟨found.1, ?_⟩
  rw [applyEcRollupGroupInOp]
  simp only [← hentries, ← hleaves, ← hinvolved]
  rw [if_neg (List.ne_nil_of_mem hmem), findEcBalancesForUpdate]
  simp only [hfound]
  rfl

/-- **A rollup fails for a locked account or not at all**, over valid tables and known journals. -/
theorem applyEcRollupInOp_locked_iff {entries : List EntryValues} (hids : Identified entries)
    {tables : BalanceTables} (htables : tables.Valid entries) {txns : List EcRollupTxn}
    (htxns : ∀ tx ∈ txns, ∀ entry ∈ tx.entries, entry ∈ entries ∧ entry.journalId = tx.journalId)
    (hjournals : ∀ tx ∈ txns, (directory.journals tx.journalId).isSome) :
    (∃ accountId, applyEcRollupInOp order directory tables txns = .error (.accountLocked accountId))
      ↔ ∃ tx ∈ txns, Blocked order directory tx := by
  constructor
  · rintro ⟨accountId, herror⟩
    by_contra hnone
    push Not at hnone
    obtain ⟨tables', hrun⟩ := exists_foldlM_ecStep hids htables htxns
      (fun tx htx => (not_blocked_iff (hjournals tx htx)).mp (hnone tx htx))
    rw [← applyEcRollupInOp_eq order directory htables.balances
      (fun tx htx entry hentry => (htxns tx htx entry hentry).2), herror] at hrun
    cases hrun
  · rintro ⟨blocked, hmem, hblocked⟩
    -- every group is well formed, and one of them holds the blocked transaction
    have hgroups : ∀ group ∈ Foundations.groupBy EcRollupTxn.journalId (fun tx => [tx]) txns,
        group.2 = txns.filter (fun tx => tx.journalId = group.1) := by
      rintro ⟨journalId, group⟩ hgroup
      obtain ⟨-, rfl⟩ := Foundations.mem_groupBy.mp hgroup
      rw [Foundations.itemsOf, List.flatMap_singleton']
    have hown : ∃ group ∈ Foundations.groupBy EcRollupTxn.journalId (fun tx => [tx]) txns,
        blocked ∈ group.2 := by
      refine ⟨(blocked.journalId, txns.filter (fun tx => tx.journalId = blocked.journalId)),
        Foundations.mem_groupBy.mpr ⟨⟨blocked, hmem, rfl⟩, ?_⟩,
        List.mem_filter.mpr ⟨hmem, decide_eq_true rfl⟩⟩
      rw [Foundations.itemsOf, List.flatMap_singleton']
    rw [applyEcRollupInOp]
    generalize Foundations.groupBy EcRollupTxn.journalId (fun tx => [tx]) txns = groups at hgroups hown
    induction groups generalizing tables with
    | nil =>
        obtain ⟨group, hgroup, -⟩ := hown
        cases hgroup
    | cons group groups ih =>
        obtain ⟨hgroup, hrest⟩ := List.forall_mem_cons.mp hgroups
        have hjournal : ∀ tx ∈ group.2, tx.journalId = group.1 := by
          intro tx htx
          rw [hgroup] at htx
          exact of_decide_eq_true (List.mem_filter.mp htx).2
        have hsub : ∀ tx ∈ group.2, tx ∈ txns := by
          intro tx htx
          rw [hgroup] at htx
          exact (List.mem_filter.mp htx).1
        rw [List.foldlM_cons]
        by_cases hlocked : ∃ tx ∈ group.2, Blocked order directory tx
        · obtain ⟨tx, htx, hblocked⟩ := hlocked
          obtain ⟨accountId, herror⟩ := applyEcRollupGroupInOp_blocked hjournal htx hblocked
          exact ⟨accountId, by rw [herror]; rfl⟩
        · push Not at hlocked
          obtain ⟨next, hnext⟩ := exists_foldlM_ecStep hids htables
            (fun tx htx => htxns tx (hsub tx htx))
            (fun tx htx => (not_blocked_iff (hjournals tx (hsub tx htx))).mp (hlocked tx htx))
          have hvalid := htables.foldlM_ecStep hids (fun tx htx => htxns tx (hsub tx htx)) hnext
          rw [← applyEcRollupGroupInOp_eq htables.balances hjournal
            (fun tx htx entry hentry => (htxns tx (hsub tx htx) entry hentry).2)] at hnext
          rw [Foundations.toOption_eq_some.mp hnext]
          refine ih hvalid hrest ?_
          obtain ⟨g, hg, hin⟩ := hown
          rcases List.mem_cons.mp hg with rfl | hg
          · exact (hlocked blocked hin hblocked).elim
          · exact ⟨g, hg, hin⟩

end Errors

/-! ## Status changes -/

inductive AccountError
  | notFound
  | cannotUpdateAccountSetAccounts
  deriving DecidableEq

/-- `update_status` and `persist_in_op`: an account that backs a set is never changed. -/
def updateStatusInOp (status : Status) (accounts : AccountTable) (accountId : AccountId) :
    Except AccountError AccountTable :=
  match accounts accountId with
  | none => .error .notFound
  | some row =>
      if row.status = status then .ok accounts
      else if row.isAccountSet then .error .cannotUpdateAccountSetAccounts
      else .ok (Function.update accounts accountId (some { row with status := status }))

/-- `Accounts::lock_in_op`. -/
def lockInOp := updateStatusInOp .locked

/-- `Accounts::unlock_in_op`. -/
def unlockInOp := updateStatusInOp .active

/-- Two account tables that differ in statuses only. -/
def AccountTable.SameButStatus (accounts accounts' : AccountTable) : Prop :=
  ∀ accountId, (accounts' accountId).map (fun row => { row with status := .active })
    = (accounts accountId).map (fun row => { row with status := .active })

/-- No account that backs a set is locked: it is created active and never updated. -/
def LedgerDirectory.SetsOpen (directory : LedgerDirectory) : Prop :=
  ∀ accountId row, directory.accounts accountId = some row → row.isAccountSet = true →
    row.status ≠ .locked

section Status

variable {accounts accounts' : AccountTable}

/-- A row has a counterpart that differs in its status only. -/
theorem AccountTable.SameButStatus.row (h : accounts.SameButStatus accounts')
    {accountId : AccountId} {row : AccountRow} (hrow : accounts accountId = some row) :
    ∃ row', accounts' accountId = some row'
      ∧ row'.eventuallyConsistent = row.eventuallyConsistent
      ∧ row'.isAccountSet = row.isAccountSet := by
  have hsame := h accountId
  rw [hrow, Option.map_some, Option.map_eq_some_iff] at hsame
  obtain ⟨row', hrow', heq⟩ := hsame
  obtain ⟨-, hmode, hset, -⟩ := AccountRow.mk.inj heq
  exact ⟨row', hrow', hmode, hset⟩

theorem AccountTable.SameButStatus.symm (h : accounts.SameButStatus accounts') :
    accounts'.SameButStatus accounts :=
  fun accountId => (h accountId).symm

theorem AccountTable.SameButStatus.trans {accounts'' : AccountTable}
    (h : accounts.SameButStatus accounts') (h' : accounts'.SameButStatus accounts'') :
    accounts.SameButStatus accounts'' :=
  fun accountId => (h' accountId).trans (h accountId)

/-- Statuses are no part of what administration must keep. -/
theorem AccountTable.SameButStatus.keepsModes (h : accounts.SameButStatus accounts')
    {directory : LedgerDirectory} (hbacked : directory.SetsBacked)
    (haccounts : directory.accounts = accounts) :
    directory.KeepsModes { directory with accounts := accounts' } := by
  subst haccounts
  refine ⟨fun accountId row hrow => h.row hrow, fun setId journalId hset => ?_⟩
  obtain ⟨row, hrow, hbacks⟩ := hbacked setId journalId hset
  obtain ⟨row', hrow', -, hsame⟩ := h.row hrow
  exact ⟨row', hrow', hsame.trans hbacks⟩

/-- **A status change** changes one status, and none of an account that backs a set. -/
theorem updateStatusInOp_spec {status : Status} {accountId : AccountId}
    (h : updateStatusInOp status accounts accountId = .ok accounts') :
    accounts.SameButStatus accounts'
      ∧ ∀ id row, accounts' id = some row → row.isAccountSet = true → accounts id = some row := by
  rw [updateStatusInOp] at h
  cases hrow : accounts accountId with
  | none =>
      rw [hrow] at h
      cases h
  | some row =>
      rw [hrow] at h
      dsimp only at h
      split at h
      · cases h
        exact ⟨fun _ => rfl, fun _ _ hrow _ => hrow⟩
      · split at h
        · cases h
        · rename_i hset
          cases h
          constructor
          · intro id
            by_cases hid : id = accountId
            · subst hid
              rw [Function.update_self, hrow]
              rfl
            · rw [Function.update_of_ne hid]
          · intro id row' hrow' hbacks
            by_cases hid : id = accountId
            · subst hid
              rw [Function.update_self] at hrow'
              cases hrow'
              exact (hset hbacks).elim
            · rwa [Function.update_of_ne hid] at hrow'

end Status

/-! ## Interleavings -/

namespace Pipeline

/-- The same ledger under other account rows. -/
def withAccounts (p : Pipeline) (accounts : AccountTable) : Pipeline :=
  { p with db := { p.db with accounts := accounts } }

/-- Any interleaving of postings, status changes and landings, with the account tables there have
been. A posting has read its statuses from one of them. -/
inductive StatusRun (first : Pipeline) : Pipeline → List AccountTable → Prop
  | start : StatusRun first first [first.db.accounts]
  | post {p : Pipeline} {tables : List AccountTable} {seen : AccountTable} {db' : LedgerDb}
      (order : RowOrder) (ids : EntryIds) (now : Timestamp) (batch : List PostingInput) :
      StatusRun first p tables → seen ∈ tables →
      postAllInOp order ids now (p.withAccounts seen).db batch = .ok db' →
      StatusRun first (withAccounts { p with db := db' } p.db.accounts) tables
  | lock {p : Pipeline} {tables : List AccountTable} {accounts : AccountTable}
      (accountId : AccountId) :
      StatusRun first p tables → lockInOp p.db.accounts accountId = .ok accounts →
      StatusRun first (p.withAccounts accounts) (accounts :: tables)
  | unlock {p : Pipeline} {tables : List AccountTable} {accounts : AccountTable}
      (accountId : AccountId) :
      StatusRun first p tables → unlockInOp p.db.accounts accountId = .ok accounts →
      StatusRun first (p.withAccounts accounts) (accounts :: tables)
  | land {p : Pipeline} {tables : List AccountTable} {balances : BalanceTables} (order : RowOrder)
      (count : ℕ) :
      StatusRun first p tables → p.position + count ≤ p.db.outbox.length →
      flush order p.db.toLedgerDirectory p.db.entries p.db.toBalanceTables
        ((p.db.outbox.drop p.position).take count) = .ok balances →
      StatusRun first
        { db := { p.db with toBalanceTables := balances }, position := p.position + count } tables

/-- The invariant of such a run. -/
structure StatusSound (p : Pipeline) (tables : List AccountTable) : Prop where
  sound : p.Sound
  setsOpen : p.db.SetsOpen
  journals : ∀ transaction ∈ p.db.transactions, (p.db.journals transaction.journalId).isSome
  tables : ∀ seen ∈ tables, p.db.accounts.SameButStatus seen

section StatusRun

variable {p : Pipeline} {tables : List AccountTable}

theorem StatusSound.status (h : p.StatusSound tables) {status : Status} {accountId : AccountId}
    {accounts : AccountTable} (hstatus : updateStatusInOp status p.db.accounts accountId = .ok accounts) :
    (p.withAccounts accounts).StatusSound (accounts :: tables) := by
  obtain ⟨hsame, hsets⟩ := updateStatusInOp_spec hstatus
  refine ⟨h.sound.administer (hsame.keepsModes h.sound.backed rfl) p.db.templates
    p.db.accountControls, fun id row hrow hbacks => h.setsOpen id row (hsets id row hrow hbacks) hbacks,
    h.journals, ?_⟩
  intro seen hseen
  rcases List.mem_cons.mp hseen with rfl | hseen
  · exact fun _ => rfl
  · exact hsame.symm.trans (h.tables seen hseen)

theorem StatusSound.post (h : p.StatusSound tables) {seen : AccountTable} (hseen : seen ∈ tables)
    {order : RowOrder} {ids : EntryIds} {now : Timestamp} {batch : List PostingInput}
    {db' : LedgerDb} (hpost : postAllInOp order ids now (p.withAccounts seen).db batch = .ok db') :
    (withAccounts { p with db := db' } p.db.accounts).StatusSound tables := by
  have hsame := h.tables seen hseen
  have hread : (p.withAccounts seen).Sound := h.sound.administer
    (hsame.keepsModes h.sound.backed rfl) p.db.templates p.db.accountControls
  have hposted := hread.post hpost
  obtain ⟨prepared, -, haccepts, effectiveBalances, rfl, -⟩ :=
    postAllInOp_posted hread.reachable.valid hpost
  refine ⟨hposted.administer (hsame.symm.keepsModes hposted.backed rfl) _ _, h.setsOpen, ?_,
    h.tables⟩
  intro transaction htransaction
  rcases List.mem_append.mp htransaction with hold | hnew
  · exact h.journals transaction hold
  · obtain ⟨posting, hposting, rfl⟩ := List.mem_map.mp hnew
    obtain ⟨source, hsource, rfl⟩ := List.mem_map.mp hposting
    obtain ⟨journal, hjournal, -⟩ := (haccepts.postable source hsource).journal
    exact Option.isSome_iff_exists.mpr ⟨journal, hjournal⟩

/-- **Every interleaving keeps the invariant.** -/
theorem StatusRun.sound {directory : LedgerDirectory} (hbacked : directory.SetsBacked)
    (hopen : directory.SetsOpen) {templates : String → Option TxTemplateValues}
    {accountControls : ControlTable}
    (hrun : StatusRun (Pipeline.start directory templates accountControls) p tables) :
    p.StatusSound tables := by
  induction hrun with
  | start =>
      refine ⟨sound_start hbacked templates accountControls, hopen,
        fun _ h => (List.not_mem_nil h).elim, fun seen hseen => ?_⟩
      rw [List.mem_singleton] at hseen
      exact hseen ▸ fun _ => rfl
  | post order ids now batch _ hseen hpost ih => exact ih.post hseen hpost
  | lock accountId _ hlock ih => exact ih.status hlock
  | unlock accountId _ hunlock ih => exact ih.status hunlock
  | land order count _ hcount hland ih =>
      exact ⟨ih.sound.land hcount hland, ih.setsOpen, ih.journals, ih.tables⟩

/-- Where no set is locked, a transaction is blocked by a locked account of its own. -/
theorem StatusSound.blocked_iff (h : p.StatusSound tables) (order : RowOrder)
    (transaction : TransactionValues) :
    Blocked order p.db.toLedgerDirectory (committedTxn p.db.entries transaction)
      ↔ ∃ entry ∈ (committedTxn p.db.entries transaction).entries,
          p.db.accounts.consistency true entry.accountId ∧ p.db.accounts.locked entry.accountId := by
  constructor
  · rintro ⟨pair, hpair, hlocked⟩
    obtain ⟨entry, hentry, hpair⟩ := List.mem_flatMap.mp hpair
    obtain ⟨accountId, htarget, rfl⟩ := List.mem_map.mp hpair
    have hmode := consistency_of_mem_ecTargetsOf htarget
    rcases List.mem_append.mp htarget with hset | hleaf
    · -- the target is a set, whose account is not locked
      obtain ⟨setId, hmem, rfl⟩ := List.mem_map.mp hset
      have hwalk := (List.mem_filter.mp ((order.walk_perm _ _).mem_iff.mp hmem)).1
      have hjournal := of_decide_eq_true (List.mem_filter.mp hwalk).2
      obtain ⟨row, hrow, hbacks⟩ := h.sound.backed setId _ hjournal
      have hstatus : some row.status = some Status.locked := by
        rw [AccountTable.locked, hrow] at hlocked
        exact hlocked
      exact (h.setsOpen _ row hrow hbacks (Option.some.inj hstatus)).elim
    · split at hleaf
      · rw [List.mem_singleton] at hleaf
        subst hleaf
        exact ⟨entry, hentry, hmode, hlocked⟩
      · cases hleaf
  · rintro ⟨entry, hentry, hmode, hlocked⟩
    obtain ⟨row, hrow, hset⟩ := h.sound.txn_leaf transaction entry hentry
    have hec : row.eventuallyConsistent = true := by
      rw [AccountTable.consistency, hrow, Option.map_some] at hmode
      exact Option.some.inj hmode
    have hleaf : entry.accountId ∈ fetchEcLeafAccounts p.db.accounts [entry.accountId] :=
      mem_fetchEcLeafAccounts.mpr ⟨List.mem_singleton_self _, row, hrow, hec, hset⟩
    have htarget : entry.accountId ∈ p.db.toLedgerDirectory.ecTargetsOf order
        transaction.journalId entry := by
      refine List.mem_append_right _ ?_
      rw [if_pos hleaf]
      exact List.mem_singleton_self _
    exact ⟨(entry.accountId, entry.currency), List.mem_flatMap.mpr ⟨entry, hentry,
      List.mem_map.mpr ⟨entry.accountId, htarget, rfl⟩⟩, hlocked⟩

/-- **When the rollup is refused for an account's status**: in any interleaving of postings, status
changes and landings, a landing of committed transactions returns `AccountLocked` exactly when one
of them enters on an eventually-consistent account that is locked at that time. -/
theorem flush_refused_iff {directory : LedgerDirectory} (hbacked : directory.SetsBacked)
    (hopen : directory.SetsOpen) {templates : String → Option TxTemplateValues}
    {accountControls : ControlTable}
    (hrun : StatusRun (Pipeline.start directory templates accountControls) p tables) (order : RowOrder)
    (count : ℕ) :
    (∃ accountId, flush order p.db.toLedgerDirectory p.db.entries p.db.toBalanceTables
        ((p.db.outbox.drop p.position).take count) = .error (.accountLocked accountId))
      ↔ ∃ transaction ∈ transactionsOf ((p.db.outbox.drop p.position).take count),
          ∃ entry ∈ p.db.entries, entry.transactionId = transaction.id
            ∧ p.db.accounts.consistency true entry.accountId
            ∧ p.db.accounts.locked entry.accountId := by
  have h := hrun.sound hbacked hopen
  have hstream := h.sound.part_stream count
  have hknown : ∀ transaction ∈ transactionsOf ((p.db.outbox.drop p.position).take count),
      (p.db.journals transaction.journalId).isSome := by
    intro transaction htransaction
    refine h.journals transaction ?_
    rw [← h.sound.reachable.published.transactions]
    exact (((List.take_sublist _ _).trans (List.drop_sublist _ _)).filterMap _).subset htransaction
  rw [flush, handedOver_eq h.sound.nodup_entries hstream,
    applyEcRollupInOp_locked_iff h.sound.reachable.valid.identified h.sound.tables_valid
      hstream.handed_stored (fun tx htx => by
        obtain ⟨transaction, htransaction, rfl⟩ := List.mem_map.mp htx
        exact hknown transaction htransaction)]
  constructor
  · rintro ⟨tx, htx, hblocked⟩
    obtain ⟨transaction, htransaction, rfl⟩ := List.mem_map.mp htx
    obtain ⟨entry, hentry, hmode, hlocked⟩ := (h.blocked_iff order transaction).mp hblocked
    obtain ⟨hmem, hown⟩ := List.mem_filter.mp hentry
    exact ⟨transaction, htransaction, entry, hmem, of_decide_eq_true hown, hmode, hlocked⟩
  · rintro ⟨transaction, htransaction, entry, hmem, hown, hmode, hlocked⟩
    exact ⟨_, List.mem_map_of_mem htransaction, (h.blocked_iff order transaction).mpr
      ⟨entry, List.mem_filter.mpr ⟨hmem, decide_eq_true hown⟩, hmode, hlocked⟩⟩

end StatusRun

end Pipeline

/-! ## A locked leaf -/

/-- The sample ledger with every account eventually consistent. -/
def leafDb : LedgerDb :=
  { sampleDb with
    accounts := fun accountId => (sampleDirectory.accounts accountId).map (fun row =>
      { row with eventuallyConsistent := true }) }

theorem reachable_leafDb : Reachable leafDb := Reachable.start _ _ _

theorem setsBacked_leafDb : leafDb.SetsBacked := by
  intro setId journalId hset
  obtain ⟨row, hrow, hbacks⟩ := setsBacked_streamingDb setId journalId hset
  obtain ⟨source, hsource, rfl⟩ := Option.map_eq_some_iff.mp hrow
  exact ⟨{ source with eventuallyConsistent := true }, Option.map_eq_some_iff.mpr
    ⟨source, hsource, rfl⟩, hbacks⟩

theorem setsOpen_leafDb : leafDb.SetsOpen := by
  intro accountId row hrow _
  obtain ⟨source, hsource, rfl⟩ := Option.map_eq_some_iff.mp hrow
  have hsource : (if accountId.uuid ∈ [1, 2, 3] then some _ else none) = some source := hsource
  split at hsource
  · cases hsource
    exact Status.noConfusion
  · cases hsource

/-- The accounts of `leafDb` with the second one locked. -/
def leafLocked : AccountTable :=
  Function.update leafDb.accounts ⟨2⟩
    ((leafDb.accounts ⟨2⟩).map (fun row => { row with status := .locked }))

/-- The sample batch is posted, the second account locked, and everything landed at once. -/
theorem statusRun_leafDb :
    ∃ p tables, Pipeline.StatusRun (Pipeline.start leafDb.toLedgerDirectory leafDb.templates
          leafDb.accountControls) p tables
      ∧ flush default p.db.toLedgerDirectory p.db.entries p.db.toBalanceTables
          ((p.db.outbox.drop p.position).take 6) = .error (.accountLocked ⟨2⟩) := by
  have hwhole : (postAllInOp default sampleIds 0 leafDb sampleBatch).toOption.map (fun db =>
      match flush default { db.toLedgerDirectory with accounts := leafLocked } db.entries
          db.toBalanceTables ((db.outbox.drop 0).take 6) with
      | .error (.accountLocked accountId) => accountId.uuid
      | _ => 0) = some 2 := by
    decide +kernel
  obtain ⟨db, hdb, hrefused⟩ := Option.map_eq_some_iff.mp hwhole
  have hposted := Foundations.toOption_eq_some.mp hdb
  have hdirectory : db.toLedgerDirectory = leafDb.toLedgerDirectory := by
    obtain ⟨prepared, -, -, effectiveBalances, rfl, -⟩ :=
      postAllInOp_posted reachable_leafDb.valid hposted
    rfl
  set first := Pipeline.start leafDb.toLedgerDirectory leafDb.templates leafDb.accountControls
    with hfirst
  have hpost : Pipeline.StatusRun first
      (Pipeline.withAccounts { first with db := db } leafDb.accounts) [leafDb.accounts] :=
    Pipeline.StatusRun.start.post default sampleIds 0 sampleBatch (List.mem_singleton_self _) hposted
  have hlock := hpost.lock ⟨2⟩ (show lockInOp leafDb.accounts ⟨2⟩ = .ok leafLocked from rfl)
  refine ⟨_, _, hlock, ?_⟩
  show flush default { db.toLedgerDirectory with accounts := leafLocked } db.entries
    db.toBalanceTables ((db.outbox.drop 0).take 6) = _
  split at hrefused
  · rename_i accountId herror
    rw [herror]
    obtain rfl : accountId = ⟨2⟩ := EntityId.uuid_injective _ hrefused
    rfl
  · cases hrefused

/-- **A committed entry may be refused**: its account was locked between commit and landing. -/
theorem flush_refused :
    ¬ ∀ (directory : LedgerDirectory) (templates : String → Option TxTemplateValues)
      (accountControls : ControlTable) (p : Pipeline) (tables : List AccountTable),
      directory.SetsBacked → directory.SetsOpen →
      Pipeline.StatusRun (Pipeline.start directory templates accountControls) p tables →
      ∀ (order : RowOrder) (count : ℕ) (accountId : AccountId),
        flush order p.db.toLedgerDirectory p.db.entries p.db.toBalanceTables
          ((p.db.outbox.drop p.position).take count) ≠ .error (.accountLocked accountId) := by
  intro hnever
  obtain ⟨p, tables, hrun, hrefused⟩ := statusRun_leafDb
  exact hnever _ _ _ p tables setsBacked_leafDb setsOpen_leafDb hrun default 6 ⟨2⟩ hrefused

theorem flush_refused_iff_leafDb :
    ∃ p tables, Pipeline.StatusRun (Pipeline.start leafDb.toLedgerDirectory leafDb.templates
          leafDb.accountControls) p tables
      ∧ ∃ transaction ∈ transactionsOf ((p.db.outbox.drop p.position).take 6),
          ∃ entry ∈ p.db.entries, entry.transactionId = transaction.id
            ∧ p.db.accounts.consistency true entry.accountId
            ∧ p.db.accounts.locked entry.accountId := by
  obtain ⟨p, tables, hrun, hrefused⟩ := statusRun_leafDb
  exact ⟨p, tables, hrun, (Pipeline.flush_refused_iff setsBacked_leafDb setsOpen_leafDb hrun default
    6).mp ⟨⟨2⟩, hrefused⟩⟩

end CalaLedger
