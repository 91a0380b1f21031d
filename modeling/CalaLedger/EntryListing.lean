import CalaLedger.Balance.FoldLaw
import CalaLedger.EcRollup.TwoFolds
import CalaLedger.Foundations.Grouping
import CalaLedger.Foundations.Keyset
import Mathlib.Data.Prod.Lex

/-! # The entries of an account set

`EntryRepo::list_for_account_set_id_by_created_at` finds the entries of a set through the balance
history of its backing account: every row names the entry it was written for. On a drained ledger
whose membership graph was fixed from the start, whichever fold wrote the rows, a set has exactly one
for every entry on a transitive member account (`joinedEntries_eq`). So the pages of a listing, in
either direction and of any size, are those entries, each once
(`account_set_entries_listed_exactly`). -/

namespace CalaLedger

open Foundations

/-- A row of `cala_entries` with the values its event loads. -/
structure EntryRow where
  createdAt : Timestamp
  values : EntryValues
  deriving DecidableEq

/-- `EntryByCreatedAtCursor`, in the order `(created_at, id)` is compared in. -/
abbrev EntryByCreatedAtCursor := Timestamp ×ₗ EntryId

/-- `EntryByCreatedAtCursor::from`. -/
def EntryRow.cursor (row : EntryRow) : EntryByCreatedAtCursor :=
  toLex (row.createdAt, row.values.id)

/-- `cala_entries`: a posting writes its transactions and their entries with one `created_at`. -/
def LedgerDb.entryRows (db : LedgerDb) : List EntryRow :=
  db.transactions.flatMap (fun transaction =>
    (committedTxn db.entries transaction).entries.map (fun entry =>
      { createdAt := transaction.createdAt
        values := entry }))

/-- The rows of `cala_balance_history`, in the order a scan meets them, which SQL leaves open. -/
def ScansHistory (history : List BalanceSnapshot) (table : BalanceTable) : Prop :=
  ∀ key, (history.filter (fun row => row.key = key)).Perm (table.history key)

/-- `es_entity::ListDirection`. -/
inductive ListDirection
  | ascending
  | descending
  deriving DecidableEq, Repr

/-- The first cursor comes before the second. -/
def ListDirection.Before : ListDirection → EntryByCreatedAtCursor → EntryByCreatedAtCursor → Prop
  | ascending, a, b => a < b
  | descending, a, b => b < a

section Listing

variable (entries : List EntryRow) (history : List BalanceSnapshot) (accountSetId : AccountSetId)

/-- `cala_entries JOIN cala_balance_history ON id = latest_entry_id WHERE account_id = $4`. -/
def joinedEntries : List EntryRow :=
  entries.flatMap (fun entry =>
    (history.filter (fun row =>
      row.accountId = AccountId.ofSet accountSetId ∧ row.entryId = entry.values.id)).map
        (fun _ => entry))

/-- `EntryRepo::list_for_account_set_id_by_created_at`. -/
def listForAccountSetIdByCreatedAt (direction : ListDirection) (first : ℕ)
    (after : Option EntryByCreatedAtCursor) : Page EntryRow EntryByCreatedAtCursor :=
  match direction with
  | .ascending =>
      pageOf EntryRow.cursor
        (sortBy EntryRow.cursor ((joinedEntries entries history accountSetId).filter
          (fun row => after.all (fun cursor => cursor < row.cursor)))) first
  | .descending =>
      pageOf EntryRow.cursor
        (sortBy (fun row => OrderDual.toDual row.cursor)
          ((joinedEntries entries history accountSetId).filter
            (fun row => after.all (fun cursor => row.cursor < cursor)))) first

end Listing

/-! ## The stored entries -/

section Stored

variable {db : LedgerDb}

theorem map_values_entryRows : db.entryRows.map EntryRow.values
    = db.transactions.flatMap (fun transaction => (committedTxn db.entries transaction).entries) := by
  rw [LedgerDb.entryRows, List.map_flatMap]
  refine List.flatMap_congr (fun transaction _ => ?_)
  rw [List.map_map]
  exact List.map_id _

/-- Every stored entry has one row. -/
theorem Reachable.entryRows_perm (h : Reachable db) :
    (db.entryRows.map EntryRow.values).Perm db.entries := by
  have hnodup : (db.transactions.map TransactionValues.id).Nodup := by
    have htransactions := h.valid.unique.transactions
    rwa [List.map_nil, List.append_nil] at htransactions
  have hperm := perm_flatMap_filter_key EntryValues.transactionId (l := db.entries) hnodup
  have hnone : db.entries.filter (fun entry =>
      entry.transactionId ∉ db.transactions.map TransactionValues.id) = [] := by
    rw [List.filter_eq_nil_iff]
    intro entry hentry
    simpa using h.published.owned entry hentry
  rw [hnone, List.append_nil, List.flatMap_map] at hperm
  rw [map_values_entryRows]
  exact hperm

theorem Reachable.nodup_entryRows (h : Reachable db) :
    (db.entryRows.map (fun row => row.values.id)).Nodup := by
  have hentries := h.valid.unique.entries
  rw [List.flatMap_nil, List.append_nil] at hentries
  have hids := ((h.entryRows_perm.map EntryValues.id).nodup_iff).mpr hentries
  rwa [List.map_map] at hids

end Stored

/-! ## The balance history of a set -/

/-- Every row of a run names the entry it was written for. -/
theorem map_entryId_run (key : BalanceKey) (base : Option BalanceSnapshot)
    (events : List TimedEntry) :
    (VersionedTable.run (nextTimed key) base events).map BalanceSnapshot.entryId
      = events.map (fun timed => timed.2.id) := by
  induction events generalizing base with
  | nil => rfl
  | cons timed events ih =>
    rw [VersionedTable.run_cons, List.map_cons, List.map_cons, ih]
    congr 1
    exact (nextSnapshot_adds timed.1 key.accountId base timed.2).entryId

/-- No entry is on the account behind a set. -/
theorem LedgerDirectory.SetsBacked.ne_of_leaf {directory : LedgerDirectory}
    (hbacked : directory.SetsBacked) {accountId : AccountId} (hleaf : directory.Leaf accountId)
    {accountSetId : AccountSetId} {journalId : JournalId}
    (hset : directory.memberships.accountSets accountSetId = some journalId) :
    AccountId.ofSet accountSetId ≠ accountId := by
  rintro rfl
  obtain ⟨row, hrow, hplain⟩ := hleaf
  obtain ⟨row', hrow', hbacking⟩ := hbacked accountSetId journalId hset
  rw [hrow] at hrow'
  rw [← Option.some.inj hrow', hplain] at hbacking
  cases hbacking

/-- What a transaction brings to a set: each entry of the journal and the currency on an account
below the set, once. -/
theorem LedgerDirectory.SetsBacked.txnEvents_set {directory : LedgerDirectory}
    (hbacked : directory.SetsBacked) {tx : EcRollupTxn}
    (hleaf : ∀ entry ∈ tx.entries, directory.Leaf entry.accountId)
    (hjournal : ∀ entry ∈ tx.entries, entry.journalId = tx.journalId) {accountSetId : AccountSetId}
    {own : JournalId} (hset : directory.memberships.accountSets accountSetId = some own)
    (journalId : JournalId) (currency : Currency) :
    (txnEvents directory tx ⟨journalId, AccountId.ofSet accountSetId, currency⟩).map Prod.snd
      = tx.entries.filter (fun entry => entry.journalId = journalId ∧ entry.currency = currency
        ∧ accountSetId ∈ directory.memberships.walkMappings journalId entry.accountId) := by
  have hproper : ∀ entry ∈ tx.entries,
      ∀ setId ∈ directory.memberships.walkMappings journalId entry.accountId,
        AccountId.ofSet setId ≠ entry.accountId := fun entry hentry setId hmem =>
    hbacked.ne_of_leaf (hleaf entry hentry) (of_decide_eq_true (List.mem_filter.mp hmem).2)
  have htouchings : hits (inlineTargets (directory.memberships.walkMappings journalId))
        (AccountId.ofSet accountSetId) currency tx.entries
      = touchings (directory.memberships.walkMappings journalId) inlineDirect tx.entries
        (AccountId.ofSet accountSetId, currency) :=
    hits_eq_touchings (fun accountId => MembershipTables.nodup_walkMappings journalId accountId)
      (fun entry => by rw [if_pos trivial]; rfl) tx.entries (AccountId.ofSet accountSetId, currency)
  unfold txnEvents
  by_cases hsame : journalId = tx.journalId
  · have hentries : Prod.snd ∘ (fun entry : EntryValues => (tx.createdAt, entry)) = id := rfl
    rw [if_pos hsame, List.map_map, hentries, List.map_id]
    show hits (inlineTargets (directory.memberships.walkMappings journalId))
      (AccountId.ofSet accountSetId) currency tx.entries = _
    rw [htouchings, touchings_eq_filter _ hproper]
    refine List.filter_congr (fun entry hentry => decide_eq_decide.mpr ?_)
    constructor
    · rintro (⟨hcurrency, setId, hmem, heq⟩ | ⟨-, -, heq⟩)
      · obtain rfl := AccountId.ofSet_injective heq
        exact ⟨(hjournal entry hentry).trans hsame.symm, hcurrency, hmem⟩
      · -- an entry touches a set only from below
        exact absurd heq.symm (hbacked.ne_of_leaf (hleaf entry hentry) hset)
    · rintro ⟨-, hcurrency, hmem⟩
      exact Or.inl ⟨hcurrency, accountSetId, hmem, rfl⟩
  · rw [if_neg hsame, List.map_nil, eq_comm, List.filter_eq_nil_iff]
    intro entry hentry
    rw [decide_eq_true_eq]
    rintro ⟨hentryJournal, -⟩
    exact hsame (hentryJournal.symm.trans (hjournal entry hentry))

section Drained

variable {directory : LedgerDirectory} {templates : String → Option TxTemplateValues}
  {accountControls : ControlTable} {p : Pipeline}

/-- **The history of a set names, once each, the entries on the accounts below it.** -/
theorem Pipeline.Run.map_entryId_history (hbacked : directory.SetsBacked)
    (hrun : Pipeline.Run LedgerDirectory.KeepsGraph
      (Pipeline.start directory templates accountControls) p) (hdrained : p.Drained)
    {accountSetId : AccountSetId} {own : JournalId}
    (hset : directory.memberships.accountSets accountSetId = some own) (journalId : JournalId)
    (currency : Currency) :
    (p.db.balances.history ⟨journalId, AccountId.ofSet accountSetId, currency⟩).map
        BalanceSnapshot.entryId
      = ((p.db.entryRows.map EntryRow.values).filter (fun entry => entry.journalId = journalId
          ∧ entry.currency = currency
          ∧ accountSetId ∈ directory.memberships.walkMappings journalId entry.accountId)).map
        EntryValues.id := by
  have hsound := hrun.sound (fun _ _ h => h.toKeepsModes)
    (Pipeline.sound_start hbacked templates accountControls)
  obtain ⟨hmemberships, hfollows⟩ := hrun.follows_graph hbacked
    ⟨journalId, AccountId.ofSet accountSetId, currency⟩
  rw [← hmemberships] at hset
  rw [hfollows.history, hdrained.folded_eq hsound, map_entryId_run, Pipeline.committed,
    List.flatMap_map, List.map_flatMap, map_values_entryRows, List.filter_flatMap, List.map_flatMap]
  refine List.flatMap_congr (fun transaction htransaction => ?_)
  have hbrought := hsound.backed.txnEvents_set (hsound.txn_leaf transaction)
    (hsound.reachable.published.complete transaction htransaction).journal hset journalId currency
  rw [txnEvents_congr hmemberships, hmemberships] at hbrought
  rw [← hbrought, List.map_map]
  rfl

/-- Keeping each element as often as it is counted, once or not at all. -/
theorem flatMap_map_const {α β : Type} {l : List α} {rows : α → List β} {keep : α → Bool}
    (h : ∀ a ∈ l, (rows a).length = if keep a then 1 else 0) :
    l.flatMap (fun a => (rows a).map (fun _ => a)) = l.filter keep := by
  induction l with
  | nil => rfl
  | cons a l ih =>
    rw [List.flatMap_cons, ih (fun b hb => h b (List.mem_cons_of_mem a hb)), List.map_const',
      h a List.mem_cons_self]
    cases hkeep : keep a with
    | true =>
      rw [List.filter_cons_of_pos hkeep]
      rfl
    | false =>
      rw [List.filter_cons_of_neg (by simp [hkeep])]
      rfl

/-- **The join finds the entries below a set, each once.** -/
theorem Pipeline.Run.joinedEntries_eq (hbacked : directory.SetsBacked)
    (hrun : Pipeline.Run LedgerDirectory.KeepsGraph
      (Pipeline.start directory templates accountControls) p) (hdrained : p.Drained)
    {history : List BalanceSnapshot} (hhistory : ScansHistory history p.db.balances)
    {accountSetId : AccountSetId} {journalId : JournalId}
    (hset : directory.memberships.accountSets accountSetId = some journalId) :
    joinedEntries p.db.entryRows history accountSetId
      = p.db.entryRows.filter (fun row => row.values.journalId = journalId
        ∧ accountSetId ∈ directory.memberships.ancestors row.values.accountId) := by
  have hsound := hrun.sound (fun _ _ h => h.toKeepsModes)
    (Pipeline.sound_start hbacked templates accountControls)
  have hnodup := hsound.reachable.nodup_entryRows
  refine flatMap_map_const (fun row hrow => ?_)
  set key : BalanceKey := ⟨row.values.journalId, AccountId.ofSet accountSetId, row.values.currency⟩
    with hkey
  -- the entry's rows are in the balance of its journal and currency
  have hrows : history.filter (fun r => r.accountId = AccountId.ofSet accountSetId
        ∧ r.entryId = row.values.id)
      = (history.filter (fun r => r.key = key)).filter (fun r => r.entryId = row.values.id) := by
    rw [List.filter_filter]
    refine List.filter_congr (fun r hr => ?_)
    rw [← Bool.decide_and]
    refine decide_eq_decide.mpr ⟨?_, ?_⟩
    · rintro ⟨haccount, hentry⟩
      refine ⟨hentry, ?_⟩
      have hmem : r ∈ p.db.balances.history ⟨r.journalId, AccountId.ofSet accountSetId, r.currency⟩ :=
        (hhistory _).mem_iff.mp (List.mem_filter.mpr ⟨hr, by simp [BalanceSnapshot.key, haccount]⟩)
      have hid := List.mem_map_of_mem (f := BalanceSnapshot.entryId) hmem
      rw [hrun.map_entryId_history hbacked hdrained hset, hentry] at hid
      obtain ⟨entry, hfound, hsame⟩ := List.mem_map.mp hid
      obtain ⟨hstored, hfound⟩ := List.mem_filter.mp hfound
      obtain ⟨other, hother, rfl⟩ := List.mem_map.mp hstored
      obtain rfl : other = row := List.inj_on_of_nodup_map hnodup hother hrow hsame
      obtain ⟨hjournal, hcurrency, -⟩ := of_decide_eq_true hfound
      rw [hkey, hjournal, hcurrency, ← haccount]
      rfl
    · rintro ⟨hentry, hsame⟩
      exact ⟨congrArg BalanceKey.accountId hsame, hentry⟩
  have hcount : (history.filter (fun r => r.accountId = AccountId.ofSet accountSetId
        ∧ r.entryId = row.values.id)).length
      = ((p.db.balances.history key).map BalanceSnapshot.entryId).count row.values.id := by
    rw [hrows, ← ((hhistory key).map BalanceSnapshot.entryId).count_eq, List.count_eq_countP,
      List.countP_map, List.countP_eq_length_filter]
    rfl
  have hids : (((p.db.entryRows.map EntryRow.values).filter (fun entry =>
      entry.journalId = row.values.journalId ∧ entry.currency = row.values.currency
        ∧ accountSetId ∈ directory.memberships.walkMappings row.values.journalId
          entry.accountId)).map EntryValues.id).Nodup := by
    refine List.Nodup.sublist ((List.filter_sublist).map _) ?_
    rw [List.map_map]
    exact hnodup
  rw [hcount, hrun.map_entryId_history hbacked hdrained hset]
  by_cases hbelow : row.values.journalId = journalId
      ∧ accountSetId ∈ directory.memberships.ancestors row.values.accountId
  · rw [if_pos (decide_eq_true hbelow)]
    refine List.count_eq_one_of_mem hids (List.mem_map_of_mem (List.mem_filter.mpr
      ⟨List.mem_map_of_mem hrow, decide_eq_true ⟨rfl, rfl, List.mem_filter.mpr
        ⟨hbelow.2, decide_eq_true (hset.trans (congrArg some hbelow.1.symm))⟩⟩⟩))
  · rw [if_neg (by simpa using hbelow)]
    refine List.count_eq_zero_of_not_mem (fun hmem => hbelow ?_)
    obtain ⟨entry, hfound, hsame⟩ := List.mem_map.mp hmem
    obtain ⟨hstored, hfound⟩ := List.mem_filter.mp hfound
    obtain ⟨other, hother, rfl⟩ := List.mem_map.mp hstored
    obtain rfl : other = row := List.inj_on_of_nodup_map hnodup hother hrow hsame
    obtain ⟨-, -, hwalk⟩ := of_decide_eq_true hfound
    obtain ⟨hancestor, hjournal⟩ := List.mem_filter.mp hwalk
    exact ⟨(Option.some.inj (hset.symm.trans (of_decide_eq_true hjournal))).symm, hancestor⟩

end Drained

/-- Whatever a drained run has written can be scanned. -/
theorem Pipeline.Run.exists_scansHistory {directory : LedgerDirectory}
    {templates : String → Option TxTemplateValues} {accountControls : ControlTable} {p : Pipeline}
    (hbacked : directory.SetsBacked)
    (hrun : Pipeline.Run LedgerDirectory.KeepsGraph
      (Pipeline.start directory templates accountControls) p) (hdrained : p.Drained) :
    ∃ history, ScansHistory history p.db.balances := by
  have hsound := hrun.sound (fun _ _ h => h.toKeepsModes)
    (Pipeline.sound_start hbacked templates accountControls)
  have hkeys : ∀ key, p.db.balances.history key ≠ [] →
      key ∈ p.committed.flatMap (fun tx => tx.entries.flatMap (fun entry =>
        (inlineTargets (directory.memberships.walkMappings tx.journalId) entry).map
          (fun accountId => (⟨tx.journalId, accountId, entry.currency⟩ : BalanceKey)))) := by
    intro key hkey
    rw [(hrun.follows_graph hbacked key).2.history, hdrained.folded_eq hsound, Ne,
      VersionedTable.run_eq_nil, List.flatMap_eq_nil_iff] at hkey
    push Not at hkey
    obtain ⟨tx, htx, hbrought⟩ := hkey
    unfold txnEvents at hbrought
    split at hbrought
    · rename_i hjournal
      obtain ⟨timed, htimed⟩ := List.exists_mem_of_ne_nil _ hbrought
      obtain ⟨entry, hentry, rfl⟩ := List.mem_map.mp htimed
      obtain ⟨hentry, hcurrency, htarget⟩ := (mem_hits _ _ _).mp hentry
      refine List.mem_flatMap.mpr ⟨tx, htx, List.mem_flatMap.mpr ⟨entry, hentry,
        List.mem_map.mpr ⟨key.accountId, hjournal ▸ htarget, ?_⟩⟩⟩
      rw [← hjournal, hcurrency]
    · exact absurd rfl hbrought
  obtain ⟨history, hhistory⟩ := exists_filed _ hkeys hsound.reachable.valid.balances.keyed
  exact ⟨history, fun key => List.Perm.of_eq (hhistory key)⟩

/-! ## The listing -/

section Listing

variable {entries : List EntryRow} {history : List BalanceSnapshot} {accountSetId : AccountSetId}

/-- The pages of a listing, read to the end, are the joined entries in the order of the direction. -/
theorem exists_listed_entries
    (hnodup : ((joinedEntries entries history accountSetId).map EntryRow.cursor).Nodup)
    (direction : ListDirection) {first : ℕ} (hfirst : 0 < first) :
    ∃ listed, listed.Perm (joinedEntries entries history accountSetId)
      ∧ listed.Pairwise (fun a b => direction.Before a.cursor b.cursor)
      ∧ ∀ out, ReadBy (listForAccountSetIdByCreatedAt entries history accountSetId direction first)
        none out ↔ out = listed := by
  cases direction with
  | ascending =>
    exact ⟨sortBy EntryRow.cursor _, sortBy_perm _ _, sortBy_strict hnodup,
      fun out => readBy_sorted hnodup (fun _ _ => rfl) hfirst⟩
  | descending =>
    have hdual : ((joinedEntries entries history accountSetId).map
        (fun row => OrderDual.toDual row.cursor)).Nodup := by
      have hmap := hnodup.map OrderDual.toDual.injective
      rwa [List.map_map] at hmap
    exact ⟨sortBy (fun row => OrderDual.toDual row.cursor) _, sortBy_perm _ _, sortBy_strict hdual,
      fun out => readBy_sorted hdual (fun _ _ => rfl) hfirst⟩

end Listing

/-- **The listing of a set's entries is exact.** On a drained ledger over a fixed membership graph,
in either direction and by pages of any size, it reads to an end; and it has read every stored entry
of the set's journal on a transitive member account, each once, no other entry, and all in the order
of their `(created_at, id)`. -/
theorem account_set_entries_listed_exactly {directory : LedgerDirectory}
    {templates : String → Option TxTemplateValues} {accountControls : ControlTable} {p : Pipeline}
    (hbacked : directory.SetsBacked)
    (hrun : Pipeline.Run LedgerDirectory.KeepsGraph
      (Pipeline.start directory templates accountControls) p) (hdrained : p.Drained)
    {history : List BalanceSnapshot} (hhistory : ScansHistory history p.db.balances)
    {accountSetId : AccountSetId} {journalId : JournalId}
    (hset : directory.memberships.accountSets accountSetId = some journalId)
    (direction : ListDirection) {first : ℕ} (hfirst : 0 < first) :
    ∃ listed : List EntryRow,
      (∀ out, ReadBy (listForAccountSetIdByCreatedAt p.db.entryRows history accountSetId direction
        first) none out ↔ out = listed)
      ∧ listed.Pairwise (fun a b => direction.Before a.cursor b.cursor)
      ∧ (∀ row ∈ listed, row ∈ p.db.entryRows)
      ∧ (listed.map EntryRow.values).Nodup
      ∧ ∀ entry, entry ∈ listed.map EntryRow.values
        ↔ entry ∈ p.db.entries ∧ entry.journalId = journalId
          ∧ ∃ direct, ⟨direct, entry.accountId⟩ ∈ directory.memberships.memberAccounts
            ∧ Relation.ReflTransGen directory.memberships.Edge direct accountSetId := by
  have hreachable := (hrun.sound (fun _ _ h => h.toKeepsModes)
    (Pipeline.sound_start hbacked templates accountControls)).reachable
  have hjoined := hrun.joinedEntries_eq hbacked hdrained hhistory hset
  have hids := hreachable.nodup_entryRows
  have hsub : (joinedEntries p.db.entryRows history accountSetId).Sublist p.db.entryRows := by
    rw [hjoined]
    exact List.filter_sublist
  have hnodup : ((joinedEntries p.db.entryRows history accountSetId).map EntryRow.cursor).Nodup := by
    refine List.Nodup.of_map (fun cursor => (ofLex cursor).2) ?_
    rw [List.map_map]
    exact (hsub.map _).nodup hids
  obtain ⟨listed, hperm, hsorted, hpages⟩ := exists_listed_entries hnodup direction hfirst
  refine ⟨listed, hpages, hsorted, fun row hrow => hsub.subset (hperm.subset hrow), ?_, ?_⟩
  · refine List.Nodup.of_map EntryValues.id ?_
    rw [List.map_map]
    exact ((hperm.map _).nodup_iff).mpr ((hsub.map _).nodup hids)
  · intro entry
    rw [(hperm.map EntryRow.values).mem_iff, hjoined, ← hreachable.entryRows_perm.mem_iff,
      ← MembershipTables.mem_ancestors, List.mem_map, List.mem_map]
    constructor
    · rintro ⟨row, hrow, rfl⟩
      obtain ⟨hstored, hbelow⟩ := List.mem_filter.mp hrow
      obtain ⟨hjournal, hancestor⟩ := of_decide_eq_true hbelow
      exact ⟨⟨row, hstored, rfl⟩, hjournal, hancestor⟩
    · rintro ⟨⟨row, hstored, rfl⟩, hbelow⟩
      exact ⟨row, List.mem_filter.mpr ⟨hstored, decide_eq_true hbelow⟩, rfl⟩

/-- The set of the sample, entry by entry, the latest first. -/
theorem account_set_entries_listed_exactly_sample :
    ∃ (p : Pipeline) (history : List BalanceSnapshot), p.Drained
      ∧ ScansHistory history p.db.balances
      ∧ (p.db.balances.history ⟨⟨1⟩, ⟨3⟩, ⟨"USD"⟩⟩).length = 2
      ∧ ∃ listed : List EntryRow, ∀ out,
        ReadBy (listForAccountSetIdByCreatedAt p.db.entryRows history ⟨3⟩ .descending 1) none out
          ↔ out = listed := by
  obtain ⟨p, hrun, hdrained, hlength⟩ := exists_drained_sample LedgerDirectory.KeepsGraph
  obtain ⟨history, hhistory⟩ := hrun.exists_scansHistory setsBacked_streamingDb hdrained
  have hset : streamingDb.memberships.accountSets ⟨3⟩ = some ⟨1⟩ := rfl
  obtain ⟨listed, hpages, -⟩ := account_set_entries_listed_exactly setsBacked_streamingDb hrun
    hdrained hhistory hset .descending Nat.one_pos
  exact ⟨p, history, hdrained, hhistory, hlength, listed, hpages⟩

end CalaLedger
