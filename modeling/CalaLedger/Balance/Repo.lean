import CalaLedger.Balance.Snapshot
import CalaLedger.Foundations.VersionedTable

/-! # The settled balance tables

`cala_balance_history` and `cala_current_balances`, and the statements that write them. A statement
inserts a list of snapshots into the history and upserts the current rows from the newest of each
balance; a long list is written by several statements. On snapshots that continue the stored
versions this is the abstract `extend` of a versioned table (`insertSnapshotsInOp_eq`).

Seen from outside, a writer runs entries over the balances they reach: `BalanceTable.advance`. The
tables are `WellFormed` when they mirror their histories and every snapshot names the balance it is
stored under; every run keeps that. -/

namespace CalaLedger

open Foundations (VersionedTable)

/-- `cala_balance_history` and `cala_current_balances`. -/
abbrev BalanceTable := VersionedTable BalanceKey BalanceSnapshot

/-- The rows a list of snapshots becomes. -/
def balanceRows (snapshots : List BalanceSnapshot) : List (BalanceKey × BalanceSnapshot) :=
  snapshots.map (fun snapshot => (snapshot.key, snapshot))

/-- `MAX(version)` of the new rows of a balance, with the values of that version. -/
def newestRow (rows : List BalanceSnapshot) : Option (ℕ × BalanceSnapshot) :=
  (rows.argmax BalanceSnapshot.version).map (fun snapshot => (snapshot.version, snapshot))

/-- `INSERT ... ON CONFLICT DO UPDATE` of one current row. -/
def upsertCurrent (current : Option (ℕ × BalanceSnapshot)) (rows : List BalanceSnapshot) :
    Option (ℕ × BalanceSnapshot) :=
  match newestRow rows with
  | none => current
  | some (version, values) =>
      match current with
      | none => some (version, values)
      | some (latestVersion, latestValues) =>
          some (max latestVersion version,
            if latestVersion < version then values else latestValues)

/-- `insert_snapshots_in_op`: `none` when
`UNIQUE (account_id, journal_id, currency, version)` is violated. -/
def insertSnapshotsInOp (table : BalanceTable) (snapshots : List BalanceSnapshot) :
    Option BalanceTable := do
  let history ← VersionedTable.appendHistory BalanceSnapshot.version table (balanceRows snapshots)
  some
    { history := history
      current := fun key =>
        upsertCurrent (table.current key) (Foundations.rowsOf (balanceRows snapshots) key) }

def INSERT_SNAPSHOT_BATCH_SIZE : ℕ := 5000

/-- The balance part of `insert_postings_and_balances_in_op`: the head goes with the posting rows,
the rest in further statements. -/
def insertBalancesInOp (table : BalanceTable) (snapshots : List BalanceSnapshot) :
    Option BalanceTable := do
  let head := snapshots.take (min snapshots.length INSERT_SNAPSHOT_BATCH_SIZE)
  let rest := snapshots.drop (min snapshots.length INSERT_SNAPSHOT_BATCH_SIZE)
  let table ← insertSnapshotsInOp table head
  (Foundations.chunks INSERT_SNAPSHOT_BATCH_SIZE rest).foldlM insertSnapshotsInOp table

section Insert

variable {table : BalanceTable}

theorem balanceRows_append (front back : List BalanceSnapshot) :
    balanceRows (front ++ back) = balanceRows front ++ balanceRows back :=
  List.map_append

theorem rowsOf_balanceRows (snapshots : List BalanceSnapshot) (key : BalanceKey) :
    Foundations.rowsOf (balanceRows snapshots) key
      = snapshots.filter (fun snapshot => snapshot.key = key) := by
  rw [Foundations.rowsOf, balanceRows, List.filter_map, List.map_map]
  exact (List.map_congr_left (fun _ _ => rfl)).trans (List.map_id _)

/-- On counted rows the upsert leaves the last of them. -/
theorem upsertCurrent_eq {base : ℕ} {rows : List BalanceSnapshot}
    (hrows : VersionedTable.Counts BalanceSnapshot.version base rows)
    {current : Option (ℕ × BalanceSnapshot)} (hcurrent : ∀ row, current = some row → row.1 = base) :
    upsertCurrent current rows
      = if rows = [] then current else VersionedTable.latest BalanceSnapshot.version rows := by
  rw [upsertCurrent, newestRow, Foundations.argmax_eq_getLast? hrows.strict]
  cases hlast : rows.getLast? with
  | none =>
      rw [List.getLast?_eq_none_iff.mp hlast]
      rfl
  | some last =>
      have hne : rows ≠ [] := by
        rintro rfl
        cases hlast
      have hlt : base < last.version := (hrows.bounds (List.mem_of_getLast? hlast)).1
      rw [if_neg hne, VersionedTable.latest, hlast]
      cases hc : current with
      | none => rfl
      | some row =>
          have hbase := hcurrent row hc
          simp only [Option.map_some]
          rw [hbase, max_eq_right hlt.le, if_pos hlt]

/-- **One statement extends the tables.** -/
theorem insertSnapshotsInOp_eq (h : VersionedTable.Mirrors BalanceSnapshot.version table)
    {snapshots : List BalanceSnapshot}
    (hrows : VersionedTable.Continues BalanceSnapshot.version table (balanceRows snapshots)) :
    insertSnapshotsInOp table snapshots
      = some (table.extend BalanceSnapshot.version (balanceRows snapshots)) := by
  rw [insertSnapshotsInOp, VersionedTable.appendHistory_eq h hrows]
  refine congrArg some ?_
  have hcurrent : (fun key => upsertCurrent (table.current key)
      (Foundations.rowsOf (balanceRows snapshots) key))
      = (table.extend BalanceSnapshot.version (balanceRows snapshots)).current := by
    funext key
    exact upsertCurrent_eq (hrows key) (fun row hrow => (h.current_version hrow).1)
  rw [hcurrent]

/-- Further statements extend the tables further. -/
theorem foldlM_insertSnapshotsInOp (batches : List (List BalanceSnapshot)) :
    ∀ {table : BalanceTable}, VersionedTable.Mirrors BalanceSnapshot.version table →
      VersionedTable.Continues BalanceSnapshot.version table (balanceRows batches.flatten) →
      batches.foldlM insertSnapshotsInOp table
        = some (table.extend BalanceSnapshot.version (balanceRows batches.flatten)) := by
  induction batches with
  | nil =>
      intro table _ _
      exact congrArg some (VersionedTable.extend_nil table).symm
  | cons batch batches ih =>
      intro table h hrows
      rw [List.flatten_cons, balanceRows_append] at hrows ⊢
      obtain ⟨hbatch, hrest⟩ := VersionedTable.continues_append.mp hrows
      rw [List.foldlM_cons, insertSnapshotsInOp_eq h hbatch, VersionedTable.extend_append]
      exact ih (h.extend hbatch) hrest

/-- **The whole write extends the tables**, wherever its chunks are cut. -/
theorem insertBalancesInOp_eq (h : VersionedTable.Mirrors BalanceSnapshot.version table)
    {snapshots : List BalanceSnapshot}
    (hrows : VersionedTable.Continues BalanceSnapshot.version table (balanceRows snapshots)) :
    insertBalancesInOp table snapshots
      = some (table.extend BalanceSnapshot.version (balanceRows snapshots)) := by
  have hsplit : snapshots = snapshots.take (min snapshots.length INSERT_SNAPSHOT_BATCH_SIZE)
      ++ (Foundations.chunks INSERT_SNAPSHOT_BATCH_SIZE
        (snapshots.drop (min snapshots.length INSERT_SNAPSHOT_BATCH_SIZE))).flatten := by
    rw [Foundations.flatten_chunks (by decide), List.take_append_drop]
  rw [hsplit, balanceRows_append] at hrows
  obtain ⟨hhead, hrest⟩ := VersionedTable.continues_append.mp hrows
  rw [insertBalancesInOp, insertSnapshotsInOp_eq h hhead]
  simp only [Option.bind_eq_bind, Option.bind_some]
  rw [foldlM_insertSnapshotsInOp _ (h.extend hhead) hrest, ← VersionedTable.extend_append,
    ← balanceRows_append, ← hsplit]

end Insert

/-! ## Entries run over balances -/

/-- An entry with the time its snapshot is stamped with. -/
abbrev TimedEntry := Timestamp × EntryValues

/-- The snapshot of one balance that follows when a timed entry is added. -/
def nextTimed (key : BalanceKey) (base : Option BalanceSnapshot) (timed : TimedEntry) :
    BalanceSnapshot :=
  nextSnapshot timed.1 key.accountId base timed.2

/-- The values of the current row of a balance. -/
def BalanceTable.value (table : BalanceTable) (key : BalanceKey) : Option BalanceSnapshot :=
  (table.current key).map Prod.snd

/-- Run entries over every balance. -/
def BalanceTable.advance (table : BalanceTable) (events : BalanceKey → List TimedEntry) :
    BalanceTable :=
  VersionedTable.advance BalanceSnapshot.version nextTimed table events

/-- The entries of a run belong to the journal and currency of the balance they reach. -/
def KeyedEvents (events : BalanceKey → List TimedEntry) : Prop :=
  ∀ key, ∀ timed ∈ events key,
    timed.2.journalId = key.journalId ∧ timed.2.currency = key.currency

/-- The invariant of the settled tables. -/
structure BalanceTable.WellFormed (table : BalanceTable) : Prop where
  mirrors : VersionedTable.Mirrors BalanceSnapshot.version table
  keyed : ∀ key, ∀ snapshot ∈ table.history key, snapshot.key = key

theorem countsEvents_nextTimed : VersionedTable.CountsEvents BalanceSnapshot.version nextTimed where
  first := fun key timed => newSnapshot_version timed.1 key.accountId timed.2
  later := fun _ snapshot timed => updateSnapshot_version timed.1 snapshot timed.2

theorem nextTimed_key {key : BalanceKey} {base : Option BalanceSnapshot} {timed : TimedEntry}
    (hbase : ∀ snapshot, base = some snapshot → snapshot.key = key)
    (htimed : timed.2.journalId = key.journalId ∧ timed.2.currency = key.currency) :
    (nextTimed key base timed).key = key := by
  cases base with
  | none =>
      change (newSnapshot timed.1 key.accountId timed.2).key = key
      rw [newSnapshot_key, htimed.1, htimed.2]
  | some snapshot =>
      change (updateSnapshot timed.1 snapshot timed.2).key = key
      rw [updateSnapshot_key]
      exact hbase snapshot rfl

/-- Every snapshot of a run names the balance the run is over. -/
theorem run_keyed {key : BalanceKey} (timeds : List TimedEntry) :
    ∀ {base : Option BalanceSnapshot}, (∀ snapshot, base = some snapshot → snapshot.key = key) →
      (∀ timed ∈ timeds, timed.2.journalId = key.journalId ∧ timed.2.currency = key.currency) →
      ∀ snapshot ∈ VersionedTable.run (nextTimed key) base timeds, snapshot.key = key := by
  induction timeds with
  | nil =>
      intro base _ _ snapshot h
      cases h
  | cons timed timeds ih =>
      intro base hbase htimeds snapshot h
      have hfirst := nextTimed_key hbase (htimeds timed List.mem_cons_self)
      rw [VersionedTable.run_cons, List.mem_cons] at h
      rcases h with rfl | h
      · exact hfirst
      · refine ih ?_ (fun t ht => htimeds t (List.mem_cons_of_mem _ ht)) snapshot h
        rintro _ ⟨⟩
        exact hfirst

/-- A chain is a run at one time. -/
theorem chain_eq_run (time : Timestamp) (key : BalanceKey) (entries : List EntryValues) :
    ∀ base : Option BalanceSnapshot, chain time key.accountId base entries
      = VersionedTable.run (nextTimed key) base (entries.map (fun entry => (time, entry))) := by
  induction entries with
  | nil => exact fun _ => rfl
  | cons entry entries ih =>
      intro base
      rw [chain_cons, ih, List.map_cons, VersionedTable.run_cons]
      rfl

section WellFormed

variable {table : BalanceTable}

theorem BalanceTable.WellFormed.value_keyed (h : table.WellFormed) {key : BalanceKey}
    {snapshot : BalanceSnapshot} (hvalue : table.value key = some snapshot) :
    snapshot.key = key := by
  rw [BalanceTable.value, h.mirrors.current, VersionedTable.latest, Option.map_map,
    Option.map_eq_some_iff] at hvalue
  obtain ⟨s, hs, rfl⟩ := hvalue
  exact h.keyed key s (List.mem_of_getLast? hs)

/-- **A run keeps the settled tables well formed.** -/
theorem BalanceTable.WellFormed.advance (h : table.WellFormed)
    {events : BalanceKey → List TimedEntry} (hevents : KeyedEvents events) :
    (table.advance events).WellFormed where
  mirrors := h.mirrors.advance countsEvents_nextTimed events
  keyed := by
    intro key snapshot hmem
    rcases List.mem_append.mp hmem with hold | hnew
    · exact h.keyed key snapshot hold
    · exact run_keyed _ (fun s hs => h.value_keyed hs) (hevents key) snapshot hnew

theorem BalanceTable.advance_append (table : BalanceTable)
    (front back : BalanceKey → List TimedEntry) :
    table.advance (fun key => front key ++ back key) = (table.advance front).advance back :=
  VersionedTable.advance_append table front back

@[simp] theorem BalanceTable.advance_nil (table : BalanceTable) :
    table.advance (fun _ => []) = table :=
  VersionedTable.advance_nil table

/-- Snapshots that spell out, balance by balance, a run of entries. -/
def Spells (table : BalanceTable) (events : BalanceKey → List TimedEntry)
    (snapshots : List BalanceSnapshot) : Prop :=
  ∀ key, snapshots.filter (fun snapshot => snapshot.key = key)
    = VersionedTable.run (nextTimed key) (table.value key) (events key)

theorem Spells.rows {events : BalanceKey → List TimedEntry} {snapshots : List BalanceSnapshot}
    (h : Spells table events snapshots) (key : BalanceKey) :
    Foundations.rowsOf (balanceRows snapshots) key
      = VersionedTable.run (nextTimed key) ((table.current key).map Prod.snd) (events key) := by
  rw [rowsOf_balanceRows]
  exact h key

/-- **The posting flow's write is the run.** -/
theorem insertBalancesInOp_advance (h : table.WellFormed) {events : BalanceKey → List TimedEntry}
    {snapshots : List BalanceSnapshot} (hspells : Spells table events snapshots) :
    insertBalancesInOp table snapshots = some (table.advance events) := by
  rw [insertBalancesInOp_eq h.mirrors
    (h.mirrors.continues_of_run countsEvents_nextTimed hspells.rows)]
  exact congrArg some (VersionedTable.extend_eq_advance hspells.rows)

/-- `BalanceRepo::insert_new_snapshots`: one statement for each chunk. -/
def insertNewSnapshots (table : BalanceTable) (newBalances : List BalanceSnapshot) :
    Option BalanceTable :=
  (Foundations.chunks INSERT_SNAPSHOT_BATCH_SIZE newBalances).foldlM insertSnapshotsInOp table

/-- **The rollup's write is the run.** -/
theorem insertNewSnapshots_advance (h : table.WellFormed)
    {events : BalanceKey → List TimedEntry} {snapshots : List BalanceSnapshot}
    (hspells : Spells table events snapshots) :
    insertNewSnapshots table snapshots = some (table.advance events) := by
  have hflatten : (Foundations.chunks INSERT_SNAPSHOT_BATCH_SIZE snapshots).flatten = snapshots :=
    Foundations.flatten_chunks (by decide) snapshots
  have hcontinues := h.mirrors.continues_of_run countsEvents_nextTimed hspells.rows
  rw [insertNewSnapshots, foldlM_insertSnapshotsInOp _ h.mirrors (by rwa [hflatten]), hflatten]
  exact congrArg some (VersionedTable.extend_eq_advance hspells.rows)

/-- Snapshots that spell out, balance by balance, a run of entries from given balances. -/
def SpellsFrom (base : BalanceKey → Option BalanceSnapshot) (events : BalanceKey → List TimedEntry)
    (snapshots : List BalanceSnapshot) : Prop :=
  ∀ key, snapshots.filter (fun snapshot => snapshot.key = key)
    = VersionedTable.run (nextTimed key) (base key) (events key)

/-- Snapshots of one journal, known account by account and currency by currency, spell out the run
of that journal's balances. -/
theorem spellsFrom_of_ofKey (journalId : JournalId) {base : BalanceKey → Option BalanceSnapshot}
    {events : BalanceKey → List TimedEntry} (hevents : KeyedEvents events)
    (hbase : ∀ key, events key ≠ [] → ∀ s ∈ base key, s.key = key)
    (hjournal : ∀ key, key.journalId ≠ journalId → events key = [])
    {snapshots : List BalanceSnapshot}
    (hsnapshots : ∀ accountId currency,
      snapshots.filter (fun s => SnapshotFold.OfKey (accountId, currency) s)
        = VersionedTable.run (nextTimed ⟨journalId, accountId, currency⟩)
            (base ⟨journalId, accountId, currency⟩) (events ⟨journalId, accountId, currency⟩)) :
    SpellsFrom base events snapshots := by
  have hown : ∀ snapshot ∈ snapshots, snapshot.journalId = journalId := by
    intro snapshot hmem
    have hfilter : snapshot ∈ snapshots.filter
        (fun s => SnapshotFold.OfKey (snapshot.accountId, snapshot.currency) s) :=
      List.mem_filter.mpr ⟨hmem, by simp [SnapshotFold.OfKey]⟩
    rw [hsnapshots] at hfilter
    have hsome : events ⟨journalId, snapshot.accountId, snapshot.currency⟩ ≠ [] := by
      intro hnone
      rw [hnone] at hfilter
      exact List.not_mem_nil hfilter
    exact congrArg BalanceKey.journalId
      (run_keyed _ (hbase _ hsome) (hevents _) snapshot hfilter)
  rintro ⟨j, accountId, currency⟩
  by_cases hj : j = journalId
  · subst hj
    rw [← hsnapshots]
    refine List.filter_congr (fun snapshot hmem => decide_eq_decide.mpr ?_)
    simp [BalanceSnapshot.key, SnapshotFold.OfKey, hown snapshot hmem]
  · rw [hjournal _ hj, VersionedTable.run_nil, List.filter_eq_nil_iff]
    intro snapshot hmem hkey
    rw [decide_eq_true_eq] at hkey
    exact hj ((congrArg BalanceKey.journalId hkey).symm.trans (hown snapshot hmem))

theorem spells_of_ofKey (journalId : JournalId) (h : table.WellFormed)
    {events : BalanceKey → List TimedEntry} (hevents : KeyedEvents events)
    (hjournal : ∀ key, key.journalId ≠ journalId → events key = [])
    {snapshots : List BalanceSnapshot}
    (hsnapshots : ∀ accountId currency,
      snapshots.filter (fun s => SnapshotFold.OfKey (accountId, currency) s)
        = VersionedTable.run (nextTimed ⟨journalId, accountId, currency⟩)
            (table.value ⟨journalId, accountId, currency⟩)
            (events ⟨journalId, accountId, currency⟩)) :
    Spells table events snapshots :=
  spellsFrom_of_ofKey journalId hevents (fun _ _ _ hs => h.value_keyed hs) hjournal hsnapshots

end WellFormed

end CalaLedger
