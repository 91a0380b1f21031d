import CalaLedger.Balance.Repo
import CalaLedger.Foundations.NewestRow
import CalaLedger.Velocity.Balance

/-! # Current rows mirror histories

Four statements write the balance tables, each choosing the current row in its own way: the posting
insert and its overflow chunks, the rollup insert, and the velocity insert. A run of these writers,
each given what a fold produced on top of the present current rows, in any order of balances and
versions, keeps every current row on the newest version of its history and every snapshot in the
history once (`current_tables_mirror_history`). -/

namespace CalaLedger

open Foundations (VersionedTable rowsOf)

/-- The settled and the velocity balance tables. -/
structure MirroredTables where
  balances : BalanceTable
  velocityBalances : VelocityTable

/-- Nothing written yet. -/
def MirroredTables.empty : MirroredTables :=
  { balances := ⟨fun _ => [], fun _ => none⟩
    velocityBalances := ⟨fun _ => [], fun _ => none⟩ }

/-- One call of a writer. -/
inductive BalanceWrite
  /-- `PostingRepo::insert_postings_and_balances_in_op` -/
  | posting (snapshots : List BalanceSnapshot)
  /-- `BalanceRepo::insert_new_snapshots` -/
  | rollup (snapshots : List BalanceSnapshot)
  /-- `VelocityBalanceRepo::insert_new_snapshots` -/
  | velocity (newBalances : List (VelocityBalanceKey × List BalanceSnapshot))

namespace BalanceWrite

/-- The rows a velocity write becomes. -/
def velocityRowsOf (newBalances : List (VelocityBalanceKey × List BalanceSnapshot)) :
    List (VelocityBalanceKey × BalanceSnapshot) :=
  newBalances.flatMap (fun group => group.2.map (fun snapshot => (group.1, snapshot)))

/-- The settled snapshots a write adds. -/
def snapshots : BalanceWrite → List BalanceSnapshot
  | posting snapshots => snapshots
  | rollup snapshots => snapshots
  | velocity _ => []

/-- The velocity snapshots a write adds. -/
def velocityRows : BalanceWrite → List (VelocityBalanceKey × BalanceSnapshot)
  | posting _ => []
  | rollup _ => []
  | velocity newBalances => velocityRowsOf newBalances

def run (tables : MirroredTables) : BalanceWrite → Option MirroredTables
  | posting snapshots =>
      (insertBalancesInOp tables.balances snapshots).map
        (fun balances => { tables with balances := balances })
  | rollup snapshots =>
      (insertNewSnapshots tables.balances snapshots).map
        (fun balances => { tables with balances := balances })
  | velocity newBalances =>
      (insertVelocitySnapshots tables.velocityBalances newBalances).map
        (fun velocityBalances => { tables with velocityBalances := velocityBalances })

/-- A settled list holds, in some order, what a fold produced on the present current rows. -/
def FoldedSettled (table : BalanceTable) (snapshots : List BalanceSnapshot) : Prop :=
  ∃ (events : BalanceKey → List TimedEntry) (produced : List BalanceSnapshot),
    Spells table events produced ∧ snapshots.Perm produced

/-- A velocity list holds, in some order, what a fold produced on the present current rows. -/
def FoldedVelocity (table : VelocityTable)
    (newBalances : List (VelocityBalanceKey × List BalanceSnapshot)) : Prop :=
  ∃ (time : Timestamp) (events : VelocityBalanceKey → List Matched),
    ∀ key, (rowsOf (velocityRowsOf newBalances) key).Perm
      (VersionedTable.run (nextVelocity time key) (VelocityTable.value table key) (events key))

/-- What a writer is given was produced on the present current rows. -/
def Folded (tables : MirroredTables) : BalanceWrite → Prop
  | posting snapshots => FoldedSettled tables.balances snapshots
  | rollup snapshots => FoldedSettled tables.balances snapshots
  | velocity newBalances => FoldedVelocity tables.velocityBalances newBalances

end BalanceWrite

/-- The tables after a run of writers, from empty tables. -/
inductive Written : List BalanceWrite → MirroredTables → Prop
  | start : Written [] .empty
  | write {writes : List BalanceWrite} {tables tables' : MirroredTables} (write : BalanceWrite) :
      Written writes tables → write.Folded tables → write.run tables = some tables' →
      Written (writes ++ [write]) tables'

/-- The one current row of a key, if any, is the newest version of its history. -/
structure CurrentMirrors (history : List BalanceSnapshot)
    (current : Option (ℕ × BalanceSnapshot)) : Prop where
  exists_iff : current.isSome ↔ history ≠ []
  newest : ∀ version values, current = some (version, values) →
    values ∈ history ∧ values.version = version ∧ ∀ s ∈ history, s.version ≤ version
  distinct : (history.map BalanceSnapshot.version).Nodup

/-! ## Inserts into any history -/

section Insert

variable {table : BalanceTable}

/-- `GREATEST` and the newest new row together are the newest row of all. -/
theorem upsertCurrent_newest {history rows : List BalanceSnapshot}
    (hrows : ((history ++ rows).map BalanceSnapshot.version).Nodup) :
    upsertCurrent (VersionedTable.newest BalanceSnapshot.version history) rows
      = VersionedTable.newest BalanceSnapshot.version (history ++ rows) := by
  cases htop : VersionedTable.newest BalanceSnapshot.version rows with
  | none =>
      have hnil := VersionedTable.newest_eq_none.mp htop
      subst hnil
      rw [List.append_nil]
      rfl
  | some top =>
      rw [VersionedTable.newest_append hrows htop, upsertCurrent]
      have hnewest : newestRow rows = some top := htop
      rw [hnewest]
      cases VersionedTable.newest BalanceSnapshot.version history <;> rfl

/-- **A statement of new versions** is not refused, and keeps the current rows on the newest
versions. -/
theorem insertSnapshotsInOp_newest
    (h : VersionedTable.MirrorsNewest BalanceSnapshot.version table)
    {snapshots : List BalanceSnapshot}
    (hnew : ∀ key, ((table.history key
      ++ rowsOf (balanceRows snapshots) key).map BalanceSnapshot.version).Nodup) :
    ∃ table', insertSnapshotsInOp table snapshots = some table'
      ∧ (∀ key, table'.history key = table.history key ++ rowsOf (balanceRows snapshots) key)
      ∧ VersionedTable.MirrorsNewest BalanceSnapshot.version table' := by
  rw [insertSnapshotsInOp, VersionedTable.appendHistory_of_nodup hnew]
  refine ⟨_, rfl, fun key => rfl, ⟨hnew, fun key => ?_⟩⟩
  show upsertCurrent (table.current key) _ = _
  rw [h.current key]
  exact upsertCurrent_newest (hnew key)

/-- **Statement after statement**: only the whole list matters, not where it was cut. -/
theorem foldlM_insertSnapshotsInOp_newest (batches : List (List BalanceSnapshot)) :
    ∀ {table : BalanceTable}, VersionedTable.MirrorsNewest BalanceSnapshot.version table →
      (∀ key, ((table.history key ++ rowsOf (balanceRows batches.flatten) key).map
        BalanceSnapshot.version).Nodup) →
      ∃ table', batches.foldlM insertSnapshotsInOp table = some table'
        ∧ (∀ key, table'.history key
            = table.history key ++ rowsOf (balanceRows batches.flatten) key)
        ∧ VersionedTable.MirrorsNewest BalanceSnapshot.version table' := by
  induction batches with
  | nil =>
      intro table h _
      exact ⟨table, rfl, fun key => (List.append_nil _).symm, h⟩
  | cons batch batches ih =>
      intro table h hnew
      have hsplit : ∀ key, rowsOf (balanceRows (batch :: batches).flatten) key
          = rowsOf (balanceRows batch) key ++ rowsOf (balanceRows batches.flatten) key := by
        intro key
        rw [List.flatten_cons, balanceRows_append, Foundations.rowsOf_append]
      have hfirst : ∀ key, ((table.history key
          ++ rowsOf (balanceRows batch) key).map BalanceSnapshot.version).Nodup := by
        intro key
        have hkey := hnew key
        rw [hsplit, ← List.append_assoc, List.map_append] at hkey
        exact (List.nodup_append.mp hkey).1
      obtain ⟨next, hnext, hhistory, hmirrors⟩ := insertSnapshotsInOp_newest h hfirst
      obtain ⟨table', hrest, hhistory', hmirrors'⟩ := ih hmirrors (fun key => by
        rw [hhistory, List.append_assoc, ← hsplit]
        exact hnew key)
      refine ⟨table', ?_, fun key => ?_, hmirrors'⟩
      · rw [List.foldlM_cons, hnext]
        exact hrest
      · rw [hhistory', hhistory, List.append_assoc, hsplit]

/-- The posting insert is one run of statements over the whole list. -/
theorem insertBalancesInOp_eq_foldlM (table : BalanceTable) (snapshots : List BalanceSnapshot) :
    ∃ batches : List (List BalanceSnapshot), batches.flatten = snapshots
      ∧ insertBalancesInOp table snapshots = batches.foldlM insertSnapshotsInOp table := by
  refine ⟨snapshots.take (min snapshots.length INSERT_SNAPSHOT_BATCH_SIZE)
    :: Foundations.chunks INSERT_SNAPSHOT_BATCH_SIZE
      (snapshots.drop (min snapshots.length INSERT_SNAPSHOT_BATCH_SIZE)), ?_, rfl⟩
  rw [List.flatten_cons, Foundations.flatten_chunks (by decide), List.take_append_drop]

/-- The rollup insert is one run of statements over the whole list. -/
theorem insertNewSnapshots_eq_foldlM (table : BalanceTable) (snapshots : List BalanceSnapshot) :
    ∃ batches : List (List BalanceSnapshot), batches.flatten = snapshots
      ∧ insertNewSnapshots table snapshots = batches.foldlM insertSnapshotsInOp table :=
  ⟨_, Foundations.flatten_chunks (by decide) snapshots, rfl⟩

end Insert

/-! ## The velocity insert -/

section Velocity

variable {table : VelocityTable}

/-- Rows that count on from a history: the velocity statement leaves the newest of all. -/
theorem upsertVelocity_newest {history rows : List BalanceSnapshot}
    (hhistory : VersionedTable.Numbered BalanceSnapshot.version 0 history)
    (hrows : VersionedTable.Numbered BalanceSnapshot.version history.length rows) :
    upsertVelocity (VersionedTable.newest BalanceSnapshot.version history) rows
      = VersionedTable.newest BalanceSnapshot.version (history ++ rows) := by
  have hnumbered : VersionedTable.Numbered BalanceSnapshot.version 0 (history ++ rows) :=
    hhistory.append (by rwa [Nat.zero_add])
  cases htop : VersionedTable.newest BalanceSnapshot.version rows with
  | none =>
      have hnil := VersionedTable.newest_eq_none.mp htop
      subst hnil
      rw [List.append_nil]
      rfl
  | some top =>
      have hversion := hrows.newest htop
      have hpos : 0 < rows.length := List.length_pos_of_mem (VersionedTable.newest_spec htop).1
      rw [VersionedTable.newest_append hnumbered.nodup htop, upsertVelocity]
      obtain ⟨s, hs, rfl⟩ := Option.map_eq_some_iff.mp htop
      rw [hs]
      dsimp only at hversion ⊢
      cases hbase : VersionedTable.newest BalanceSnapshot.version history with
      | none =>
          -- the first rows of the balance: row number and version agree
          rw [VersionedTable.newest_eq_none.mp hbase, List.length_nil, Nat.zero_add] at hversion
          simp [hversion]
      | some row =>
          have hrow := hhistory.newest hbase
          have hlength : 0 < history.length :=
            List.length_pos_of_mem (VersionedTable.newest_spec hbase).1
          have hlater : s.version ≠ rows.length := by omega
          have hlt : row.1 < s.version := by omega
          simp [hlater, hlt, max_eq_right hlt.le]

/-- **The velocity statement** is not refused, and keeps the current rows on the newest
versions. -/
theorem insertVelocitySnapshots_newest
    (hnumbered : ∀ key, VersionedTable.Numbered BalanceSnapshot.version 0 (table.history key))
    (hcurrent : ∀ key, table.current key
      = VersionedTable.newest BalanceSnapshot.version (table.history key))
    {newBalances : List (VelocityBalanceKey × List BalanceSnapshot)}
    (hnew : ∀ key, VersionedTable.Numbered BalanceSnapshot.version (table.history key).length
      (rowsOf (BalanceWrite.velocityRowsOf newBalances) key)) :
    ∃ table', insertVelocitySnapshots table newBalances = some table'
      ∧ (∀ key, table'.history key
          = table.history key ++ rowsOf (BalanceWrite.velocityRowsOf newBalances) key)
      ∧ ∀ key, table'.current key
          = VersionedTable.newest BalanceSnapshot.version (table'.history key) := by
  have hfresh : ∀ key, ((table.history key
      ++ rowsOf (BalanceWrite.velocityRowsOf newBalances) key).map
        BalanceSnapshot.version).Nodup :=
    fun key => ((hnumbered key).append (by rw [Nat.zero_add]; exact hnew key)).nodup
  have happend := VersionedTable.appendHistory_of_nodup hfresh
  rw [insertVelocitySnapshots]
  change ∃ table', (VersionedTable.appendHistory BalanceSnapshot.version table
    (BalanceWrite.velocityRowsOf newBalances) >>= _) = some table' ∧ _
  rw [happend]
  refine ⟨_, rfl, fun key => rfl, fun key => ?_⟩
  show upsertVelocity (table.current key) _ = _
  rw [hcurrent key]
  exact upsertVelocity_newest (hnumbered key) (hnew key)

end Velocity

/-! ## Runs of writers -/

/-- The invariant of a run: every history is numbered from one and mirrored by its current row. -/
structure MirroredTables.Numbered (tables : MirroredTables) : Prop where
  balances : ∀ key,
    VersionedTable.Numbered BalanceSnapshot.version 0 (tables.balances.history key)
  balancesCurrent : ∀ key, tables.balances.current key
    = VersionedTable.newest BalanceSnapshot.version (tables.balances.history key)
  velocity : ∀ key,
    VersionedTable.Numbered BalanceSnapshot.version 0 (tables.velocityBalances.history key)
  velocityCurrent : ∀ key, tables.velocityBalances.current key
    = VersionedTable.newest BalanceSnapshot.version (tables.velocityBalances.history key)

section Run

variable {tables : MirroredTables}

/-- The version a fold counts on from is the number of rows in the history. -/
theorem base_of_newest {κ : Type} {table : VersionedTable κ BalanceSnapshot} {key : κ}
    (hnumbered : VersionedTable.Numbered BalanceSnapshot.version 0 (table.history key))
    (hcurrent : table.current key
      = VersionedTable.newest BalanceSnapshot.version (table.history key)) :
    (((table.current key).map Prod.snd).map BalanceSnapshot.version).getD 0
      = (table.history key).length := by
  rw [hcurrent]
  cases hnewest : VersionedTable.newest BalanceSnapshot.version (table.history key) with
  | none =>
      rw [VersionedTable.newest_eq_none.mp hnewest]
      rfl
  | some row =>
      have hversion := (VersionedTable.newest_spec hnewest).2.1
      have hlength := hnumbered.newest hnewest
      simp only [Option.map_some, Option.getD_some]
      omega

theorem numbered_of_foldedSettled (h : tables.Numbered) {snapshots : List BalanceSnapshot}
    (hfolded : BalanceWrite.FoldedSettled tables.balances snapshots) (key : BalanceKey) :
    VersionedTable.Numbered BalanceSnapshot.version (tables.balances.history key).length
      (rowsOf (balanceRows snapshots) key) := by
  obtain ⟨events, produced, hspells, hperm⟩ := hfolded
  have hrows : (rowsOf (balanceRows snapshots) key).Perm (rowsOf (balanceRows produced) key) := by
    rw [rowsOf_balanceRows, rowsOf_balanceRows]
    exact hperm.filter _
  refine VersionedTable.Numbered.of_perm (VersionedTable.Counts.numbered ?_) hrows
  rw [hspells.rows, ← base_of_newest (h.balances key) (h.balancesCurrent key)]
  exact VersionedTable.counts_run (countsEvents_nextTimed.first key)
    (countsEvents_nextTimed.later key) (events key)

theorem numbered_of_foldedVelocity (h : tables.Numbered)
    {newBalances : List (VelocityBalanceKey × List BalanceSnapshot)}
    (hfolded : BalanceWrite.FoldedVelocity tables.velocityBalances newBalances)
    (key : VelocityBalanceKey) :
    VersionedTable.Numbered BalanceSnapshot.version (tables.velocityBalances.history key).length
      (rowsOf (BalanceWrite.velocityRowsOf newBalances) key) := by
  obtain ⟨time, events, hrows⟩ := hfolded
  refine VersionedTable.Numbered.of_perm (VersionedTable.Counts.numbered ?_) (hrows key)
  rw [← base_of_newest (h.velocity key) (h.velocityCurrent key)]
  exact VersionedTable.counts_run ((countsEvents_nextVelocity time).first key)
    ((countsEvents_nextVelocity time).later key) (events key)

/-- A write of statements over the settled tables. -/
theorem run_settled (h : tables.Numbered) {snapshots : List BalanceSnapshot}
    (hfolded : BalanceWrite.FoldedSettled tables.balances snapshots)
    {batches : List (List BalanceSnapshot)} (hbatches : batches.flatten = snapshots) :
    ∃ balances, batches.foldlM insertSnapshotsInOp tables.balances = some balances
      ∧ (∀ key, balances.history key
          = tables.balances.history key ++ rowsOf (balanceRows snapshots) key)
      ∧ MirroredTables.Numbered { tables with balances := balances } := by
  subst hbatches
  have hnew := numbered_of_foldedSettled h hfolded
  have hnumbered : ∀ key, VersionedTable.Numbered BalanceSnapshot.version 0
      (tables.balances.history key ++ rowsOf (balanceRows batches.flatten) key) :=
    fun key => (h.balances key).append (by rw [Nat.zero_add]; exact hnew key)
  have hstart : VersionedTable.MirrorsNewest BalanceSnapshot.version tables.balances :=
    ⟨fun key => (h.balances key).nodup, h.balancesCurrent⟩
  obtain ⟨balances, hrun, hhistory, hmirrors⟩ := foldlM_insertSnapshotsInOp_newest batches hstart
    (fun key => (hnumbered key).nodup)
  refine ⟨balances, hrun, hhistory, fun key => ?_, hmirrors.current, h.velocity,
    h.velocityCurrent⟩
  show VersionedTable.Numbered _ _ (balances.history key)
  rw [hhistory]
  exact hnumbered key

/-- **One writer call** is not refused, adds its snapshots to the histories and keeps the
invariant. -/
theorem BalanceWrite.run_numbered (h : tables.Numbered) {write : BalanceWrite}
    (hfolded : write.Folded tables) :
    ∃ tables', write.run tables = some tables'
      ∧ (∀ key, tables'.balances.history key
          = tables.balances.history key ++ rowsOf (balanceRows write.snapshots) key)
      ∧ (∀ key, tables'.velocityBalances.history key
          = tables.velocityBalances.history key ++ rowsOf write.velocityRows key)
      ∧ tables'.Numbered := by
  cases write with
  | posting snapshots =>
      obtain ⟨batches, hflatten, hwrite⟩ :=
        insertBalancesInOp_eq_foldlM tables.balances snapshots
      obtain ⟨balances, hrun, hhistory, hnumbered⟩ := run_settled h hfolded hflatten
      refine ⟨{ tables with balances := balances }, ?_, hhistory,
        fun key => (List.append_nil _).symm, hnumbered⟩
      rw [BalanceWrite.run, hwrite, hrun]
      rfl
  | rollup snapshots =>
      obtain ⟨batches, hflatten, hwrite⟩ :=
        insertNewSnapshots_eq_foldlM tables.balances snapshots
      obtain ⟨balances, hrun, hhistory, hnumbered⟩ := run_settled h hfolded hflatten
      refine ⟨{ tables with balances := balances }, ?_, hhistory,
        fun key => (List.append_nil _).symm, hnumbered⟩
      rw [BalanceWrite.run, hwrite, hrun]
      rfl
  | velocity newBalances =>
      have hnew := numbered_of_foldedVelocity h hfolded
      obtain ⟨velocityBalances, hrun, hhistory, hcurrent⟩ :=
        insertVelocitySnapshots_newest h.velocity h.velocityCurrent hnew
      refine ⟨{ tables with velocityBalances := velocityBalances }, ?_,
        fun key => (List.append_nil _).symm, hhistory, h.balances, h.balancesCurrent,
        fun key => ?_, hcurrent⟩
      · rw [BalanceWrite.run, hrun]
        rfl
      · show VersionedTable.Numbered _ _ (velocityBalances.history key)
        rw [hhistory]
        exact (h.velocity key).append (by rw [Nat.zero_add]; exact hnew key)

/-- **Every run of writers** keeps the invariant, and the histories hold what was written. -/
theorem Written.numbered {writes : List BalanceWrite} (h : Written writes tables) :
    tables.Numbered
      ∧ (∀ key, tables.balances.history key
          = rowsOf (balanceRows (writes.flatMap BalanceWrite.snapshots)) key)
      ∧ ∀ key, tables.velocityBalances.history key
          = rowsOf (writes.flatMap BalanceWrite.velocityRows) key := by
  induction h with
  | start =>
      exact ⟨⟨fun _ => VersionedTable.numbered_nil 0, fun _ => rfl,
        fun _ => VersionedTable.numbered_nil 0, fun _ => rfl⟩, fun _ => rfl, fun _ => rfl⟩
  | write write _ hfolded hrun ih =>
      obtain ⟨hnumbered, hsettled, hvelocity⟩ := ih
      obtain ⟨tables', hrun', hhistory, hhistory', hnumbered'⟩ := write.run_numbered hnumbered hfolded
      obtain rfl := Option.some.inj (hrun.symm.trans hrun')
      refine ⟨hnumbered', fun key => ?_, fun key => ?_⟩
      · rw [hhistory, hsettled, List.flatMap_append, List.flatMap_singleton, balanceRows_append,
          Foundations.rowsOf_append]
      · rw [hhistory', hvelocity, List.flatMap_append, List.flatMap_singleton,
          Foundations.rowsOf_append]

theorem currentMirrors_of_newest {history : List BalanceSnapshot}
    {current : Option (ℕ × BalanceSnapshot)}
    (hnumbered : VersionedTable.Numbered BalanceSnapshot.version 0 history)
    (hcurrent : current = VersionedTable.newest BalanceSnapshot.version history) :
    CurrentMirrors history current where
  exists_iff := by
    rw [hcurrent, Option.isSome_iff_ne_none, Ne, VersionedTable.newest_eq_none]
  newest := fun version values hrow => VersionedTable.newest_spec (hcurrent.symm.trans hrow)
  distinct := hnumbered.nodup

end Run

/-- **Current tables mirror history.** After any run of the writers, each given, in any order, what
a fold produced on the present current rows: every current row is the newest version of its history
and exists when the history has a row; the histories hold the snapshots of the lists, each once; and
no further such write is refused. -/
theorem current_tables_mirror_history {writes : List BalanceWrite} {tables : MirroredTables}
    (h : Written writes tables) :
    (∀ key, CurrentMirrors (tables.balances.history key) (tables.balances.current key)
        ∧ tables.balances.history key
          = (writes.flatMap BalanceWrite.snapshots).filter (fun snapshot => snapshot.key = key))
      ∧ (∀ key, CurrentMirrors (tables.velocityBalances.history key)
            (tables.velocityBalances.current key)
          ∧ tables.velocityBalances.history key
            = rowsOf (writes.flatMap BalanceWrite.velocityRows) key)
      ∧ ∀ write : BalanceWrite, write.Folded tables → ∃ tables', write.run tables = some tables' := by
  obtain ⟨hnumbered, hsettled, hvelocity⟩ := h.numbered
  refine ⟨fun key => ⟨?_, ?_⟩, fun key => ⟨?_, hvelocity key⟩, fun write hfolded => ?_⟩
  · exact currentMirrors_of_newest (hnumbered.balances key) (hnumbered.balancesCurrent key)
  · rw [hsettled, rowsOf_balanceRows]
  · exact currentMirrors_of_newest (hnumbered.velocity key) (hnumbered.velocityCurrent key)
  · obtain ⟨tables', hrun, -⟩ := write.run_numbered hnumbered hfolded
    exact ⟨tables', hrun⟩

/-- The balance of a small run of writers. -/
def shuffledKey : BalanceKey := ⟨⟨1⟩, ⟨1⟩, ⟨"USD"⟩⟩

def shuffledEntries : List TimedEntry :=
  [1, 2].map (fun id =>
    (0,
      { id := ⟨id⟩
        transactionId := ⟨1⟩
        journalId := shuffledKey.journalId
        accountId := shuffledKey.accountId
        entryType := "E"
        sequence := id
        layer := .settled
        units := 10
        currency := shuffledKey.currency
        direction := .debit
        description := none
        metadata := none }))

/-- Two versions of one balance, the later one first. -/
def shuffledSnapshots : List BalanceSnapshot :=
  (VersionedTable.run (nextTimed shuffledKey) none shuffledEntries).reverse

theorem foldedSettled_shuffledSnapshots :
    BalanceWrite.FoldedSettled MirroredTables.empty.balances shuffledSnapshots := by
  have hkey : ∀ s ∈ shuffledSnapshots.reverse, s.key = shuffledKey := by decide +kernel
  refine ⟨fun key => if key = shuffledKey then shuffledEntries else [],
    shuffledSnapshots.reverse, fun key => ?_, (List.reverse_perm _).symm⟩
  by_cases h : key = shuffledKey
  · subst h
    simp only [if_true]
    rw [List.filter_eq_self.mpr (fun s hs => decide_eq_true (hkey s hs)), shuffledSnapshots,
      List.reverse_reverse]
    rfl
  · have hnone : shuffledSnapshots.reverse.filter (fun s => s.key = key) = [] := by
      refine List.filter_eq_nil_iff.mpr (fun s hs heq => h ?_)
      rw [← hkey s hs]
      exact (of_decide_eq_true heq).symm
    simp only [hnone, h, if_false]
    rfl

theorem current_tables_mirror_history_shuffled :
    ∃ tables, BalanceWrite.run .empty (.posting shuffledSnapshots) = some tables
      ∧ (tables.balances.history shuffledKey).map BalanceSnapshot.version = [2, 1]
      ∧ CurrentMirrors (tables.balances.history shuffledKey)
          (tables.balances.current shuffledKey) := by
  have hfolded := foldedSettled_shuffledSnapshots
  obtain ⟨tables, hrun⟩ := (current_tables_mirror_history Written.start).2.2
    (.posting shuffledSnapshots) hfolded
  have hwritten := current_tables_mirror_history
    (Written.write (.posting shuffledSnapshots) Written.start hfolded hrun)
  refine ⟨tables, hrun, ?_, (hwritten.1 _).1⟩
  rw [(hwritten.1 _).2]
  decide +kernel

end CalaLedger
