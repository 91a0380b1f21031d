import CalaLedger.Balance.Effective
import CalaLedger.Foundations.Traversal

/-! # Effective updates, balance by balance

An update that goes through does to the rows of a balance what these rows alone determine
(`updatedOn`): it leaves the other balances alone, and of a balance it reaches it keeps the rows up to
the day and appends the later ones, recomputed. This needs no assumption on the table, so it also
holds of an update whose table others have written to in between. -/

namespace CalaLedger

namespace EffectiveBalanceData

theorem reCalculateSnapshots_pair {data data' : EffectiveBalanceData} {createdAt : Timestamp}
    (h : data.reCalculateSnapshots createdAt = some data') :
    data'.accountId = data.accountId ∧ data'.currency = data.currency := by
  rw [reCalculateSnapshots] at h
  split at h
  · cases h
    exact ⟨rfl, rfl⟩
  · obtain ⟨updates, -, h⟩ := Option.bind_eq_some_iff.mp h
    obtain ⟨start, -, h⟩ := Option.bind_eq_some_iff.mp h
    obtain ⟨walked, -, h⟩ := Option.bind_eq_some_iff.mp h
    cases h
    exact ⟨rfl, rfl⟩

/-- Every row to store is filed under the balance it was computed for. -/
theorem intoSnapshotsFrom_key {journalId : JournalId} {data : EffectiveBalanceData}
    (updates : List SnapshotOrEntry) :
    ∀ {idx : ℕ} {rows : List EffectiveBalanceSnapshot},
      intoSnapshotsFrom journalId data idx updates = some rows →
      ∀ row ∈ rows, row.key = ⟨journalId, data.accountId, data.currency⟩ := by
  induction updates with
  | nil =>
      rintro idx rows ⟨⟩ row hrow
      cases hrow
  | cons update updates ih =>
      intro idx rows h row hrow
      rw [intoSnapshotsFrom] at h
      obtain ⟨⟨snapshot, effective⟩, -, h⟩ := Option.bind_eq_some_iff.mp h
      obtain ⟨rest, hrest, h⟩ := Option.bind_eq_some_iff.mp h
      cases h
      rcases List.mem_cons.mp hrow with rfl | hrow
      · rfl
      · exact ih hrest row hrow

end EffectiveBalanceData

section Recomputed

variable {journalId : JournalId} {createdAt : Timestamp}

theorem key_of_mem_recomputedRows {data : EffectiveBalanceData} {row : EffectiveBalanceSnapshot}
    (h : row ∈ recomputedRows journalId createdAt data) :
    row.key = ⟨journalId, data.accountId, data.currency⟩ := by
  rw [recomputedRows] at h
  cases hrecalc : data.reCalculateSnapshots createdAt with
  | none =>
      rw [hrecalc] at h
      cases h
  | some data' =>
      cases hrows : data'.intoSnapshots journalId with
      | none =>
          rw [hrecalc, Option.bind_some, hrows] at h
          cases h
      | some rows =>
          rw [hrecalc, Option.bind_some, hrows] at h
          obtain ⟨haccount, hcurrency⟩ := EffectiveBalanceData.reCalculateSnapshots_pair hrecalc
          rw [EffectiveBalanceData.intoSnapshotsFrom_key _ hrows row h, haccount, hcurrency]

/-- Where no balance has panicked, the new rows are those of the balances, one after the other. -/
theorem recomputeAll_eq_some {allData : List EffectiveBalanceData}
    {newBalances : List EffectiveBalanceSnapshot}
    (h : recomputeAll journalId createdAt allData = some newBalances) :
    newBalances = allData.flatMap (recomputedRows journalId createdAt) := by
  have hall : ∀ data ∈ allData, ∃ data' rows, data.reCalculateSnapshots createdAt = some data'
      ∧ data'.intoSnapshots journalId = some rows := by
    -- every balance has come through both passes
    intro data hdata
    rw [recomputeAll] at h
    obtain ⟨recalculated, hrecalculated, h⟩ := Option.bind_eq_some_iff.mp h
    obtain ⟨rows, hrows, -⟩ := Option.bind_eq_some_iff.mp h
    obtain ⟨data', hmem, hdata'⟩ := Foundations.exists_result_of_mapM hrecalculated data hdata
    obtain ⟨block, -, hblock⟩ := Foundations.exists_result_of_mapM hrows data' hmem
    exact ⟨data', block, hdata', hblock⟩
  rw [recomputeAll_eq hall] at h
  exact (Option.some.inj h).symm

end Recomputed

/-! ## Rows of one balance -/

/-- What an update makes of the rows of one balance, given which accounts it maintains. -/
def updatedOn (involves : AccountId → Bool) (order : ScanOrder) (journalId : JournalId)
    (targets : EntryValues → List AccountId) (entries : List EntryValues) (effective : NaiveDate)
    (createdAt : Timestamp) (key : BalanceKey) (rows : List EffectiveBalanceSnapshot) :
    List EffectiveBalanceSnapshot :=
  if key.journalId = journalId ∧ involves key.accountId = true
      ∧ hits targets key.accountId key.currency entries ≠ [] then
    rows.filter (fun row => row.effective ≤ effective)
      ++ recomputedRows journalId createdAt (updateData order (fun _ => rows) journalId targets
          entries effective (key.accountId, key.currency))
  else
    rows

section Update

variable {eventuallyConsistent : Bool} {order : ScanOrder} {accounts : AccountTable}
  {table : EffectiveTable} {journalId : JournalId} {balanceIds : List (AccountId × Currency)}
  {targets : EntryValues → List AccountId} {entries : List EntryValues} {effective : NaiveDate}
  {createdAt : Timestamp} {involves : AccountId → Bool}

/-- The accounts an update maintains matter where its entries hit. -/
theorem updatedOn_congr {involves' : AccountId → Bool} {key : BalanceKey}
    (h : hits targets key.accountId key.currency entries ≠ [] →
      (involves key.accountId = true ↔ involves' key.accountId = true))
    (rows : List EffectiveBalanceSnapshot) :
    updatedOn involves order journalId targets entries effective createdAt key rows
      = updatedOn involves' order journalId targets entries effective createdAt key rows := by
  unfold updatedOn
  by_cases hhits : hits targets key.accountId key.currency entries = []
  · rw [if_neg (fun hreach => hreach.2.2 hhits), if_neg (fun hreach => hreach.2.2 hhits)]
  · simp only [h hhits]

/-- An update leaves a balance alone that none of its entries hits. -/
theorem updatedOn_of_not_hit {key : BalanceKey}
    (h : ¬ (key.journalId = journalId ∧ involves key.accountId = true
      ∧ hits targets key.accountId key.currency entries ≠ []))
    (rows : List EffectiveBalanceSnapshot) :
    updatedOn involves order journalId targets entries effective createdAt key rows = rows :=
  if_neg h

theorem updatedRows_eq_updatedOn (key : BalanceKey) :
    updatedRows eventuallyConsistent order accounts table journalId targets entries effective
        createdAt key
      = updatedOn (fun accountId => accounts.consistency eventuallyConsistent accountId) order
          journalId targets entries effective createdAt key (table key) := by
  unfold updatedRows updatedOn Reaches
  simp only [decide_eq_true_eq]
  split
  · rename_i hkey
    obtain ⟨rfl, -⟩ := hkey
    rfl
  · rfl

/-- The new rows of one balance. -/
theorem newRows_filter
    (hinvolved : InvolvesHits eventuallyConsistent accounts balanceIds targets entries)
    {newBalances : List EffectiveBalanceSnapshot}
    (h : recomputeAll journalId createdAt (Foundations.values (pushEntries targets entries effective
        (findRowsForUpdate eventuallyConsistent order accounts table journalId balanceIds
          effective).2)) = some newBalances) (key : BalanceKey) :
    newBalances.filter (fun b => b.key = key)
      = if key.journalId = journalId
            ∧ Reaches eventuallyConsistent accounts targets entries (key.accountId, key.currency) then
          recomputedRows journalId createdAt (updateData order table journalId targets entries
            effective (key.accountId, key.currency))
        else [] := by
  rw [recomputeAll_eq_some h]
  exact newBalances_filter hinvolved (fun pair _ b hb => key_of_mem_recomputedRows hb) key

end Update

end CalaLedger
