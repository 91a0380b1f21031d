import CalaLedger.Balance.EffectiveData
import Mathlib.Data.List.Dedup
import Mathlib.Data.List.MinMax

/-! # The cumulative effective table

The table operations around `EffectiveBalanceData`: the destructive read (`findForUpdate`,
`findEcForUpdate`), the insert of the recomputed rows and the two updates built from them. A table
maps a balance to its rows, oldest all-time version first.

`TableReplays` says that every balance's rows are the replay of a timeline, with the exact totals
where no sum rounds; one update inserts the day's entries into the timelines (`updatedRows_replays`),
so every sequence of updates leaves the replay of all entries applied (`effective_rows_replay`). -/

namespace CalaLedger

/-- `cala_cumulative_effective_balances`, one list of rows for each balance. -/
abbrev EffectiveTable := BalanceKey → List EffectiveBalanceSnapshot

/-- The order in which an aggregate returns the deleted rows, which SQL leaves open. -/
structure ScanOrder where
  scan : List EffectiveBalanceSnapshot → List EffectiveBalanceSnapshot
  perm : ∀ rows, (scan rows).Perm rows

/-- The balance row an effective row belongs to. -/
def EffectiveBalanceSnapshot.key (stored : EffectiveBalanceSnapshot) : BalanceKey :=
  ⟨stored.journalId, stored.accountId, stored.currency⟩

/-- `ORDER BY all_time_version DESC LIMIT 1` among the rows up to the day. -/
def latestRow (rows : List EffectiveBalanceSnapshot) (effective : NaiveDate) :
    Option EffectiveBalanceSnapshot :=
  (rows.filter (fun row => row.effective ≤ effective)).argmax
    EffectiveBalanceSnapshot.allTimeVersion

/-- What the read returns for one balance. -/
def effectiveData (order : ScanOrder) (rows : List EffectiveBalanceSnapshot)
    (effective : NaiveDate) (pair : AccountId × Currency) : EffectiveBalanceData :=
  { accountId := pair.1
    currency := pair.2
    lastSnapshot := (latestRow rows effective).map (fun row => (row.effective, row.values))
    latestAllTimeVersion :=
      ((latestRow rows effective).map EffectiveBalanceSnapshot.allTimeVersion).getD 0
    updates := (order.scan (rows.filter (fun row => effective < row.effective))).map
      (fun row => .snapshot row.effective row.values) }

/-- The read behind both updates: of the eligible balances, delete the rows after the day and
return them with the last row up to the day. -/
def findRowsForUpdate (eventuallyConsistent : Bool) (order : ScanOrder) (accounts : AccountTable)
    (table : EffectiveTable) (journalId : JournalId) (balanceIds : List (AccountId × Currency))
    (effective : NaiveDate) :
    EffectiveTable × HashMap (AccountId × Currency) EffectiveBalanceData :=
  let pairs := balanceIds.dedup.filter (fun pair => accounts.consistency eventuallyConsistent pair.1)
  (fun key =>
      if key.journalId = journalId ∧ (key.accountId, key.currency) ∈ pairs then
        (table key).filter (fun row => row.effective ≤ effective)
      else
        table key,
    Foundations.ofKeys pairs (fun pair =>
      effectiveData order (table ⟨journalId, pair.1, pair.2⟩) effective pair))

/-- `EffectiveBalanceRepo::find_for_update`. -/
def findForUpdate := findRowsForUpdate false

/-- `EffectiveBalanceRepo::find_ec_for_update`. -/
def findEcForUpdate := findRowsForUpdate true

/-- `EffectiveBalanceRepo::insert_new_snapshots`: `none` when a row would violate
`UNIQUE (journal_id, account_id, currency, effective, version)`. -/
def insertNewEffectiveSnapshots (table : EffectiveTable)
    (newBalances : List EffectiveBalanceSnapshot) : Option EffectiveTable :=
  if newBalances.Pairwise (fun a b =>
        a.key = b.key → (a.effective, a.version) ≠ (b.effective, b.version))
      ∧ ∀ b ∈ newBalances, ∀ row ∈ table b.key,
        (row.effective, row.version) ≠ (b.effective, b.version) then
    some (fun key => table key ++ newBalances.filter (fun b => b.key = key))
  else
    none

/-- Push the entries of an update into the loaded balances they reach. -/
def pushEntries (targets : EntryValues → List AccountId) (entries : List EntryValues)
    (effective : NaiveDate) (allData : HashMap (AccountId × Currency) EffectiveBalanceData) :
    HashMap (AccountId × Currency) EffectiveBalanceData :=
  carry (fun allData accountId entry =>
    Foundations.modify allData (accountId, entry.currency) (·.push effective entry))
    targets entries allData

/-- Recompute every loaded balance and collect the rows to store. -/
def recomputeAll (journalId : JournalId) (createdAt : Timestamp)
    (allData : List EffectiveBalanceData) : Option (List EffectiveBalanceSnapshot) := do
  let recalculated ← allData.mapM (·.reCalculateSnapshots createdAt)
  let newBalances ← recalculated.mapM (·.intoSnapshots journalId)
  some newBalances.flatten

/-- The body shared by the two updates, after the read. -/
def writeCumulative (targets : EntryValues → List AccountId) (journalId : JournalId)
    (entries : List EntryValues) (effective : NaiveDate) (createdAt : Timestamp)
    (read : EffectiveTable × HashMap (AccountId × Currency) EffectiveBalanceData) :
    Option EffectiveTable := do
  let (table, allData) := read
  let newBalances ← recomputeAll journalId createdAt
    (Foundations.values (pushEntries targets entries effective allData))
  insertNewEffectiveSnapshots table newBalances

/-- `EffectiveBalances::update_cumulative_balances_in_op`. -/
def updateCumulativeBalancesInOp (order : ScanOrder) (accounts : AccountTable)
    (table : EffectiveTable) (journalId : JournalId) (entries : List EntryValues)
    (effective : NaiveDate) (createdAt : Timestamp) (mappings : AccountSetMappings)
    (balanceIds : List (AccountId × Currency)) : Option EffectiveTable :=
  writeCumulative (inlineTargets mappings) journalId entries effective createdAt
    (findForUpdate order accounts table journalId balanceIds effective)

/-- `EffectiveBalances::apply_ec_rollup_in_op`. -/
def applyEcRollupEffectiveInOp (order : ScanOrder) (accounts : AccountTable)
    (table : EffectiveTable) (journalId : JournalId) (entries : List EntryValues)
    (effective : NaiveDate) (createdAt : Timestamp) (ecMappings : AccountSetMappings)
    (balanceIds : List (AccountId × Currency)) (ecLeaves : List AccountId) :
    Option EffectiveTable :=
  writeCumulative (ecTargets ecMappings ecLeaves) journalId entries effective createdAt
    (findEcForUpdate order accounts table journalId balanceIds effective)

/-! ## Reading the stored rows back -/

/-- Rows stored for a stretch of a timeline come back as the rows of the walk. -/
theorem rowsOf_of_replayFrom {key : BalanceKey} {timeline : List DatedEntry} :
    ∀ {before : List DatedEntry} {stored : List EffectiveBalanceSnapshot},
      stored.map EffectiveBalanceSnapshot.row = replayFrom key before timeline →
      RowsOf before timeline (stored.map (fun row => .snapshot row.effective row.values)) := by
  induction timeline with
  | nil =>
      intro before stored h
      rw [replayFrom, List.map_eq_nil_iff] at h
      subst h
      exact RowsOf.nil before
  | cons dated rest ih =>
      intro before stored h
      cases stored with
      | nil => cases h
      | cons row stored =>
          rw [List.map_cons, replayFrom] at h
          obtain ⟨hrow, hrest⟩ := List.cons.inj h
          have hday : row.effective = dated.1 := congrArg EffectiveRow.effective hrow
          rw [List.map_cons, hday]
          exact RowsOf.cons (isRow_of_row hrow) (ih hrest)

/-- The days of rows stored for a stretch of a timeline. -/
theorem map_effective_of_replayFrom {key : BalanceKey} {before timeline : List DatedEntry}
    {stored : List EffectiveBalanceSnapshot}
    (h : stored.map EffectiveBalanceSnapshot.row = replayFrom key before timeline) :
    stored.map EffectiveBalanceSnapshot.effective = timeline.map Prod.fst := by
  have hpairs := congrArg (List.map (fun row => row.effective)) h
  rw [List.map_map] at hpairs
  have hdays : (replayFrom key before timeline).map (fun row => row.effective)
      = timeline.map Prod.fst := by
    have hids := congrArg (List.map Prod.fst) (replayFrom_map_entryId key before timeline)
    rw [List.map_map, List.map_map] at hids
    exact hids
  exact hpairs.trans hdays

section ReadBack

variable {key : BalanceKey} {stored : List EffectiveBalanceSnapshot} {timeline : List DatedEntry}

/-- The rows up to a day are the replay of the timeline up to it. -/
theorem rows_upTo (h : stored.map EffectiveBalanceSnapshot.row = replay key timeline)
    (hsorted : Foundations.SortedBy Prod.fst timeline) (day : NaiveDate) :
    (stored.filter (fun row => row.effective ≤ day)).map EffectiveBalanceSnapshot.row
      = replay key (timeline.filter (fun dated => dated.1 ≤ day)) := by
  have hfilter : (stored.filter (fun row => row.effective ≤ day)).map EffectiveBalanceSnapshot.row
      = (replay key timeline).filter (fun row => row.effective ≤ day) := by
    rw [← h, List.filter_map]
    rfl
  rw [hfilter]
  conv_lhs => rw [hsorted.split day]
  rw [replay_append, List.filter_append, replay,
    filter_replayFrom key (p := fun d => d ≤ day) (b := true) (fun dated hd => by simpa using
      (List.mem_filter.mp hd).2),
    filter_replayFrom key (p := fun d => d ≤ day) (b := false) (fun dated hd => by simpa using
      (List.mem_filter.mp hd).2)]
  simp

/-- The rows after a day are the rest of the replay. -/
theorem rows_after (h : stored.map EffectiveBalanceSnapshot.row = replay key timeline)
    (hsorted : Foundations.SortedBy Prod.fst timeline) (day : NaiveDate) :
    (stored.filter (fun row => day < row.effective)).map EffectiveBalanceSnapshot.row
      = replayFrom key (timeline.filter (fun dated => dated.1 ≤ day))
          (timeline.filter (fun dated => day < dated.1)) := by
  have hfilter : (stored.filter (fun row => day < row.effective)).map EffectiveBalanceSnapshot.row
      = (replay key timeline).filter (fun row => day < row.effective) := by
    rw [← h, List.filter_map]
    rfl
  rw [hfilter]
  conv_lhs => rw [hsorted.split day]
  rw [replay_append, List.filter_append, replay,
    filter_replayFrom key (p := fun d => day < d) (b := false) (fun dated hd => by simpa using
      (List.mem_filter.mp hd).2),
    filter_replayFrom key (p := fun d => day < d) (b := true) (fun dated hd => by simpa using
      (List.mem_filter.mp hd).2)]
  simp

/-- The row with the largest all-time version is the last one. -/
theorem latestRow_eq_getLast? {day : NaiveDate} {front : List DatedEntry}
    (h : (stored.filter (fun row => row.effective ≤ day)).map EffectiveBalanceSnapshot.row
      = replay key front) :
    latestRow stored day = (stored.filter (fun row => row.effective ≤ day)).getLast? := by
  rw [latestRow]
  generalize stored.filter (fun row => row.effective ≤ day) = kept at h
  have hversions : (kept.map EffectiveBalanceSnapshot.allTimeVersion) = List.range' 1 front.length := by
    have hrange := replayFrom_allTimeVersion key [] front
    rw [← replay, ← h, List.map_map] at hrange
    exact hrange
  have hstrict : kept.Pairwise (fun a b => a.allTimeVersion < b.allTimeVersion) := by
    rw [← List.pairwise_map (f := EffectiveBalanceSnapshot.allTimeVersion), hversions]
    exact List.pairwise_lt_range'
  exact Foundations.argmax_eq_getLast? hstrict

/-- It anchors the update at the end of the replay. -/
theorem latestRow_anchored {day : NaiveDate} {front : List DatedEntry}
    (h : (stored.filter (fun row => row.effective ≤ day)).map EffectiveBalanceSnapshot.row
      = replay key front) :
    Anchored ((latestRow stored day).map (fun row => (row.effective, row.values))) front
      ∧ ((latestRow stored day).map EffectiveBalanceSnapshot.allTimeVersion).getD 0
        = front.length := by
  rw [latestRow_eq_getLast? h]
  generalize stored.filter (fun row => row.effective ≤ day) = kept at h
  rcases List.eq_nil_or_concat' front with rfl | ⟨before, dated, rfl⟩
  · have hnil : kept = [] := List.map_eq_nil_iff.mp h
    subst hnil
    exact ⟨Anchored.none, rfl⟩
  · rw [replay_concat] at h
    obtain ⟨keptBefore, row, rfl, -, hrow⟩ : ∃ keptBefore row, kept = keptBefore ++ [row]
        ∧ keptBefore.map EffectiveBalanceSnapshot.row = replay key before
        ∧ row.row = replayRow key before dated := by
      obtain ⟨l₁, l₂, rfl, h₁, h₂⟩ := List.map_eq_append_iff.mp h
      obtain ⟨row, l₃, rfl, hrow, hnil⟩ := List.map_eq_cons_iff.mp h₂
      rw [List.map_eq_nil_iff] at hnil
      subst hnil
      exact ⟨l₁, row, rfl, h₁, hrow⟩
    rw [List.getLast?_concat]
    have hday : row.effective = dated.1 := congrArg EffectiveRow.effective hrow
    have hversion : row.allTimeVersion = (before ++ [dated]).length :=
      congrArg EffectiveRow.allTimeVersion hrow
    refine ⟨?_, hversion⟩
    rw [Option.map_some, hday]
    exact Anchored.some (isRow_of_row hrow)

end ReadBack

/-! ## One update -/

/-- Put the entries of a day into a timeline: after everything up to the day, before the rest. -/
def insertDay (timeline : List DatedEntry) (day : NaiveDate) (block : List EntryValues) :
    List DatedEntry :=
  timeline.filter (fun dated => dated.1 ≤ day) ++ block.map (fun entry => (day, entry))
    ++ timeline.filter (fun dated => day < dated.1)

/-- That is where a stable sort by day puts them. -/
theorem insertDay_eq_sortBy {timeline : List DatedEntry}
    (hsorted : Foundations.SortedBy Prod.fst timeline) (day : NaiveDate)
    (block : List EntryValues) :
    insertDay timeline day block
      = Foundations.sortBy Prod.fst (timeline ++ block.map (fun entry => (day, entry))) := by
  rw [Foundations.sortBy_append_block (k := day), Foundations.sortBy_eq_self.mpr hsorted, insertDay]
  intro dated hdated
  obtain ⟨entry, -, rfl⟩ := List.mem_map.mp hdated
  rfl

theorem insertDay_nil {timeline : List DatedEntry}
    (hsorted : Foundations.SortedBy Prod.fst timeline) (day : NaiveDate) :
    insertDay timeline day [] = timeline := by
  rw [insertDay_eq_sortBy hsorted, List.map_nil, List.append_nil,
    Foundations.sortBy_eq_self.mpr hsorted]

/-- Amounts put in among cumulative totals make the totals of the timeline with the entries in. -/
theorem insertTotals_cumulative {timeline : List DatedEntry}
    (hsorted : Foundations.SortedBy Prod.fst timeline) {layer : Layer} {direction : DebitOrCredit}
    {rows : List (NaiveDate × Decimal)}
    (hrows : rows.map (fun row => (row.1, row.2.value)) = cumulativeOn layer direction timeline)
    (day : NaiveDate) {block : List EntryValues}
    (hsums : SumsRepresentable (timeline.map Prod.snd ++ block) layer direction) :
    (Foundations.insertTotals rows day (block.map (·.unitsOn layer direction))).map
        (fun row => (row.1, row.2.value))
      = cumulativeOn layer direction (insertDay timeline day block) := by
  set amount : DatedEntry → NaiveDate × ℚ :=
    fun dated => (dated.1, (dated.2.unitsOn layer direction).value) with hamount
  have hcumulative : ∀ timeline, cumulativeOn layer direction timeline
      = Foundations.cumulated 0 (timeline.map amount) := cumulativeFrom_eq layer direction []
  rw [hcumulative] at hrows ⊢
  have hsortedAmounts : Foundations.SortedBy Prod.fst (timeline.map amount) :=
    List.pairwise_map.mpr hsorted
  have hroom : Foundations.RoomFor Foundations.RoundedDecimal.value Representable rows
      (block.map (fun entry => entry.unitsOn layer direction)) := by
    intro total htotal chosen hchosen
    -- a total of some of the old entries, with some of the new
    obtain ⟨posted, hposted, hsum⟩ : ∃ posted, posted.Sublist (timeline.map Prod.snd)
        ∧ total = postedOn posted layer direction := by
      rcases htotal with rfl | ⟨row, hrow, rfl⟩
      · exact ⟨[], List.nil_sublist _, rfl⟩
      · have hmem : (row.1, row.2.value) ∈ rows.map (fun row => (row.1, row.2.value)) :=
          List.mem_map_of_mem hrow
        rw [hrows] at hmem
        obtain ⟨items, ⟨more, hitems⟩, hsum⟩ := Foundations.mem_cumulated hmem
        obtain ⟨first, last, rfl, rfl, -⟩ := List.map_eq_append_iff.mp hitems.symm
        refine ⟨first.map Prod.snd, (List.sublist_append_left _ _).map _, ?_⟩
        rw [zero_add, List.map_map] at hsum
        rw [postedOn, List.map_map]
        exact hsum
    obtain ⟨first, ⟨kept, hperm, hkept⟩, hfirst⟩ := exists_posted_of_subperm hchosen
    rw [hsum, hfirst, ← postedOn_append]
    exact hsums _ ⟨posted ++ kept, hperm.append_left posted, hposted.append hkept⟩
  rw [exactWhere_representable.insertTotals hsortedAmounts hrows day hroom,
    insertDay_eq_sortBy hsorted, Foundations.map_sortBy Prod.fst Prod.fst (f := amount)
      (fun _ _ => Iff.rfl), List.map_append, List.map_map, List.map_map]
  rfl

/-- Every balance's rows are the replay of its timeline, and the totals of a side the cumulative ones
if sums of its entries are representable. -/
structure TableReplays (table : EffectiveTable) (timelines : BalanceKey → List DatedEntry) :
    Prop where
  sorted : ∀ key, Foundations.SortedBy Prod.fst (timelines key)
  rows : ∀ key, (table key).map EffectiveBalanceSnapshot.row = replay key (timelines key)
  totals : ∀ key layer direction,
    SumsRepresentable ((timelines key).map Prod.snd) layer direction →
    ((table key).map (EffectiveBalanceSnapshot.dayTotal layer direction)).map
        (fun row => (row.1, row.2.value))
      = cumulativeOn layer direction (timelines key)

/-- Totals are filed in the order of their days. -/
theorem TableReplays.sorted_dayTotals {table : EffectiveTable}
    {timelines : BalanceKey → List DatedEntry} (h : TableReplays table timelines) (key : BalanceKey)
    (layer : Layer) (direction : DebitOrCredit) :
    Foundations.SortedBy Prod.fst
      ((table key).map (EffectiveBalanceSnapshot.dayTotal layer direction)) := by
  have hdays := map_effective_of_replayFrom (h.rows key)
  have hsorted := h.sorted key
  rw [Foundations.SortedBy, ← List.pairwise_map (f := Prod.fst), ← hdays, List.pairwise_map]
    at hsorted
  exact List.pairwise_map.mpr hsorted

section Write

variable (eventuallyConsistent : Bool) (order : ScanOrder) (accounts : AccountTable)
  (table : EffectiveTable) (journalId : JournalId) (balanceIds : List (AccountId × Currency))
  (targets : EntryValues → List AccountId) (entries : List EntryValues) (effective : NaiveDate)
  (createdAt : Timestamp)

/-- The balances an update writes: of its consistency mode, and hit by one of its entries. -/
def Reaches (pair : AccountId × Currency) : Prop :=
  accounts.consistency eventuallyConsistent pair.1 ∧ hits targets pair.1 pair.2 entries ≠ []

instance (pair : AccountId × Currency) :
    Decidable (Reaches eventuallyConsistent accounts targets entries pair) :=
  inferInstanceAs (Decidable (_ ∧ _))

/-- Of the right consistency mode, the caller involves exactly the balances its entries hit. -/
def InvolvesHits : Prop :=
  ∀ pair : AccountId × Currency, accounts.consistency eventuallyConsistent pair.1 →
    (pair ∈ balanceIds ↔ hits targets pair.1 pair.2 entries ≠ [])

/-- The entries an update brings to one balance. -/
def pushedOn (key : BalanceKey) : List EntryValues :=
  if key.journalId = journalId ∧ accounts.consistency eventuallyConsistent key.accountId then
    hits targets key.accountId key.currency entries
  else
    []

/-- One balance's data with a list of entries pushed. -/
def EffectiveBalanceData.pushAll (data : EffectiveBalanceData) (effective : NaiveDate)
    (entries : List EntryValues) : EffectiveBalanceData :=
  { data with updates := data.updates ++ entries.map (.entry effective) }

/-- The data recomputed for one balance of an update. -/
def updateData (pair : AccountId × Currency) : EffectiveBalanceData :=
  (effectiveData order (table ⟨journalId, pair.1, pair.2⟩) effective pair).pushAll effective
    (hits targets pair.1 pair.2 entries)

/-- The rows to store for one recomputed balance. -/
def recomputedRows (data : EffectiveBalanceData) : List EffectiveBalanceSnapshot :=
  ((data.reCalculateSnapshots createdAt).bind (·.intoSnapshots journalId)).getD []

/-- What one update makes of the rows of a balance it reaches: those up to the day stay, the later
ones are recomputed with the entries in. -/
def updatedRows (key : BalanceKey) : List EffectiveBalanceSnapshot :=
  if key.journalId = journalId
      ∧ Reaches eventuallyConsistent accounts targets entries (key.accountId, key.currency) then
    (table key).filter (fun row => row.effective ≤ effective)
      ++ recomputedRows journalId createdAt (updateData order table journalId targets entries
          effective (key.accountId, key.currency))
  else
    table key

variable {eventuallyConsistent order accounts table journalId balanceIds targets entries effective
  createdAt}

/-- Pushing the entries into their targets gives each balance the entries that hit it. -/
theorem pushEntries_lookup (allData : HashMap (AccountId × Currency) EffectiveBalanceData)
    (pair : AccountId × Currency) :
    (pushEntries targets entries effective allData).lookup pair
      = (allData.lookup pair).map (·.pushAll effective (hits targets pair.1 pair.2 entries)) := by
  obtain ⟨accountId, currency⟩ := pair
  have hstart : allData.lookup (accountId, currency)
      = (allData.lookup (accountId, currency)).map (·.pushAll effective []) := by
    simp [EffectiveBalanceData.pushAll]
  have hcarry := carry_at
    (fun allData accountId entry =>
      Foundations.modify allData (accountId, entry.currency) (·.push effective entry))
    (fun allData' history => allData'.lookup (accountId, currency)
      = (allData.lookup (accountId, currency)).map (·.pushAll effective history))
    (fun allData' history target entry h hne => by
      rw [Foundations.lookup_modify, if_neg hne.symm, h])
    (fun allData' history entry h hcurrency => by
      rw [Foundations.lookup_modify, hcurrency, if_pos rfl, h, Option.map_map]
      congr 1
      funext data
      simp [EffectiveBalanceData.pushAll, EffectiveBalanceData.push])
    targets entries hstart
  rw [List.nil_append] at hcarry
  exact hcarry

/-- The read loads the balances the update reaches. -/
theorem mem_pairs (hinvolved : InvolvesHits eventuallyConsistent accounts balanceIds targets entries)
    (pair : AccountId × Currency) :
    pair ∈ balanceIds.dedup.filter
        (fun pair => accounts.consistency eventuallyConsistent pair.1)
      ↔ Reaches eventuallyConsistent accounts targets entries pair := by
  rw [List.mem_filter, List.mem_dedup, decide_eq_true_eq]
  constructor
  · rintro ⟨hmem, hconsistency⟩
    exact ⟨hconsistency, (hinvolved pair hconsistency).mp hmem⟩
  · rintro ⟨hconsistency, hhits⟩
    exact ⟨(hinvolved pair hconsistency).mpr hhits, hconsistency⟩

variable (order table journalId effective) in
/-- What the update recomputes, balance by balance. -/
theorem loaded_lookup
    (hinvolved : InvolvesHits eventuallyConsistent accounts balanceIds targets entries)
    (pair : AccountId × Currency) :
    (pushEntries targets entries effective (findRowsForUpdate eventuallyConsistent order accounts
        table journalId balanceIds effective).2).lookup pair
      = if Reaches eventuallyConsistent accounts targets entries pair then
          some (updateData order table journalId targets entries effective pair)
        else none := by
  rw [pushEntries_lookup, findRowsForUpdate, Foundations.lookup_ofKeys]
  by_cases hreach : Reaches eventuallyConsistent accounts targets entries pair
  · rw [if_pos ((mem_pairs hinvolved pair).mpr hreach), if_pos hreach]
    rfl
  · rw [if_neg (fun hmem => hreach ((mem_pairs hinvolved pair).mp hmem)), if_neg hreach]
    rfl

/-- What the read leaves in the table. -/
theorem kept_rows (hinvolved : InvolvesHits eventuallyConsistent accounts balanceIds targets entries)
    (key : BalanceKey) :
    (findRowsForUpdate eventuallyConsistent order accounts table journalId balanceIds effective).1
        key
      = if key.journalId = journalId
            ∧ Reaches eventuallyConsistent accounts targets entries (key.accountId, key.currency) then
          (table key).filter (fun row => row.effective ≤ effective)
        else table key := by
  rw [findRowsForUpdate]
  dsimp only
  by_cases hreach : Reaches eventuallyConsistent accounts targets entries
      (key.accountId, key.currency)
  · simp only [(mem_pairs hinvolved _).mpr hreach, hreach]
  · simp only [mt (mem_pairs hinvolved _).mp hreach, hreach]

theorem pushedOn_of_reaches {key : BalanceKey} (hjournal : key.journalId = journalId)
    (hreach : Reaches eventuallyConsistent accounts targets entries
      (key.accountId, key.currency)) :
    pushedOn eventuallyConsistent accounts journalId targets entries key
      = hits targets key.accountId key.currency entries :=
  if_pos ⟨hjournal, hreach.1⟩

theorem pushedOn_of_not_reaches {key : BalanceKey}
    (h : ¬ (key.journalId = journalId
      ∧ Reaches eventuallyConsistent accounts targets entries (key.accountId, key.currency))) :
    pushedOn eventuallyConsistent accounts journalId targets entries key = [] := by
  rw [pushedOn]
  split
  · rename_i hkey
    by_contra hhits
    exact h ⟨hkey.1, hkey.2, hhits⟩
  · rfl

/-- Rows stored for a stretch of one balance's timeline belong to that balance. -/
theorem key_of_mem_rows {key : BalanceKey} {before timeline : List DatedEntry}
    {rows : List EffectiveBalanceSnapshot}
    (h : rows.map EffectiveBalanceSnapshot.row = replayFrom key before timeline)
    {row : EffectiveBalanceSnapshot} (hmem : row ∈ rows) : row.key = key := by
  have hrow : row.row ∈ replayFrom key before timeline := by
    rw [← h]
    exact List.mem_map_of_mem hmem
  exact replayFrom_key key hrow

/-- Where no balance panics, the new rows are those of the balances, one after the other. -/
theorem recomputeAll_eq {allData : List EffectiveBalanceData}
    (h : ∀ data ∈ allData, ∃ data' rows, data.reCalculateSnapshots createdAt = some data'
      ∧ data'.intoSnapshots journalId = some rows) :
    recomputeAll journalId createdAt allData
      = some (allData.flatMap (recomputedRows journalId createdAt)) := by
  have hrecalc := Foundations.mapM_eq_some (f := (·.reCalculateSnapshots createdAt))
    (g := fun data => (data.reCalculateSnapshots createdAt).getD data) (l := allData) (by
      intro data hdata
      obtain ⟨data', rows, hdata', -⟩ := h data hdata
      simp [hdata'])
  have hinto := Foundations.mapM_eq_some (f := (·.intoSnapshots journalId))
    (g := fun data => (data.intoSnapshots journalId).getD [])
    (l := allData.map (fun data => (data.reCalculateSnapshots createdAt).getD data)) (by
      intro data' hdata'
      obtain ⟨data, hdata, rfl⟩ := List.mem_map.mp hdata'
      obtain ⟨data', rows, hdata', hrows⟩ := h data hdata
      simp [hdata', hrows])
  rw [recomputeAll, hrecalc]
  simp only [Option.bind_eq_bind, Option.bind_some]
  rw [hinto]
  simp only [Option.bind_some]
  rw [List.map_map, ← List.flatMap_def]
  refine congrArg some (List.flatMap_congr (fun data hdata => ?_))
  obtain ⟨data', rows, hdata', hrows⟩ := h data hdata
  simp [recomputedRows, hdata', hrows]

variable {timelines : BalanceKey → List DatedEntry}

variable (order effective createdAt) in
/-- **One balance of an update**: no panic, and the later part of its replay with the entries in; the
entries are added to the last total up to the day, and their sum to every later total. -/
theorem updateData_rows (htable : TableReplays table timelines) {pair : AccountId × Currency}
    (hreach : Reaches eventuallyConsistent accounts targets entries pair)
    (hids : Identified ((timelines ⟨journalId, pair.1, pair.2⟩).map Prod.snd
      ++ hits targets pair.1 pair.2 entries)) :
    ∃ data rows,
      (updateData order table journalId targets entries effective pair).reCalculateSnapshots
          createdAt = some data
        ∧ data.intoSnapshots journalId = some rows
        ∧ rows.map EffectiveBalanceSnapshot.row
          = replayFrom ⟨journalId, pair.1, pair.2⟩
              ((timelines ⟨journalId, pair.1, pair.2⟩).filter (fun dated => dated.1 ≤ effective))
              ((Foundations.sortBy EntryValues.sequence
                  (hits targets pair.1 pair.2 entries)).map (fun entry => (effective, entry))
                ++ (timelines ⟨journalId, pair.1, pair.2⟩).filter
                    (fun dated => effective < dated.1))
        ∧ ∀ layer direction, rows.map (EffectiveBalanceSnapshot.dayTotal layer direction)
          = (Foundations.runningTotals
              (Foundations.lastTotal (((table ⟨journalId, pair.1, pair.2⟩).filter
                (fun row => row.effective ≤ effective)).map
                  (EffectiveBalanceSnapshot.dayTotal layer direction)))
              ((Foundations.sortBy EntryValues.sequence (hits targets pair.1 pair.2 entries)).map
                (·.unitsOn layer direction))).map (fun total => (effective, total))
            ++ ((table ⟨journalId, pair.1, pair.2⟩).filter
                (fun row => effective < row.effective)).map (fun row => (row.effective,
                  (row.layer layer).side direction
                    + ((Foundations.sortBy EntryValues.sequence
                        (hits targets pair.1 pair.2 entries)).map
                          (·.unitsOn layer direction)).foldl (· + ·) 0)) := by
  set key : BalanceKey := ⟨journalId, pair.1, pair.2⟩ with hkey
  set pushed := hits targets pair.1 pair.2 entries with hpushed
  have hsorted := htable.sorted key
  obtain ⟨hanchor, hlatest⟩ := latestRow_anchored (rows_upTo (htable.rows key) hsorted effective)
  have hsubset : ((timelines key).filter (fun dated => dated.1 ≤ effective)
      ++ (Foundations.sortBy EntryValues.sequence pushed).map (fun entry => (effective, entry))
      ++ (timelines key).filter (fun dated => effective < dated.1)).map Prod.snd
      ⊆ (timelines key).map Prod.snd ++ pushed := by
    intro entry hentry
    simp only [List.map_append, List.map_map, List.mem_append, List.mem_map, List.mem_filter,
      Function.comp, Foundations.mem_sortBy] at hentry ⊢
    rcases hentry with (⟨d, ⟨hd, -⟩, rfl⟩ | ⟨e, he, rfl⟩) | ⟨d, ⟨hd, -⟩, rfl⟩
    · exact Or.inl ⟨d, hd, rfl⟩
    · exact Or.inr he
    · exact Or.inl ⟨d, hd, rfl⟩
  obtain ⟨updates, hrecalc, hrows, htotals⟩ := EffectiveBalanceData.reCalculateSnapshots_rows
    (updateData order table journalId targets entries effective pair)
    hanchor rfl hreach.2
    (rowsOf_of_replayFrom (rows_after (htable.rows key) hsorted effective))
    ((order.perm _).map _) (hsorted.filter _) (hsorted.filter _)
    (fun dated hd => by simpa using (List.mem_filter.mp hd).2)
    (fun dated hd => by simpa using (List.mem_filter.mp hd).2)
    (hids.subset hsubset) createdAt
  obtain ⟨rows, hinto, hreplay⟩ := EffectiveBalanceData.intoSnapshotsFrom_rows journalId
    { updateData order table journalId targets entries effective pair with
      lastSnapshot := none, updates := updates } hrows 0 (by
        rw [Nat.zero_add]
        exact hlatest)
  refine ⟨_, rows, hrecalc, hinto, hreplay, fun layer direction => ?_⟩
  rw [EffectiveBalanceData.intoSnapshotsFrom_totals layer direction updates hinto, htotals]
  have hanchorTotal : ((updateData order table journalId targets entries effective
          pair).lastSnapshot.map (fun anchor => (anchor.2.layer layer).side direction)).getD 0
      = Foundations.lastTotal (((table key).filter (fun row => row.effective ≤ effective)).map
          (EffectiveBalanceSnapshot.dayTotal layer direction)) := by
    show (((latestRow (table key) effective).map (fun row => (row.effective, row.values))).map
      (fun anchor => (anchor.2.layer layer).side direction)).getD 0 = _
    rw [latestRow_eq_getLast? (rows_upTo (htable.rows key) hsorted effective),
      Foundations.lastTotal, List.getLast?_map, Option.map_map, Option.map_map]
    cases layer <;> rfl
  rw [hanchorTotal, List.map_map]
  cases layer <;> rfl

/-- The rows recomputed for a balance the update reaches. -/
theorem recomputedRows_replay (htable : TableReplays table timelines) (key : BalanceKey)
    (hjournal : key.journalId = journalId)
    (hreach : Reaches eventuallyConsistent accounts targets entries (key.accountId, key.currency))
    (hids : Identified ((timelines key).map Prod.snd
      ++ pushedOn eventuallyConsistent accounts journalId targets entries key)) :
    (recomputedRows journalId createdAt (updateData order table journalId targets entries effective
        (key.accountId, key.currency))).map EffectiveBalanceSnapshot.row
      = replayFrom key ((timelines key).filter (fun dated => dated.1 ≤ effective))
          ((Foundations.sortBy EntryValues.sequence
              (pushedOn eventuallyConsistent accounts journalId targets entries key)).map
                (fun entry => (effective, entry))
            ++ (timelines key).filter (fun dated => effective < dated.1)) := by
  subst hjournal
  rw [pushedOn_of_reaches rfl hreach] at hids ⊢
  obtain ⟨data, rows, hdata, hinto, hreplay, -⟩ := updateData_rows order effective createdAt htable
    hreach hids
  rw [recomputedRows, hdata, Option.bind_some, hinto]
  exact hreplay

/-- The new rows of an update, restricted to one balance. -/
theorem newBalances_filter
    (hinvolved : InvolvesHits eventuallyConsistent accounts balanceIds targets entries)
    (hread : ∀ pair, Reaches eventuallyConsistent accounts targets entries pair →
      ∀ b ∈ recomputedRows journalId createdAt
        (updateData order table journalId targets entries effective pair),
        b.key = ⟨journalId, pair.1, pair.2⟩)
    (key : BalanceKey) :
    ((Foundations.values (pushEntries targets entries effective
        (findRowsForUpdate eventuallyConsistent order accounts table journalId balanceIds
          effective).2)).flatMap (recomputedRows journalId createdAt)).filter (fun b => b.key = key)
      = if key.journalId = journalId
            ∧ Reaches eventuallyConsistent accounts targets entries (key.accountId, key.currency) then
          recomputedRows journalId createdAt (updateData order table journalId targets entries
            effective (key.accountId, key.currency))
        else [] := by
  set allData := pushEntries targets entries effective (findRowsForUpdate eventuallyConsistent order
    accounts table journalId balanceIds effective).2 with hallData
  have hlookup := loaded_lookup order table journalId effective hinvolved
  rw [← hallData] at hlookup
  have hvalue : ∀ pair data, allData.lookup pair = some data →
      Reaches eventuallyConsistent accounts targets entries pair
        ∧ data = updateData order table journalId targets entries effective pair := by
    intro pair data h
    rw [hlookup] at h
    split at h
    · rename_i hreach
      exact ⟨hreach, (Option.some.inj h).symm⟩
    · cases h
  have hkey : ∀ b ∈ (Foundations.values allData).flatMap (recomputedRows journalId createdAt),
      b.journalId = journalId := by
    intro b hb
    obtain ⟨data, hdata, hb⟩ := List.mem_flatMap.mp hb
    obtain ⟨pair, hpair⟩ := Foundations.mem_values.mp hdata
    obtain ⟨hreach, rfl⟩ := hvalue pair data hpair
    exact congrArg BalanceKey.journalId (hread pair hreach b hb)
  by_cases hjournal : key.journalId = journalId
  · -- within the journal the balance key is the key of the map
    have hcongr : ((Foundations.values allData).flatMap (recomputedRows journalId createdAt)).filter
          (fun b => b.key = key)
        = ((Foundations.values allData).flatMap (recomputedRows journalId createdAt)).filter
          (fun b => (b.accountId, b.currency) = (key.accountId, key.currency)) := by
      refine List.filter_congr (fun b hb => decide_eq_decide.mpr ?_)
      rw [EffectiveBalanceSnapshot.key, hkey b hb, ← hjournal]
      cases key
      simp
    rw [hcongr, Foundations.filter_flatMap_values
      (fun b : EffectiveBalanceSnapshot => (b.accountId, b.currency))
      (fun data : EffectiveBalanceData => (data.accountId, data.currency)), hlookup]
    · by_cases hreach : Reaches eventuallyConsistent accounts targets entries
        (key.accountId, key.currency) <;> simp [hreach, hjournal]
    · intro pair data hpair
      rw [(hvalue pair data hpair).2]
      rfl
    · intro data hdata b hb
      obtain ⟨pair, hpair⟩ := Foundations.mem_values.mp hdata
      obtain ⟨hreach, rfl⟩ := hvalue pair data hpair
      exact congrArg (fun key : BalanceKey => (key.accountId, key.currency))
        (hread pair hreach b hb)
  · rw [if_neg (fun h => hjournal h.1)]
    refine List.filter_eq_nil_iff.mpr (fun b hb => ?_)
    have hne : b.key ≠ key := fun h =>
      hjournal ((congrArg BalanceKey.journalId h).symm.trans (hkey b hb))
    simpa using hne

/-- Rows that replay a timeline balance by balance can be inserted, and nothing is overwritten. -/
theorem insertNewEffectiveSnapshots_eq {newBalances : List EffectiveBalanceSnapshot}
    (h : ∀ key, ∃ timeline, (table key ++ newBalances.filter (fun b => b.key = key)).map
      EffectiveBalanceSnapshot.row = replay key timeline) :
    insertNewEffectiveSnapshots table newBalances
      = some (fun key => table key ++ newBalances.filter (fun b => b.key = key)) := by
  have hslots : ∀ key, (table key ++ newBalances.filter (fun b => b.key = key)).Pairwise
      (fun a b => (a.effective, a.version) ≠ (b.effective, b.version)) := by
    intro key
    obtain ⟨timeline, hreplay⟩ := h key
    have hpairwise := replayFrom_slots key [] timeline
    rw [← replay, ← hreplay, List.pairwise_map] at hpairwise
    exact hpairwise
  rw [insertNewEffectiveSnapshots, if_pos]
  refine ⟨Foundations.pairwise_of_filter_key _
    (fun key => (List.pairwise_append.mp (hslots key)).2.1), fun b hb row hrow => ?_⟩
  exact (List.pairwise_append.mp (hslots b.key)).2.2 row hrow b
    (List.mem_filter.mpr ⟨hb, by simp⟩)

/-- The updated rows replay the timeline with the day's entries put in, ordered by sequence. -/
theorem updatedRows_row (htable : TableReplays table timelines) {key : BalanceKey}
    (hids : Identified ((timelines key).map Prod.snd
      ++ pushedOn eventuallyConsistent accounts journalId targets entries key)) :
    (updatedRows eventuallyConsistent order accounts table journalId targets entries effective
        createdAt key).map EffectiveBalanceSnapshot.row
      = replay key (insertDay (timelines key) effective (Foundations.sortBy EntryValues.sequence
          (pushedOn eventuallyConsistent accounts journalId targets entries key))) := by
  rw [updatedRows]
  by_cases hkey : key.journalId = journalId
      ∧ Reaches eventuallyConsistent accounts targets entries (key.accountId, key.currency)
  · rw [if_pos hkey, List.map_append, rows_upTo (htable.rows key) (htable.sorted key) effective,
      recomputedRows_replay htable key hkey.1 hkey.2 hids, ← replay_append, insertDay,
      List.append_assoc]
  · rw [if_neg hkey, htable.rows, pushedOn_of_not_reaches hkey, Foundations.sortBy_nil,
      insertDay_nil (htable.sorted key)]

/-- **The totals of an update**: the day's entries are put in among the totals of the balance. -/
theorem updatedRows_totals (htable : TableReplays table timelines) {key : BalanceKey}
    (hids : Identified ((timelines key).map Prod.snd
      ++ pushedOn eventuallyConsistent accounts journalId targets entries key))
    (layer : Layer) (direction : DebitOrCredit) :
    (updatedRows eventuallyConsistent order accounts table journalId targets entries effective
        createdAt key).map (EffectiveBalanceSnapshot.dayTotal layer direction)
      = Foundations.insertTotals
          ((table key).map (EffectiveBalanceSnapshot.dayTotal layer direction)) effective
          ((Foundations.sortBy EntryValues.sequence
            (pushedOn eventuallyConsistent accounts journalId targets entries key)).map
              (·.unitsOn layer direction)) := by
  rw [updatedRows]
  by_cases hkey : key.journalId = journalId
      ∧ Reaches eventuallyConsistent accounts targets entries (key.accountId, key.currency)
  · obtain ⟨rfl, hreach⟩ := hkey
    rw [pushedOn_of_reaches rfl hreach] at hids ⊢
    obtain ⟨data, rows, hdata, hinto, -, htotals⟩ := updateData_rows order effective createdAt htable
      hreach hids
    rw [if_pos ⟨rfl, hreach⟩, recomputedRows, hdata, Option.bind_some, hinto, Option.getD_some,
      List.map_append, htotals, Foundations.insertTotals, List.filter_map, List.filter_map,
      List.map_map, ← List.append_assoc]
    rfl
  · rw [if_neg hkey, pushedOn_of_not_reaches hkey, Foundations.sortBy_nil, List.map_nil,
      Foundations.insertTotals_nil (htable.sorted_dayTotals key layer direction)]

/-- **One update, balance by balance.** If the loaded balances are the eligible ones the entries
reach, no panic and no constraint violation occurs, and every balance gets its updated rows. -/
theorem writeCumulative_eq (htable : TableReplays table timelines)
    (hinvolved : InvolvesHits eventuallyConsistent accounts balanceIds targets entries)
    (hids : ∀ key, Identified ((timelines key).map Prod.snd
      ++ pushedOn eventuallyConsistent accounts journalId targets entries key)) :
    writeCumulative targets journalId entries effective createdAt
        (findRowsForUpdate eventuallyConsistent order accounts table journalId balanceIds effective)
      = some (updatedRows eventuallyConsistent order accounts table journalId targets entries
          effective createdAt) := by
  set allData := pushEntries targets entries effective (findRowsForUpdate eventuallyConsistent order
    accounts table journalId balanceIds effective).2 with hallData
  set kept := (findRowsForUpdate eventuallyConsistent order accounts table journalId balanceIds
    effective).1 with hkept
  set newBalances := (Foundations.values allData).flatMap (recomputedRows journalId createdAt)
    with hnew
  have hpair : ∀ pair, Reaches eventuallyConsistent accounts targets entries pair →
      Identified ((timelines ⟨journalId, pair.1, pair.2⟩).map Prod.snd
        ++ hits targets pair.1 pair.2 entries) := by
    intro pair hreach
    have h := hids ⟨journalId, pair.1, pair.2⟩
    have hpushed : pushedOn eventuallyConsistent accounts journalId targets entries
        ⟨journalId, pair.1, pair.2⟩ = hits targets pair.1 pair.2 entries :=
      pushedOn_of_reaches rfl hreach
    rwa [hpushed] at h
  have hrecompute : recomputeAll journalId createdAt (Foundations.values allData)
      = some newBalances := by
    refine recomputeAll_eq (fun data hdata => ?_)
    obtain ⟨pair, hlookup⟩ := Foundations.mem_values.mp hdata
    rw [hallData, loaded_lookup order table journalId effective hinvolved] at hlookup
    split at hlookup
    · rename_i hreach
      rw [← Option.some.inj hlookup]
      obtain ⟨data', rows, hdata', hinto, -, -⟩ := updateData_rows order effective createdAt
        htable hreach (hpair pair hreach)
      exact ⟨data', rows, hdata', hinto⟩
    · cases hlookup
  have hread : ∀ pair, Reaches eventuallyConsistent accounts targets entries pair →
      ∀ b ∈ recomputedRows journalId createdAt
        (updateData order table journalId targets entries effective pair),
        b.key = ⟨journalId, pair.1, pair.2⟩ := by
    intro pair hreach b hb
    exact key_of_mem_rows (recomputedRows_replay htable ⟨journalId, pair.1, pair.2⟩ rfl hreach
      (hids _)) hb
  have hupdated : (fun key => kept key ++ newBalances.filter (fun b => b.key = key))
      = updatedRows eventuallyConsistent order accounts table journalId targets entries effective
          createdAt := by
    funext key
    rw [hnew, hallData, newBalances_filter hinvolved hread, hkept, kept_rows hinvolved, updatedRows]
    split
    · rfl
    · exact List.append_nil _
  rw [writeCumulative, ← hallData, hrecompute, ← hupdated]
  simp only [Option.bind_eq_bind, Option.bind_some]
  exact insertNewEffectiveSnapshots_eq (fun key => ⟨_,
    (congrArg (List.map EffectiveBalanceSnapshot.row) (congrFun hupdated key)).trans
      (updatedRows_row htable (hids key))⟩)

variable (order effective createdAt) in
/-- **One update inserts its entries into the timelines.** -/
theorem updatedRows_replays (htable : TableReplays table timelines)
    (hids : ∀ key, Identified ((timelines key).map Prod.snd
      ++ pushedOn eventuallyConsistent accounts journalId targets entries key)) :
    TableReplays (updatedRows eventuallyConsistent order accounts table journalId targets entries
        effective createdAt)
      (fun key => insertDay (timelines key) effective (Foundations.sortBy EntryValues.sequence
        (pushedOn eventuallyConsistent accounts journalId targets entries key))) := by
  refine ⟨fun key => ?_, fun key => updatedRows_row htable (hids key),
    fun key layer direction hsums => ?_⟩
  · rw [insertDay_eq_sortBy (htable.sorted key)]
    exact Foundations.sortBy_sorted _ _
  · -- the timeline with the entries in has the sums of the timeline and the entries
    rw [updatedRows_totals htable (hids key)]
    have hperm := (Foundations.sortBy_perm Prod.fst (timelines key
      ++ (Foundations.sortBy EntryValues.sequence (pushedOn eventuallyConsistent accounts journalId
        targets entries key)).map (fun entry => (effective, entry)))).map Prod.snd
    rw [← insertDay_eq_sortBy (htable.sorted key), List.map_append, List.map_map] at hperm
    have hall : SumsRepresentable ((timelines key).map Prod.snd
        ++ Foundations.sortBy EntryValues.sequence (pushedOn eventuallyConsistent accounts journalId
          targets entries key)) layer direction :=
      hsums.subperm (by simpa [Function.comp_def] using hperm.symm.subperm)
    refine insertTotals_cumulative (htable.sorted key) (htable.totals key layer direction
      (hall.subperm ?_)) effective hall
    exact (List.sublist_append_left _ _).subperm

/-- **Neither the order of the deleted rows nor that of the targets matters**: targets that bring the
same entries to every balance leave the same rows. -/
theorem updatedRows_congr {order' : ScanOrder} {targets' : EntryValues → List AccountId}
    (htable : TableReplays table timelines)
    (htargets : ∀ accountId currency,
      hits targets accountId currency entries = hits targets' accountId currency entries) :
    updatedRows eventuallyConsistent order accounts table journalId targets entries effective
        createdAt
      = updatedRows eventuallyConsistent order' accounts table journalId targets' entries effective
          createdAt := by
  funext key
  have hreach : Reaches eventuallyConsistent accounts targets entries (key.accountId, key.currency)
      ↔ Reaches eventuallyConsistent accounts targets' entries (key.accountId, key.currency) := by
    rw [Reaches, Reaches, htargets]
  unfold updatedRows
  by_cases hkey : key.journalId = journalId
      ∧ Reaches eventuallyConsistent accounts targets entries (key.accountId, key.currency)
  · rw [if_pos hkey, if_pos (hkey.imp_right hreach.mp)]
    obtain ⟨rfl, hhit⟩ := hkey
    refine congrArg _ ?_
    have hrecalc := EffectiveBalanceData.reCalculateSnapshots_perm
      (effectiveData order (table key) effective (key.accountId, key.currency))
      (hits targets key.accountId key.currency entries) effective hhit.2
      (rowsOf_of_replayFrom (rows_after (htable.rows key) (htable.sorted key) effective))
      ((order.perm _).map _) ((order'.perm _).map _) ((htable.sorted key).filter _)
      (fun dated hd => by simpa using (List.mem_filter.mp hd).2) createdAt
    unfold recomputedRows updateData
    refine congrArg (fun x => (Option.bind x _).getD []) (hrecalc.trans ?_)
    rw [← htargets]
    rfl
  · rw [if_neg hkey, if_neg (fun h => hkey (h.imp_right hreach.mpr))]

end Write

/-! ## Updates of different journals -/

/-- The rows of one journal taken from one table, all others from another. -/
def spliceJournal (journalId : JournalId) (new old : EffectiveTable) : EffectiveTable :=
  fun key => if key.journalId = journalId then new key else old key

theorem recomputeAll_journalId {journalId : JournalId} {createdAt : Timestamp}
    {allData : List EffectiveBalanceData} {newBalances : List EffectiveBalanceSnapshot}
    (h : recomputeAll journalId createdAt allData = some newBalances) :
    ∀ b ∈ newBalances, b.journalId = journalId := by
  rw [recomputeAll] at h
  obtain ⟨recalculated, -, h⟩ := Option.bind_eq_some_iff.mp h
  obtain ⟨rows, hrows, h⟩ := Option.bind_eq_some_iff.mp h
  cases h
  intro b hb
  obtain ⟨block, hblock, hb⟩ := List.mem_flatten.mp hb
  obtain ⟨data, -, hdata⟩ := Foundations.exists_of_mem_mapM hrows block hblock
  exact EffectiveBalanceData.intoSnapshotsFrom_journalId _ hdata b hb

/-- Inserting rows of one journal looks at that journal only. -/
theorem insertNewEffectiveSnapshots_local {journalId : JournalId} {t₁ t₂ : EffectiveTable}
    (h : ∀ key, key.journalId = journalId → t₁ key = t₂ key)
    {newBalances : List EffectiveBalanceSnapshot}
    (hnew : ∀ b ∈ newBalances, b.journalId = journalId) :
    insertNewEffectiveSnapshots t₂ newBalances
      = (insertNewEffectiveSnapshots t₁ newBalances).map (spliceJournal journalId · t₂) := by
  have hcheck : (∀ b ∈ newBalances, ∀ row ∈ t₁ b.key,
        (row.effective, row.version) ≠ (b.effective, b.version))
      ↔ (∀ b ∈ newBalances, ∀ row ∈ t₂ b.key,
        (row.effective, row.version) ≠ (b.effective, b.version)) :=
    forall₂_congr (fun b hb => by rw [h b.key (hnew b hb)])
  unfold insertNewEffectiveSnapshots
  simp only [hcheck]
  split
  · rw [Option.map_some]
    refine congrArg some (funext (fun key => ?_))
    by_cases hkey : key.journalId = journalId
    · rw [spliceJournal, if_pos hkey, h key hkey]
    · have hnone : newBalances.filter (fun b => b.key = key) = [] := by
        rw [List.filter_eq_nil_iff]
        intro b hb hbkey
        rw [decide_eq_true_eq] at hbkey
        subst hbkey
        exact hkey (hnew b hb)
      rw [spliceJournal, if_neg hkey, hnone, List.append_nil]
  · rfl

/-- An update reads and writes the rows of its own journal only. -/
theorem writeCumulative_local {eventuallyConsistent : Bool} {order : ScanOrder}
    {accounts : AccountTable} {journalId : JournalId} {balanceIds : List (AccountId × Currency)}
    {targets : EntryValues → List AccountId} {entries : List EntryValues} {effective : NaiveDate}
    {createdAt : Timestamp} {t₁ t₂ : EffectiveTable}
    (h : ∀ key, key.journalId = journalId → t₁ key = t₂ key) :
    writeCumulative targets journalId entries effective createdAt
        (findRowsForUpdate eventuallyConsistent order accounts t₂ journalId balanceIds effective)
      = (writeCumulative targets journalId entries effective createdAt
          (findRowsForUpdate eventuallyConsistent order accounts t₁ journalId balanceIds
            effective)).map (spliceJournal journalId · t₂) := by
  have hdata : (findRowsForUpdate eventuallyConsistent order accounts t₂ journalId balanceIds
      effective).2 = (findRowsForUpdate eventuallyConsistent order accounts t₁ journalId balanceIds
      effective).2 := by
    unfold findRowsForUpdate
    simp only [h ⟨journalId, _, _⟩ rfl]
  have hkept : ∀ key, key.journalId = journalId →
      (findRowsForUpdate eventuallyConsistent order accounts t₁ journalId balanceIds effective).1 key
        = (findRowsForUpdate eventuallyConsistent order accounts t₂ journalId balanceIds
            effective).1 key := by
    intro key hkey
    unfold findRowsForUpdate
    simp only [h key hkey]
  have hother : ∀ key, key.journalId ≠ journalId →
      (findRowsForUpdate eventuallyConsistent order accounts t₂ journalId balanceIds effective).1 key
        = t₂ key := by
    intro key hkey
    unfold findRowsForUpdate
    exact if_neg (fun hmem => hkey hmem.1)
  rw [writeCumulative, writeCumulative, hdata]
  cases hrows : recomputeAll journalId createdAt (Foundations.values (pushEntries targets entries
      effective (findRowsForUpdate eventuallyConsistent order accounts t₁ journalId balanceIds
        effective).2)) with
  | none => rfl
  | some newBalances =>
      simp only [Option.bind_eq_bind, Option.bind_some]
      rw [insertNewEffectiveSnapshots_local hkept (recomputeAll_journalId hrows)]
      refine congrArg (Option.map · _) (funext (fun new => funext (fun key => ?_)))
      unfold spliceJournal
      split
      · rfl
      · rename_i hkey
        exact hother key hkey

/-! ## Sequences of updates -/

/-- One single-transaction update, with the accounts and memberships it reads. -/
structure EffectiveUpdate where
  accounts : AccountTable
  journalId : JournalId
  entries : List EntryValues
  effective : NaiveDate
  createdAt : Timestamp
  mappings : AccountSetMappings

/-- An update is made by the posting flow or by the rollup, which also names the EC leaves. -/
inductive EffectiveCall
  | inline (update : EffectiveUpdate)
  | ecRollup (update : EffectiveUpdate) (ecLeaves : List AccountId)

namespace EffectiveCall

def update : EffectiveCall → EffectiveUpdate
  | inline update => update
  | ecRollup update _ => update

/-- Which consistency mode the call maintains. -/
def eventuallyConsistent : EffectiveCall → Bool
  | inline _ => false
  | ecRollup _ _ => true

def targets : EffectiveCall → EntryValues → List AccountId
  | inline update => inlineTargets update.mappings
  | ecRollup update ecLeaves => ecTargets update.mappings ecLeaves

/-- The balances a call involves: every target of its entries, of which the posting flow keeps the
non-EC ones. -/
def involved (call : EffectiveCall) : List (AccountId × Currency) :=
  match call with
  | inline update =>
      ((reached call.targets update.entries).filter
        (fun pair => update.accounts.consistency false pair.1)).dedup
  | ecRollup update _ => (reached call.targets update.entries).dedup

/-- Run the update; a call that involves no balance is not made. -/
def run (order : ScanOrder) (table : EffectiveTable) (call : EffectiveCall) :
    Option EffectiveTable :=
  if call.involved = [] then
    some table
  else
    match call with
    | inline update =>
        updateCumulativeBalancesInOp order update.accounts table update.journalId update.entries
          update.effective update.createdAt update.mappings call.involved
    | ecRollup update ecLeaves =>
        applyEcRollupEffectiveInOp order update.accounts table update.journalId update.entries
          update.effective update.createdAt update.mappings call.involved ecLeaves

/-- The entries a call brings to one balance. -/
def pushed (call : EffectiveCall) (key : BalanceKey) : List EntryValues :=
  pushedOn call.eventuallyConsistent call.update.accounts call.update.journalId call.targets
    call.update.entries key

/-- The entries a call adds to the timeline of one balance: of its day, by sequence. -/
def dated (call : EffectiveCall) (key : BalanceKey) : List DatedEntry :=
  (Foundations.sortBy EntryValues.sequence (call.pushed key)).map
    (fun entry => (call.update.effective, entry))

theorem mem_entries_of_pushed (call : EffectiveCall) {key : BalanceKey} {entry : EntryValues}
    (h : entry ∈ call.pushed key) : entry ∈ call.update.entries := by
  rw [pushed, pushedOn] at h
  split at h
  · exact ((mem_hits _ _ _).mp h).1
  · cases h

/-- A call involves, of its consistency mode, exactly the balances its entries hit. -/
theorem involvesHits (call : EffectiveCall) :
    InvolvesHits call.eventuallyConsistent call.update.accounts call.involved call.targets
      call.update.entries := by
  intro pair hconsistency
  rw [← mem_reached]
  unfold involved
  cases call with
  | inline update =>
      rw [List.mem_dedup, List.mem_filter]
      simp only [decide_eq_true_eq]
      exact and_iff_left hconsistency
  | ecRollup update ecLeaves => exact List.mem_dedup

/-- The journal a call writes to. -/
def journalId (call : EffectiveCall) : JournalId := call.update.journalId

/-- A call reads and writes the rows of its own journal only. -/
theorem run_local (order : ScanOrder) (call : EffectiveCall) {t₁ t₂ : EffectiveTable}
    (h : ∀ key, key.journalId = call.journalId → t₁ key = t₂ key) :
    call.run order t₂ = (call.run order t₁).map (spliceJournal call.journalId · t₂) := by
  unfold run
  split
  · rw [Option.map_some]
    refine congrArg some (funext (fun key => ?_))
    unfold spliceJournal
    split
    · rename_i hkey
      exact (h key hkey).symm
    · rfl
  · cases call with
    | inline update => exact writeCumulative_local h
    | ecRollup update ecLeaves => exact writeCumulative_local h

/-- What a call leaves in the other journals. -/
theorem run_frame {order : ScanOrder} {call : EffectiveCall} {table table' : EffectiveTable}
    (h : call.run order table = some table') {key : BalanceKey}
    (hkey : key.journalId ≠ call.journalId) : table' key = table key := by
  have hlocal := call.run_local order (fun key (_ : key.journalId = call.journalId) =>
    (rfl : table key = table key))
  rw [h, Option.map_some] at hlocal
  rw [Option.some.inj hlocal, spliceJournal, if_neg hkey]

/-- **Calls of different journals commute.** -/
theorem run_comm (order : ScanOrder) (table : EffectiveTable) {a b : EffectiveCall}
    (hne : a.journalId ≠ b.journalId) :
    (a.run order table).bind (b.run order ·) = (b.run order table).bind (a.run order ·) := by
  have hafter : ∀ {a b : EffectiveCall}, a.journalId ≠ b.journalId → ∀ {t : EffectiveTable},
      a.run order table = some t →
      b.run order t = (b.run order table).map (spliceJournal b.journalId · t) := by
    intro a b hne t ht
    exact b.run_local order (fun key hkey => (run_frame ht (fun h => hne (h.symm.trans hkey))).symm)
  cases ha : a.run order table with
  | none =>
      cases hb : b.run order table with
      | none => rfl
      | some t₂ => rw [Option.bind_none, Option.bind_some, hafter hne.symm hb, ha, Option.map_none]
  | some t₁ =>
      cases hb : b.run order table with
      | none => rw [Option.bind_none, Option.bind_some, hafter hne ha, hb, Option.map_none]
      | some t₂ =>
          rw [Option.bind_some, Option.bind_some, hafter hne ha, hafter hne.symm hb, ha, hb,
            Option.map_some, Option.map_some]
          refine congrArg some (funext (fun key => ?_))
          unfold spliceJournal
          by_cases hkeyb : key.journalId = b.journalId
          · rw [if_pos hkeyb, if_neg (fun hkeya => hne (hkeya.symm.trans hkeyb))]
          · rw [if_neg hkeyb]
            by_cases hkeya : key.journalId = a.journalId
            · rw [if_pos hkeya]
            · rw [if_neg hkeya, run_frame ha hkeya, run_frame hb hkeyb]

/-- What a call makes of the table. -/
def updated (order : ScanOrder) (table : EffectiveTable) (call : EffectiveCall) : EffectiveTable :=
  updatedRows call.eventuallyConsistent order call.update.accounts table call.update.journalId
    call.targets call.update.entries call.update.effective call.update.createdAt

/-- **A call goes through.** -/
theorem run_eq (order : ScanOrder) {table : EffectiveTable}
    {timelines : BalanceKey → List DatedEntry} (htable : TableReplays table timelines)
    (call : EffectiveCall)
    (hids : ∀ key, Identified ((timelines key).map Prod.snd ++ call.pushed key)) :
    call.run order table = some (call.updated order table) := by
  unfold run
  split
  · -- nothing involved: no balance is reached
    rename_i hnone
    refine congrArg some (funext (fun key => (if_neg ?_).symm))
    rintro ⟨-, hconsistency, hhits⟩
    have hmem := (call.involvesHits (key.accountId, key.currency) hconsistency).mpr hhits
    rw [hnone] at hmem
    cases hmem
  · cases call with
    | inline update => exact writeCumulative_eq htable (inline update).involvesHits hids
    | ecRollup update ecLeaves =>
        exact writeCumulative_eq htable (ecRollup update ecLeaves).involvesHits hids

/-- **A call inserts its entries into the timelines.** -/
theorem run_replays (order : ScanOrder) {table : EffectiveTable}
    {timelines : BalanceKey → List DatedEntry} (htable : TableReplays table timelines)
    (call : EffectiveCall)
    (hids : ∀ key, Identified ((timelines key).map Prod.snd ++ call.pushed key)) :
    ∃ table', call.run order table = some table'
      ∧ TableReplays table'
          (fun key => Foundations.sortBy Prod.fst (timelines key ++ call.dated key)) := by
  have hsort : ∀ key, insertDay (timelines key) call.update.effective
      (Foundations.sortBy EntryValues.sequence (call.pushed key))
      = Foundations.sortBy Prod.fst (timelines key ++ call.dated key) :=
    fun key => insertDay_eq_sortBy (htable.sorted key) _ _
  refine ⟨_, run_eq order htable call hids, ?_⟩
  rw [← funext hsort]
  exact updatedRows_replays order call.update.effective call.update.createdAt htable hids

/-- **The totals after a call**: its amounts are put in among those of each balance. -/
theorem run_totals {order : ScanOrder} {table table' : EffectiveTable}
    {timelines : BalanceKey → List DatedEntry} (htable : TableReplays table timelines)
    {call : EffectiveCall}
    (hids : ∀ key, Identified ((timelines key).map Prod.snd ++ call.pushed key))
    (h : call.run order table = some table') (key : BalanceKey) (layer : Layer)
    (direction : DebitOrCredit) :
    (table' key).map (EffectiveBalanceSnapshot.dayTotal layer direction)
      = Foundations.insertTotals
          ((table key).map (EffectiveBalanceSnapshot.dayTotal layer direction))
          call.update.effective
          ((Foundations.sortBy EntryValues.sequence (call.pushed key)).map
            (fun entry => entry.unitsOn layer direction)) := by
  rw [run_eq order htable call hids] at h
  rw [← Option.some.inj h]
  exact updatedRows_totals htable (hids key) layer direction

/-- **A call depends on its entries, not on any order SQL leaves open.** -/
theorem run_congr (order order' : ScanOrder) {table : EffectiveTable}
    {timelines : BalanceKey → List DatedEntry} (htable : TableReplays table timelines)
    {update : EffectiveUpdate} {mappings : AccountSetMappings} {ecLeaves : List AccountId}
    (htargets : ∀ accountId currency,
      hits (ecTargets update.mappings ecLeaves) accountId currency update.entries
        = hits (ecTargets mappings ecLeaves) accountId currency update.entries)
    (hids : ∀ key, Identified ((timelines key).map Prod.snd
      ++ (ecRollup update ecLeaves).pushed key)) :
    (ecRollup update ecLeaves).run order table
      = (ecRollup { update with mappings := mappings } ecLeaves).run order' table := by
  set call := ecRollup update ecLeaves with hcall
  set call' := ecRollup { update with mappings := mappings } ecLeaves with hcall'
  have hpushed : ∀ key, call.pushed key = call'.pushed key := by
    intro key
    change pushedOn true update.accounts update.journalId (ecTargets update.mappings ecLeaves)
      update.entries key = pushedOn true update.accounts update.journalId
        (ecTargets mappings ecLeaves) update.entries key
    unfold pushedOn
    rw [htargets]
  have hids' : ∀ key, Identified ((timelines key).map Prod.snd ++ call'.pushed key) :=
    fun key => hpushed key ▸ hids key
  rw [run_eq order htable call hids, run_eq order' htable call' hids']
  exact congrArg some (updatedRows_congr htable htargets)

end EffectiveCall

/-- Run a sequence of updates. -/
def runEffectiveCalls (order : ScanOrder) (calls : List EffectiveCall) (table : EffectiveTable) :
    Option EffectiveTable :=
  calls.foldlM (EffectiveCall.run order) table

/-- Every call adds its entries to the timelines, whatever was applied before. -/
theorem runEffectiveCalls_replays (order : ScanOrder) (calls : List EffectiveCall) :
    ∀ {table : EffectiveTable} (applied : BalanceKey → List DatedEntry),
      TableReplays table (fun key => Foundations.sortBy Prod.fst (applied key)) →
      (∀ key, Identified ((applied key).map Prod.snd ++ calls.flatMap (fun call => call.pushed key))) →
      ∃ table', runEffectiveCalls order calls table = some table'
        ∧ TableReplays table' (fun key => Foundations.sortBy Prod.fst
            (applied key ++ calls.flatMap (fun call => call.dated key))) := by
  induction calls with
  | nil =>
      intro table applied htable _
      exact ⟨table, rfl, by simpa using htable⟩
  | cons call calls ih =>
      intro table applied htable hids
      have hcall : ∀ key, Identified ((Foundations.sortBy Prod.fst (applied key)).map Prod.snd
          ++ call.pushed key) := by
        intro key
        refine (hids key).subset (fun entry hentry => ?_)
        simp only [List.mem_append, List.mem_map, Foundations.mem_sortBy, List.flatMap_cons]
          at hentry ⊢
        rcases hentry with h | h
        · exact Or.inl h
        · exact Or.inr (Or.inl h)
      obtain ⟨next, hrun, hnext⟩ := call.run_replays order htable hcall
      have hmerge : ∀ key, Foundations.sortBy Prod.fst
          (Foundations.sortBy Prod.fst (applied key) ++ call.dated key)
          = Foundations.sortBy Prod.fst (applied key ++ call.dated key) :=
        fun key => Foundations.sortBy_append_sortBy _ _ _
      rw [funext hmerge] at hnext
      obtain ⟨table', hrest, htable'⟩ := ih (fun key => applied key ++ call.dated key) hnext
        (by
          intro key
          refine (hids key).subset (fun entry hentry => ?_)
          simp only [List.map_append, List.mem_append, List.flatMap_cons] at hentry ⊢
          rcases hentry with (h | h) | h
          · exact Or.inl h
          · refine Or.inr (Or.inl ?_)
            simpa [EffectiveCall.dated] using h
          · exact Or.inr (Or.inr h))
      refine ⟨table', ?_, ?_⟩
      · rw [runEffectiveCalls, List.foldlM_cons, hrun]
        exact hrest
      · simpa [List.append_assoc] using htable'

/-- **What every call does to a reading of a balance's rows**, a run of calls does one after the
other. -/
theorem runEffectiveCalls_reading {β : Type} (order : ScanOrder)
    (reading : List EffectiveBalanceSnapshot → β) (next : EffectiveCall → BalanceKey → β → β)
    (hstep : ∀ {table table' : EffectiveTable} {timelines : BalanceKey → List DatedEntry},
      TableReplays table timelines → ∀ {call : EffectiveCall},
      (∀ key, Identified ((timelines key).map Prod.snd ++ call.pushed key)) →
      call.run order table = some table' →
      ∀ key, reading (table' key) = next call key (reading (table key)))
    (calls : List EffectiveCall) :
    ∀ {table table' : EffectiveTable} {timelines : BalanceKey → List DatedEntry},
      TableReplays table timelines →
      (∀ key, Identified ((timelines key).map Prod.snd
        ++ calls.flatMap (fun call => call.pushed key))) →
      runEffectiveCalls order calls table = some table' →
      ∀ key, reading (table' key)
        = calls.foldl (fun read call => next call key read) (reading (table key)) := by
  induction calls with
  | nil =>
      rintro table _ timelines - - ⟨⟩ key
      rfl
  | cons call calls ih =>
      intro table table' timelines htable hids h key
      have hcall : ∀ key, Identified ((timelines key).map Prod.snd ++ call.pushed key) := by
        intro key
        refine (hids key).subset (fun entry hentry => ?_)
        rw [List.flatMap_cons, ← List.append_assoc]
        exact List.mem_append_left _ hentry
      rw [runEffectiveCalls, List.foldlM_cons] at h
      obtain ⟨middle, hmiddle, h⟩ := Option.bind_eq_some_iff.mp h
      obtain ⟨found, hfound, hreplays⟩ := call.run_replays order htable hcall
      obtain rfl : found = middle := Option.some.inj (hfound.symm.trans hmiddle)
      rw [List.foldl_cons, ← hstep htable hcall hmiddle key]
      refine ih hreplays (fun key => (hids key).subset (fun entry hentry => ?_)) h key
      simp only [List.mem_append, List.mem_map, Foundations.mem_sortBy, List.flatMap_cons]
        at hentry ⊢
      rcases hentry with ⟨dated, hold | hnew, rfl⟩ | hrest
      · exact Or.inl ⟨dated, hold, rfl⟩
      · obtain ⟨entry, hentry, rfl⟩ := List.mem_map.mp hnew
        rw [Foundations.mem_sortBy] at hentry
        exact Or.inr (Or.inl hentry)
      · exact Or.inr (Or.inr hrest)

/-- **The totals after a run of calls.** -/
theorem runEffectiveCalls_totals {order : ScanOrder} {calls : List EffectiveCall}
    {table table' : EffectiveTable} {timelines : BalanceKey → List DatedEntry}
    (htable : TableReplays table timelines)
    (hids : ∀ key, Identified ((timelines key).map Prod.snd
      ++ calls.flatMap (fun call => call.pushed key)))
    (h : runEffectiveCalls order calls table = some table') (key : BalanceKey) (layer : Layer)
    (direction : DebitOrCredit) :
    (table' key).map (EffectiveBalanceSnapshot.dayTotal layer direction)
      = Foundations.insertAll
          ((table key).map (EffectiveBalanceSnapshot.dayTotal layer direction))
          (calls.map (fun call => (call.update.effective,
            (Foundations.sortBy EntryValues.sequence (call.pushed key)).map
              (fun entry => entry.unitsOn layer direction)))) := by
  rw [Foundations.insertAll, List.foldl_map]
  exact runEffectiveCalls_reading order (List.map (EffectiveBalanceSnapshot.dayTotal layer direction))
    (fun call key rows => Foundations.insertTotals rows call.update.effective
      ((Foundations.sortBy EntryValues.sequence (call.pushed key)).map
        (fun entry => entry.unitsOn layer direction)))
    (fun htable _ hids h key => EffectiveCall.run_totals htable hids h key layer direction)
    calls htable hids h key

/-- **The effective table is the replay of the entries.** Every sequence of updates of an empty
table, in any order of days, runs without a panic or a constraint violation, and leaves for every
balance the replay of all entries brought to it, ordered by day, then by application, then by
sequence. On each side on which sums of the balance's entries are representable, the totals of its
rows are the cumulative ones. -/
theorem effective_rows_replay (order : ScanOrder) (calls : List EffectiveCall)
    (hids : Identified (calls.flatMap (fun call => call.update.entries))) :
    ∃ table, runEffectiveCalls order calls (fun _ => []) = some table
      ∧ ∀ key, (table key).map EffectiveBalanceSnapshot.row
            = replay key (Foundations.sortBy Prod.fst
                (calls.flatMap (fun call => call.dated key)))
          ∧ ∀ layer direction, SumsRepresentable ((Foundations.sortBy Prod.fst
                (calls.flatMap (fun call => call.dated key))).map Prod.snd) layer direction →
                ((table key).map (EffectiveBalanceSnapshot.dayTotal layer direction)).map
                    (fun row => (row.1, row.2.value))
                  = cumulativeOn layer direction (Foundations.sortBy Prod.fst
                      (calls.flatMap (fun call => call.dated key))) := by
  have hpushed : ∀ key, Identified (calls.flatMap (fun call => call.pushed key)) := by
    intro key
    refine hids.subset (fun entry hentry => ?_)
    obtain ⟨call, hcall, hmem⟩ := List.mem_flatMap.mp hentry
    exact List.mem_flatMap.mpr ⟨call, hcall, call.mem_entries_of_pushed hmem⟩
  have hempty : TableReplays (fun _ => []) (fun _ => Foundations.sortBy Prod.fst []) :=
    ⟨fun _ => List.Pairwise.nil, fun _ => rfl, fun _ _ _ _ => rfl⟩
  obtain ⟨table, hrun, htable⟩ := runEffectiveCalls_replays order calls (fun _ => []) hempty
    (by simpa using hpushed)
  simp only [List.nil_append] at htable
  exact ⟨table, hrun, fun key => ⟨htable.rows key, htable.totals key⟩⟩

/-- One entry on account 1, in a journal's first posting of a day. -/
def dayCall (id : ℕ) (direction : DebitOrCredit) (units : Decimal) (day : NaiveDate) :
    EffectiveCall :=
  let row : AccountRow :=
    { normalBalanceType := .debit
      eventuallyConsistent := false
      isAccountSet := false
      velocityContextValues := ⟨⟨1⟩, "a", .debit, none, none⟩
      status := .active }
  let entry : EntryValues :=
    { id := ⟨id⟩
      transactionId := ⟨id⟩
      journalId := ⟨1⟩
      accountId := ⟨1⟩
      entryType := "E"
      sequence := 1
      layer := .settled
      units := units
      currency := ⟨"USD"⟩
      direction := direction
      description := none
      metadata := none }
  .inline
    { accounts := fun _ => some row
      journalId := ⟨1⟩
      entries := [entry]
      effective := day
      createdAt := 0
      mappings := fun _ => [] }

/-- One balance posted twice, the second time back-dated. -/
def backdatedCalls : List EffectiveCall := [dayCall 1 .debit 10 5, dayCall 2 .debit 3 2]

theorem effective_rows_replay_backdated :
    ∃ table, runEffectiveCalls ⟨id, fun _ => List.Perm.refl _⟩ backdatedCalls (fun _ => [])
        = some table
      ∧ (table ⟨⟨1⟩, ⟨1⟩, ⟨"USD"⟩⟩).map EffectiveBalanceSnapshot.row
        = replay ⟨⟨1⟩, ⟨1⟩, ⟨"USD"⟩⟩ (Foundations.sortBy Prod.fst
            (backdatedCalls.flatMap (fun call => call.dated ⟨⟨1⟩, ⟨1⟩, ⟨"USD"⟩⟩)))
      ∧ ∀ layer direction, ((table ⟨⟨1⟩, ⟨1⟩, ⟨"USD"⟩⟩).map
            (EffectiveBalanceSnapshot.dayTotal layer direction)).map
              (fun row => (row.1, row.2.value))
          = cumulativeOn layer direction (Foundations.sortBy Prod.fst
              (backdatedCalls.flatMap (fun call => call.dated ⟨⟨1⟩, ⟨1⟩, ⟨"USD"⟩⟩))) := by
  obtain ⟨table, hrun, hrows⟩ := effective_rows_replay ⟨id, fun _ => List.Perm.refl _⟩
    backdatedCalls ⟨by decide, by decide +kernel⟩
  refine ⟨table, hrun, (hrows _).1, fun layer direction => (hrows _).2 layer direction ?_⟩
  exact (netsRepresentable_of_digits (by decide : 0 ≤ 28) (fun entry => entry.units.value.num)
    (by decide +kernel) (by decide +kernel) layer).sums direction

example : ((runEffectiveCalls ⟨id, fun _ => List.Perm.refl _⟩ backdatedCalls (fun _ => [])).map
    (fun table => (table ⟨⟨1⟩, ⟨1⟩, ⟨"USD"⟩⟩).map (fun row =>
      (row.effective, row.version, row.allTimeVersion, row.entryId.uuid,
        row.settled.drBalance)))) = some [(2, 1, 1, 2, 3), (5, 1, 2, 1, 13)] := by decide +kernel

/-- The smallest amount, posted after a larger one. -/
def roundedCalls : List EffectiveCall :=
  [dayCall 1 .credit 10 1, dayCall 2 .credit (.round _ _ (1 / 10 ^ 28)) 2]

/-- Ten and the smallest amount have more digits than a decimal, so the second row stays at ten. -/
theorem effective_totals_round :
    ¬ ∀ (order : ScanOrder) (calls : List EffectiveCall),
      Identified (calls.flatMap (fun call => call.update.entries)) →
      ∃ table, runEffectiveCalls order calls (fun _ => []) = some table
        ∧ ∀ key, (table key).map EffectiveBalanceSnapshot.row
              = replay key (Foundations.sortBy Prod.fst
                  (calls.flatMap (fun call => call.dated key)))
            ∧ ∀ layer direction,
                ((table key).map (EffectiveBalanceSnapshot.dayTotal layer direction)).map
                    (fun row => (row.1, row.2.value))
                  = cumulativeOn layer direction (Foundations.sortBy Prod.fst
                      (calls.flatMap (fun call => call.dated key))) := by
  intro h
  obtain ⟨table, hrun, hrows⟩ := h ⟨id, fun _ => List.Perm.refl _⟩ roundedCalls
    ⟨by decide, by decide +kernel⟩
  have htotals := (hrows ⟨⟨1⟩, ⟨1⟩, ⟨"USD"⟩⟩).2 .settled .credit
  have hstored : (runEffectiveCalls ⟨id, fun _ => List.Perm.refl _⟩ roundedCalls
      (fun _ => [])).map (fun table => ((table ⟨⟨1⟩, ⟨1⟩, ⟨"USD"⟩⟩).map
        (EffectiveBalanceSnapshot.dayTotal .settled .credit)).map
          (fun row => (row.1, row.2.value))) = some [(1, 10), (2, 10)] := by decide +kernel
  rw [hrun, Option.map_some, htotals] at hstored
  revert hstored
  decide +kernel

end CalaLedger
