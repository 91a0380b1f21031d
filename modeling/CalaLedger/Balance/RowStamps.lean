import CalaLedger.Balance.Effective

/-! # Clock times of the cumulative rows

An update stamps every row it writes with the time of its operation: the rows of its entries, and
the rows of later days it rewrites. `restamp` is what one update makes of the days and stamps of a
balance (`EffectiveCall.run_stamp`), so a sequence of updates determines them
(`runEffectiveCalls_stamp`). -/

namespace CalaLedger

/-- The day of a row, and when it was written. -/
def EffectiveBalanceSnapshot.stamp (stored : EffectiveBalanceSnapshot) : NaiveDate × Timestamp :=
  (stored.effective, stored.modifiedAt)

/-! ## Every row written carries the time of the update -/

namespace EffectiveBalanceData

theorem relayEntryIds_modifiedAt (layer : Layer) (values diff : BalanceSnapshot) :
    (relayEntryIds layer (values, diff)).1.modifiedAt = values.modifiedAt := by
  rw [relayEntryIds]
  split <;> rfl

@[simp] theorem shiftRow_modifiedAt (createdAt : Timestamp) (values diff : BalanceSnapshot) :
    (shiftRow createdAt values diff).1.modifiedAt = createdAt := by
  have hrelay : ∀ (layer : Layer) (rowAndDiff : BalanceSnapshot × BalanceSnapshot),
      (relayEntryIds layer rowAndDiff).1.modifiedAt = rowAndDiff.1.modifiedAt :=
    fun layer rowAndDiff => relayEntryIds_modifiedAt layer rowAndDiff.1 rowAndDiff.2
  rw [shiftRow, hrelay, hrelay, hrelay]
  rfl

section Walk

variable {createdAt : Timestamp} {accountId : AccountId}

/-- Whatever the walk leaves in place of an element carries the time of the update. -/
theorem recalcStep_modifiedAt {state state' : RecalcState} {update update' : SnapshotOrEntry}
    (h : recalcStep createdAt accountId state update = some (state', update')) :
    ∀ snapshot effective, update'.asSnapshot = some (snapshot, effective) →
      snapshot.modifiedAt = createdAt := by
  intro snapshot effective hsnapshot
  cases update with
  | entry day entry =>
      cases h
      cases hsnapshot
      exact updateSnapshot_modifiedAt _ _ _
  | snapshot day values =>
      rw [recalcStep] at h
      dsimp only at h
      cases hdiff : state.diffSnapshot with
      | none =>
          rw [hdiff] at h
          cases h
      | some diff =>
          rw [hdiff] at h
          cases h
          cases hsnapshot
          exact shiftRow_modifiedAt _ _ _

theorem recalcLoop_modifiedAt {updates : List SnapshotOrEntry} :
    ∀ {state state' : RecalcState} {updates' : List SnapshotOrEntry},
      recalcLoop createdAt accountId state updates = some (state', updates') →
      ∀ update ∈ updates', ∀ snapshot effective, update.asSnapshot = some (snapshot, effective) →
        snapshot.modifiedAt = createdAt := by
  induction updates with
  | nil =>
      rintro state state' updates' ⟨⟩ update hupdate
      cases hupdate
  | cons update updates ih =>
      intro state state' updates' h
      rw [recalcLoop] at h
      obtain ⟨⟨next, first⟩, hstep, h⟩ := Option.bind_eq_some_iff.mp h
      obtain ⟨⟨last, rest⟩, hloop, h⟩ := Option.bind_eq_some_iff.mp h
      cases h
      exact List.forall_mem_cons.mpr ⟨recalcStep_modifiedAt hstep, ih hloop⟩

theorem reCalculateSnapshots_modifiedAt {data data' : EffectiveBalanceData}
    (h : data.reCalculateSnapshots createdAt = some data') :
    ∀ update ∈ data'.updates, ∀ snapshot effective,
      update.asSnapshot = some (snapshot, effective) → snapshot.modifiedAt = createdAt := by
  rw [reCalculateSnapshots] at h
  split at h
  · rename_i hnone
    cases h
    rw [hnone]
    exact fun update hupdate => (List.not_mem_nil hupdate).elim
  · obtain ⟨updates, -, h⟩ := Option.bind_eq_some_iff.mp h
    obtain ⟨⟨lastBalance, lastEffective⟩, -, h⟩ := Option.bind_eq_some_iff.mp h
    obtain ⟨⟨state, updates'⟩, hloop, h⟩ := Option.bind_eq_some_iff.mp h
    cases h
    exact recalcLoop_modifiedAt hloop

end Walk

theorem intoSnapshotsFrom_modifiedAt {createdAt : Timestamp} {journalId : JournalId}
    {data : EffectiveBalanceData} {updates : List SnapshotOrEntry} :
    ∀ {idx : ℕ} {rows : List EffectiveBalanceSnapshot},
      intoSnapshotsFrom journalId data idx updates = some rows →
      (∀ update ∈ updates, ∀ snapshot effective, update.asSnapshot = some (snapshot, effective) →
        snapshot.modifiedAt = createdAt) →
      ∀ row ∈ rows, row.modifiedAt = createdAt := by
  induction updates with
  | nil =>
      rintro idx rows ⟨⟩ - row hrow
      cases hrow
  | cons update updates ih =>
      intro idx rows h hupdates
      obtain ⟨hupdate, hrest⟩ := List.forall_mem_cons.mp hupdates
      rw [intoSnapshotsFrom] at h
      obtain ⟨⟨snapshot, effective⟩, hsnapshot, h⟩ := Option.bind_eq_some_iff.mp h
      obtain ⟨rows', hrows, h⟩ := Option.bind_eq_some_iff.mp h
      cases h
      exact List.forall_mem_cons.mpr ⟨hupdate _ _ hsnapshot, ih hrows hrest⟩

end EffectiveBalanceData

theorem recomputedRows_modifiedAt {createdAt : Timestamp} {journalId : JournalId}
    {data : EffectiveBalanceData} :
    ∀ row ∈ recomputedRows journalId createdAt data, row.modifiedAt = createdAt := by
  intro row hrow
  rw [recomputedRows] at hrow
  cases hdata : data.reCalculateSnapshots createdAt with
  | none =>
      rw [hdata] at hrow
      cases hrow
  | some data' =>
      rw [hdata, Option.bind_some] at hrow
      cases hrows : data'.intoSnapshots journalId with
      | none =>
          rw [hrows] at hrow
          cases hrow
      | some rows =>
          rw [hrows] at hrow
          exact EffectiveBalanceData.intoSnapshotsFrom_modifiedAt hrows
            (EffectiveBalanceData.reCalculateSnapshots_modifiedAt hdata) row hrow

/-! ## What an update makes of the stamps of a balance -/

/-- `count` entries come in on a day: their rows and the rows of all later days are written anew. -/
def restamp (day : NaiveDate) (createdAt : Timestamp) (count : ℕ)
    (stamps : List (NaiveDate × Timestamp)) : List (NaiveDate × Timestamp) :=
  if count = 0 then
    stamps
  else
    stamps.filter (fun stamp => stamp.1 ≤ day) ++ List.replicate count (day, createdAt)
      ++ (stamps.filter (fun stamp => day < stamp.1)).map (fun stamp => (stamp.1, createdAt))

section Update

variable {eventuallyConsistent : Bool} {order : ScanOrder} {accounts : AccountTable}
  {table : EffectiveTable} {journalId : JournalId} {targets : EntryValues → List AccountId}
  {entries : List EntryValues} {effective : NaiveDate} {createdAt : Timestamp}
  {timelines : BalanceKey → List DatedEntry}

theorem filter_map_stamp (rows : List EffectiveBalanceSnapshot) (p : NaiveDate → Bool) :
    (rows.map EffectiveBalanceSnapshot.stamp).filter (fun stamp => p stamp.1)
      = (rows.filter (fun row => p row.effective)).map EffectiveBalanceSnapshot.stamp := by
  rw [List.filter_map]
  rfl

/-- **The stamps of a balance after an update.** -/
theorem updatedRows_stamp (htable : TableReplays table timelines) {key : BalanceKey}
    (hids : Identified ((timelines key).map Prod.snd
      ++ pushedOn eventuallyConsistent accounts journalId targets entries key)) :
    (updatedRows eventuallyConsistent order accounts table journalId targets entries effective
        createdAt key).map EffectiveBalanceSnapshot.stamp
      = restamp effective createdAt
          (pushedOn eventuallyConsistent accounts journalId targets entries key).length
          ((table key).map EffectiveBalanceSnapshot.stamp) := by
  set pushed := pushedOn eventuallyConsistent accounts journalId targets entries key with hpushed
  rw [updatedRows, restamp]
  by_cases hkey : key.journalId = journalId
      ∧ Reaches eventuallyConsistent accounts targets entries (key.accountId, key.currency)
  · have hcount : pushed.length ≠ 0 := by
      rw [hpushed, pushedOn_of_reaches hkey.1 hkey.2]
      exact fun hnil => hkey.2.2 (List.length_eq_zero_iff.mp hnil)
    set rows := recomputedRows journalId createdAt (updateData order table journalId targets entries
      effective (key.accountId, key.currency)) with hrows
    have hreplay : rows.map EffectiveBalanceSnapshot.row = _ :=
      recomputedRows_replay htable key hkey.1 hkey.2 hids
    -- the recomputed rows are of the day of the update and of the later days, as often as before
    have hdays : rows.map EffectiveBalanceSnapshot.effective
        = List.replicate pushed.length effective
          ++ ((table key).filter (fun row => effective < row.effective)).map
              EffectiveBalanceSnapshot.effective := by
      rw [map_effective_of_replayFrom hreplay, List.map_append, List.map_map,
        map_effective_of_replayFrom (rows_after (htable.rows key) (htable.sorted key) effective)]
      refine congrArg (· ++ _) ?_
      rw [show (Prod.fst ∘ fun entry : EntryValues => (effective, entry))
          = fun _ => effective from rfl, List.map_const', (Foundations.sortBy_perm _ _).length_eq]
    have hstamps : rows.map EffectiveBalanceSnapshot.stamp
        = (rows.map EffectiveBalanceSnapshot.effective).map (fun day => (day, createdAt)) := by
      rw [List.map_map]
      refine List.map_congr_left (fun row hrow => ?_)
      exact congrArg (Prod.mk row.effective) (recomputedRows_modifiedAt row hrow)
    rw [if_pos hkey, if_neg hcount, List.map_append, hstamps, hdays, List.map_append,
      List.map_replicate, ← List.append_assoc, filter_map_stamp _ (fun day => day ≤ effective),
      filter_map_stamp _ (fun day => effective < day), List.map_map, List.map_map]
    rfl
  · rw [if_neg hkey, if_pos (by rw [hpushed, pushedOn_of_not_reaches hkey, List.length_nil])]

end Update

namespace EffectiveCall

/-- What a call makes of the stamps of a balance. -/
def restamped (call : EffectiveCall) (key : BalanceKey) (stamps : List (NaiveDate × Timestamp)) :
    List (NaiveDate × Timestamp) :=
  restamp call.update.effective call.update.createdAt (call.pushed key).length stamps

theorem run_stamp {order : ScanOrder} {table table' : EffectiveTable}
    {timelines : BalanceKey → List DatedEntry} (htable : TableReplays table timelines)
    {call : EffectiveCall}
    (hids : ∀ key, Identified ((timelines key).map Prod.snd ++ call.pushed key))
    (h : call.run order table = some table') (key : BalanceKey) :
    (table' key).map EffectiveBalanceSnapshot.stamp
      = call.restamped key ((table key).map EffectiveBalanceSnapshot.stamp) := by
  rw [run_eq order htable call hids] at h
  rw [← Option.some.inj h]
  exact updatedRows_stamp htable (hids key)

end EffectiveCall

/-- The stamps of a balance after a sequence of updates of an empty table. -/
def stampsAfter (calls : List EffectiveCall) (key : BalanceKey) : List (NaiveDate × Timestamp) :=
  calls.foldl (fun stamps call => call.restamped key stamps) []

theorem stampsAfter_append (front back : List EffectiveCall) (key : BalanceKey) :
    stampsAfter (front ++ back) key
      = back.foldl (fun stamps call => call.restamped key stamps) (stampsAfter front key) :=
  List.foldl_append

theorem stampsAfter_concat (front : List EffectiveCall) (call : EffectiveCall) (key : BalanceKey) :
    stampsAfter (front ++ [call]) key = call.restamped key (stampsAfter front key) :=
  stampsAfter_append front [call] key

/-- **The stamps of a table follow its updates.** -/
theorem runEffectiveCalls_stamp (order : ScanOrder) (calls : List EffectiveCall) :
    ∀ {table table' : EffectiveTable} {timelines : BalanceKey → List DatedEntry},
      TableReplays table timelines →
      (∀ key, Identified ((timelines key).map Prod.snd
        ++ calls.flatMap (fun call => call.pushed key))) →
      runEffectiveCalls order calls table = some table' →
      ∀ key, (table' key).map EffectiveBalanceSnapshot.stamp
        = calls.foldl (fun stamps call => call.restamped key stamps)
            ((table key).map EffectiveBalanceSnapshot.stamp) :=
  runEffectiveCalls_reading order (List.map EffectiveBalanceSnapshot.stamp)
    (fun call key stamps => call.restamped key stamps)
    (fun htable _ hids h key => EffectiveCall.run_stamp htable hids h key) calls

end CalaLedger
