import CalaLedger.Balance.Replay
import Mathlib.Data.Prod.Lex
import Mathlib.Tactic.Ring

/-! # `EffectiveBalanceData`

The in-memory part of a cumulative-effective update of one balance: the anchor row at or before the
posting's day, the deleted rows of later days and the entries to add. `reCalculateSnapshots` sorts
rows and entries together and walks them once, chaining the entries onto the anchor and shifting
the later rows by a running difference. `none` stands for a panic of the source: the `unreachable!`
of the comparison, the `unimplemented!` of the accessors and the `expect` of the walk.

`reCalculateSnapshots_rows` says that no panic is reached and that the result is the replay of the
timeline with the entries inserted, and which additions its totals come from. -/

namespace CalaLedger

/-- One element of the walk: a row read back from the table, or an entry to add. -/
inductive SnapshotOrEntry
  | snapshot (effective : NaiveDate) (values : BalanceSnapshot)
  | entry (effective : NaiveDate) (entry : EntryValues)

namespace SnapshotOrEntry

def effective : SnapshotOrEntry → NaiveDate
  | snapshot effective _ => effective
  | entry effective _ => effective

/-- `SnapshotOrEntry::snapshot`; the other variant is `unimplemented!`. -/
def asSnapshot : SnapshotOrEntry → Option (BalanceSnapshot × NaiveDate)
  | snapshot effective values => some (values, effective)
  | entry _ _ => none

/-- `SnapshotOrEntry::entry`; the other variant is `unimplemented!`. -/
def asEntry : SnapshotOrEntry → Option (EntryValues × NaiveDate)
  | snapshot _ _ => none
  | entry effective values => some (values, effective)

/-- `Ord::cmp`: by day, then by version or sequence; a row and an entry of the same day are
`unreachable!`. -/
def cmp (a b : SnapshotOrEntry) : Option Ordering :=
  match compare a.effective b.effective with
  | .eq =>
      match a, b with
      | entry _ _, snapshot _ _ => none
      | snapshot _ _, entry _ _ => none
      | snapshot _ v1, snapshot _ v2 => some (compare v1.version v2.version)
      | entry _ e1, entry _ e2 => some (compare e1.sequence e2.sequence)
  | ordering => some ordering

/-- The number compared within a day. -/
def rank : SnapshotOrEntry → ℕ
  | snapshot _ values => values.version
  | entry _ values => values.sequence

/-- Day first, then rank. -/
def sortKey (update : SnapshotOrEntry) : NaiveDate ×ₗ ℕ := toLex (update.effective, update.rank)

/-- A row and an entry of one day are the pair the comparison does not expect. -/
def Comparable : SnapshotOrEntry → SnapshotOrEntry → Prop
  | entry d _, snapshot d' _ => d ≠ d'
  | snapshot d _, entry d' _ => d ≠ d'
  | _, _ => True

/-- On comparable elements the comparison is that of the sort keys. -/
theorem Comparable.cmp_eq {a b : SnapshotOrEntry} (h : a.Comparable b) :
    (a.cmp b).isSome ∧ (a.cmp b ≠ some .gt ↔ a.sortKey ≤ b.sortKey) := by
  unfold cmp
  rw [sortKey, sortKey, Prod.Lex.toLex_le_toLex]
  cases hday : compare a.effective b.effective with
  | lt =>
      have hlt := compare_lt_iff_lt.mp hday
      simp [hlt]
  | gt =>
      have hgt := compare_gt_iff_gt.mp hday
      simp [hgt.le, hgt.ne']
  | eq =>
      have heq := compare_eq_iff_eq.mp hday
      cases a with
      | snapshot d v =>
          cases b with
          | snapshot d' v' =>
              have hle : compare v.version v'.version ≠ .gt ↔ v.version ≤ v'.version :=
                compare_le_iff_le
              simpa [heq, rank] using hle
          | entry d' e' => exact absurd heq h
      | entry d e =>
          cases b with
          | snapshot d' v' => exact absurd heq h
          | entry d' e' =>
              have hle : compare e.sequence e'.sequence ≠ .gt ↔ e.sequence ≤ e'.sequence :=
                compare_le_iff_le
              simpa [heq, rank] using hle

end SnapshotOrEntry

/-- `Vec::sort` is stable and may compare any two elements, so it needs every pair to be
comparable. -/
def sortUpdates (updates : List SnapshotOrEntry) : Option (List SnapshotOrEntry) :=
  if updates.Pairwise (fun a b => (a.cmp b).isSome ∧ (b.cmp a).isSome) then
    some (updates.insertionSort (fun a b => a.cmp b ≠ some .gt))
  else
    none

/-- Where every pair is comparable, the sort is the stable sort by day and rank. -/
theorem sortUpdates_eq {updates : List SnapshotOrEntry}
    (h : ∀ a ∈ updates, ∀ b ∈ updates, a.Comparable b) :
    sortUpdates updates = some (Foundations.sortBy SnapshotOrEntry.sortKey updates) := by
  have hpairs : updates.Pairwise (fun a b => (a.cmp b).isSome ∧ (b.cmp a).isSome) :=
    List.pairwise_of_forall_mem_list
      (fun a ha b hb => ⟨(h a ha b hb).cmp_eq.1, (h b hb a ha).cmp_eq.1⟩)
  rw [sortUpdates, if_pos hpairs, Foundations.sortBy]
  have hmap := List.map_insertionSort (r := fun a b : SnapshotOrEntry => a.cmp b ≠ some .gt)
    (fun a b : SnapshotOrEntry => a.sortKey ≤ b.sortKey) id updates
    (fun a ha b hb => (h a ha b hb).cmp_eq.2)
  simpa using hmap

/-- `EffectiveBalanceData`. -/
structure EffectiveBalanceData where
  accountId : AccountId
  currency : Currency
  lastSnapshot : Option (NaiveDate × BalanceSnapshot)
  latestAllTimeVersion : ℕ
  updates : List SnapshotOrEntry

/-- Replace the totals of every layer. -/
def BalanceSnapshot.mapLayers (snapshot : BalanceSnapshot)
    (f : Layer → BalanceAmount → BalanceAmount) : BalanceSnapshot :=
  { snapshot with
    settled := f .settled snapshot.settled
    pending := f .pending snapshot.pending
    encumbrance := f .encumbrance snapshot.encumbrance }

@[simp] theorem BalanceSnapshot.mapLayers_layer (snapshot : BalanceSnapshot)
    (f : Layer → BalanceAmount → BalanceAmount) (layer : Layer) :
    (snapshot.mapLayers f).layer layer = f layer (snapshot.layer layer) := by
  cases layer <;> rfl

/-- Shift one layer of a later row by the running difference. -/
def BalanceAmount.addDiff (createdAt : Timestamp) (amount diff : BalanceAmount) : BalanceAmount :=
  if diff.crBalance ≠ 0 ∨ diff.drBalance ≠ 0 then
    { amount with
      crBalance := amount.crBalance + diff.crBalance
      drBalance := amount.drBalance + diff.drBalance
      modifiedAt := createdAt }
  else
    amount

@[simp] theorem BalanceAmount.addDiff_side (createdAt : Timestamp) (amount diff : BalanceAmount)
    (direction : DebitOrCredit) :
    (amount.addDiff createdAt diff).side direction
      = amount.side direction + diff.side direction := by
  unfold BalanceAmount.addDiff
  split
  · cases direction <;> rfl
  · rename_i hzero
    push Not at hzero
    cases direction <;> simp [BalanceAmount.side, hzero.1, hzero.2]

@[simp] theorem BalanceAmount.addDiff_entryId (createdAt : Timestamp)
    (amount diff : BalanceAmount) : (amount.addDiff createdAt diff).entryId = amount.entryId := by
  unfold BalanceAmount.addDiff
  split <;> rfl

/-- When the row's own entry is on `layer`: the difference learns it there, and the row takes the
latest entries of the other layers from the difference. -/
def relayEntryIds (layer : Layer) (rowAndDiff : BalanceSnapshot × BalanceSnapshot) :
    BalanceSnapshot × BalanceSnapshot :=
  let (values, diff) := rowAndDiff
  if values.entryId = (values.layer layer).entryId then
    (values.mapLayers (fun l amount =>
        if l = layer then amount else { amount with entryId := (diff.layer l).entryId }),
      diff.mapLayers (fun l amount =>
        if l = layer then { amount with entryId := values.entryId } else amount))
  else
    (values, diff)

namespace EffectiveBalanceData

/-- The variables of the walk. -/
structure RecalcState where
  lastBalance : BalanceSnapshot
  lastEffective : NaiveDate
  diffSnapshot : Option BalanceSnapshot

/-- The balance to continue from: its version restarts when the day changes. -/
def RecalcState.balanceFor (state : RecalcState) (day : NaiveDate) : BalanceSnapshot :=
  if state.lastEffective ≠ day then { state.lastBalance with version := 0 }
  else state.lastBalance

/-- The running difference after one more entry; the first one starts from zero totals and the
entry ids of the balance just written. -/
def nextDiff (createdAt : Timestamp) (accountId : AccountId) (lastBalance : BalanceSnapshot)
    (diffSnapshot : Option BalanceSnapshot) (entry : EntryValues) : BalanceSnapshot :=
  match diffSnapshot with
  | some diff => updateSnapshot createdAt diff entry
  | none =>
      let initial : BalanceSnapshot :=
        { firstSnapshot createdAt accountId entry with entryId := lastBalance.entryId }
      let initial := initial.mapLayers (fun layer amount =>
        { amount with entryId := (lastBalance.layer layer).entryId })
      updateSnapshot createdAt initial entry

/-- A later row and the running difference, after the row is shifted. -/
def shiftRow (createdAt : Timestamp) (values diff : BalanceSnapshot) :
    BalanceSnapshot × BalanceSnapshot :=
  let values : BalanceSnapshot := { values with modifiedAt := createdAt }
  let values := values.mapLayers (fun layer amount => amount.addDiff createdAt (diff.layer layer))
  relayEntryIds .settled (relayEntryIds .pending (relayEntryIds .encumbrance (values, diff)))

/-- One element of the walk. -/
def recalcStep (createdAt : Timestamp) (accountId : AccountId) (state : RecalcState)
    (update : SnapshotOrEntry) : Option (RecalcState × SnapshotOrEntry) :=
  let lastBalance := state.balanceFor update.effective
  match update with
  | .entry effective entry =>
      let lastBalance := updateSnapshot createdAt lastBalance entry
      let diff := nextDiff createdAt accountId lastBalance state.diffSnapshot entry
      some (⟨lastBalance, effective, some diff⟩, .snapshot effective lastBalance)
  | .snapshot effective values =>
      match state.diffSnapshot with
      | none => none -- `expect("diff must be initialized")`
      | some diff =>
          let (values, diff) := shiftRow createdAt values diff
          some (⟨lastBalance, effective, some diff⟩, .snapshot effective values)

/-- The walk over the sorted updates. -/
def recalcLoop (createdAt : Timestamp) (accountId : AccountId) :
    RecalcState → List SnapshotOrEntry → Option (RecalcState × List SnapshotOrEntry)
  | state, [] => some (state, [])
  | state, update :: updates => do
      let (state, update) ← recalcStep createdAt accountId state update
      let (state, updates) ← recalcLoop createdAt accountId state updates
      some (state, update :: updates)

/-- Where the walk starts: at the anchor, else at an empty balance of the first entry's day. -/
def startBalance (createdAt : Timestamp) (data : EffectiveBalanceData)
    (updates : List SnapshotOrEntry) : Option (BalanceSnapshot × NaiveDate) :=
  match data.lastSnapshot with
  | some (snapshotDate, snapshot) => some (snapshot, snapshotDate)
  | none => do
      let first ← updates.head?
      let (entry, effective) ← first.asEntry
      some (firstSnapshot createdAt data.accountId entry, effective)

/-- `EffectiveBalanceData::re_calculate_snapshots`. -/
def reCalculateSnapshots (createdAt : Timestamp) (data : EffectiveBalanceData) :
    Option EffectiveBalanceData :=
  if data.updates = [] then
    some data
  else do
    let updates ← sortUpdates data.updates
    let (lastBalance, lastEffective) ← startBalance createdAt data updates
    let (_, updates) ← recalcLoop createdAt data.accountId ⟨lastBalance, lastEffective, none⟩ updates
    some { data with lastSnapshot := none, updates := updates }

/-- `EffectiveBalanceData::push`. -/
def push (data : EffectiveBalanceData) (effective : NaiveDate) (entry : EntryValues) :
    EffectiveBalanceData :=
  { data with updates := data.updates ++ [.entry effective entry] }

/-- The row stored for the element at index `idx`. -/
def toRow (journalId : JournalId) (data : EffectiveBalanceData) (idx : ℕ)
    (snapshot : BalanceSnapshot) (effective : NaiveDate) : EffectiveBalanceSnapshot :=
  { journalId := journalId
    accountId := data.accountId
    currency := data.currency
    effective := effective
    version := snapshot.version
    allTimeVersion := idx + 1 + data.latestAllTimeVersion
    createdAt := snapshot.createdAt
    modifiedAt := snapshot.modifiedAt
    entryId := snapshot.entryId
    settled := snapshot.settled
    pending := snapshot.pending
    encumbrance := snapshot.encumbrance }

/-- The rows of `EffectiveBalanceData::into_snapshots` from index `idx` on. -/
def intoSnapshotsFrom (journalId : JournalId) (data : EffectiveBalanceData) :
    ℕ → List SnapshotOrEntry → Option (List EffectiveBalanceSnapshot)
  | _, [] => some []
  | idx, update :: updates => do
      let (snapshot, effective) ← update.asSnapshot
      let rows ← intoSnapshotsFrom journalId data (idx + 1) updates
      some (data.toRow journalId idx snapshot effective :: rows)

/-- `EffectiveBalanceData::into_snapshots`. -/
def intoSnapshots (journalId : JournalId) (data : EffectiveBalanceData) :
    Option (List EffectiveBalanceSnapshot) :=
  intoSnapshotsFrom journalId data 0 data.updates

end EffectiveBalanceData

/-! ## Re-deriving the layer entry ids -/

/-- The row's own entry is on exactly one layer, and the difference does not know it yet. -/
structure OwnLayer (layer : Layer) (values diff : BalanceSnapshot) : Prop where
  own : values.entryId = (values.layer layer).entryId
  other : ∀ l, l ≠ layer → values.entryId ≠ (values.layer l).entryId
  fresh : ∀ l, l ≠ layer → values.entryId ≠ (diff.layer l).entryId

section Relay

variable {layer : Layer} {values diff : BalanceSnapshot}

/-- The check of a layer the row's entry is not on changes nothing. -/
theorem OwnLayer.relay_ne (h : OwnLayer layer values diff) {l : Layer} (hl : l ≠ layer) :
    relayEntryIds l (values, diff) = (values, diff) := by
  rw [relayEntryIds]
  exact if_neg (h.other l hl)

theorem OwnLayer.relay_self (h : OwnLayer layer values diff) :
    relayEntryIds layer (values, diff)
      = (values.mapLayers (fun l amount =>
          if l = layer then amount else { amount with entryId := (diff.layer l).entryId }),
        diff.mapLayers (fun l amount =>
          if l = layer then { amount with entryId := values.entryId } else amount)) := by
  rw [relayEntryIds]
  exact if_pos h.own

/-- After the exchange the row's entry is still on that layer only. -/
theorem OwnLayer.exchange (h : OwnLayer layer values diff) :
    OwnLayer layer
      (values.mapLayers (fun l amount =>
        if l = layer then amount else { amount with entryId := (diff.layer l).entryId }))
      (diff.mapLayers (fun l amount =>
        if l = layer then { amount with entryId := values.entryId } else amount)) := by
  constructor
  · rw [BalanceSnapshot.mapLayers_layer, if_pos rfl]
    exact h.own
  · intro l hl
    rw [BalanceSnapshot.mapLayers_layer, if_neg hl]
    exact h.fresh l hl
  · intro l hl
    rw [BalanceSnapshot.mapLayers_layer, if_neg hl]
    exact h.fresh l hl

/-- **The three checks in a row act as the one of the entry's own layer.** -/
theorem OwnLayer.relay_all (h : OwnLayer layer values diff) :
    relayEntryIds .settled (relayEntryIds .pending (relayEntryIds .encumbrance (values, diff)))
      = (values.mapLayers (fun l amount =>
          if l = layer then amount else { amount with entryId := (diff.layer l).entryId }),
        diff.mapLayers (fun l amount =>
          if l = layer then { amount with entryId := values.entryId } else amount)) := by
  cases layer with
  | settled =>
      rw [h.relay_ne (l := .encumbrance) (by decide), h.relay_ne (l := .pending) (by decide),
        h.relay_self]
  | pending =>
      rw [h.relay_ne (l := .encumbrance) (by decide), h.relay_self,
        h.exchange.relay_ne (l := .settled) (by decide)]
  | encumbrance =>
      rw [h.relay_self, h.exchange.relay_ne (l := .pending) (by decide),
        h.exchange.relay_ne (l := .settled) (by decide)]

end Relay

/-! ## The walk replays the timeline -/

/-- A snapshot carries the row of one entry after the entries before it. -/
structure BalanceSnapshot.IsRow (snapshot : BalanceSnapshot) (before : List DatedEntry)
    (dated : DatedEntry) : Prop where
  version : snapshot.version = (before ++ [dated]).countP (fun d => d.1 = dated.1)
  entryId : snapshot.entryId = dated.2.id
  holds : snapshot.Holds ((before ++ [dated]).map Prod.snd)

/-- The elements left by the walk carry the rows of a stretch of the timeline. -/
inductive RowsOf : List DatedEntry → List DatedEntry → List SnapshotOrEntry → Prop
  | nil (before : List DatedEntry) : RowsOf before [] []
  | cons {before : List DatedEntry} {dated : DatedEntry} {rest : List DatedEntry}
      {values : BalanceSnapshot} {updates : List SnapshotOrEntry}
      (row : values.IsRow before dated) (rows : RowsOf (before ++ [dated]) rest updates) :
      RowsOf before (dated :: rest) (.snapshot dated.1 values :: updates)

theorem RowsOf.append {before front back : List DatedEntry} {us vs : List SnapshotOrEntry}
    (hfront : RowsOf before front us) (hback : RowsOf (before ++ front) back vs) :
    RowsOf before (front ++ back) (us ++ vs) := by
  induction hfront with
  | nil before => simpa using hback
  | cons row _ ih =>
      refine RowsOf.cons row (ih ?_)
      rwa [List.append_assoc]

/-- The running difference names, for each layer, the latest entry of everything posted so far. -/
structure IsDiff (diff : BalanceSnapshot) (posted : List EntryValues) : Prop where
  entryId : ∀ layer, (diff.layer layer).entryId = latestOn posted layer

namespace EffectiveBalanceData

section Walk

variable (createdAt : Timestamp) (accountId : AccountId)

theorem recalcLoop_append (state : RecalcState) (front back : List SnapshotOrEntry) :
    recalcLoop createdAt accountId state (front ++ back)
      = (recalcLoop createdAt accountId state front).bind (fun (state, us) =>
          (recalcLoop createdAt accountId state back).map (fun (state, vs) =>
            (state, us ++ vs))) := by
  induction front generalizing state with
  | nil =>
      simp only [List.nil_append, recalcLoop, Option.bind_some]
      cases recalcLoop createdAt accountId state back <;> rfl
  | cons update front ih =>
      simp only [List.cons_append, recalcLoop]
      cases hstep : recalcStep createdAt accountId state update with
      | none => rfl
      | some next =>
          simp only [Option.bind_eq_bind, Option.bind_some, ih]
          cases recalcLoop createdAt accountId next.1 front with
          | none => rfl
          | some rest =>
              simp only [Option.bind_some]
              cases recalcLoop createdAt accountId rest.1 back <;> rfl

/-- What the walk knows while it adds the entries of one day: the balance up to `before`, the
version to continue from and, once an entry was `added`, the difference. -/
structure Adding (state : RecalcState) (before : List DatedEntry) (day : NaiveDate)
    (added : List EntryValues) : Prop where
  holds : state.lastBalance.Holds (before.map Prod.snd)
  version : (state.balanceFor day).version = before.countP (fun d => d.1 = day)
  diff : match state.diffSnapshot with
    | none => added = []
    | some diff => IsDiff diff (before.map Prod.snd)

/-- The version reset at a new day does not touch the entry ids. -/
theorem balanceFor_holds {state : RecalcState} {entries : List EntryValues} (day : NaiveDate)
    (h : state.lastBalance.Holds entries) : (state.balanceFor day).Holds entries := by
  rw [RecalcState.balanceFor]
  split
  · exact h.withVersion 0
  · exact h

/-- The first difference has the latest entries of the balance. -/
theorem nextDiff_none {lastBalance : BalanceSnapshot} {entries : List EntryValues}
    {entry : EntryValues} (h : lastBalance.Holds (entries ++ [entry])) :
    IsDiff (nextDiff createdAt accountId lastBalance none entry) (entries ++ [entry]) := by
  rw [nextDiff]
  constructor
  intro layer
  rw [updateSnapshot_layer_entryId, BalanceSnapshot.mapLayers_layer]
  dsimp only
  rw [h.entryId]
  refine ite_eq_right_iff.mpr (fun hlayer => ?_)
  rw [latestOn_concat, if_pos hlayer]

theorem nextDiff_some {lastBalance diff : BalanceSnapshot} {posted : List EntryValues}
    (h : IsDiff diff posted) (entry : EntryValues) :
    IsDiff (nextDiff createdAt accountId lastBalance (some diff) entry) (posted ++ [entry]) := by
  rw [nextDiff]
  constructor
  intro layer
  rw [updateSnapshot_layer_entryId, h.entryId, latestOn_concat]

/-- **One entry of the walk**: it leaves the row of the entry and stays in the same shape. -/
theorem Adding.step {state : RecalcState} {before : List DatedEntry} {day : NaiveDate}
    {added : List EntryValues} (h : Adding state before day added) (entry : EntryValues) :
    ∃ state' values, recalcStep createdAt accountId state (.entry day entry)
        = some (state', .snapshot day values)
      ∧ values.IsRow before (day, entry)
      ∧ Adding state' (before ++ [(day, entry)]) day (added ++ [entry]) := by
  have hholds := (balanceFor_holds day h.holds).update createdAt entry
  have hversion : (updateSnapshot createdAt (state.balanceFor day) entry).version
      = (before ++ [(day, entry)]).countP (fun d => d.1 = day) := by
    rw [updateSnapshot_version, h.version, List.countP_append]
    simp
  have hmap : (before ++ [(day, entry)]).map Prod.snd = before.map Prod.snd ++ [entry] := by
    simp
  refine ⟨_, _, rfl, ⟨hversion, updateSnapshot_entryId _ _ _, ?_⟩, ⟨?_, ?_, ?_⟩⟩
  · rw [hmap]
    exact hholds
  · rw [hmap]
    exact hholds
  · rw [RecalcState.balanceFor]
    simp only [ne_eq, not_true_eq_false, if_false]
    exact hversion
  · dsimp only
    rw [hmap]
    have hdiff := h.diff
    cases hd : state.diffSnapshot with
    | some diff =>
        rw [hd] at hdiff
        exact nextDiff_some createdAt accountId hdiff entry
    | none =>
        rw [hd] at hdiff
        dsimp only at hdiff
        subst hdiff
        exact nextDiff_none createdAt accountId hholds

/-- **All entries of the day.** -/
theorem Adding.loop {day : NaiveDate} (entries : List EntryValues) :
    ∀ {state : RecalcState} {before : List DatedEntry} {added : List EntryValues},
      Adding state before day added →
      ∃ state' updates, recalcLoop createdAt accountId state (entries.map (.entry day))
          = some (state', updates)
        ∧ RowsOf before (entries.map (fun entry => (day, entry))) updates
        ∧ Adding state' (before ++ entries.map (fun entry => (day, entry))) day
            (added ++ entries) := by
  induction entries with
  | nil =>
      intro state before added h
      exact ⟨state, [], rfl, RowsOf.nil before, by simpa using h⟩
  | cons entry entries ih =>
      intro state before added h
      obtain ⟨next, values, hstep, hrow, hnext⟩ := h.step createdAt accountId entry
      obtain ⟨state', updates, hloop, hrows, hstate'⟩ := ih hnext
      refine ⟨state', .snapshot day values :: updates, ?_, RowsOf.cons hrow hrows, ?_⟩
      · rw [List.map_cons, recalcLoop, hstep]
        simp only [Option.bind_eq_bind, Option.bind_some]
        rw [hloop]
        rfl
      · simpa using hstate'

variable {createdAt accountId}

section Shift

variable {front : List DatedEntry} {block : List EntryValues} {day : NaiveDate}

/-- **One later row of the walk**: the layers its entry is not on take their latest entries from the
difference, and its versions stay. -/
theorem shiftRow_isRow (createdAt : Timestamp) {done : List DatedEntry} {dated : DatedEntry}
    {values diff : BalanceSnapshot}
    (hids : Identified
      ((front ++ block.map (fun entry => (day, entry)) ++ done ++ [dated]).map Prod.snd))
    (hday : dated.1 ≠ day) (hrow : values.IsRow (front ++ done) dated)
    (hdiff : IsDiff diff
      ((front ++ block.map (fun entry => (day, entry)) ++ done).map Prod.snd)) :
    (shiftRow createdAt values diff).1.IsRow
        (front ++ block.map (fun entry => (day, entry)) ++ done) dated
      ∧ IsDiff (shiftRow createdAt values diff).2
        ((front ++ block.map (fun entry => (day, entry)) ++ done ++ [dated]).map Prod.snd) := by
  set old := (front ++ done).map Prod.snd with hold
  set new := (front ++ block.map (fun entry => (day, entry)) ++ done).map Prod.snd with hnew
  have hmapOld : (front ++ done ++ [dated]).map Prod.snd = old ++ [dated.2] := by simp [hold]
  have hmapNew : (front ++ block.map (fun entry => (day, entry)) ++ done ++ [dated]).map Prod.snd
      = new ++ [dated.2] := by
    rw [List.map_append]
    rfl
  rw [hmapNew] at hids ⊢
  have hmem : dated.2 ∈ new ++ [dated.2] := by simp
  have hvaluesId : ∀ layer, (values.layer layer).entryId
      = if dated.2.layer = layer then dated.2.id else latestOn old layer := by
    intro layer
    rw [hrow.holds.entryId, hmapOld, latestOn_concat]
  have hsubOld : old ⊆ new ++ [dated.2] := by
    intro e he
    simp only [hold, hnew, List.map_append, List.mem_append] at he ⊢
    tauto
  -- the row's own entry is on its layer only, and the difference has not seen it
  have hown : OwnLayer dated.2.layer
      (({ values with modifiedAt := createdAt } : BalanceSnapshot).mapLayers
        (fun layer amount => amount.addDiff createdAt (diff.layer layer))) diff := by
    have hlayer : ∀ layer, ({ values with modifiedAt := createdAt } : BalanceSnapshot).layer layer
        = values.layer layer := fun layer => by cases layer <;> rfl
    have hentry : (({ values with modifiedAt := createdAt } : BalanceSnapshot).mapLayers
        (fun layer amount => amount.addDiff createdAt (diff.layer layer))).entryId = dated.2.id :=
      hrow.entryId
    constructor
    · rw [hentry, BalanceSnapshot.mapLayers_layer, BalanceAmount.addDiff_entryId, hlayer,
        hvaluesId, if_pos rfl]
    · intro layer hne
      rw [hentry, BalanceSnapshot.mapLayers_layer, BalanceAmount.addDiff_entryId, hlayer,
        hvaluesId, if_neg (Ne.symm hne)]
      exact hids.ne_latestOn hmem hsubOld hne
    · intro layer hne
      rw [hentry, hdiff.entryId]
      exact hids.ne_latestOn hmem (List.subset_append_left _ _) hne
  have hshift : shiftRow createdAt values diff = _ := hown.relay_all
  have hlayerValues : ∀ layer, (values.layer layer)
      = ({ values with modifiedAt := createdAt } : BalanceSnapshot).layer layer :=
    fun layer => by cases layer <;> rfl
  refine ⟨⟨?_, ?_, ⟨?_⟩⟩, ⟨?_⟩⟩
  · -- rows of other days do not count the added entries
    have hcount : (block.map (fun entry => (day, entry))).countP (fun d => d.1 = dated.1) = 0 := by
      rw [List.countP_eq_zero]
      intro d hd
      obtain ⟨entry, -, rfl⟩ := List.mem_map.mp hd
      simpa using Ne.symm hday
    rw [hshift]
    refine hrow.version.trans ?_
    simp only [List.countP_append, hcount]
    omega
  · rw [hshift]
    exact hrow.entryId
  · intro layer
    rw [hshift, hmapNew, latestOn_concat]
    dsimp only
    rw [BalanceSnapshot.mapLayers_layer, BalanceSnapshot.mapLayers_layer, ← hlayerValues]
    by_cases hl : layer = dated.2.layer
    · rw [if_pos hl, if_pos hl.symm, BalanceAmount.addDiff_entryId, hvaluesId, if_pos hl.symm]
    · rw [if_neg hl, if_neg (Ne.symm hl)]
      exact hdiff.entryId layer
  · intro layer
    rw [hshift, latestOn_concat]
    dsimp only
    rw [BalanceSnapshot.mapLayers_layer]
    by_cases hl : layer = dated.2.layer
    · rw [if_pos hl, if_pos hl.symm]
      exact hrow.entryId
    · rw [if_neg hl, if_neg (Ne.symm hl)]
      exact hdiff.entryId layer

/-- **All later rows.** -/
theorem recalcLoop_rows {back : List DatedEntry} :
    ∀ (done : List DatedEntry) {updates : List SnapshotOrEntry} {state : RecalcState}
      {diff : BalanceSnapshot},
      Identified ((front ++ block.map (fun entry => (day, entry)) ++ done ++ back).map Prod.snd) →
      (∀ dated ∈ back, dated.1 ≠ day) → RowsOf (front ++ done) back updates →
      state.diffSnapshot = some diff →
      IsDiff diff
        ((front ++ block.map (fun entry => (day, entry)) ++ done).map Prod.snd) →
      ∃ state' updates', recalcLoop createdAt accountId state updates = some (state', updates')
        ∧ RowsOf (front ++ block.map (fun entry => (day, entry)) ++ done) back updates' := by
  induction back with
  | nil =>
      intro done updates state diff _ _ hrows _ _
      cases hrows
      exact ⟨state, [], rfl, RowsOf.nil _⟩
  | cons dated back ih =>
      intro done updates state diff hids hdays hrows hstate hdiff
      cases hrows with
      | @cons _ _ _ values updates hrow hrest =>
          have hids' : Identified ((front ++ block.map (fun entry => (day, entry)) ++ done
              ++ [dated]).map Prod.snd) := by
            rw [List.append_cons, List.map_append] at hids
            exact hids.subset (List.subset_append_left _ _)
          obtain ⟨hrow', hdiff'⟩ := shiftRow_isRow createdAt hids'
            (hdays dated List.mem_cons_self) hrow hdiff
          have hnext : (RecalcState.mk (state.balanceFor dated.1) dated.1
              (some (shiftRow createdAt values diff).2)).diffSnapshot
                = some (shiftRow createdAt values diff).2 := rfl
          obtain ⟨state', updates', hloop, hrows'⟩ := ih (done ++ [dated])
            (by simpa using hids) (fun d hd => hdays d (List.mem_cons_of_mem _ hd))
            (by simpa using hrest) hnext (by simpa using hdiff')
          refine ⟨state', .snapshot dated.1 (shiftRow createdAt values diff).1 :: updates', ?_,
            RowsOf.cons hrow' (by simpa using hrows')⟩
          rw [recalcLoop, recalcStep]
          simp only [hstate, SnapshotOrEntry.effective, Option.bind_eq_bind, Option.bind_some]
          rw [hloop]
          rfl

end Shift

end Walk

end EffectiveBalanceData

/-! ## The totals of the walk -/

/-- One total of an element of the walk, with its day; an entry counts with its amount. -/
def SnapshotOrEntry.dayTotal (layer : Layer) (direction : DebitOrCredit) :
    SnapshotOrEntry → NaiveDate × Decimal
  | snapshot effective values => (effective, (values.layer layer).side direction)
  | entry effective values => (effective, values.unitsOn layer direction)

namespace EffectiveBalanceData

/-- One total of the running difference. -/
def RecalcState.diffTotal (state : RecalcState) (layer : Layer) (direction : DebitOrCredit) :
    Decimal :=
  (state.diffSnapshot.map (fun diff => (diff.layer layer).side direction)).getD 0

section Totals

variable {createdAt : Timestamp} {accountId : AccountId} (layer : Layer)
  (direction : DebitOrCredit)

theorem balanceFor_side (state : RecalcState) (day : NaiveDate) :
    ((state.balanceFor day).layer layer).side direction
      = (state.lastBalance.layer layer).side direction := by
  rw [RecalcState.balanceFor]
  split
  · cases layer <;> rfl
  · rfl

theorem nextDiff_side (lastBalance : BalanceSnapshot) (diffSnapshot : Option BalanceSnapshot)
    (entry : EntryValues) :
    ((nextDiff createdAt accountId lastBalance diffSnapshot entry).layer layer).side direction
      = (diffSnapshot.map (fun diff => (diff.layer layer).side direction)).getD 0
        + entry.unitsOn layer direction := by
  unfold nextDiff
  cases diffSnapshot with
  | some diff => exact updateSnapshot_side _ _ _ _ _
  | none =>
      refine (updateSnapshot_side _ _ _ _ _).trans ?_
      rw [BalanceSnapshot.mapLayers_layer]
      cases layer <;> cases direction <;> rfl

/-- Entry ids are exchanged, totals are not. -/
theorem relayEntryIds_side (own : Layer) (rowAndDiff : BalanceSnapshot × BalanceSnapshot) :
    ((relayEntryIds own rowAndDiff).1.layer layer).side direction
        = (rowAndDiff.1.layer layer).side direction
      ∧ ((relayEntryIds own rowAndDiff).2.layer layer).side direction
        = (rowAndDiff.2.layer layer).side direction := by
  obtain ⟨values, diff⟩ := rowAndDiff
  rw [relayEntryIds]
  dsimp only
  split
  · simp only [BalanceSnapshot.mapLayers_layer]
    constructor <;> split <;> cases direction <;> rfl
  · exact ⟨rfl, rfl⟩

/-- A later row grows by the difference, which keeps its totals. -/
theorem shiftRow_side (createdAt : Timestamp) (values diff : BalanceSnapshot) :
    ((shiftRow createdAt values diff).1.layer layer).side direction
        = (values.layer layer).side direction + (diff.layer layer).side direction
      ∧ ((shiftRow createdAt values diff).2.layer layer).side direction
        = (diff.layer layer).side direction := by
  rw [shiftRow]
  constructor
  · rw [(relayEntryIds_side layer direction .settled _).1,
      (relayEntryIds_side layer direction .pending _).1,
      (relayEntryIds_side layer direction .encumbrance _).1, BalanceSnapshot.mapLayers_layer,
      BalanceAmount.addDiff_side]
    cases layer <;> rfl
  · rw [(relayEntryIds_side layer direction .settled _).2,
      (relayEntryIds_side layer direction .pending _).2,
      (relayEntryIds_side layer direction .encumbrance _).2]

/-- **The entries of the day** are added to the balance one after the other, and to the
difference. -/
theorem recalcLoop_entries {day : NaiveDate} (entries : List EntryValues) :
    ∀ {state state' : RecalcState} {updates : List SnapshotOrEntry},
      recalcLoop createdAt accountId state (entries.map (.entry day)) = some (state', updates) →
      updates.map (SnapshotOrEntry.dayTotal layer direction)
          = (Foundations.runningTotals ((state.lastBalance.layer layer).side direction)
              (entries.map (·.unitsOn layer direction))).map (fun total => (day, total))
        ∧ state'.diffTotal layer direction
          = (entries.map (·.unitsOn layer direction)).foldl (· + ·)
              (state.diffTotal layer direction) := by
  induction entries with
  | nil =>
      rintro state state' updates ⟨⟩
      exact ⟨rfl, rfl⟩
  | cons entry entries ih =>
      intro state state' updates h
      rw [List.map_cons, recalcLoop, recalcStep] at h
      simp only [SnapshotOrEntry.effective, Option.bind_eq_bind, Option.bind_some] at h
      obtain ⟨⟨next, rest⟩, hloop, h⟩ := Option.bind_eq_some_iff.mp h
      cases h
      obtain ⟨htotals, hdiff⟩ := ih hloop
      have hside := updateSnapshot_side createdAt (state.balanceFor day) entry layer direction
      rw [balanceFor_side] at hside
      constructor
      · rw [List.map_cons, htotals, List.map_cons, Foundations.runningTotals, List.map_cons, ← hside]
        rfl
      · rw [hdiff, List.map_cons, List.foldl_cons]
        exact congrArg (List.foldl _ · _) (nextDiff_side layer direction _ _ _)

/-- **The later rows** all grow by the difference. -/
theorem recalcLoop_snapshots (rows : List SnapshotOrEntry) :
    ∀ {state state' : RecalcState} {updates : List SnapshotOrEntry},
      (∀ row ∈ rows, ∃ values, row = .snapshot row.effective values) →
      recalcLoop createdAt accountId state rows = some (state', updates) →
      updates.map (SnapshotOrEntry.dayTotal layer direction)
        = rows.map (fun row => (row.effective,
            (row.dayTotal layer direction).2 + state.diffTotal layer direction)) := by
  induction rows with
  | nil =>
      rintro state state' updates - ⟨⟩
      rfl
  | cons row rows ih =>
      intro state state' updates hrows h
      obtain ⟨values, hrow⟩ := hrows row List.mem_cons_self
      rw [recalcLoop] at h
      obtain ⟨⟨next, update⟩, hstep, h⟩ := Option.bind_eq_some_iff.mp h
      obtain ⟨⟨last, rest⟩, hloop, h⟩ := Option.bind_eq_some_iff.mp h
      cases h
      rw [hrow, recalcStep] at hstep
      dsimp only [SnapshotOrEntry.effective] at hstep
      cases hdiff : state.diffSnapshot with
      | none =>
          rw [hdiff] at hstep
          cases hstep
      | some diff =>
          rw [hdiff] at hstep
          cases hstep
          obtain ⟨hvalues, hkept⟩ := shiftRow_side layer direction createdAt values diff
          have htotals := ih (fun row hmem => hrows row (List.mem_cons_of_mem _ hmem)) hloop
          have hsame : state.diffTotal layer direction = (diff.layer layer).side direction := by
            rw [RecalcState.diffTotal, hdiff]
            rfl
          rw [List.map_cons, List.map_cons, htotals, hsame, RecalcState.diffTotal]
          dsimp only [Option.map_some, Option.getD_some]
          rw [hkept]
          refine congrArg (· :: _) (Prod.ext rfl ?_)
          rw [hrow]
          exact hvalues

end Totals

end EffectiveBalanceData

/-! ## The whole update of one balance -/

/-- A row of the walk ranks, on its day, above every row before it. -/
theorem rank_of_rowsOf {before timeline : List DatedEntry} {updates : List SnapshotOrEntry}
    (h : RowsOf before timeline updates) {update : SnapshotOrEntry} (hmem : update ∈ updates) :
    (∃ values, update = .snapshot update.effective values)
      ∧ (∃ dated ∈ timeline, update.effective = dated.1)
      ∧ before.countP (fun d => d.1 = update.effective) < update.rank := by
  induction h with
  | nil before => cases hmem
  | @cons before dated rest values updates row rows ih =>
      rcases List.mem_cons.mp hmem with rfl | hmem
      · refine ⟨⟨values, rfl⟩, ⟨dated, List.mem_cons_self, rfl⟩, ?_⟩
        change before.countP (fun d => d.1 = dated.1) < values.version
        rw [row.version, List.countP_append]
        simp
      · obtain ⟨hsnapshot, ⟨d, hd, hday⟩, hrank⟩ := ih hmem
        refine ⟨hsnapshot, ⟨d, List.mem_cons_of_mem _ hd, hday⟩, lt_of_le_of_lt ?_ hrank⟩
        rw [List.countP_append]
        exact Nat.le_add_right _ _

/-- The rows of a timeline in day order are in strictly increasing order. -/
theorem rowsOf_strict {before timeline : List DatedEntry} {updates : List SnapshotOrEntry}
    (h : RowsOf before timeline updates) (hsorted : Foundations.SortedBy Prod.fst timeline) :
    updates.Pairwise (fun a b => a.sortKey < b.sortKey) := by
  induction h with
  | nil before => exact List.Pairwise.nil
  | @cons before dated rest values updates row rows ih =>
      refine List.Pairwise.cons (fun update hmem => ?_) (ih hsorted.tail)
      obtain ⟨-, ⟨d, hd, hday⟩, hrank⟩ := rank_of_rowsOf rows hmem
      have hle : dated.1 ≤ update.effective := by
        rw [hday]
        exact hsorted.head_le (List.mem_cons_of_mem _ hd)
      rw [SnapshotOrEntry.sortKey, SnapshotOrEntry.sortKey, Prod.Lex.toLex_lt_toLex]
      rcases hle.lt_or_eq with hlt | heq
      · exact Or.inl hlt
      · refine Or.inr ⟨heq, ?_⟩
        change values.version < update.rank
        rw [row.version, heq]
        exact hrank

/-- **The sort of one update**: the entries of the day by sequence, then the later rows. -/
theorem sortUpdates_block {front back : List DatedEntry} {later sorted : List SnapshotOrEntry}
    {day : NaiveDate} (hrows : RowsOf front back sorted) (hperm : later.Perm sorted)
    (hsorted : Foundations.SortedBy Prod.fst back) (hback : ∀ dated ∈ back, day < dated.1)
    (block : List EntryValues) :
    sortUpdates (later ++ block.map (.entry day))
      = some ((Foundations.sortBy EntryValues.sequence block).map (.entry day) ++ sorted) := by
  have hlater : ∀ update ∈ later, (∃ values, update = .snapshot update.effective values)
      ∧ day < update.effective := by
    intro update hmem
    obtain ⟨hsnapshot, ⟨d, hd, hday⟩, -⟩ := rank_of_rowsOf hrows (hperm.mem_iff.mp hmem)
    exact ⟨hsnapshot, hday ▸ hback d hd⟩
  have hcomparable : ∀ a ∈ later ++ block.map (SnapshotOrEntry.entry day),
      ∀ b ∈ later ++ block.map (SnapshotOrEntry.entry day), a.Comparable b := by
    intro a ha b hb
    rcases List.mem_append.mp ha with ha | ha <;> rcases List.mem_append.mp hb with hb | hb
    · obtain ⟨⟨v, hv⟩, -⟩ := hlater a ha
      obtain ⟨⟨w, hw⟩, -⟩ := hlater b hb
      rw [hv, hw]
      trivial
    · obtain ⟨⟨v, hv⟩, hday⟩ := hlater a ha
      obtain ⟨e, -, rfl⟩ := List.mem_map.mp hb
      rw [hv]
      exact hday.ne'
    · obtain ⟨⟨v, hv⟩, hday⟩ := hlater b hb
      obtain ⟨e, -, rfl⟩ := List.mem_map.mp ha
      rw [hv]
      exact hday.ne
    · obtain ⟨e, -, rfl⟩ := List.mem_map.mp ha
      obtain ⟨e', -, rfl⟩ := List.mem_map.mp hb
      trivial
  rw [sortUpdates_eq hcomparable, Foundations.sortBy_append_of_lt,
    Foundations.sortBy_eq_of_perm hperm (rowsOf_strict hrows hsorted),
    Foundations.map_sortBy _ SnapshotOrEntry.sortKey]
  · intro a b
    rw [SnapshotOrEntry.sortKey, SnapshotOrEntry.sortKey, Prod.Lex.toLex_le_toLex]
    simp [SnapshotOrEntry.effective, SnapshotOrEntry.rank]
  · intro a ha b hb
    obtain ⟨e, -, rfl⟩ := List.mem_map.mp ha
    rw [SnapshotOrEntry.sortKey, SnapshotOrEntry.sortKey, Prod.Lex.toLex_lt_toLex]
    exact Or.inl (hlater b hb).2

/-- The anchor of an update: nothing, or the last row up to the posting's day. -/
inductive Anchored : Option (NaiveDate × BalanceSnapshot) → List DatedEntry → Prop
  | none : Anchored none []
  | some {before : List DatedEntry} {dated : DatedEntry} {values : BalanceSnapshot}
      (row : values.IsRow before dated) :
      Anchored (some (dated.1, values)) (before ++ [dated])

namespace EffectiveBalanceData

/-- The walk starts in the shape it keeps. -/
theorem adding_of_anchored {last : Option (NaiveDate × BalanceSnapshot)} {front : List DatedEntry}
    (hanchor : Anchored last front) {day : NaiveDate} (hfront : Foundations.SortedBy Prod.fst front)
    (hday : ∀ dated ∈ front, dated.1 ≤ day) (createdAt : Timestamp) (accountId : AccountId)
    (entry : EntryValues) :
    Adding ⟨(last.map Prod.snd).getD (firstSnapshot createdAt accountId entry),
      (last.map Prod.fst).getD day, none⟩ front day [] := by
  cases hanchor with
  | none =>
      refine ⟨firstSnapshot_holds createdAt accountId entry, ?_, rfl⟩
      rw [RecalcState.balanceFor]
      simp [firstSnapshot]
  | @some before dated values row =>
      refine ⟨row.holds, ?_, rfl⟩
      rw [RecalcState.balanceFor]
      by_cases heq : dated.1 = day
      · subst heq
        simpa using row.version
      · -- an earlier last day: no row of `day` exists yet
        have hlt : dated.1 < day := lt_of_le_of_ne (hday dated (by simp)) heq
        have hnone : (before ++ [dated]).countP (fun d => d.1 = day) = 0 := by
          rw [List.countP_eq_zero]
          intro d hd
          have hle : d.1 ≤ dated.1 := by
            rcases List.mem_append.mp hd with hd | hd
            · exact (List.pairwise_append.mp hfront).2.2 d hd dated (by simp)
            · rw [List.mem_singleton.mp hd]
          simpa using (hle.trans_lt hlt).ne
        rw [hnone]
        simp [heq]

/-- **`re_calculate_snapshots` replays the timeline.** With an anchor for everything up to the day,
the later rows in any order and at least one entry of the day, no panic is reached and the updates
become the rows of the entries, by sequence, added to the anchor, followed by the later rows, grown by
the sum of the entries. -/
theorem reCalculateSnapshots_rows (data : EffectiveBalanceData) {front back : List DatedEntry}
    {later sorted : List SnapshotOrEntry} {block : List EntryValues} {day : NaiveDate}
    (hanchor : Anchored data.lastSnapshot front)
    (hupdates : data.updates = later ++ block.map (.entry day)) (hblock : block ≠ [])
    (hrows : RowsOf front back sorted) (hperm : later.Perm sorted)
    (hfront : Foundations.SortedBy Prod.fst front) (hback : Foundations.SortedBy Prod.fst back)
    (hbefore : ∀ dated ∈ front, dated.1 ≤ day) (hafter : ∀ dated ∈ back, day < dated.1)
    (hids : Identified ((front
      ++ (Foundations.sortBy EntryValues.sequence block).map (fun entry => (day, entry))
      ++ back).map Prod.snd)) (createdAt : Timestamp) :
    ∃ updates, data.reCalculateSnapshots createdAt
        = some { data with lastSnapshot := none, updates := updates }
      ∧ RowsOf front ((Foundations.sortBy EntryValues.sequence block).map
          (fun entry => (day, entry)) ++ back) updates
      ∧ ∀ layer direction, updates.map (SnapshotOrEntry.dayTotal layer direction)
          = (Foundations.runningTotals
              ((data.lastSnapshot.map (fun anchor => (anchor.2.layer layer).side direction)).getD 0)
              ((Foundations.sortBy EntryValues.sequence block).map
                (·.unitsOn layer direction))).map (fun total => (day, total))
            ++ sorted.map (fun row => (row.effective, (row.dayTotal layer direction).2
                + ((Foundations.sortBy EntryValues.sequence block).map
                  (·.unitsOn layer direction)).foldl (· + ·) 0)) := by
  have hnonempty : data.updates ≠ [] := by
    rw [hupdates]
    simp [hblock]
  set ordered := Foundations.sortBy EntryValues.sequence block with hordered
  obtain ⟨first, rest, hfirst⟩ : ∃ first rest, ordered = first :: rest :=
    List.exists_cons_of_ne_nil (mt (Foundations.sortBy_eq_nil _).mp hblock)
  have hstart := adding_of_anchored hanchor hfront hbefore createdAt data.accountId first
  obtain ⟨state, us, hloop, hus, hadded⟩ := hstart.loop createdAt data.accountId ordered
  -- the entries leave a difference behind for the later rows
  obtain ⟨diff, hdiffState, hdiff⟩ : ∃ diff, state.diffSnapshot = some diff ∧ IsDiff diff
      ((front ++ ordered.map (fun entry => (day, entry))).map Prod.snd) := by
    have h := hadded.diff
    cases hstate : state.diffSnapshot with
    | none =>
        rw [hstate] at h
        simp [hfirst] at h
    | some diff =>
        rw [hstate] at h
        exact ⟨diff, rfl, h⟩
  obtain ⟨final, vs, hloop', hvs⟩ : ∃ final vs,
      recalcLoop createdAt data.accountId state sorted = some (final, vs)
        ∧ RowsOf (front ++ ordered.map (fun entry => (day, entry)) ++ []) back vs :=
    recalcLoop_rows [] (by simpa using hids) (fun dated hd => (hafter dated hd).ne')
      (by simpa using hrows) hdiffState (by simpa using hdiff)
  refine ⟨us ++ vs, ?_, hus.append (by simpa using hvs), fun layer direction => ?_⟩
  · rw [reCalculateSnapshots, if_neg hnonempty, hupdates,
      sortUpdates_block hrows hperm hback hafter block, ← hordered]
    have hbegin : startBalance createdAt data (ordered.map (.entry day) ++ sorted)
        = some ((data.lastSnapshot.map Prod.snd).getD
            (firstSnapshot createdAt data.accountId first),
          (data.lastSnapshot.map Prod.fst).getD day) := by
      rw [startBalance]
      cases data.lastSnapshot with
      | none =>
          rw [hfirst]
          rfl
      | some anchor => rfl
    simp only [Option.bind_eq_bind, Option.bind_some, hbegin]
    rw [recalcLoop_append, hloop]
    simp only [Option.bind_some]
    rw [hloop']
    rfl
  · obtain ⟨hentries, hsum⟩ := recalcLoop_entries layer direction ordered hloop
    have hlater := recalcLoop_snapshots layer direction sorted
      (fun row hrow => (rank_of_rowsOf hrows hrow).1) hloop'
    have hanchorSide : (((data.lastSnapshot.map Prod.snd).getD
          (firstSnapshot createdAt data.accountId first)).layer layer).side direction
        = (data.lastSnapshot.map (fun anchor => (anchor.2.layer layer).side direction)).getD 0 := by
      cases data.lastSnapshot with
      | none =>
          refine (congrArg (·.side direction) (firstSnapshot_layer _ _ _ _)).trans ?_
          exact BalanceAmount.zero_side _ _
      | some anchor => rfl
    rw [List.map_append, hentries, hlater, hsum]
    dsimp only
    rw [hanchorSide]
    rfl

/-- **The order of the deleted rows does not matter**: sorted, they are the same updates. -/
theorem reCalculateSnapshots_perm (data : EffectiveBalanceData) {front back : List DatedEntry}
    {later later' sorted : List SnapshotOrEntry} (block : List EntryValues) (day : NaiveDate)
    (hblock : block ≠ []) (hrows : RowsOf front back sorted) (hperm : later.Perm sorted)
    (hperm' : later'.Perm sorted) (hback : Foundations.SortedBy Prod.fst back)
    (hafter : ∀ dated ∈ back, day < dated.1) (createdAt : Timestamp) :
    reCalculateSnapshots createdAt { data with updates := later ++ block.map (.entry day) }
      = reCalculateSnapshots createdAt
          { data with updates := later' ++ block.map (.entry day) } := by
  have hnonempty : ∀ updates : List SnapshotOrEntry,
      updates ++ block.map (SnapshotOrEntry.entry day) ≠ [] := by
    simp [hblock]
  rw [reCalculateSnapshots, reCalculateSnapshots, if_neg (hnonempty later), if_neg (hnonempty later'),
    sortUpdates_block hrows hperm hback hafter block,
    sortUpdates_block hrows hperm' hback hafter block]
  rfl

theorem toRow_row {journalId : JournalId} {data : EffectiveBalanceData} {idx : ℕ}
    {snapshot : BalanceSnapshot} {before : List DatedEntry} {dated : DatedEntry}
    (hrow : snapshot.IsRow before dated) (hidx : idx + data.latestAllTimeVersion = before.length) :
    (data.toRow journalId idx snapshot dated.1).row
      = replayRow ⟨journalId, data.accountId, data.currency⟩ before dated := by
  rw [EffectiveBalanceSnapshot.row, replayRow]
  congr 1
  · exact hrow.version
  · simp only [toRow, List.length_append, List.length_singleton]
    omega
  · exact hrow.entryId
  · funext layer
    rw [← hrow.holds.entryId]
    cases layer <;> rfl

/-- The rows of the walk become stored rows, numbered after the anchor. -/
theorem intoSnapshotsFrom_rows (journalId : JournalId) (data : EffectiveBalanceData)
    {before timeline : List DatedEntry} {updates : List SnapshotOrEntry}
    (h : RowsOf before timeline updates) :
    ∀ idx : ℕ, idx + data.latestAllTimeVersion = before.length →
      ∃ rows, intoSnapshotsFrom journalId data idx updates = some rows
        ∧ rows.map EffectiveBalanceSnapshot.row
          = replayFrom ⟨journalId, data.accountId, data.currency⟩ before timeline := by
  induction h with
  | nil before => exact fun _ _ => ⟨[], rfl, rfl⟩
  | @cons before dated rest values updates row _ ih =>
      intro idx hidx
      obtain ⟨rows, hrows, hreplay⟩ := ih (idx + 1) (by simp; omega)
      refine ⟨data.toRow journalId idx values dated.1 :: rows, ?_, ?_⟩
      · rw [intoSnapshotsFrom]
        simp only [SnapshotOrEntry.asSnapshot, Option.bind_eq_bind, Option.bind_some]
        rw [hrows]
        rfl
      · rw [List.map_cons, hreplay, replayFrom, toRow_row row hidx]

/-- The rows of the walk are stored with their totals. -/
theorem intoSnapshotsFrom_totals {journalId : JournalId} {data : EffectiveBalanceData}
    (layer : Layer) (direction : DebitOrCredit) (updates : List SnapshotOrEntry) :
    ∀ {idx : ℕ} {rows : List EffectiveBalanceSnapshot},
      intoSnapshotsFrom journalId data idx updates = some rows →
      rows.map (EffectiveBalanceSnapshot.dayTotal layer direction)
        = updates.map (SnapshotOrEntry.dayTotal layer direction) := by
  induction updates with
  | nil =>
      rintro idx rows ⟨⟩
      rfl
  | cons update updates ih =>
      intro idx rows h
      rw [intoSnapshotsFrom] at h
      obtain ⟨⟨snapshot, effective⟩, hupdate, h⟩ := Option.bind_eq_some_iff.mp h
      obtain ⟨rest, hrest, h⟩ := Option.bind_eq_some_iff.mp h
      cases h
      rw [List.map_cons, List.map_cons, ih hrest]
      cases update with
      | entry effective entry => cases hupdate
      | snapshot effective values =>
          cases hupdate
          refine congrArg (· :: _) ?_
          cases layer <;> rfl

/-- Every row to store is filed under the journal of the update. -/
theorem intoSnapshotsFrom_journalId {journalId : JournalId} {data : EffectiveBalanceData}
    (updates : List SnapshotOrEntry) :
    ∀ {idx : ℕ} {rows : List EffectiveBalanceSnapshot},
      intoSnapshotsFrom journalId data idx updates = some rows →
      ∀ row ∈ rows, row.journalId = journalId := by
  induction updates with
  | nil =>
      rintro idx rows ⟨⟩ row hrow
      cases hrow
  | cons update updates ih =>
      intro idx rows h row hrow
      rw [intoSnapshotsFrom] at h
      obtain ⟨⟨snapshot, effective⟩, -, h⟩ := Option.bind_eq_some_iff.mp h
      obtain ⟨rest, hrest, h⟩ := Option.bind_eq_some_iff.mp h
      cases h
      rcases List.mem_cons.mp hrow with rfl | hrow
      · rfl
      · exact ih hrest row hrow

end EffectiveBalanceData

/-- A stored row read back carries the row of its entry. -/
theorem isRow_of_row {key : BalanceKey} {stored : EffectiveBalanceSnapshot}
    {before : List DatedEntry} {dated : DatedEntry} (h : stored.row = replayRow key before dated) :
    stored.values.IsRow before dated := by
  refine ⟨congrArg EffectiveRow.version h, congrArg EffectiveRow.entryId h, ⟨fun layer => ?_⟩⟩
  have hlatest := congrFun (congrArg EffectiveRow.latestEntry h) layer
  exact Eq.trans (by cases layer <;> rfl) hlatest

end CalaLedger
