import CalaLedger.Balance.RangeBounds
import Mathlib.Data.List.ReduceOption

/-! # Balance ranges

`find_in_range`, `find_all_in_range` and the range listings give the exact range of a balance that
has a row up to the end of the window, unless a row lies after this end and before the beginning of
the window (`balance_ranges_exact_iff`). That takes an inverted window, or a beginning in the future
without an `until`; the subtraction of the versions then underflows. -/

namespace CalaLedger

open Foundations

namespace EffectiveLedger

variable {ledger : EffectiveLedger} {key : BalanceKey} {kind : DebitOrCredit}
  {fromDay : NaiveDate} {scan : IterationOrder RangeRow}
  {iteration : IterationOrder (Sigma fun _ : BalanceKey => RangeBounds)} {today : NaiveDate}
  {untilDay : Option NaiveDate}

/-! ## One balance -/

/-- What `find_in_range` gives. -/
theorem findInRange_eq (hkind : ledger.normalBalanceType key.accountId = some kind) :
    ledger.findInRange scan today key fromDay untilDay
      = if ledger.NoneBetween key fromDay (untilDay.getD today) then
          some (match ledger.lastRow key (· ≤ untilDay.getD today) with
            | some row => .ok (ledger.rangeTo fromDay (untilDay.getD today) kind row)
            | none => .error key.notFound)
        else none := by
  have hfold : (scan.arrange (ledger.rangeRows (ledger.joined [key]) fromDay
      (untilDay.getD today))).foldl RangeBounds.add {}
        = ledger.boundsOf key kind fromDay (untilDay.getD today) := by
    apply foldl_add_eq_boundsOf
    intro row
    rw [IterationOrder.mem_arrange, mem_rangeRows]
    constructor
    · rintro ⟨⟨key', kind'⟩, hid, hrow⟩
      obtain ⟨hmem, hkind'⟩ := mem_joined.mp hid
      obtain rfl := List.mem_singleton.mp hmem
      rw [hkind, Option.some.injEq] at hkind'
      exact hkind' ▸ hrow
    · exact fun hrow => ⟨(key, kind), mem_joined.mpr ⟨List.mem_singleton_self key, hkind⟩, hrow⟩
  rw [findInRange, findRange]
  simp only [hfold, boundsOf_versions.1, boundsOf_versions.2, u32Sub_counts, boundsOf_first,
    boundsOf_last]
  split
  · cases hlast : ledger.lastRow key (· ≤ untilDay.getD today) with
    | none => rfl
    | some row =>
        have hkey : row.key = key := key_of_mem_history (lastRow_mem hlast).1
        simp only [rangeTo, hkey]
        rfl
  · rfl

/-- **`find_in_range` is exact when the balance is covered**, and gives no range otherwise. -/
theorem findInRange_exact_iff :
    (∃ range, ledger.findInRange scan today key fromDay untilDay = some (.ok range)
        ∧ IsRange ledger key fromDay (untilDay.getD today) range)
      ↔ ledger.Covered key fromDay (untilDay.getD today) := by
  rw [covered_iff]
  constructor
  · rintro ⟨range, hfind, hrange⟩
    rw [findInRange_eq hrange.kind.1] at hfind
    split at hfind
    · rename_i hnone
      refine ⟨?_, hnone⟩
      cases hlast : ledger.lastRow key (· ≤ untilDay.getD today) with
      | none =>
          rw [hlast] at hfind
          cases hfind
      | some row => rfl
    · cases hfind
  · rintro ⟨hsome, hnone⟩
    obtain ⟨row, hlast⟩ := Option.isSome_iff_exists.mp hsome
    obtain ⟨kind, hkind⟩ := exists_kind (lastRow_mem hlast).1
    refine ⟨_, ?_, isRange_rangeTo hlast hkind⟩
    rw [findInRange_eq hkind, if_pos hnone, hlast]

theorem findInRange_notFound (hnone : ledger.NoneBetween key fromDay (untilDay.getD today))
    (hlast : ledger.lastRow key (· ≤ untilDay.getD today) = none) :
    ledger.findInRange scan today key fromDay untilDay = some (.error key.notFound) := by
  cases hkind : ledger.normalBalanceType key.accountId with
  | some kind => rw [findInRange_eq hkind, if_pos hnone, hlast]
  | none =>
      have hrows : scan.arrange (ledger.rangeRows (ledger.joined [key]) fromDay
          (untilDay.getD today)) = [] := by
        have hjoined : ledger.joined [key] = [] := by
          rw [joined, List.filterMap_cons, hkind]
          rfl
        rw [hjoined]
        exact (scan.perm []).eq_nil
      rw [findInRange, findRange]
      simp only [hrows, List.foldl_nil, u32Sub]
      rfl

/-! ## Several balances -/

/-- What `find_range_all` files under a balance. -/
theorem lookup_findRangeAll {ids : List BalanceKey} {bounds : RangeBounds} :
    (ledger.findRangeAll scan today ids fromDay untilDay).lookup key = some bounds
      ↔ ∃ kind, (key ∈ ids ∧ ledger.normalBalanceType key.accountId = some kind)
        ∧ ((ledger.lastRow key (· < fromDay)).isSome
          ∨ (ledger.lastRow key (· ≤ untilDay.getD today)).isSome)
        ∧ ledger.boundsOf key kind fromDay (untilDay.getD today) = bounds := by
  rw [findRangeAll, lookup_collectRanges scan (kinds_joined ids)]
  simp only [mem_joined]

/-- The range of a balance in the answer of `find_all_in_range`. -/
def rangeOf (ledger : EffectiveLedger) (fromDay endDay : NaiveDate) (key : BalanceKey) :
    Option BalanceRange :=
  (ledger.normalBalanceType key.accountId).bind (fun kind =>
    (ledger.lastRow key (· ≤ endDay)).map (ledger.rangeTo fromDay endDay kind))

/-- What the map over the entries makes of one of them. -/
def readEntry (entry : Sigma fun _ : BalanceKey => RangeBounds) :
    Option (Option (BalanceKey × BalanceRange)) :=
  (BalanceRange.fromBounds entry.2).map (fun range => range.map (fun range => (entry.1, range)))

theorem readEntry_boundsOf {endDay : NaiveDate} :
    readEntry ⟨key, ledger.boundsOf key kind fromDay endDay⟩
      = match ledger.lastRow key (· ≤ endDay) with
        | none => some none
        | some row =>
            if ledger.NoneBetween key fromDay endDay then
              some (some (key, ledger.rangeTo fromDay endDay kind row))
            else none := by
  rw [readEntry, fromBounds_boundsOf]
  cases ledger.lastRow key (· ≤ endDay) with
  | none => rfl
  | some row =>
      dsimp only
      split <;> rfl

theorem readEntry_isSome {endDay : NaiveDate} :
    (readEntry ⟨key, ledger.boundsOf key kind fromDay endDay⟩).isSome
      ↔ ((ledger.lastRow key (· ≤ endDay)).isSome → ledger.NoneBetween key fromDay endDay) := by
  rw [readEntry_boundsOf]
  cases ledger.lastRow key (· ≤ endDay) with
  | none => simp
  | some row =>
      dsimp only
      split
      · rename_i hnone
        simp [hnone]
      · rename_i hbetween
        simp [hbetween]

theorem readEntry_eq_some {endDay : NaiveDate} {pair : BalanceKey × BalanceRange}
    (hkind : ledger.normalBalanceType key.accountId = some kind)
    (hpair : readEntry ⟨key, ledger.boundsOf key kind fromDay endDay⟩ = some (some pair)) :
    pair.1 = key ∧ ledger.rangeOf fromDay endDay key = some pair.2 := by
  rw [readEntry_boundsOf] at hpair
  rw [rangeOf, hkind, Option.bind_some]
  cases hlast : ledger.lastRow key (· ≤ endDay) with
  | none =>
      rw [hlast] at hpair
      cases hpair
  | some row =>
      rw [hlast] at hpair
      dsimp only at hpair
      split at hpair
      · cases hpair
        exact ⟨rfl, rfl⟩
      · cases hpair

/-- The entries `find_all_in_range` maps over. -/
def filedEntries (ledger : EffectiveLedger) (scan : IterationOrder RangeRow)
    (iteration : IterationOrder (Sigma fun _ : BalanceKey => RangeBounds)) (today : NaiveDate)
    (fromDay : NaiveDate) (untilDay : Option NaiveDate) (ids : List BalanceKey) :
    List (Sigma fun _ : BalanceKey => RangeBounds) :=
  iteration.arrange (ledger.findRangeAll scan today ids fromDay untilDay).entries

theorem mem_filedEntries {ids : List BalanceKey} {bounds : RangeBounds} :
    ⟨key, bounds⟩ ∈ ledger.filedEntries scan iteration today fromDay untilDay ids
      ↔ ∃ kind, (key ∈ ids ∧ ledger.normalBalanceType key.accountId = some kind)
        ∧ ((ledger.lastRow key (· < fromDay)).isSome
          ∨ (ledger.lastRow key (· ≤ untilDay.getD today)).isSome)
        ∧ ledger.boundsOf key kind fromDay (untilDay.getD today) = bounds := by
  rw [filedEntries, IterationOrder.mem_arrange, ← AList.mem_lookup_iff, Option.mem_def,
    lookup_findRangeAll]

/-- A balance that is asked for and has a closing row is among the entries. -/
theorem asked_mem_filedEntries {ids : List BalanceKey} {row : EffectiveBalanceSnapshot}
    (hid : key ∈ ids) (hkind : ledger.normalBalanceType key.accountId = some kind)
    (hlast : ledger.lastRow key (· ≤ untilDay.getD today) = some row) :
    ⟨key, ledger.boundsOf key kind fromDay (untilDay.getD today)⟩
      ∈ ledger.filedEntries scan iteration today fromDay untilDay ids :=
  mem_filedEntries.mpr ⟨kind, ⟨hid, hkind⟩, Or.inr (by rw [hlast]; rfl), rfl⟩

theorem findAllInRange_eq (ids : List BalanceKey) :
    ledger.findAllInRange scan iteration today ids fromDay untilDay
      = ((ledger.filedEntries scan iteration today fromDay untilDay ids).mapM readEntry).map
        (fun found => found.reduceOption.foldl (fun ret pair => ret.insert pair.1 pair.2) ∅) := by
  show (((ledger.filedEntries scan iteration today fromDay untilDay ids).mapM readEntry).bind _) = _
  cases (ledger.filedEntries scan iteration today fromDay untilDay ids).mapM readEntry <;> rfl

/-- `find_all_in_range` panics exactly when a balance that has a closing row has one between the end
and the beginning of the window. -/
theorem findAllInRange_isSome (ids : List BalanceKey) :
    (ledger.findAllInRange scan iteration today ids fromDay untilDay).isSome ↔
      ∀ key ∈ ids, (ledger.lastRow key (· ≤ untilDay.getD today)).isSome →
        ledger.NoneBetween key fromDay (untilDay.getD today) := by
  rw [findAllInRange_eq, Option.isSome_map, isSome_of_mapM]
  constructor
  · intro hall key hid hsome
    obtain ⟨row, hlast⟩ := Option.isSome_iff_exists.mp hsome
    obtain ⟨kind, hkind⟩ := exists_kind (lastRow_mem hlast).1
    exact readEntry_isSome.mp (hall _ (asked_mem_filedEntries hid hkind hlast)) hsome
  · rintro hall ⟨key, bounds⟩ hmem
    obtain ⟨kind, ⟨hid, -⟩, -, rfl⟩ := mem_filedEntries.mp hmem
    exact readEntry_isSome.mpr (hall key hid)

/-- Otherwise it gives the ranges of the balances that have a closing row. -/
theorem lookup_findAllInRange {ids : List BalanceKey} {ranges : HashMap BalanceKey BalanceRange}
    (h : ledger.findAllInRange scan iteration today ids fromDay untilDay = some ranges)
    {range : BalanceRange} : ranges.lookup key = some range
      ↔ key ∈ ids ∧ ledger.rangeOf fromDay (untilDay.getD today) key = some range := by
  have hall := (findAllInRange_isSome ids).mp (Option.isSome_of_eq_some h)
  rw [findAllInRange_eq, mapM_eq_ite] at h
  split at h
  · cases h
    have hpairs : ∀ key range, (key, range) ∈ ((ledger.filedEntries scan iteration today fromDay
        untilDay ids).map (fun entry => (readEntry entry).getD none)).reduceOption
          ↔ key ∈ ids ∧ ledger.rangeOf fromDay (untilDay.getD today) key = some range := by
      intro key range
      rw [List.reduceOption_mem_iff, List.mem_map]
      constructor
      · rintro ⟨⟨key', bounds⟩, hmem, hpair⟩
        obtain ⟨kind, ⟨hid, hkind⟩, -, rfl⟩ := mem_filedEntries.mp hmem
        obtain ⟨found, hfound⟩ := Option.isSome_iff_exists.mp
          (readEntry_isSome.mpr (hall key' hid) : (readEntry _).isSome)
        rw [hfound, Option.getD_some] at hpair
        obtain ⟨rfl, hrange⟩ := readEntry_eq_some hkind (hfound.trans (congrArg some hpair))
        exact ⟨hid, hrange⟩
      · rintro ⟨hid, hrange⟩
        obtain ⟨kind, hkind, hrange⟩ := Option.bind_eq_some_iff.mp hrange
        obtain ⟨row, hlast, rfl⟩ := Option.map_eq_some_iff.mp hrange
        refine ⟨_, asked_mem_filedEntries hid hkind hlast, ?_⟩
        have hnone := hall key hid (by rw [hlast]; rfl)
        rw [readEntry_boundsOf, hlast]
        dsimp only
        rw [if_pos hnone, Option.getD_some]
    rw [lookup_foldl_pairs, hpairs]
    intro k v v' hv hv'
    exact Option.some.inj (((hpairs k v).mp hv).2.symm.trans ((hpairs k v').mp hv').2)
  · cases h

/-- **`find_all_in_range` gives exact ranges for all it is asked for when these are covered.** -/
theorem findAllInRange_exact_iff (ids : List BalanceKey) :
    (∃ ranges, ledger.findAllInRange scan iteration today ids fromDay untilDay = some ranges
        ∧ ∀ key ∈ ids, ∃ range, ranges.lookup key = some range
          ∧ IsRange ledger key fromDay (untilDay.getD today) range)
      ↔ ∀ key ∈ ids, ledger.Covered key fromDay (untilDay.getD today) := by
  constructor
  · rintro ⟨ranges, hfind, hranges⟩ key hid
    obtain ⟨range, hlookup, -⟩ := hranges key hid
    obtain ⟨-, hrange⟩ := (lookup_findAllInRange hfind).mp hlookup
    obtain ⟨kind, -, hrange⟩ := Option.bind_eq_some_iff.mp hrange
    obtain ⟨row, hlast, -⟩ := Option.map_eq_some_iff.mp hrange
    have hsome : (ledger.lastRow key (· ≤ untilDay.getD today)).isSome := by rw [hlast]; rfl
    have hall := (findAllInRange_isSome ids).mp (Option.isSome_of_eq_some hfind)
    exact covered_iff.mpr ⟨hsome, hall key hid hsome⟩
  · intro hcovered
    have hsome : (ledger.findAllInRange scan iteration today ids fromDay untilDay).isSome :=
      (findAllInRange_isSome ids).mpr (fun key hid _ => (covered_iff.mp (hcovered key hid)).2)
    obtain ⟨ranges, hfind⟩ := Option.isSome_iff_exists.mp hsome
    refine ⟨ranges, hfind, fun key hid => ?_⟩
    obtain ⟨row, hlast⟩ := Option.isSome_iff_exists.mp (covered_iff.mp (hcovered key hid)).1
    obtain ⟨kind, hkind⟩ := exists_kind (lastRow_mem hlast).1
    refine ⟨_, (lookup_findAllInRange hfind).mpr ⟨hid, ?_⟩, isRange_rangeTo hlast hkind⟩
    rw [rangeOf, hkind, Option.bind_some, hlast, Option.map_some]

/-! ## Pages -/

/-- Closing rows of distinct balances, in the order a page is sorted in. -/
structure IsClosing (ledger : EffectiveLedger) (endDay : NaiveDate)
    (rows : List (EffectiveBalanceSnapshot × DebitOrCredit)) : Prop where
  last : ∀ row ∈ rows, ledger.lastRow row.1.key (· ≤ endDay) = some row.1
  kind : ∀ row ∈ rows, ledger.normalBalanceType row.1.key.accountId = some row.2
  ascending : rows.Pairwise (fun a b =>
    (ledger.rangeTo endDay endDay a.2 a.1).sortKey < (ledger.rangeTo endDay endDay b.2 b.1).sortKey)

variable {endDay : NaiveDate} {rows : List (EffectiveBalanceSnapshot × DebitOrCredit)}

theorem close_rangeTo {row : EffectiveBalanceSnapshot} :
    (ledger.rangeTo fromDay endDay kind row).close = ⟨kind, row.values⟩ := by
  rw [rangeTo]
  cases ledger.lastRow row.key (· < fromDay) <;> rfl

theorem sortKey_rangeTo {row : EffectiveBalanceSnapshot} :
    (ledger.rangeTo fromDay endDay kind row).sortKey
      = toLex (row.journalId, toLex (row.accountId, row.currency)) := by
  rw [BalanceRange.sortKey, close_rangeTo]
  rfl

theorem IsClosing.nodup_keys (h : ledger.IsClosing endDay rows) :
    (rows.map (fun row => row.1.key)).Nodup := by
  rw [List.Nodup, List.pairwise_map]
  refine h.ascending.imp (fun {a b} hlt heq => hlt.ne ?_)
  obtain ⟨hjournal, haccount, hcurrency⟩ := BalanceKey.mk.inj heq
  rw [sortKey_rangeTo, sortKey_rangeTo, hjournal, haccount, hcurrency]

/-- The map of a page holds the bounds of the balances it was asked for. -/
theorem IsClosing.entries_perm (h : ledger.IsClosing endDay rows) (scan : IterationOrder RangeRow)
    (fromDay : NaiveDate) :
    (collectRanges (scan.arrange (ledger.rangeRows (rows.map (fun row => (row.1.key, row.2)))
      fromDay endDay))).entries.Perm
        (rows.map (fun row => ⟨row.1.key, ledger.boundsOf row.1.key row.2 fromDay endDay⟩)) := by
  have hkinds : ledger.Kinds (rows.map (fun row => (row.1.key, row.2))) := by
    intro id hid
    obtain ⟨row, hrow, rfl⟩ := List.mem_map.mp hid
    exact h.kind row hrow
  apply Foundations.entries_perm
  · have hkeys := h.nodup_keys
    rw [List.Nodup, List.pairwise_map] at hkeys ⊢
    exact hkeys.imp (fun hne heq => hne (congrArg Sigma.fst heq))
  · intro key bounds
    rw [lookup_collectRanges scan hkinds, List.mem_map]
    constructor
    · rintro ⟨kind, hid, -, rfl⟩
      obtain ⟨row, hrow, heq⟩ := List.mem_map.mp hid
      cases heq
      exact ⟨row, hrow, rfl⟩
    · rintro ⟨row, hrow, heq⟩
      cases heq
      exact ⟨row.2, List.mem_map_of_mem hrow, Or.inr (by rw [h.last row hrow]; rfl), rfl⟩

theorem IsClosing.fromBounds (h : ledger.IsClosing endDay rows)
    {row : EffectiveBalanceSnapshot × DebitOrCredit} (hrow : row ∈ rows) :
    BalanceRange.fromBounds (ledger.boundsOf row.1.key row.2 fromDay endDay)
      = if ledger.NoneBetween row.1.key fromDay endDay then
          some (some (ledger.rangeTo fromDay endDay row.2 row.1))
        else none := by
  rw [fromBounds_boundsOf, h.last row hrow]

/-- **The ranges of a page**: those of its closing rows in their order, unless one of these balances
has a row between the end and the beginning of the window. -/
theorem IsClosing.balanceRanges (h : ledger.IsClosing endDay rows) {found : List BalanceRange} :
    balanceRangesFromSnapshots iteration (collectRanges (scan.arrange (ledger.rangeRows
        (rows.map (fun row => (row.1.key, row.2))) fromDay endDay))) = some found
      ↔ (∀ row ∈ rows, ledger.NoneBetween row.1.key fromDay endDay)
        ∧ rows.map (fun row => ledger.rangeTo fromDay endDay row.2 row.1) = found := by
  have hperm := (iteration.perm _).trans (h.entries_perm scan fromDay)
  have hall : (∀ entry ∈ iteration.arrange (collectRanges (scan.arrange (ledger.rangeRows
      (rows.map (fun row => (row.1.key, row.2))) fromDay endDay))).entries,
        (BalanceRange.fromBounds entry.2).isSome)
      ↔ ∀ row ∈ rows, ledger.NoneBetween row.1.key fromDay endDay := by
    simp only [hperm.mem_iff, List.forall_mem_map]
    refine forall₂_congr (fun row hrow => ?_)
    rw [h.fromBounds hrow]
    split
    · rename_i hnone
      exact iff_of_true rfl hnone
    · rename_i hbetween
      exact iff_of_false nofun hbetween
  -- the ranges come in the order of the map, and are sorted
  have hsorted : (∀ row ∈ rows, ledger.NoneBetween row.1.key fromDay endDay) →
      sortBy BalanceRange.sortKey ((iteration.arrange (collectRanges (scan.arrange
        (ledger.rangeRows (rows.map (fun row => (row.1.key, row.2))) fromDay endDay))).entries).map
          (fun entry => (BalanceRange.fromBounds entry.2).getD none)).reduceOption
        = rows.map (fun row => ledger.rangeTo fromDay endDay row.2 row.1) := by
    intro hnone
    apply sortBy_eq_of_perm
    · have hranges : ((rows.map (fun row => (⟨row.1.key,
          ledger.boundsOf row.1.key row.2 fromDay endDay⟩ : Sigma fun _ : BalanceKey =>
            RangeBounds))).map (fun entry => (BalanceRange.fromBounds entry.2).getD none)).filterMap
              id = rows.map (fun row => ledger.rangeTo fromDay endDay row.2 row.1) := by
        rw [List.map_map, List.filterMap_map, ← List.filterMap_eq_map]
        refine List.filterMap_congr (fun row hrow => ?_)
        simp only [Function.comp_apply, id_eq, h.fromBounds hrow, if_pos (hnone row hrow),
          Option.getD_some]
      rw [← hranges]
      exact (hperm.map _).filterMap id
    · rw [List.pairwise_map]
      exact h.ascending.imp (fun hlt => by rwa [sortKey_rangeTo, sortKey_rangeTo] at hlt ⊢)
  rw [balanceRangesFromSnapshots, mapM_eq_ite]
  constructor
  · intro hfound
    split at hfound
    · rename_i hsome
      exact ⟨hall.mp hsome, (hsorted (hall.mp hsome)).symm.trans (Option.some.inj hfound)⟩
    · cases hfound
  · rintro ⟨hnone, rfl⟩
    rw [if_pos (hall.mpr hnone)]
    exact congrArg some (hsorted hnone)

/-- **A range page** is the page of the ranges of its closing rows, where none underflows. -/
theorem IsClosing.rangePage {γ : Type} (h : ledger.IsClosing endDay rows)
    (cursor : BalanceRange → γ) (first : ℕ) {page : Page BalanceRange γ} :
    ledger.rangePage scan iteration cursor
        ((rows.take (first + 1)).map (fun row => (row.1.key, row.2))) fromDay endDay first
        = some page
      ↔ (∀ row ∈ rows.take (first + 1), ledger.NoneBetween row.1.key fromDay endDay)
        ∧ pageOf cursor (rows.map (fun row => ledger.rangeTo fromDay endDay row.2 row.1)) first
          = page := by
  have htake : ledger.IsClosing endDay (rows.take (first + 1)) :=
    ⟨fun row hrow => h.last row (List.mem_of_mem_take hrow),
      fun row hrow => h.kind row (List.mem_of_mem_take hrow),
      h.ascending.sublist (List.take_sublist _ _)⟩
  rw [EffectiveLedger.rangePage, (htake.entries_perm scan fromDay).length_eq, List.length_map]
  simp only [bind, Option.bind_eq_some_iff, htake.balanceRanges]
  have hpage : pageOf cursor (rows.map (fun row => ledger.rangeTo fromDay endDay row.2 row.1)) first
      = { entities := ((rows.take (first + 1)).map
            (fun row => ledger.rangeTo fromDay endDay row.2 row.1)).take first
          hasNextPage := first < (rows.take (first + 1)).length
          endCursor := (((rows.take (first + 1)).map
            (fun row => ledger.rangeTo fromDay endDay row.2 row.1)).take first).getLast?.map
              cursor } := by
    rw [pageOf, ← List.map_take, List.length_map]
  constructor
  · rintro ⟨found, ⟨hnone, rfl⟩, hsome⟩
    exact ⟨hnone, hpage.trans (Option.some.inj hsome)⟩
  · rintro ⟨hnone, rfl⟩
    exact ⟨_, ⟨hnone, rfl⟩, congrArg some hpage.symm⟩

/-! ## The rows of a listing -/

variable {journalId : JournalId} {accountId : AccountId} {accountIds : List AccountId}
  {row : EffectiveBalanceSnapshot × DebitOrCredit}

/-- The lateral sub-query finds the closing rows of an account. -/
theorem mem_latestOfAccount : row ∈ ledger.latestOfAccount journalId endDay accountId
    ↔ ledger.normalBalanceType accountId = some row.2 ∧ row.1.key.journalId = journalId
      ∧ row.1.key.accountId = accountId ∧ ledger.lastRow row.1.key (· ≤ endDay) = some row.1 := by
  obtain ⟨row, kind⟩ := row
  -- the rows of the currency among those of the account are the rows of the balance
  have hsame : ∀ row : EffectiveBalanceSnapshot, row.journalId = journalId →
      row.accountId = accountId →
      (ledger.rows.filter (fun other => decide (other.journalId = journalId
        ∧ other.accountId = accountId ∧ other.effective ≤ endDay))).filter
          (fun other => @decide _ (Currency.linearOrder.toDecidableEq other.currency row.currency))
        = (ledger.history row.key).filter (fun other => other.effective ≤ endDay) := by
    rintro row rfl rfl
    rw [history, List.filter_filter, List.filter_filter]
    refine List.filter_congr (fun other _ => ?_)
    rw [← Bool.decide_and, ← Bool.decide_and]
    refine decide_eq_decide.mpr ?_
    rw [EffectiveBalanceSnapshot.key, EffectiveBalanceSnapshot.key, BalanceKey.mk.injEq]
    tauto
  rw [latestOfAccount]
  cases hkind : ledger.normalBalanceType accountId with
  | none =>
      refine iff_of_false List.not_mem_nil (fun h => ?_)
      cases h.1
  | some kind' =>
      simp only [List.mem_map, Prod.mk.injEq, mem_distinctOn, Option.some.injEq]
      constructor
      · rintro ⟨other, hother, rfl, rfl⟩
        have hmem := of_decide_eq_true
          (List.mem_filter.mp (List.mem_of_mem_filter (List.argmax_mem hother))).2
        refine ⟨rfl, hmem.1, hmem.2.1, ?_⟩
        rw [lastRow, ← hsame other hmem.1 hmem.2.1]
        exact hother
      · rintro ⟨rfl, hjournal, haccount, hlast⟩
        refine ⟨row, ?_, rfl, rfl⟩
        rw [lastRow, ← hsame row hjournal haccount] at hlast
        exact hlast

theorem latestOfAccount_ascending : (ledger.latestOfAccount journalId endDay accountId).Pairwise
    (fun a b => a.1.currency < b.1.currency) := by
  rw [latestOfAccount]
  cases ledger.normalBalanceType accountId with
  | none => exact List.Pairwise.nil
  | some kind =>
      rw [List.pairwise_map]
      exact distinctOn_ascending _ _ _

/-- The rows of several accounts, before a cursor. -/
theorem nodup_cursors : ((accountIds.dedup.flatMap (ledger.latestOfAccount journalId endDay)).map
    (fun row => row.1.key.cursor)).Nodup := by
  rw [List.map_flatMap, List.nodup_flatMap]
  constructor
  · intro accountId _
    rw [List.Nodup, List.pairwise_map]
    refine latestOfAccount_ascending.imp (fun {a b} hlt heq => hlt.ne ?_)
    exact (Prod.mk.inj (toLex.injective heq)).2
  · refine (List.nodup_dedup accountIds).imp (fun {a b} hne => ?_)
    refine List.disjoint_left.mpr (fun cursor ha hb => ?_)
    obtain ⟨row, hrow, rfl⟩ := List.mem_map.mp ha
    obtain ⟨row', hrow', heq⟩ := List.mem_map.mp hb
    have haccount := (Prod.mk.inj (toLex.injective heq)).1
    rw [(mem_latestOfAccount.mp hrow).2.2.1, (mem_latestOfAccount.mp hrow').2.2.1] at haccount
    exact hne haccount.symm

variable (ledger journalId accountId accountIds endDay) in
theorem isClosing_rowsForAccount (after : Option AccountBalanceByCurrencyCursor) :
    ledger.IsClosing endDay (ledger.rowsForAccount journalId accountId endDay after) := by
  have hmem : ∀ row ∈ ledger.rowsForAccount journalId accountId endDay after,
      ledger.normalBalanceType accountId = some row.2 ∧ row.1.key.journalId = journalId
        ∧ row.1.key.accountId = accountId ∧ ledger.lastRow row.1.key (· ≤ endDay) = some row.1 :=
    fun row hrow => mem_latestOfAccount.mp (List.mem_of_mem_filter hrow)
  refine ⟨fun row hrow => (hmem row hrow).2.2.2, fun row hrow => ?_, ?_⟩
  · rw [(hmem row hrow).2.2.1]
    exact (hmem row hrow).1
  · refine (latestOfAccount_ascending.filter _).imp_of_mem (fun {a b} ha hb hlt => ?_)
    have hjournal : a.1.journalId = b.1.journalId := (hmem a ha).2.1.trans (hmem b hb).2.1.symm
    have haccount : a.1.accountId = b.1.accountId :=
      (hmem a ha).2.2.1.trans (hmem b hb).2.2.1.symm
    rw [sortKey_rangeTo, sortKey_rangeTo, hjournal, haccount]
    exact Prod.Lex.toLex_lt_toLex.mpr
      (Or.inr ⟨rfl, Prod.Lex.toLex_lt_toLex.mpr (Or.inr ⟨rfl, hlt⟩)⟩)

theorem mem_rowsForAccounts {after : Option AccountBalanceCursor} :
    row ∈ ledger.rowsForAccounts journalId accountIds endDay after
      ↔ (∃ accountId ∈ accountIds, row ∈ ledger.latestOfAccount journalId endDay accountId)
        ∧ past after row.1.key.cursor = true := by
  rw [rowsForAccounts, mem_sortBy, List.mem_filter, List.mem_flatMap]
  simp only [List.mem_dedup]

theorem rowsForAccounts_ascending (after : Option AccountBalanceCursor) :
    (ledger.rowsForAccounts journalId accountIds endDay after).Pairwise
      (fun a b => a.1.key.cursor < b.1.key.cursor) :=
  sortBy_strict (nodup_cursors.sublist (List.filter_sublist.map _))

variable (ledger journalId accountIds endDay) in
theorem isClosing_rowsForAccounts (after : Option AccountBalanceCursor) :
    ledger.IsClosing endDay (ledger.rowsForAccounts journalId accountIds endDay after) := by
  have hmem : ∀ row ∈ ledger.rowsForAccounts journalId accountIds endDay after,
      ledger.normalBalanceType row.1.key.accountId = some row.2 ∧ row.1.key.journalId = journalId
        ∧ ledger.lastRow row.1.key (· ≤ endDay) = some row.1 := by
    intro row hrow
    obtain ⟨⟨accountId, -, hrow⟩, -⟩ := mem_rowsForAccounts.mp hrow
    obtain ⟨hkind, hjournal, haccount, hlast⟩ := mem_latestOfAccount.mp hrow
    exact ⟨haccount ▸ hkind, hjournal, hlast⟩
  refine ⟨fun row hrow => (hmem row hrow).2.2, fun row hrow => (hmem row hrow).1, ?_⟩
  refine (rowsForAccounts_ascending after).imp_of_mem (fun {a b} ha hb hlt => ?_)
  have hjournal : a.1.journalId = b.1.journalId := (hmem a ha).2.1.trans (hmem b hb).2.1.symm
  rw [sortKey_rangeTo, sortKey_rangeTo, hjournal]
  exact Prod.Lex.toLex_lt_toLex.mpr (Or.inr ⟨rfl, hlt⟩)

/-- A page of ranges is returned, and all of them are exact. -/
def ListsExactly {γ : Type} (ledger : EffectiveLedger) (fromDay endDay : NaiveDate)
    (page : Option (Page BalanceRange γ)) : Prop :=
  ∃ ranges, page = some ranges
    ∧ ∀ range ∈ ranges.entities, IsRange ledger range.close.details.key fromDay endDay range

theorem IsClosing.listsExactly_iff {γ : Type} (h : ledger.IsClosing endDay rows)
    (cursor : BalanceRange → γ) (first : ℕ) :
    ledger.ListsExactly fromDay endDay (ledger.rangePage scan iteration cursor
        ((rows.take (first + 1)).map (fun row => (row.1.key, row.2))) fromDay endDay first)
      ↔ ∀ row ∈ rows.take (first + 1), ledger.NoneBetween row.1.key fromDay endDay := by
  constructor
  · rintro ⟨page, hpage, -⟩
    exact ((h.rangePage cursor first).mp hpage).1
  · intro hnone
    refine ⟨_, (h.rangePage cursor first).mpr ⟨hnone, rfl⟩, fun range hrange => ?_⟩
    rw [pageOf_entities] at hrange
    obtain ⟨row, hrow, rfl⟩ := List.mem_map.mp (List.mem_of_mem_take hrange)
    rw [close_rangeTo]
    exact isRange_rangeTo (h.last row hrow) (h.kind row hrow)

theorem listRangeForAccount_exact_iff (first : ℕ)
    (after : Option AccountBalanceByCurrencyCursor) :
    ledger.ListsExactly fromDay (untilDay.getD today) (ledger.listRangeForAccount scan iteration
        today journalId accountId fromDay untilDay first after)
      ↔ ∀ row ∈ (ledger.rowsForAccount journalId accountId (untilDay.getD today) after).take
          (first + 1), ledger.NoneBetween row.1.key fromDay (untilDay.getD today) :=
  (isClosing_rowsForAccount _ _ _ _ after).listsExactly_iff BalanceRange.byCurrencyCursor first

theorem listRangeForAccounts_exact_iff (first : ℕ) (after : Option AccountBalanceCursor) :
    ledger.ListsExactly fromDay (untilDay.getD today) (ledger.listRangeForAccounts scan iteration
        today journalId accountIds fromDay untilDay first after)
      ↔ ∀ row ∈ (ledger.rowsForAccounts journalId accountIds (untilDay.getD today) after).take
          (first + 1), ledger.NoneBetween row.1.key fromDay (untilDay.getD today) :=
  (isClosing_rowsForAccounts _ _ _ _ after).listsExactly_iff BalanceRange.cursor first

end EffectiveLedger

namespace EffectiveLedger

/-- A balance with a row on the first and one on the third day. -/
def twoDays : EffectiveLedger where
  accounts := fun _ => some
    { normalBalanceType := .debit
      eventuallyConsistent := false
      isAccountSet := false
      velocityContextValues := ⟨⟨1⟩, "cash", .debit, none, none⟩
      status := .active }
  rows :=
    [⟨⟨1⟩, ⟨1⟩, ⟨"USD"⟩, 1, 1, 1, 0, 0, ⟨1⟩, ⟨5, 0, ⟨1⟩, 0⟩, ⟨0, 0, ⟨0⟩, 0⟩, ⟨0, 0, ⟨0⟩, 0⟩⟩,
      ⟨⟨1⟩, ⟨1⟩, ⟨"USD"⟩, 3, 1, 2, 0, 0, ⟨2⟩, ⟨9, 0, ⟨2⟩, 0⟩, ⟨0, 0, ⟨0⟩, 0⟩, ⟨0, 0, ⟨0⟩, 0⟩⟩]
  hosted := fun _ _ => rfl
  numbered := fun key => by
    by_cases hkey : key = ⟨⟨1⟩, ⟨1⟩, ⟨"USD"⟩⟩
    · subst hkey
      exact ⟨by decide, by decide⟩
    · have hnil : ∀ row : EffectiveBalanceSnapshot, row.key = ⟨⟨1⟩, ⟨1⟩, ⟨"USD"⟩⟩ →
          decide (row.key = key) = false := fun row hrow => decide_eq_false (hrow ▸ Ne.symm hkey)
      rw [List.filter_cons_of_neg (by rw [hnil _ rfl]; exact Bool.false_ne_true),
        List.filter_cons_of_neg (by rw [hnil _ rfl]; exact Bool.false_ne_true), List.filter_nil]
      exact ⟨List.nodup_nil, rfl⟩

end EffectiveLedger

end CalaLedger
