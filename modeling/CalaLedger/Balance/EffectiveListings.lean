import CalaLedger.Balance.ModifiedSince
import CalaLedger.Balance.RangeReads

/-! # Effective listings

The four listings of cumulative balances and of ranges fetch the closing rows of the balances past a
cursor. Sorted by account and currency these ascend strictly (`rowsForAccounts_ascending`), the
cursor of a page is that of its last item, and a range page sorts what it files by the same order,
so the pages put together are the closing rows, read as the point reads would
(`effective_listings_complete`). -/

namespace CalaLedger

open Foundations

/-- The balances with a row up to a day, by account and currency. -/
structure KeysUpTo (ledger : EffectiveLedger) (journalId : JournalId) (accountIds : List AccountId)
    (day : NaiveDate) (keys : List BalanceKey) : Prop where
  ascending : keys.Pairwise (fun a b => a.cursor < b.cursor)
  mem : ∀ key, key ∈ keys ↔ key.journalId = journalId ∧ key.accountId ∈ accountIds
    ∧ ∃ row ∈ ledger.history key, row.effective ≤ day

/-- **A complete listing**: no page panics, the pages come to an end, and put together they are what
the point read gives for the balances with a row up to the day. -/
def ListsAll {α γ : Type} (ledger : EffectiveLedger) (journalId : JournalId)
    (accountIds : List AccountId) (day : NaiveDate) (page : Option γ → Option (Page α γ))
    (read : BalanceKey → Option (Except BalanceReadError α)) : Prop :=
  ∃ keys out pages, KeysUpTo ledger journalId accountIds day keys
    ∧ keys.map read = out.map (fun item => some (.ok item))
    ∧ (∀ after, page after = some (pages after))
    ∧ ∀ out', ReadBy pages none out' ↔ out' = out

namespace EffectiveLedger

variable {ledger : EffectiveLedger} {journalId : JournalId} {accountId : AccountId}
  {accountIds : List AccountId} {day fromDay today : NaiveDate} {untilDay : Option NaiveDate}
  {scan : IterationOrder RangeRow}
  {iteration : IterationOrder (Sigma fun _ : BalanceKey => RangeBounds)}

/-- A listing made of the pages of strictly ascending closing rows is complete. -/
theorem listsAll_of_pageOf {α γ : Type} [LinearOrder γ]
    (item : EffectiveBalanceSnapshot × DebitOrCredit → α) (cursor : α → γ)
    {rows : List (EffectiveBalanceSnapshot × DebitOrCredit)}
    {rowCursor : EffectiveBalanceSnapshot × DebitOrCredit → γ} {first : ℕ}
    {page : Option γ → Option (Page α γ)}
    {read : BalanceKey → Option (Except BalanceReadError α)} (hfirst : 0 < first)
    (hrows : rows.Pairwise (fun a b => rowCursor a < rowCursor b))
    (hcursor : ∀ row, cursor (item row) = rowCursor row)
    (hkeys : KeysUpTo ledger journalId accountIds day (rows.map (fun row => row.1.key)))
    (hread : ∀ row ∈ rows, read row.1.key = some (.ok (item row)))
    (hpage : ∀ after, page after = some (pageOf cursor
      ((rows.filter (fun row => past after (rowCursor row))).map item) first)) :
    ListsAll ledger journalId accountIds day page read := by
  refine ⟨_, rows.map item, _, hkeys, ?_, hpage, fun out' => ?_⟩
  · rw [List.map_map, List.map_map]
    exact List.map_congr_left hread
  · have hall : (rows.map item).Pairwise (fun a b => cursor a < cursor b) := by
      rw [List.pairwise_map]
      exact hrows.imp (fun hlt => by rwa [hcursor, hcursor])
    have hpages : ∀ n (after : Option γ), pageOf cursor
        ((rows.filter (fun row => past after (rowCursor row))).map item) n
          = pageOf cursor ((rows.map item).filter (fun a => past after (cursor a))) n := by
      intro n after
      rw [List.filter_map]
      refine congrArg (fun kept => pageOf cursor (kept.map item) n)
        (List.filter_congr (fun row _ => ?_))
      rw [Function.comp_apply, hcursor]
    have hwhole : (rows.map item).filter (fun a => past none (cursor a)) = rows.map item :=
      List.filter_eq_self.mpr (fun _ _ => rfl)
    rw [readBy_iff hall hpages hfirst, hwhole]

/-! ## The closing rows -/

/-- A cursor leaves the rows past it. -/
theorem rowsForAccounts_after (after : Option AccountBalanceCursor) :
    ledger.rowsForAccounts journalId accountIds day after
      = (ledger.rowsForAccounts journalId accountIds day none).filter
          (fun row => past after row.1.key.cursor) := by
  refine ascending_ext (rowsForAccounts_ascending after)
    ((rowsForAccounts_ascending none).filter _) (fun row => ?_)
  rw [List.mem_filter, mem_rowsForAccounts, mem_rowsForAccounts]
  exact and_congr_left (fun _ => (and_iff_left rfl).symm)

/-- The balances of the closing rows are those with a row up to the day. -/
theorem exists_closing_iff {key : BalanceKey} :
    (∃ accountId ∈ accountIds, ∃ row ∈ ledger.latestOfAccount journalId day accountId,
        row.1.key = key)
      ↔ key.journalId = journalId ∧ key.accountId ∈ accountIds
        ∧ ∃ row ∈ ledger.history key, row.effective ≤ day := by
  constructor
  · rintro ⟨accountId, haccount, row, hrow, rfl⟩
    obtain ⟨-, hjournal, rfl, hlast⟩ := mem_latestOfAccount.mp hrow
    obtain ⟨hmem, hday⟩ := lastRow_mem hlast
    exact ⟨hjournal, haccount, row.1, hmem, of_decide_eq_true hday⟩
  · rintro ⟨hjournal, haccount, row, hrow, hday⟩
    obtain ⟨kind, hkind⟩ := exists_kind hrow
    have hsome : (ledger.lastRow key (· ≤ day)).isSome := by
      rw [lastRow_isSome]
      exact ⟨row, hrow, decide_eq_true hday⟩
    obtain ⟨last, hlast⟩ := Option.isSome_iff_exists.mp hsome
    have hkey := key_of_mem_history (lastRow_mem hlast).1
    refine ⟨key.accountId, haccount, (last, kind), mem_latestOfAccount.mpr ?_, hkey⟩
    rw [hkey]
    exact ⟨hkind, hjournal, rfl, hlast⟩

variable (ledger journalId accountIds day) in
theorem keysUpTo_rowsForAccounts : KeysUpTo ledger journalId accountIds day
    ((ledger.rowsForAccounts journalId accountIds day none).map (fun row => row.1.key)) where
  ascending := List.pairwise_map.mpr (rowsForAccounts_ascending none)
  mem := fun key => by
    rw [← exists_closing_iff, List.mem_map]
    simp only [mem_rowsForAccounts]
    constructor
    · rintro ⟨row, ⟨⟨accountId, haccount, hrow⟩, -⟩, rfl⟩
      exact ⟨accountId, haccount, row, hrow, rfl⟩
    · rintro ⟨accountId, haccount, row, hrow, rfl⟩
      exact ⟨row, ⟨⟨accountId, haccount, hrow⟩, rfl⟩, rfl⟩

variable (ledger journalId accountId day) in
theorem keysUpTo_latestOfAccount : KeysUpTo ledger journalId [accountId] day
    ((ledger.latestOfAccount journalId day accountId).map (fun row => row.1.key)) where
  ascending := by
    rw [List.pairwise_map]
    refine latestOfAccount_ascending.imp_of_mem (fun {a b} ha hb hlt => ?_)
    rw [BalanceKey.cursor, BalanceKey.cursor, (mem_latestOfAccount.mp ha).2.2.1,
      (mem_latestOfAccount.mp hb).2.2.1]
    exact Prod.Lex.toLex_lt_toLex.mpr (Or.inr ⟨rfl, hlt⟩)
  mem := fun key => by
    rw [← exists_closing_iff, List.mem_map]
    simp only [List.mem_singleton, exists_eq_left]

/-! ## What the point reads give -/

theorem findInOp_closing {row : EffectiveBalanceSnapshot × DebitOrCredit}
    (hrow : row ∈ ledger.latestOfAccount journalId day accountId) :
    ledger.findInOp row.1.key day = .ok ⟨row.2, row.1.values⟩ := by
  obtain ⟨hkind, -, haccount, hlast⟩ := mem_latestOfAccount.mp hrow
  rw [findInOp, haccount, hkind, hlast]

/-- A window whose beginning is not after its end has no day between. -/
theorem noneBetween_of_le {key : BalanceKey} {endDay : NaiveDate} (h : fromDay ≤ endDay) :
    ledger.NoneBetween key fromDay endDay :=
  fun _ _ hbetween => absurd (hbetween.1.trans hbetween.2) (not_lt.mpr h)

theorem findInRange_closing {row : EffectiveBalanceSnapshot × DebitOrCredit}
    (hwindow : fromDay ≤ untilDay.getD today)
    (hrow : row ∈ ledger.latestOfAccount journalId (untilDay.getD today) accountId) :
    ledger.findInRange scan today row.1.key fromDay untilDay
      = some (.ok (ledger.rangeTo fromDay (untilDay.getD today) row.2 row.1)) := by
  obtain ⟨hkind, -, haccount, hlast⟩ := mem_latestOfAccount.mp hrow
  rw [findInRange_eq (haccount ▸ hkind), if_pos (noneBetween_of_le hwindow), hlast]

end EffectiveLedger

/-! ## The listings -/

/-- **Effective listings are complete and agree with the point reads**, for every page size and, for
ranges, every window whose beginning is not after its end. -/
theorem effective_listings_complete (ledger : EffectiveLedger) (scan : IterationOrder RangeRow)
    (iteration : IterationOrder (Sigma fun _ : BalanceKey => RangeBounds)) (today : NaiveDate)
    (journalId : JournalId) (accountId : AccountId) (accountIds : List AccountId)
    (date fromDay : NaiveDate) (untilDay : Option NaiveDate) (first : ℕ) (hfirst : 0 < first) :
    ListsAll ledger journalId [accountId] date
        (fun after => some (ledger.listForAccount journalId accountId date first after))
        (fun key => some (ledger.findInOp key date))
      ∧ ListsAll ledger journalId accountIds date
        (fun after => some (ledger.listForAccounts journalId accountIds date first after))
        (fun key => some (ledger.findInOp key date))
      ∧ (fromDay ≤ untilDay.getD today →
        ListsAll ledger journalId [accountId] (untilDay.getD today)
            (fun after => ledger.listRangeForAccount scan iteration today journalId accountId
              fromDay untilDay first after)
            (fun key => ledger.findInRange scan today key fromDay untilDay)
          ∧ ListsAll ledger journalId accountIds (untilDay.getD today)
            (fun after => ledger.listRangeForAccounts scan iteration today journalId accountIds
              fromDay untilDay first after)
            (fun key => ledger.findInRange scan today key fromDay untilDay)) := by
  have hlisted : ∀ {day row}, row ∈ ledger.rowsForAccounts journalId accountIds day none →
      ∃ accountId, row ∈ ledger.latestOfAccount journalId day accountId := by
    intro day row hrow
    obtain ⟨⟨accountId, -, hrow⟩, -⟩ := EffectiveLedger.mem_rowsForAccounts.mp hrow
    exact ⟨accountId, hrow⟩
  refine ⟨?_, ?_, fun hwindow => ⟨?_, ?_⟩⟩
  · exact EffectiveLedger.listsAll_of_pageOf (fun row => ⟨row.2, row.1.values⟩)
      AccountBalance.byCurrencyCursor hfirst EffectiveLedger.latestOfAccount_ascending
      (fun _ => rfl) (ledger.keysUpTo_latestOfAccount journalId accountId date)
      (fun row hrow => congrArg some (EffectiveLedger.findInOp_closing hrow)) (fun after => rfl)
  · refine EffectiveLedger.listsAll_of_pageOf (fun row => ⟨row.2, row.1.values⟩)
      AccountBalance.cursor hfirst (EffectiveLedger.rowsForAccounts_ascending none) (fun _ => rfl)
      (ledger.keysUpTo_rowsForAccounts journalId accountIds date) (fun row hrow => ?_)
      (fun after => ?_)
    · obtain ⟨accountId, hrow⟩ := hlisted hrow
      exact congrArg some (EffectiveLedger.findInOp_closing hrow)
    · rw [← EffectiveLedger.rowsForAccounts_after]
      rfl
  · refine EffectiveLedger.listsAll_of_pageOf
      (fun row => ledger.rangeTo fromDay (untilDay.getD today) row.2 row.1)
      BalanceRange.byCurrencyCursor hfirst EffectiveLedger.latestOfAccount_ascending
      (fun row => ?_) (ledger.keysUpTo_latestOfAccount journalId accountId _)
      (fun row hrow => EffectiveLedger.findInRange_closing hwindow hrow) (fun after => ?_)
    · rw [BalanceRange.byCurrencyCursor, EffectiveLedger.close_rangeTo]
      rfl
    · exact ((EffectiveLedger.isClosing_rowsForAccount _ _ _ _ after).rangePage _ first).mpr
        ⟨fun _ _ => EffectiveLedger.noneBetween_of_le hwindow, rfl⟩
  · refine EffectiveLedger.listsAll_of_pageOf
      (fun row => ledger.rangeTo fromDay (untilDay.getD today) row.2 row.1) BalanceRange.cursor
      hfirst (EffectiveLedger.rowsForAccounts_ascending none) (fun row => ?_)
      (ledger.keysUpTo_rowsForAccounts journalId accountIds _) (fun row hrow => ?_)
      (fun after => ?_)
    · rw [BalanceRange.cursor, EffectiveLedger.close_rangeTo]
      rfl
    · obtain ⟨accountId, hrow⟩ := hlisted hrow
      exact EffectiveLedger.findInRange_closing hwindow hrow
    · rw [← EffectiveLedger.rowsForAccounts_after]
      exact ((EffectiveLedger.isClosing_rowsForAccounts _ _ _ _ after).rangePage _ first).mpr
        ⟨fun _ _ => EffectiveLedger.noneBetween_of_le hwindow, rfl⟩

/-- Pages of one range, read to their end. -/
theorem effective_listings_complete_twoDays :
    ListsAll EffectiveLedger.twoDays ⟨1⟩ [⟨1⟩] 2
        (fun after => EffectiveLedger.twoDays.listRangeForAccounts (.asStored _) (.asStored _) 10
          ⟨1⟩ [⟨1⟩] 1 (some 2) 1 after)
        (fun key => EffectiveLedger.twoDays.findInRange (.asStored _) 10 key 1 (some 2)) :=
  ((effective_listings_complete EffectiveLedger.twoDays (.asStored _) (.asStored _) 10 ⟨1⟩ ⟨1⟩
    [⟨1⟩] 2 1 (some 2) 1 (by decide)).2.2 (by decide)).2

/-! ## The table the ledger writes -/

section Replayed

variable {table : EffectiveTable} {timelines : BalanceKey → List DatedEntry}
  {rows : List EffectiveBalanceSnapshot}

/-- The rows of a replayed balance ascend by day and version. -/
theorem TableReplays.ascending_position (h : TableReplays table timelines) (key : BalanceKey) :
    (table key).Pairwise (fun a b => a.position < b.position) := by
  have hrows := rowsOf_strict (rowsOf_of_replayFrom (h.rows key)) (h.sorted key)
  rw [List.pairwise_map] at hrows
  exact hrows

/-- **A replayed table is numbered by day and version**, so the reads are those of an
`EffectiveLedger`. -/
theorem TableReplays.numbered (h : TableReplays table timelines) (hscan : Scans rows table)
    (key : BalanceKey) : Numbered EffectiveBalanceSnapshot.position
      EffectiveBalanceSnapshot.allTimeVersion (rows.filter (fun row => row.key = key)) := by
  have hsorted : sortBy EffectiveBalanceSnapshot.position
      (rows.filter (fun row => row.key = key)) = table key :=
    sortBy_eq_of_perm (hscan key) (h.ascending_position key)
  have hlength : (timelines key).length = (rows.filter (fun row => row.key = key)).length := by
    rw [(hscan key).length_eq, ← List.length_map (f := EffectiveBalanceSnapshot.allTimeVersion),
      h.map_allTimeVersion key, List.length_range']
  refine ⟨((hscan key).map _).nodup_iff.mpr ?_, ?_⟩
  · exact List.pairwise_map.mpr ((h.ascending_position key).imp ne_of_lt)
  · rw [hsorted, h.map_allTimeVersion key, hlength]

/-- The ledger of a replayed table whose balances have their accounts. -/
def EffectiveLedger.ofReplays (accounts : AccountTable) (h : TableReplays table timelines)
    (hscan : Scans rows table) (hosted : ∀ row ∈ rows, (accounts row.accountId).isSome) :
    EffectiveLedger where
  accounts := accounts
  rows := rows
  hosted := hosted
  numbered := h.numbered hscan

end Replayed

end CalaLedger
