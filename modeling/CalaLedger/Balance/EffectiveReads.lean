import CalaLedger.Balance.Effective
import CalaLedger.Foundations.HashMap
import CalaLedger.Foundations.Keyset
import CalaLedger.Foundations.Numbering
import Mathlib.Data.String.Basic

/-! # The reads of the cumulative effective table

`find`, the range reads and the listings of `EffectiveBalances`. A range read takes two rows of a
balance, the last one before the window (`first`) and the last one up to its end (`last`), and
subtracts the first from the last. Versions are unsigned: where the subtraction would go below zero
the source panics, which is the outer `none` here. The current day stands in for an absent
`until`. -/

namespace CalaLedger

open Foundations

/-- `AccountBalance`. -/
structure AccountBalance where
  balanceType : DebitOrCredit
  details : BalanceSnapshot
  deriving DecidableEq

/-- `AccountBalance::derive_diff`. -/
def AccountBalance.deriveDiff (self since : AccountBalance) : AccountBalance :=
  { self with
    details := self.details.mapLayers (fun layer amount =>
      { amount with
        drBalance := amount.drBalance - (since.details.layer layer).drBalance
        crBalance := amount.crBalance - (since.details.layer layer).crBalance }) }

/-- `BalanceRange`. -/
structure BalanceRange where
  opening : AccountBalance
  period : AccountBalance
  close : AccountBalance
  deriving DecidableEq

namespace BalanceRange

def zeroAmount : BalanceAmount :=
  { drBalance := 0, crBalance := 0, entryId := UNASSIGNED_ENTRY_ID, modifiedAt := 0 }

/-- The opening balance where nothing was posted before the window. -/
def zeroOpening (close : AccountBalance) : AccountBalance :=
  { balanceType := close.balanceType
    details :=
      { close.details with
        version := 0
        createdAt := 0
        modifiedAt := 0
        entryId := UNASSIGNED_ENTRY_ID
        settled := zeroAmount
        pending := zeroAmount
        encumbrance := zeroAmount } }

/-- `BalanceRange::new`. -/
def new (start : Option AccountBalance) (close : AccountBalance) (versionDiff : ℕ) : BalanceRange :=
  match start with
  | some start =>
      let period := close.deriveDiff start
      { close := close
        period := { period with details := { period.details with version := versionDiff } }
        opening := start }
  | none =>
      { period := { close with details := { close.details with version := versionDiff } }
        close := close
        opening := zeroOpening close }

end BalanceRange

/-- Subtraction of unsigned integers; `none` is the panic of an underflow. -/
def u32Sub (a b : ℕ) : Option ℕ := if b ≤ a then some (a - b) else none

/-- What the bounds of a range are read into: `(start, start_version, end, end_version)`. -/
structure RangeBounds where
  first : Option AccountBalance := none
  firstVersion : ℕ := 0
  last : Option AccountBalance := none
  lastVersion : ℕ := 0

/-- `BalanceRange::from_bounds`: without a closing balance there is no range, and nothing is
subtracted. -/
def BalanceRange.fromBounds (bounds : RangeBounds) : Option (Option BalanceRange) :=
  match bounds.last with
  | none => some none
  | some last =>
      (u32Sub bounds.lastVersion bounds.firstVersion).map
        (fun versionDiff => some (BalanceRange.new bounds.first last versionDiff))

/-- A row of a range query, tagged with the sub-query it comes from. -/
structure RangeRow where
  first : Bool
  details : BalanceSnapshot
  normalBalanceType : DebitOrCredit
  allTimeVersion : ℕ

def RangeRow.balance (row : RangeRow) : AccountBalance := ⟨row.normalBalanceType, row.details⟩

/-- The body of the loop over the rows of a range query. -/
def RangeBounds.add (bounds : RangeBounds) (row : RangeRow) : RangeBounds :=
  if row.first then
    { bounds with first := some row.balance, firstVersion := row.allTimeVersion }
  else
    { bounds with last := some row.balance, lastVersion := row.allTimeVersion }

/-- `BalanceError::NotFound`, the error of the point reads. -/
inductive BalanceReadError
  | notFound (journalId : JournalId) (accountId : AccountId) (currency : Currency)
  deriving DecidableEq

def BalanceKey.notFound (key : BalanceKey) : BalanceReadError :=
  .notFound key.journalId key.accountId key.currency

/-! ## Orders and cursors -/

instance Currency.linearOrder : LinearOrder Currency :=
  LinearOrder.lift' Currency.code (fun ⟨_⟩ ⟨_⟩ h => congrArg Currency.mk h)

/-- `ORDER BY effective, version`. -/
def EffectiveBalanceSnapshot.position (row : EffectiveBalanceSnapshot) : NaiveDate ×ₗ ℕ :=
  toLex (row.effective, row.version)

/-- `AccountBalanceByCurrencyCursor`, ordered by its currency. -/
abbrev AccountBalanceByCurrencyCursor := Currency

/-- `AccountBalanceCursor`: the account, then the currency. -/
abbrev AccountBalanceCursor := AccountId ×ₗ Currency

def BalanceKey.cursor (key : BalanceKey) : AccountBalanceCursor :=
  toLex (key.accountId, key.currency)

namespace AccountBalance

/-- `AccountBalanceByCurrencyCursor::from(&AccountBalance)`. -/
def byCurrencyCursor (balance : AccountBalance) : AccountBalanceByCurrencyCursor :=
  balance.details.currency

/-- `AccountBalanceCursor::from(&AccountBalance)`. -/
def cursor (balance : AccountBalance) : AccountBalanceCursor := balance.details.key.cursor

end AccountBalance

namespace BalanceRange

/-- `AccountBalanceByCurrencyCursor::from(&BalanceRange)`. -/
def byCurrencyCursor (range : BalanceRange) : AccountBalanceByCurrencyCursor :=
  range.close.byCurrencyCursor

/-- `AccountBalanceCursor::from(&BalanceRange)`. -/
def cursor (range : BalanceRange) : AccountBalanceCursor := range.close.cursor

/-- The key the ranges of a page are sorted by. -/
def sortKey (range : BalanceRange) : JournalId ×ₗ AccountId ×ₗ Currency :=
  toLex (range.close.details.journalId,
    toLex (range.close.details.accountId, range.close.details.currency))

end BalanceRange

/-! ## The table -/

/-- `cala_cumulative_effective_balances` with the accounts its readers join: every row has its
account, and all-time versions number the rows of a balance by day and version. -/
structure EffectiveLedger where
  accounts : AccountTable
  rows : List EffectiveBalanceSnapshot
  hosted : ∀ row ∈ rows, (accounts row.accountId).isSome
  numbered : ∀ key, Numbered EffectiveBalanceSnapshot.position
    EffectiveBalanceSnapshot.allTimeVersion (rows.filter (fun row => row.key = key))

namespace EffectiveLedger

variable (ledger : EffectiveLedger)

/-- The rows of one balance. -/
def history (key : BalanceKey) : List EffectiveBalanceSnapshot :=
  ledger.rows.filter (fun row => row.key = key)

/-- `ORDER BY effective DESC, version DESC LIMIT 1` on some days. -/
def lastRow (key : BalanceKey) (days : NaiveDate → Bool) : Option EffectiveBalanceSnapshot :=
  ((ledger.history key).filter (fun row => days row.effective)).argmax
    EffectiveBalanceSnapshot.position

/-- The column joined from `cala_accounts`. -/
def normalBalanceType (accountId : AccountId) : Option DebitOrCredit :=
  (ledger.accounts accountId).map AccountRow.normalBalanceType

/-- Balances joined with their accounts: `balance_ids` of `find_range_all`. -/
def joined (ids : List BalanceKey) : List (BalanceKey × DebitOrCredit) :=
  ids.filterMap (fun key => (ledger.normalBalanceType key.accountId).map (fun kind => (key, kind)))

/-! ## Point reads -/

/-- `EffectiveBalanceRepo::find_in_op`. -/
def findInOp (key : BalanceKey) (date : NaiveDate) : Except BalanceReadError AccountBalance :=
  match ledger.normalBalanceType key.accountId, ledger.lastRow key (· ≤ date) with
  | some kind, some row => .ok ⟨kind, row.values⟩
  | _, _ => .error key.notFound

/-- `first UNION ALL last`: for every balance the last row before the window, and the last one up to
its end. -/
def rangeRows (balanceIds : List (BalanceKey × DebitOrCredit)) (fromDay endDay : NaiveDate) :
    List RangeRow :=
  let tagged := fun (first : Bool) (days : NaiveDate → Bool) =>
    balanceIds.filterMap (fun id => (ledger.lastRow id.1 days).map (fun row =>
      (⟨first, row.values, id.2, row.allTimeVersion⟩ : RangeRow)))
  tagged true (· < fromDay) ++ tagged false (· ≤ endDay)

variable (scan : IterationOrder RangeRow)
  (iteration : IterationOrder (Sigma fun _ : BalanceKey => RangeBounds)) (today : NaiveDate)

/-- `EffectiveBalanceRepo::find_range`. -/
def findRange (key : BalanceKey) (fromDay : NaiveDate) (untilDay : Option NaiveDate) :
    Option (Option AccountBalance × Option AccountBalance × ℕ) := do
  let rows := scan.arrange (ledger.rangeRows (ledger.joined [key]) fromDay (untilDay.getD today))
  let bounds := rows.foldl RangeBounds.add {}
  -- subtracted whether there is a closing row or not
  let versionDiff ← u32Sub bounds.lastVersion bounds.firstVersion
  some (bounds.first, bounds.last, versionDiff)

/-- `EffectiveBalances::find_in_range`. -/
def findInRange (key : BalanceKey) (fromDay : NaiveDate) (untilDay : Option NaiveDate) :
    Option (Except BalanceReadError BalanceRange) :=
  (ledger.findRange scan today key fromDay untilDay).map (fun
    | (start, some close, versionDiff) => .ok (BalanceRange.new start close versionDiff)
    | _ => .error key.notFound)

/-! ## Reads of several balances -/

/-- The loop that files the rows of a range query under their balances. -/
def collectRanges (rows : List RangeRow) : HashMap BalanceKey RangeBounds :=
  rows.foldl (fun ret row => upsert ret row.details.key {} (fun bounds => bounds.add row)) ∅

/-- `EffectiveBalanceRepo::find_range_all`. -/
def findRangeAll (ids : List BalanceKey) (fromDay : NaiveDate) (untilDay : Option NaiveDate) :
    HashMap BalanceKey RangeBounds :=
  collectRanges
    (scan.arrange (ledger.rangeRows (ledger.joined ids) fromDay (untilDay.getD today)))

/-- `EffectiveBalances::find_all_in_range`. -/
def findAllInRange (ids : List BalanceKey) (fromDay : NaiveDate) (untilDay : Option NaiveDate) :
    Option (HashMap BalanceKey BalanceRange) := do
  let ranges := ledger.findRangeAll scan today ids fromDay untilDay
  let found ← (iteration.arrange ranges.entries).mapM (fun entry =>
    (BalanceRange.fromBounds entry.2).map (fun range => range.map (fun range => (entry.1, range))))
  some (found.reduceOption.foldl (fun ret pair => ret.insert pair.1 pair.2) ∅)

/-- `EffectiveBalanceRepo::balance_ranges_from_snapshots`. -/
def balanceRangesFromSnapshots (ranges : HashMap BalanceKey RangeBounds) :
    Option (List BalanceRange) := do
  let found ← (iteration.arrange ranges.entries).mapM
    (fun entry => BalanceRange.fromBounds entry.2)
  some (sortBy BalanceRange.sortKey found.reduceOption)

/-! ## Listings -/

/-- The lateral sub-query: of every currency of an account the last row up to a day, in the order of
the currencies. -/
def latestOfAccount (journalId : JournalId) (endDay : NaiveDate) (accountId : AccountId) :
    List (EffectiveBalanceSnapshot × DebitOrCredit) :=
  match ledger.normalBalanceType accountId with
  | none => []
  | some kind =>
      (distinctOn EffectiveBalanceSnapshot.currency EffectiveBalanceSnapshot.position
        (ledger.rows.filter (fun row => row.journalId = journalId ∧ row.accountId = accountId
          ∧ row.effective ≤ endDay))).map (fun row => (row, kind))

/-- The rows of one account past a cursor, `ORDER BY currency`. -/
def rowsForAccount (journalId : JournalId) (accountId : AccountId) (endDay : NaiveDate)
    (after : Option AccountBalanceByCurrencyCursor) :
    List (EffectiveBalanceSnapshot × DebitOrCredit) :=
  (ledger.latestOfAccount journalId endDay accountId).filter (fun row => past after row.1.currency)

/-- The rows of several accounts past a cursor, `ORDER BY account_id, currency`. -/
def rowsForAccounts (journalId : JournalId) (accountIds : List AccountId) (endDay : NaiveDate)
    (after : Option AccountBalanceCursor) : List (EffectiveBalanceSnapshot × DebitOrCredit) :=
  sortBy (fun row => row.1.key.cursor)
    ((accountIds.dedup.flatMap (ledger.latestOfAccount journalId endDay)).filter
      (fun row => past after row.1.key.cursor))

/-- `EffectiveBalanceRepo::list_for_account`. -/
def listForAccount (journalId : JournalId) (accountId : AccountId) (date : NaiveDate) (first : ℕ)
    (after : Option AccountBalanceByCurrencyCursor) :
    Page AccountBalance AccountBalanceByCurrencyCursor :=
  pageOf AccountBalance.byCurrencyCursor
    ((ledger.rowsForAccount journalId accountId date after).map (fun row => ⟨row.2, row.1.values⟩))
    first

/-- `EffectiveBalanceRepo::list_for_accounts`. -/
def listForAccounts (journalId : JournalId) (accountIds : List AccountId) (date : NaiveDate)
    (first : ℕ) (after : Option AccountBalanceCursor) : Page AccountBalance AccountBalanceCursor :=
  pageOf AccountBalance.cursor
    ((ledger.rowsForAccounts journalId accountIds date after).map
      (fun row => ⟨row.2, row.1.values⟩)) first

/-- The rest of both range listings, from `balance_ids` on. -/
def rangePage {γ : Type} (cursor : BalanceRange → γ)
    (balanceIds : List (BalanceKey × DebitOrCredit)) (fromDay endDay : NaiveDate) (first : ℕ) :
    Option (Page BalanceRange γ) := do
  let ranges := collectRanges (scan.arrange (ledger.rangeRows balanceIds fromDay endDay))
  let hasNextPage : Bool := first < ranges.entries.length
  let entities ← balanceRangesFromSnapshots iteration ranges
  let entities := entities.take first
  some
    { entities := entities
      hasNextPage := hasNextPage
      endCursor := entities.getLast?.map cursor }

/-- `EffectiveBalanceRepo::list_range_for_account`. -/
def listRangeForAccount (journalId : JournalId) (accountId : AccountId) (fromDay : NaiveDate)
    (untilDay : Option NaiveDate) (first : ℕ) (after : Option AccountBalanceByCurrencyCursor) :
    Option (Page BalanceRange AccountBalanceByCurrencyCursor) :=
  let balanceIds :=
    ((ledger.rowsForAccount journalId accountId (untilDay.getD today) after).take (first + 1)).map
      (fun row => (row.1.key, row.2))
  ledger.rangePage scan iteration BalanceRange.byCurrencyCursor balanceIds fromDay
    (untilDay.getD today) first

/-- `EffectiveBalanceRepo::list_range_for_accounts`. -/
def listRangeForAccounts (journalId : JournalId) (accountIds : List AccountId)
    (fromDay : NaiveDate) (untilDay : Option NaiveDate) (first : ℕ)
    (after : Option AccountBalanceCursor) : Option (Page BalanceRange AccountBalanceCursor) :=
  let balanceIds :=
    ((ledger.rowsForAccounts journalId accountIds (untilDay.getD today) after).take
      (first + 1)).map (fun row => (row.1.key, row.2))
  ledger.rangePage scan iteration BalanceRange.cursor balanceIds fromDay (untilDay.getD today)
    first

end EffectiveLedger

end CalaLedger
