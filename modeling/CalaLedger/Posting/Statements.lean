import CalaLedger.AccountSet.GraphCache
import CalaLedger.AdvisoryLocks
import CalaLedger.Foundations.Dialogue
import CalaLedger.Posting.TemplateCache
import Mathlib.Data.Countable.Basic
import Mathlib.Logic.Equiv.List

/-! # The statements of the posting flow

What `Postings::post_all_in_op` sends to the database: each statement with its arguments, what it
returns (`answer`), the rows it leaves (`apply`) and the locks it takes (`lockRequests`). -/

namespace CalaLedger

/-! ## Lock orders -/

/-- The order of `BalanceKeys::sorted_deduped`, which is that of the fence. -/
def BalanceKey.lockOrder (key : BalanceKey) : AccountId ×ₗ (String ×ₗ JournalId) :=
  toLex (key.accountId, toLex (key.currency.code, key.journalId))

/-- `BalanceKeys::sorted_deduped`. -/
def sortedDeduped (keys : List BalanceKey) : List BalanceKey :=
  (Foundations.sortBy BalanceKey.lockOrder keys).dedup

/-- How `serde_json` displays a partition window; distinct windows are displayed differently. -/
structure JsonDisplay where
  window : Window → String
  injective : Function.Injective window

theorem JsonDisplay.nonempty : Nonempty JsonDisplay := by
  have hchar : Countable Char :=
    Function.Injective.countable (fun a b (h : a.toNat = b.toNat) => Char.toNat_inj.mp h)
  let texts (window : Window) : List (List Char × List Char) :=
    window.map (fun field => (field.1.toList, field.2.text.toList))
  have htexts : Function.Injective texts := by
    refine List.map_injective_iff.mpr (fun field field' h => ?_)
    obtain ⟨hname, hvalue⟩ := Prod.mk.inj h
    exact Prod.ext (String.toList_injective hname)
      (congrArg JsonText.mk (String.toList_injective hvalue))
  obtain ⟨code, hcode⟩ := exists_injective_nat (List (List Char × List Char))
  -- the number of blanks tells the windows apart
  refine ⟨⟨fun window => String.ofList (List.replicate (code (texts window)) ' '), ?_⟩⟩
  intro window window' h
  have hlength := congrArg (fun text : String => text.toList.length) h
  simp only [String.toList_ofList, List.length_replicate] at hlength
  exact htexts (hcode hlength)

/-- The order in which `find_for_update` locks velocity balances. -/
def VelocityBalanceKey.lockOrder (display : JsonDisplay) (key : VelocityBalanceKey) :
    AccountId ×ₗ (VelocityControlId ×ₗ (VelocityLimitId ×ₗ (String ×ₗ (JournalId ×ₗ String)))) :=
  toLex (key.accountId, toLex (key.controlId, toLex (key.limitId, toLex (key.currency.code,
    toLex (key.journalId, display.window key.window)))))

/-! ## Statements -/

/-- What the ancestor phase reads. -/
structure AncestorState where
  accounts : AccountId → Option AccountMeta
  balances : BalanceKey → Option BalanceSnapshot
  controls : ControlTable

/-- What was read before, with the supplemental read merged in. -/
def PostingState.extend (read : PostingState) (supplemental : AncestorState) : PostingState :=
  { read with
    accounts := fun accountId => (supplemental.accounts accountId).or (read.accounts accountId)
    balances := fun key => (supplemental.balances key).or (read.balances key)
    controls := fun accountId => (supplemental.controls accountId).or (read.controls accountId) }

/-- The statements of the flow. -/
inductive PostingStatement
  | resolveTemplates (codes : List String)
  | lockBalancesAndProbeTemplates (keys : List BalanceKey) (codes : List String)
  | readPostingState (accountIds : List AccountId) (journalIds : List JournalId)
      (keys : List BalanceKey)
  | walkMappingsAndLock (journalId : JournalId) (entryPairs : List (AccountId × Currency))
  | fetchSetGraphNodes (setIds : List AccountSetId)
  | lockResolvedAncestors (journalId : JournalId) (pairs : List (AccountSetId × Currency))
  | readAncestorState (setAccountIds : List AccountId) (keys : List BalanceKey)
  | lockVelocityBalances (keys : List VelocityBalanceKey)
  | readVelocityBalances (keys : List VelocityBalanceKey)
  | insertVelocitySnapshots (newBalances : List (VelocityBalanceKey × List BalanceSnapshot))
  | insertPostingsAndBalances (postings : List HydratedPosting) (snapshots : List BalanceSnapshot)
  | insertSnapshots (snapshots : List BalanceSnapshot)
  /-- deletes the rows after the day and returns them -/
  | findEffectiveForUpdate (journalId : JournalId) (balanceIds : List (AccountId × Currency))
      (effective : NaiveDate)
  | insertEffectiveSnapshots (newBalances : List EffectiveBalanceSnapshot)
  | publishAll (payloads : List OutboxEventPayload)

/-- The nodes `fetch_set_graph_nodes_in_op` returns: each set with each of its parents. -/
def LedgerDirectory.setGraphNodes (directory : LedgerDirectory) (setIds : List AccountSetId) :
    List SetGraphNode :=
  setIds.flatMap (fun setId =>
    match directory.memberships.accountSets setId, directory.accounts (AccountId.ofSet setId) with
    | some journalId, some row =>
        let parents := directory.memberships.parents setId
        (if parents = [] then [none] else parents.map some).map (fun parentId =>
          ⟨setId, journalId, row.eventuallyConsistent, parentId⟩)
    | _, _ => [])

namespace PostingStatement

/-- What a statement returns. -/
abbrev Answer : PostingStatement → Type
  | resolveTemplates _ => String → Option ResolvedTemplate
  | lockBalancesAndProbeTemplates _ _ => Timestamp × (String → Option (TxTemplateId × ℕ))
  | readPostingState _ _ _ => ℤ × PostingState
  | walkMappingsAndLock _ _ => AccountSetMappings
  | fetchSetGraphNodes _ => List SetGraphNode
  | readAncestorState _ _ => AncestorState
  | readVelocityBalances _ => VelocityBalanceKey → Option BalanceSnapshot
  | findEffectiveForUpdate _ _ _ => HashMap (AccountId × Currency) EffectiveBalanceData
  | _ => Unit

/-- Whether a statement inserts, updates or deletes rows. -/
def writes : PostingStatement → Bool
  | insertVelocitySnapshots _ => true
  | insertPostingsAndBalances _ _ => true
  | insertSnapshots _ => true
  | findEffectiveForUpdate _ _ _ => true
  | insertEffectiveSnapshots _ => true
  | publishAll _ => true
  | _ => false

/-- The rows a statement leaves; `none` when it violates a constraint. Of the outbox the model keeps
which events are in it, behind one another; when each is delivered is left to the outbox. -/
def apply (db : LedgerDb) : PostingStatement → Option LedgerDb
  | insertVelocitySnapshots newBalances =>
      (CalaLedger.insertVelocitySnapshots db.velocityBalances newBalances).map (fun table =>
        { db with velocityBalances := table })
  | insertPostingsAndBalances postings snapshots =>
      if FreshRows db postings then
        (insertSnapshotsInOp db.balances snapshots).map (fun balances =>
          { db with
            balances := balances
            transactions := db.transactions ++ postings.map Prod.fst
            entries := db.entries ++ postings.flatMap Prod.snd })
      else
        none
  | insertSnapshots snapshots =>
      (insertSnapshotsInOp db.balances snapshots).map (fun balances =>
        { db with balances := balances })
  | findEffectiveForUpdate journalId balanceIds effective =>
      some { db with
        effectiveBalances := (findForUpdate (default : RowOrder).toScanOrder db.accounts
          db.effectiveBalances journalId balanceIds effective).1 }
  | insertEffectiveSnapshots newBalances =>
      (insertNewEffectiveSnapshots db.effectiveBalances newBalances).map (fun table =>
        { db with effectiveBalances := table })
  | publishAll payloads => some { db with outbox := db.outbox ++ payloads }
  | _ => some db

/-- What a statement returns on some rows, at a time. -/
def answer (order : RowOrder) (now : Timestamp) (db : LedgerDb) :
    (statement : PostingStatement) → statement.Answer
  | resolveTemplates codes =>
      onlyKeys codes (fun code => (db.templates code).map TemplateSessions.newTemplate)
  | lockBalancesAndProbeTemplates _ codes =>
      (now, TemplateCache.probe (onlyKeys codes (fun code =>
        (db.templates code).map TemplateSessions.newTemplate)))
  | readPostingState accountIds journalIds keys =>
      (db.memberships.epoch, readPostingStateInOp db accountIds journalIds keys)
  | walkMappingsAndLock journalId entryPairs => fun accountId =>
      if ∃ pair ∈ entryPairs, pair.1 = accountId then
        order.walk accountId (db.memberships.walkMappings journalId accountId)
      else
        []
  | fetchSetGraphNodes setIds => db.setGraphNodes setIds
  | lockResolvedAncestors _ _ => ()
  | readAncestorState setAccountIds keys =>
      { accounts := onlyKeys setAccountIds (fun id => (db.accounts id).map AccountRow.toMeta)
        balances := onlyKeys keys db.balances.value
        controls := onlyKeys setAccountIds db.accountControls }
  | lockVelocityBalances _ => ()
  | readVelocityBalances keys => onlyKeys keys db.velocityBalances.value
  | insertVelocitySnapshots _ => ()
  | insertPostingsAndBalances _ _ => ()
  | insertSnapshots _ => ()
  | findEffectiveForUpdate journalId balanceIds effective =>
      (findForUpdate order.toScanOrder db.accounts db.effectiveBalances journalId balanceIds
        effective).2
  | insertEffectiveSnapshots _ => ()
  | publishAll _ => ()

/-- The locks of the fence on one row: the account, shared, and the balance unless the rollup writes
it. -/
def fenceLocks (accounts : AccountTable) (key : BalanceKey) : List AdvisoryLock :=
  match accounts key.accountId with
  | none => []
  | some row =>
      lockShared (.fence key.accountId)
        :: if row.eventuallyConsistent then [] else [lockExclusive (.balance key)]

/-- The pairs `walk_mappings_and_lock_in_op` locks: the non-EC ancestors of each entry account, in
its currencies. -/
def walkLockPairs (db : LedgerDb) (journalId : JournalId)
    (entryPairs : List (AccountId × Currency)) : List (AccountSetId × Currency) :=
  Foundations.sortBy SetGraphCache.pairOrder (entryPairs.flatMap (fun pair =>
    ((db.memberships.walkMappings journalId pair.1).filter (fun setId =>
      db.accounts.consistency false (AccountId.ofSet setId))).map (fun setId =>
        (setId, pair.2)))).dedup

/-- The lock on a balance of a set. -/
def ancestorLock (journalId : JournalId) (pair : AccountSetId × Currency) : AdvisoryLock :=
  lockExclusive (.balance ⟨journalId, AccountId.ofSet pair.1, pair.2⟩)

/-- The locks a statement requests, in order. -/
def lockRequests (db : LedgerDb) : PostingStatement → List AdvisoryLock
  | lockBalancesAndProbeTemplates keys _ =>
      (Foundations.sortBy BalanceKey.lockOrder keys).flatMap (fenceLocks db.accounts)
  | walkMappingsAndLock journalId entryPairs =>
      (walkLockPairs db journalId entryPairs).map (ancestorLock journalId)
  | lockResolvedAncestors journalId pairs => pairs.map (ancestorLock journalId)
  | lockVelocityBalances keys => keys.map (fun key => lockExclusive (.velocity key))
  | _ => []

/-- Reads and locks leave every row as it is. -/
theorem apply_of_reads {statement : PostingStatement} (h : ¬ statement.writes) (db : LedgerDb) :
    statement.apply db = some db := by
  cases statement <;> first | rfl | exact (h rfl).elim

end PostingStatement

end CalaLedger
