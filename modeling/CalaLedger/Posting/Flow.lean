import CalaLedger.Balance.EcRollup
import CalaLedger.TxTemplate
import CalaLedger.Velocity.Balance

/-! # The posting flow

`Postings::post_all_in_op`, phase by phase: prepare, read, validate, resolve ancestors, fold the
balances, enforce velocity, insert, update the effective balances, publish. Locks order concurrent
operations and leave no trace in the result of one, so they are not part of this flow.

A template is never changed or deleted; the flow is given the stored bodies. Which body it takes from
the cache of its process is the subject of `Posting.TemplateCache`. -/

namespace CalaLedger

/-- The tables one operation of the ledger sees. The outbox collects the published events; it delivers
them by sequences drawn before the commits, so the order of the list is not that of a delivery. -/
structure LedgerDb extends LedgerDirectory, BalanceTables where
  templates : String → Option TxTemplateValues
  accountControls : ControlTable
  velocityBalances : VelocityTable
  transactions : List TransactionValues
  entries : List EntryValues
  outbox : List OutboxEventPayload

/-- One transaction to post. -/
structure PostingInput where
  txId : TransactionId
  txTemplateCode : String
  params : Params

/-- The business-level reason a posting was rejected. -/
inductive RejectionReason
  | txTemplate (error : TxTemplateError)
  | accountNotFound (accountId : AccountId)
  | entryTargetsAccountSet (accountId : AccountId)
  | accountLocked (accountId : AccountId)
  | journalLocked (journalId : JournalId)
  | journalNotFound (journalId : JournalId)
  | duplicateTransactionIdInBatch (txId : TransactionId)
  | duplicateExternalIdInBatch (externalId : String)
  deriving DecidableEq

/-- `panicked` stands for the `expect` of `prepare_all`, which no batch reaches. -/
inductive PostingError
  | duplicateKey
  | txTemplateError (error : TxTemplateError)
  | velocityError (error : VelocityError)
  | balanceError (error : BalanceError)
  | rejected (index : ℕ) (txId : TransactionId) (reason : RejectionReason)
  | batchTooManyAccounts (distinct max : ℕ)
  | panicked
  deriving DecidableEq

def MAX_DISTINCT_BALANCES_PER_BATCH : ℕ := 1000

/-! ## Preparation -/

/-- `TemplateCache::resolve_in_op`. -/
def resolveInOp (templates : String → Option TxTemplateValues) (codes : List String) :
    Except TxTemplateError (HashMap String TxTemplateValues) :=
  codes.foldlM (fun used code =>
    match templates code with
    | some template => .ok (used.insert code template)
    | none => .error .notFound) ∅

/-- `Postings::prepare_all`, from a posting of the batch on, with the transaction and external ids
seen before it. -/
def prepareAllFrom (ids : EntryIds) (templates : HashMap String TxTemplateValues) :
    ℕ → List TransactionId → List String → List PostingInput →
      Except PostingError (List PreparedTransaction)
  | _, _, _, [] => .ok []
  | index, seenIds, seenExternal, input :: batch =>
      match templates.lookup input.txTemplateCode with
      | none => .error .panicked
      | some template => do
          let posting ← (prepareTransaction ids input.txId template input.params).mapError
            (fun error => .rejected index input.txId (.txTemplate error))
          if posting.txId ∈ seenIds then
            .error (.rejected index input.txId (.duplicateTransactionIdInBatch posting.txId))
          else
            match posting.externalId.toList.find? (· ∈ seenExternal) with
            | some externalId =>
                .error (.rejected index input.txId (.duplicateExternalIdInBatch externalId))
            | none =>
                let rest ← prepareAllFrom ids templates (index + 1) (posting.txId :: seenIds)
                  (posting.externalId.toList ++ seenExternal) batch
                .ok (posting :: rest)

/-- Resolve the templates of a batch and prepare it. -/
def prepareAll (ids : EntryIds) (templates : String → Option TxTemplateValues)
    (batch : List PostingInput) : Except PostingError (List PreparedTransaction) := do
  let used ← (resolveInOp templates (batch.map PostingInput.txTemplateCode).dedup).mapError
    .txTemplateError
  prepareAllFrom ids used 0 [] [] batch

/-- `Postings::entry_balance_keys`. -/
def entryBalanceKeys (prepared : List PreparedTransaction) : List BalanceKey :=
  (prepared.flatMap (fun posting => posting.entries.map (fun entry =>
    ⟨posting.journalId, entry.accountId, entry.currency⟩))).dedup

/-! ## Reads -/

/-- The account facts the flow needs before it may write. -/
structure AccountMeta where
  locked : Bool
  eventuallyConsistent : Bool
  isAccountSet : Bool
  deriving DecidableEq

/-- What the flow has read. -/
structure PostingState where
  seeds : List AccountMembership
  journals : JournalId → Option JournalValues
  accounts : AccountId → Option AccountMeta
  balances : BalanceKey → Option BalanceSnapshot
  controls : ControlTable

/-- The rows of a table under some keys. -/
def onlyKeys {κ ν : Type} [DecidableEq κ] (keys : List κ) (table : κ → Option ν) (key : κ) :
    Option ν :=
  if key ∈ keys then table key else none

def AccountRow.toMeta (row : AccountRow) : AccountMeta :=
  { locked := row.status = .locked
    eventuallyConsistent := row.eventuallyConsistent
    isAccountSet := row.isAccountSet }

/-- `PostingRepo::read_posting_state_in_op`. -/
def readPostingStateInOp (db : LedgerDb) (accountIds : List AccountId)
    (journalIds : List JournalId) (keys : List BalanceKey) : PostingState :=
  { seeds := db.memberships.memberAccounts.filter (fun row => accountIds.contains row.accountId)
    journals := onlyKeys journalIds db.journals
    accounts := onlyKeys accountIds (fun accountId => (db.accounts accountId).map AccountRow.toMeta)
    balances := onlyKeys keys db.balances.value
    controls := onlyKeys accountIds db.accountControls }

/-- `PostingRepo::read_ancestor_state_in_op`, merged into what was read before. -/
def readAncestorStateInOp (db : LedgerDb) (read : PostingState) (setAccountIds : List AccountId)
    (keys : List BalanceKey) : PostingState :=
  { read with
    accounts := fun accountId =>
      (onlyKeys setAccountIds (fun id => (db.accounts id).map AccountRow.toMeta) accountId).or
        (read.accounts accountId)
    balances := fun key => (onlyKeys keys db.balances.value key).or (read.balances key)
    controls := fun accountId =>
      (onlyKeys setAccountIds db.accountControls accountId).or (read.controls accountId) }

/-! ## Validation -/

/-- The checks on one entry account. -/
def validateAccount (read : PostingState) (accountId : AccountId) : Except RejectionReason Unit :=
  match read.accounts accountId with
  | none => .error (.accountNotFound accountId)
  | some accountMeta =>
      if accountMeta.isAccountSet then .error (.entryTargetsAccountSet accountId)
      else if accountMeta.locked then .error (.accountLocked accountId)
      else .ok ()

/-- The checks on one posting. -/
def validatePosting (read : PostingState) (posting : PreparedTransaction) :
    Except RejectionReason Unit :=
  match read.journals posting.journalId with
  | none => .error (.journalNotFound posting.journalId)
  | some journal =>
      if journal.status = .locked then .error (.journalLocked posting.journalId)
      else posting.entries.forM (fun entry => validateAccount read entry.accountId)

/-- `Postings::validate`, from a posting of the batch on. -/
def validateFrom (read : PostingState) :
    ℕ → List PreparedTransaction → Except PostingError Unit
  | _, [] => .ok ()
  | index, posting :: prepared => do
      (validatePosting read posting).mapError (.rejected index posting.txId)
      validateFrom read (index + 1) prepared

/-! ## Ancestors -/

/-- Ancestor sets per journal; a leaf account has no journal of its own. -/
abbrev AncestorMappings := JournalId → AccountSetMappings

/-- The distinct items, in ascending order. -/
def sortedDedup {κ : Type} [LinearOrder κ] (items : List κ) : List κ :=
  (Foundations.sortBy id items).dedup

/-- Whether a journal's postings have an entry on an account. -/
def EntersOn (prepared : List PreparedTransaction) (journalId : JournalId)
    (accountId : AccountId) : Prop :=
  ∃ posting ∈ prepared, posting.journalId = journalId
    ∧ ∃ entry ∈ posting.entries, entry.accountId = accountId

instance (prepared : List PreparedTransaction) (journalId : JournalId) (accountId : AccountId) :
    Decidable (EntersOn prepared journalId accountId) :=
  inferInstanceAs (Decidable (∃ posting ∈ prepared, _))

/-- The mappings `resolve_mappings_from_probe_in_op` returns, journal by journal. -/
def resolvedMappings (order : RowOrder) (memberships : MembershipTables)
    (prepared : List PreparedTransaction) : AncestorMappings :=
  fun journalId accountId =>
    if EntersOn prepared journalId accountId then
      order.walk accountId (memberships.walkMappings journalId accountId)
    else
      []

/-- `Postings::resolve_ancestors`. -/
def resolveAncestors (order : RowOrder) (db : LedgerDb) (prepared : List PreparedTransaction)
    (read : PostingState) : Except PostingError (AncestorMappings × PostingState) :=
  if read.seeds = [] then
    .ok (fun _ _ => [], read)
  else
    let mappings := resolvedMappings order db.memberships prepared
    let ancestorKeys : List BalanceKey := prepared.flatMap (fun posting =>
      posting.entries.flatMap (fun entry =>
        (mappings posting.journalId entry.accountId).map (fun setId =>
          ⟨posting.journalId, AccountId.ofSet setId, entry.currency⟩)))
    if ancestorKeys = [] then
      .ok (mappings, read)
    else
      let ancestorIds := sortedDedup (ancestorKeys.map BalanceKey.accountId)
      let read := readAncestorStateInOp db read ancestorIds ancestorKeys.dedup
      match ancestorIds.find? (fun accountId => (read.accounts accountId).any AccountMeta.locked) with
      | some accountId => .error (.balanceError (.accountLocked accountId))
      | none => .ok (mappings, read)

/-! ## Fold -/

/-- A transaction with its entries, ready to be written. -/
abbrev HydratedPosting := TransactionValues × List EntryValues

/-- The postings of a prepared batch, stamped with the time of the operation. -/
def hydrate (now : Timestamp) (prepared : List PreparedTransaction) : List HydratedPosting :=
  prepared.map (·.intoNewTransaction now)

/-- Whether the flow maintains an account's balances: it was read and is not eventually
consistent. -/
def PostingState.involves (read : PostingState) (accountId : AccountId) : Bool :=
  (read.accounts accountId).any (fun accountMeta => !accountMeta.eventuallyConsistent)

/-- `Postings::fold_balances`. -/
def foldBalances (postings : List HydratedPosting) (read : PostingState)
    (mappings : AncestorMappings) (now : Timestamp) : List BalanceSnapshot :=
  (sortedDedup (postings.map (fun posting => posting.1.journalId))).flatMap (fun journalId =>
    let entries := (postings.filter (fun posting => posting.1.journalId = journalId)).flatMap
      Prod.snd
    let current := Foundations.ofKeys
      ((reached (inlineTargets (mappings journalId)) entries).filter
        (fun pair => read.involves pair.1))
      (fun pair => read.balances ⟨journalId, pair.1, pair.2⟩)
    fromEntries now current entries (mappings journalId))

/-! ## Effective balances -/

/-- `Postings::update_effective_balances`: one update for each journal and day. -/
def updateEffectiveBalances (order : ScanOrder) (accounts : AccountTable) (table : EffectiveTable)
    (postings : List HydratedPosting) (read : PostingState) (mappings : AncestorMappings)
    (now : Timestamp) : Option EffectiveTable :=
  let enabled := postings.filter (fun posting =>
    (read.journals posting.1.journalId).any JournalValues.insertEffectiveBalances)
  let groups := Foundations.groupBy
    (fun posting : HydratedPosting => (posting.1.journalId, posting.1.effective)) Prod.snd enabled
  let groups := Foundations.sortBy
    (fun group : (JournalId × NaiveDate) × List EntryValues => toLex group.1) groups
  groups.foldlM (fun table group =>
    let mappings := mappings group.1.1
    let involved := ((reached (inlineTargets mappings) group.2).filter
      (fun pair => read.involves pair.1)).dedup
    if involved = [] then
      some table
    else
      updateCumulativeBalancesInOp order accounts table group.1.1 group.2 group.1.2 now mappings
        involved) table

/-! ## The flow -/

/-- The rows of the insert that carry a unique constraint do not collide. -/
structure FreshRows (db : LedgerDb) (postings : List HydratedPosting) : Prop where
  transactions :
    ((db.transactions ++ postings.map Prod.fst).map TransactionValues.id).Nodup
  externalIds :
    ((db.transactions ++ postings.map Prod.fst).filterMap TransactionValues.externalId).Nodup
  entries : ((db.entries ++ postings.flatMap Prod.snd).map EntryValues.id).Nodup

instance (db : LedgerDb) (postings : List HydratedPosting) : Decidable (FreshRows db postings) :=
  decidable_of_iff
    (((db.transactions ++ postings.map Prod.fst).map TransactionValues.id).Nodup
      ∧ ((db.transactions ++ postings.map Prod.fst).filterMap TransactionValues.externalId).Nodup
      ∧ ((db.entries ++ postings.flatMap Prod.snd).map EntryValues.id).Nodup)
    ⟨fun h => ⟨h.1, h.2.1, h.2.2⟩, fun h => ⟨h.transactions, h.externalIds, h.entries⟩⟩

/-- `PostingRepo::insert_postings_and_balances_in_op`. -/
def insertPostingsAndBalancesInOp (db : LedgerDb) (postings : List HydratedPosting)
    (snapshots : List BalanceSnapshot) : Except PostingError LedgerDb :=
  if FreshRows db postings then
    match insertBalancesInOp db.balances snapshots with
    | some balances =>
        .ok { db with
          balances := balances
          transactions := db.transactions ++ postings.map Prod.fst
          entries := db.entries ++ postings.flatMap Prod.snd }
    | none => .error .duplicateKey
  else
    .error .duplicateKey

/-- The events of one posting: its transaction, then its entries. -/
def postingEvents (posting : HydratedPosting) : List OutboxEventPayload :=
  .transactionCreated posting.1 :: posting.2.map .entryCreated

/-- The flow from the read on. -/
def postPreparedInOp (order : RowOrder) (now : Timestamp) (db : LedgerDb)
    (prepared : List PreparedTransaction) : Except PostingError LedgerDb := do
  let accountIds := (prepared.flatMap PreparedTransaction.entries).map EntryValues.accountId
  let read := readPostingStateInOp db accountIds (prepared.map PreparedTransaction.journalId)
    (entryBalanceKeys prepared)
  validateFrom read 0 prepared
  let (mappings, read) ← resolveAncestors order db prepared read
  let postings := hydrate now prepared
  let snapshots := foldBalances postings read mappings now
  let velocityBalances ← (enforceBatchInOp now db.velocityBalances postings read.controls
    mappings).mapError .velocityError
  let db ← insertPostingsAndBalancesInOp { db with velocityBalances := velocityBalances } postings
    snapshots
  let effectiveBalances ← (BalanceError.ofOption (updateEffectiveBalances order.toScanOrder
    db.accounts db.effectiveBalances postings read mappings now)).mapError .balanceError
  .ok { db with
    effectiveBalances := effectiveBalances
    outbox := db.outbox ++ postings.flatMap postingEvents }

/-- `Postings::post_all_in_op`. -/
def postAllInOp (order : RowOrder) (ids : EntryIds) (now : Timestamp) (db : LedgerDb)
    (batch : List PostingInput) : Except PostingError LedgerDb := do
  if batch = [] then
    .ok db
  else
    let prepared ← prepareAll ids db.templates batch
    let keys := entryBalanceKeys prepared
    if MAX_DISTINCT_BALANCES_PER_BATCH < keys.length then
      .error (.batchTooManyAccounts keys.length MAX_DISTINCT_BALANCES_PER_BATCH)
    else
      postPreparedInOp order now db prepared

/-- The same postings, one operation step after the other. -/
def postEachInOp (orders : PostingInput → RowOrder) (ids : EntryIds) (now : Timestamp)
    (db : LedgerDb) (batch : List PostingInput) : Except PostingError LedgerDb :=
  batch.foldlM (fun db posting => postAllInOp (orders posting) ids now db [posting]) db

end CalaLedger
