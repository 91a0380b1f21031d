import CalaLedger.Primitives

/-! # Entity values

The plain values that travel between the posting flow, the rollup and the tables: entries,
transactions, journals, accounts and balance snapshots. -/

namespace CalaLedger

/-- A failed evaluation of an expression. -/
structure CelError where
  message : String
  deriving DecidableEq, Repr

/-- One entry of a committed or prepared transaction. -/
structure EntryValues where
  id : EntryId
  transactionId : TransactionId
  journalId : JournalId
  accountId : AccountId
  entryType : String
  sequence : ℕ
  layer : Layer
  units : Decimal
  currency : Currency
  direction : DebitOrCredit
  description : Option String
  metadata : Option JsonText
  deriving DecidableEq

/-- One transaction; `entryIds` lists its complete entry set. -/
structure TransactionValues where
  id : TransactionId
  createdAt : Timestamp
  modifiedAt : Timestamp
  journalId : JournalId
  txTemplateId : TxTemplateId
  entryIds : List EntryId
  effective : NaiveDate
  correlationId : String
  externalId : Option String
  description : Option String
  metadata : Option JsonText
  deriving DecidableEq

/-- The only journal setting the ledger reads. -/
structure JournalConfig where
  enableEffectiveBalances : Bool
  deriving DecidableEq

structure JournalValues where
  id : JournalId
  status : Status
  config : JournalConfig
  deriving DecidableEq

/-- `Journal::insert_effective_balances`. -/
def JournalValues.insertEffectiveBalances (journal : JournalValues) : Bool :=
  journal.config.enableEffectiveBalances

/-- The account facts a velocity expression may refer to. -/
structure VelocityContextAccountValues where
  id : AccountId
  name : String
  normalBalanceType : DebitOrCredit
  externalId : Option String
  metadata : Option JsonText
  deriving DecidableEq

/-- The columns of `cala_accounts` that the posting and balance paths read. -/
structure AccountRow where
  normalBalanceType : DebitOrCredit
  eventuallyConsistent : Bool
  isAccountSet : Bool
  velocityContextValues : VelocityContextAccountValues
  status : Status
  deriving DecidableEq

/-- `cala_accounts`. -/
abbrev AccountTable := AccountId → Option AccountRow

/-- Whether an account exists and has the given consistency mode. -/
def AccountTable.consistency (accounts : AccountTable) (eventuallyConsistent : Bool)
    (accountId : AccountId) : Prop :=
  (accounts accountId).map AccountRow.eventuallyConsistent = some eventuallyConsistent

instance (accounts : AccountTable) (eventuallyConsistent : Bool) :
    DecidablePred (accounts.consistency eventuallyConsistent) :=
  fun _ => inferInstanceAs (Decidable (_ = _))

/-- Debit and credit totals of one layer, with the last entry that moved them. -/
structure BalanceAmount where
  drBalance : Decimal
  crBalance : Decimal
  entryId : EntryId
  modifiedAt : Timestamp
  deriving DecidableEq

/-- One version of one settled balance. -/
structure BalanceSnapshot where
  journalId : JournalId
  accountId : AccountId
  currency : Currency
  version : ℕ
  createdAt : Timestamp
  modifiedAt : Timestamp
  entryId : EntryId
  settled : BalanceAmount
  pending : BalanceAmount
  encumbrance : BalanceAmount
  deriving DecidableEq

/-- One row of the cumulative effective table. -/
structure EffectiveBalanceSnapshot where
  journalId : JournalId
  accountId : AccountId
  currency : Currency
  effective : NaiveDate
  version : ℕ
  allTimeVersion : ℕ
  createdAt : Timestamp
  modifiedAt : Timestamp
  entryId : EntryId
  settled : BalanceAmount
  pending : BalanceAmount
  encumbrance : BalanceAmount
  deriving DecidableEq

/-- The `values` column of an effective row, read back as a plain snapshot: the day and the all-time
version are dropped. -/
def EffectiveBalanceSnapshot.values (row : EffectiveBalanceSnapshot) : BalanceSnapshot :=
  { journalId := row.journalId
    accountId := row.accountId
    currency := row.currency
    version := row.version
    createdAt := row.createdAt
    modifiedAt := row.modifiedAt
    entryId := row.entryId
    settled := row.settled
    pending := row.pending
    encumbrance := row.encumbrance }

/-- The balance row a snapshot belongs to. -/
def BalanceSnapshot.key (snapshot : BalanceSnapshot) : BalanceKey :=
  ⟨snapshot.journalId, snapshot.accountId, snapshot.currency⟩

/-- The totals of one layer of a snapshot. -/
def BalanceSnapshot.layer (snapshot : BalanceSnapshot) : Layer → BalanceAmount
  | .settled => snapshot.settled
  | .pending => snapshot.pending
  | .encumbrance => snapshot.encumbrance

/-- The totals of one layer of an effective row. -/
def EffectiveBalanceSnapshot.layer (row : EffectiveBalanceSnapshot) : Layer → BalanceAmount
  | .settled => row.settled
  | .pending => row.pending
  | .encumbrance => row.encumbrance

/-- The debit or the credit total of an amount. -/
def BalanceAmount.side (amount : BalanceAmount) : DebitOrCredit → Decimal
  | .debit => amount.drBalance
  | .credit => amount.crBalance

/-- What an event of the outbox carries; the events of other entities are left out. -/
inductive OutboxEventPayload
  | transactionCreated (transaction : TransactionValues)
  | entryCreated (entry : EntryValues)
  deriving DecidableEq

/-- What an entry adds to one side of one layer. -/
def EntryValues.unitsOn (entry : EntryValues) (layer : Layer) (direction : DebitOrCredit) :
    Decimal :=
  if entry.layer = layer ∧ entry.direction = direction then entry.units else 0

end CalaLedger
