import CalaLedger.Entities

/-! # Transaction templates

A template is a transaction with an expression in every field. `prepareTransaction` binds the
parameters, evaluates the expressions and checks that the entries balance on every currency and
layer; it touches no table. Expressions are given by their evaluation against the bound
parameters. -/

namespace CalaLedger

/-- The parameters of one posting. -/
abbrev Params := List (String × JsonText)

/-- The variables a template expression sees: the bound parameters. -/
structure CelContext where
  params : Params
  deriving DecidableEq

/-- An expression of a template, by its evaluation. -/
abbrev CelExpression (α : Type) := CelContext → Except CelError α

inductive TxTemplateError
  | notFound
  | celError (error : CelError)
  | paramError (error : CelError)
  | unbalancedTransaction (currency : Currency) (layer : Layer) (amount : Decimal)
  deriving DecidableEq

structure TxTemplateTransaction where
  effective : CelExpression NaiveDate
  journalId : CelExpression JournalId
  correlationId : Option (CelExpression String)
  externalId : Option (CelExpression String)
  description : Option (CelExpression String)
  metadata : Option (CelExpression JsonText)

structure TxTemplateEntry where
  entryType : CelExpression String
  accountId : CelExpression AccountId
  layer : CelExpression Layer
  direction : CelExpression DebitOrCredit
  units : CelExpression Decimal
  currency : CelExpression Currency
  description : Option (CelExpression String)
  metadata : Option (CelExpression JsonText)

/-- A template; `intoContext` binds parameters against its parameter definitions. -/
structure TxTemplateValues where
  id : TxTemplateId
  code : String
  intoContext : Params → Except CelError CelContext
  transaction : TxTemplateTransaction
  entries : List TxTemplateEntry

/-- The entry ids an operation draws: never the unassigned one, never one twice. -/
structure EntryIds where
  draw : TransactionId → ℕ → EntryId
  assigned : ∀ transactionId index, draw transactionId index ≠ UNASSIGNED_ENTRY_ID
  injective : ∀ {t t' : TransactionId} {i i' : ℕ}, draw t i = draw t' i' → t = t' ∧ i = i'

/-- `PreparedTransaction`: evaluated, not yet stamped with the time of the operation. -/
structure PreparedTransaction where
  txId : TransactionId
  journalId : JournalId
  txTemplateId : TxTemplateId
  effective : NaiveDate
  correlationId : Option String
  externalId : Option String
  description : Option String
  metadata : Option JsonText
  entries : List EntryValues
  deriving DecidableEq

/-- `try_evaluate`. -/
def tryEvaluate {α : Type} (expression : CelExpression α) (context : CelContext) :
    Except TxTemplateError α :=
  (expression context).mapError .celError

/-- An optional expression. -/
def tryEvaluateOption {α : Type} (expression : Option (CelExpression α)) (context : CelContext) :
    Except TxTemplateError (Option α) :=
  match expression with
  | none => .ok none
  | some expression => (tryEvaluate expression context).map some

/-- One round of the loop of `prep_entries`. -/
def prepEntry (ids : EntryIds) (transactionId : TransactionId) (journalId : JournalId)
    (context : CelContext) (zeroBasedSequence : ℕ) (entry : TxTemplateEntry) :
    Except TxTemplateError EntryValues := do
  let accountId ← tryEvaluate entry.accountId context
  let entryType ← tryEvaluate entry.entryType context
  let layer ← tryEvaluate entry.layer context
  let units ← tryEvaluate entry.units context
  let currency ← tryEvaluate entry.currency context
  let direction ← tryEvaluate entry.direction context
  let description ← tryEvaluateOption entry.description context
  let metadata ← tryEvaluateOption entry.metadata context
  .ok
    { id := ids.draw transactionId zeroBasedSequence
      transactionId := transactionId
      journalId := journalId
      accountId := accountId
      entryType := entryType
      sequence := zeroBasedSequence + 1
      layer := layer
      units := units
      currency := currency
      direction := direction
      description := description
      metadata := metadata }

/-- The loop of `prep_entries`, from an index on. -/
def prepEntriesFrom (ids : EntryIds) (transactionId : TransactionId) (journalId : JournalId)
    (context : CelContext) : ℕ → List TxTemplateEntry → Except TxTemplateError (List EntryValues)
  | _, [] => .ok []
  | index, entry :: entries => do
      let first ← prepEntry ids transactionId journalId context index entry
      let rest ← prepEntriesFrom ids transactionId journalId context (index + 1) entries
      .ok (first :: rest)

/-- `*total -= units` for a debit, `*total += units` for a credit. -/
def EntryValues.signedUnits (entry : EntryValues) : Decimal :=
  match entry.direction with
  | .debit => -entry.units
  | .credit => entry.units

/-- The running total of one currency and layer: credits less debits, in the order of the entries. -/
def entryTotal (entries : List EntryValues) (currency : Currency) (layer : Layer) : Decimal :=
  ((entries.filter (fun entry => entry.currency = currency ∧ entry.layer = layer)).map
    EntryValues.signedUnits).foldl (· + ·) 0

/-- `prep_entries`: a currency and layer whose total is not zero refuses the transaction. -/
def prepEntries (template : TxTemplateValues) (ids : EntryIds) (transactionId : TransactionId)
    (journalId : JournalId) (context : CelContext) : Except TxTemplateError (List EntryValues) := do
  let newEntries ← prepEntriesFrom ids transactionId journalId context 0 template.entries
  match (newEntries.map (fun entry => (entry.currency, entry.layer))).find?
      (fun total => entryTotal newEntries total.1 total.2 ≠ 0) with
  | some total =>
      .error (.unbalancedTransaction total.1 total.2 (entryTotal newEntries total.1 total.2))
  | none => .ok newEntries

/-- `TxTemplates::prepare_transaction`. -/
def prepareTransaction (ids : EntryIds) (txId : TransactionId) (template : TxTemplateValues)
    (params : Params) : Except TxTemplateError PreparedTransaction := do
  let context ← (template.intoContext params).mapError .paramError
  let journalId ← tryEvaluate template.transaction.journalId context
  let entries ← prepEntries template ids txId journalId context
  let effective ← tryEvaluate template.transaction.effective context
  let correlationId ← tryEvaluateOption template.transaction.correlationId context
  let externalId ← tryEvaluateOption template.transaction.externalId context
  let description ← tryEvaluateOption template.transaction.description context
  let metadata ← tryEvaluateOption template.transaction.metadata context
  .ok
    { txId := txId
      journalId := journalId
      txTemplateId := template.id
      effective := effective
      correlationId := correlationId
      externalId := externalId
      description := description
      metadata := metadata
      entries := entries }

/-- `PreparedTransaction::into_new_transaction`, hydrated: the correlation id defaults to the
transaction id. -/
def PreparedTransaction.intoNewTransaction (prepared : PreparedTransaction)
    (createdAt : Timestamp) : TransactionValues × List EntryValues :=
  ({ id := prepared.txId
     createdAt := createdAt
     modifiedAt := createdAt
     journalId := prepared.journalId
     txTemplateId := prepared.txTemplateId
     entryIds := prepared.entries.map EntryValues.id
     effective := prepared.effective
     correlationId := prepared.correlationId.getD (toString prepared.txId.uuid)
     externalId := prepared.externalId
     description := prepared.description
     metadata := prepared.metadata },
    prepared.entries)

/-! ## What preparation guarantees -/

/-- The entries of a prepared transaction: of its transaction and journal, numbered from one. -/
structure PreparedEntries (ids : EntryIds) (transactionId : TransactionId) (journalId : JournalId)
    (index : ℕ) (entries : List EntryValues) : Prop where
  transaction : ∀ entry ∈ entries, entry.transactionId = transactionId
  journal : ∀ entry ∈ entries, entry.journalId = journalId
  sequence : entries.map EntryValues.sequence = List.range' (index + 1) entries.length
  id : entries.map EntryValues.id
    = (List.range' index entries.length).map (ids.draw transactionId)

section Prepare

variable {ids : EntryIds} {transactionId : TransactionId} {journalId : JournalId}
  {context : CelContext}

theorem bind_ok {ε α β : Type} {x : Except ε α} {f : α → Except ε β} {b : β}
    (h : (x >>= f) = .ok b) : ∃ a, x = .ok a ∧ f a = .ok b := by
  cases x with
  | error e => cases h
  | ok a => exact ⟨a, rfl, h⟩

theorem prepEntry_eq_ok {index : ℕ} {template : TxTemplateEntry} {entry : EntryValues}
    (h : prepEntry ids transactionId journalId context index template = .ok entry) :
    entry.id = ids.draw transactionId index ∧ entry.transactionId = transactionId
      ∧ entry.journalId = journalId ∧ entry.sequence = index + 1 := by
  obtain ⟨accountId, -, h⟩ := bind_ok h
  obtain ⟨entryType, -, h⟩ := bind_ok h
  obtain ⟨layer, -, h⟩ := bind_ok h
  obtain ⟨units, -, h⟩ := bind_ok h
  obtain ⟨currency, -, h⟩ := bind_ok h
  obtain ⟨direction, -, h⟩ := bind_ok h
  obtain ⟨description, -, h⟩ := bind_ok h
  obtain ⟨metadata, -, h⟩ := bind_ok h
  cases h
  exact ⟨rfl, rfl, rfl, rfl⟩

theorem prepEntriesFrom_eq_ok (templates : List TxTemplateEntry) :
    ∀ {index : ℕ} {entries : List EntryValues},
      prepEntriesFrom ids transactionId journalId context index templates = .ok entries →
      PreparedEntries ids transactionId journalId index entries := by
  induction templates with
  | nil =>
      rintro index _ ⟨⟩
      exact ⟨by simp, by simp, rfl, rfl⟩
  | cons template templates ih =>
      intro index entries h
      obtain ⟨first, hfirst, h⟩ := bind_ok h
      obtain ⟨rest, hrest, h⟩ := bind_ok h
      cases h
      obtain ⟨hid, htransaction, hjournal, hsequence⟩ := prepEntry_eq_ok hfirst
      have hrest := ih hrest
      refine ⟨?_, ?_, ?_, ?_⟩
      · exact List.forall_mem_cons.mpr ⟨htransaction, hrest.transaction⟩
      · exact List.forall_mem_cons.mpr ⟨hjournal, hrest.journal⟩
      · rw [List.map_cons, List.length_cons, List.range'_succ, hsequence, hrest.sequence]
      · rw [List.map_cons, List.length_cons, List.range'_succ, List.map_cons, hid, hrest.id]

/-- **A prepared transaction is well formed.** -/
theorem prepareTransaction_eq_ok {txId : TransactionId} {template : TxTemplateValues}
    {params : Params} {prepared : PreparedTransaction}
    (h : prepareTransaction ids txId template params = .ok prepared) :
    prepared.txId = txId ∧ PreparedEntries ids txId prepared.journalId 0 prepared.entries := by
  obtain ⟨context, -, h⟩ := bind_ok h
  obtain ⟨journalId, -, h⟩ := bind_ok h
  obtain ⟨entries, hentries, h⟩ := bind_ok h
  obtain ⟨effective, -, h⟩ := bind_ok h
  obtain ⟨correlationId, -, h⟩ := bind_ok h
  obtain ⟨externalId, -, h⟩ := bind_ok h
  obtain ⟨description, -, h⟩ := bind_ok h
  obtain ⟨metadata, -, h⟩ := bind_ok h
  cases h
  refine ⟨rfl, ?_⟩
  obtain ⟨newEntries, hnew, h⟩ := bind_ok hentries
  split at h
  · cases h
  · cases h
    exact prepEntriesFrom_eq_ok _ hnew

end Prepare

end CalaLedger
