import CalaLedger.Account.Entity

/-! # The account set entity

An account set, its events and its columns. The ledger keeps for every set an account with the set's
own UUID: its backing account. -/

namespace CalaLedger

open Foundations

structure AccountSetValues where
  id : AccountSetId
  version : ℕ
  journalId : JournalId
  name : String
  externalId : Option String
  description : Option String
  metadata : Option JsonText
  normalBalanceType : DebitOrCredit
  deriving DecidableEq

/-- `AccountSetEvent`. -/
abbrev AccountSetEvent := ValuesEvent AccountSetValues

/-- `AccountSet`. -/
abbrev AccountSet := ValuesEntity AccountSetId AccountSetValues

/-- `From<&AccountSetValues> for VelocityContextAccountValues`. -/
def AccountSetValues.contextValues (values : AccountSetValues) : VelocityContextAccountValues :=
  { id := AccountId.ofSet values.id
    name := values.name
    normalBalanceType := values.normalBalanceType
    externalId := values.externalId
    metadata := values.metadata }

structure AccountSetUpdateValues where
  externalId : Option String := none
  name : Option String := none
  normalBalanceType : Option DebitOrCredit := none
  description : Option String := none
  metadata : Option JsonText := none
  deriving DecidableEq

/-- The changes an update asks for, in the order they are made. -/
def AccountSetUpdateValues.changes (update : AccountSetUpdateValues) :
    List (AccountSetValues × List String → AccountSetValues × List String) :=
  [changeField "name" update.name AccountSetValues.name
      (fun values name => { values with name := name }),
    changeField "normal_balance_type" update.normalBalanceType AccountSetValues.normalBalanceType
      (fun values normalBalanceType => { values with normalBalanceType := normalBalanceType }),
    changeField "external_id" (update.externalId.map some) AccountSetValues.externalId
      (fun values externalId => { values with externalId := externalId }),
    changeField "description" (update.description.map some) AccountSetValues.description
      (fun values description => { values with description := description }),
    changeField "metadata" (requestedMetadata update.metadata) AccountSetValues.metadata
      (fun values metadata => { values with metadata := metadata })]

/-- `AccountSet::update`. -/
def AccountSet.update (accountSet : AccountSet) (update : AccountSetUpdateValues) :
    AccountSet × Idempotent :=
  accountSet.change update.changes

/-- How the balance of a set is kept. -/
inductive BalanceRollup
  | synchronous
  | eventuallyConsistent
  deriving DecidableEq, Repr

structure NewAccountSet where
  id : AccountSetId
  name : String
  externalId : Option String := none
  journalId : JournalId
  normalBalanceType : DebitOrCredit := .credit
  balanceRollup : BalanceRollup
  description : Option String := none
  metadata : Option JsonText := none
  deriving DecidableEq

namespace NewAccountSet

def isEventuallyConsistent (new : NewAccountSet) : Bool :=
  new.balanceRollup = .eventuallyConsistent

def contextValues (new : NewAccountSet) : VelocityContextAccountValues :=
  { id := AccountId.ofSet new.id
    name := new.name
    normalBalanceType := new.normalBalanceType
    externalId := new.externalId
    metadata := new.metadata }

/-- The values of the first event. -/
def intoValues (new : NewAccountSet) : AccountSetValues :=
  { id := new.id
    version := 1
    journalId := new.journalId
    name := new.name
    externalId := new.externalId
    description := new.description
    metadata := new.metadata
    normalBalanceType := new.normalBalanceType }

/-- The backing account that `create_in_op` builds; its code is the id of the set. -/
def backingAccount (new : NewAccountSet) : NewAccount :=
  { id := AccountId.ofSet new.id
    code := toString new.id.uuid
    name := ""
    externalId := none
    normalBalanceType := new.normalBalanceType
    status := .active
    eventuallyConsistent := new.isEventuallyConsistent
    isAccountSet := true
    velocityContextValues := some new.contextValues
    description := none
    metadata := none }

end NewAccountSet

/-- A row of `cala_account_sets`. -/
structure AccountSetRow where
  name : String
  journalId : JournalId
  externalId : Option String
  deriving DecidableEq

/-- The columns of `AccountSetRepo`; the journal is not persisted on an update. -/
def accountSetSchema :
    ValuesSchema AccountSetId AccountSetRow NewAccountSet AccountSetValues JournalId where
  idOf := AccountSetValues.id
  newId := NewAccountSet.id
  intoValues := NewAccountSet.intoValues
  createRow new := ⟨new.name, new.journalId, new.externalId⟩
  updateRow accountSet row :=
    { row with
      name := accountSet.values.name
      externalId := accountSet.values.externalId }
  fixed := AccountSetValues.journalId
  fixedColumns := AccountSetRow.journalId
  idOf_intoValues _ := rfl
  fixedColumns_createRow _ := rfl
  fixedColumns_updateRow _ _ := rfl

/-- An update touches neither the id of a set nor its journal. -/
theorem AccountSetUpdateValues.mild (update : AccountSetUpdateValues) :
    ∀ change ∈ update.changes,
      Mild (fun values : AccountSetValues => (values.id, values.journalId)) change := by
  intro change hchange
  simp only [changes, List.mem_cons, List.not_mem_nil, or_false] at hchange
  rcases hchange with rfl | rfl | rfl | rfl | rfl <;>
    exact changeField_mild (fun _ _ => rfl)

end CalaLedger
