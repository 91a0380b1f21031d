import CalaLedger.Entities
import CalaLedger.Foundations.ValuesEntity

/-! # The account entity

An account, its events and the columns of `cala_accounts` that its repository writes from them. -/

namespace CalaLedger

open Foundations

structure AccountConfig where
  isAccountSet : Bool
  eventuallyConsistent : Bool
  deriving DecidableEq

structure AccountValues where
  id : AccountId
  version : ℕ
  code : String
  name : String
  normalBalanceType : DebitOrCredit
  status : Status
  externalId : Option String
  description : Option String
  metadata : Option JsonText
  config : AccountConfig
  deriving DecidableEq

/-- `AccountEvent`. -/
abbrev AccountEvent := ValuesEvent AccountValues

/-- `Account`. -/
abbrev Account := ValuesEntity AccountId AccountValues

/-- `serde_json::Value::Null`. -/
def JsonText.null : JsonText := ⟨"null"⟩

/-- `From<&AccountValues> for VelocityContextAccountValues`. -/
def AccountValues.contextValues (values : AccountValues) : VelocityContextAccountValues :=
  { id := values.id
    name := values.name
    normalBalanceType := values.normalBalanceType
    externalId := values.externalId
    metadata := values.metadata }

structure AccountUpdateValues where
  externalId : Option String := none
  code : Option String := none
  name : Option String := none
  normalBalanceType : Option DebitOrCredit := none
  description : Option String := none
  status : Option Status := none
  metadata : Option JsonText := none
  deriving DecidableEq

/-- The metadata an update asks for: a null asks for none. -/
def requestedMetadata (metadata : Option JsonText) : Option (Option JsonText) :=
  (metadata.filter (fun text => text ≠ JsonText.null)).map some

/-- The changes an update asks for, in the order they are made. -/
def AccountUpdateValues.changes (update : AccountUpdateValues) :
    List (AccountValues × List String → AccountValues × List String) :=
  [changeField "code" update.code AccountValues.code
      (fun values code => { values with code := code }),
    changeField "name" update.name AccountValues.name
      (fun values name => { values with name := name }),
    changeField "normal_balance_type" update.normalBalanceType AccountValues.normalBalanceType
      (fun values normalBalanceType => { values with normalBalanceType := normalBalanceType }),
    changeField "status" update.status AccountValues.status
      (fun values status => { values with status := status }),
    changeField "external_id" (update.externalId.map some) AccountValues.externalId
      (fun values externalId => { values with externalId := externalId }),
    changeField "description" (update.description.map some) AccountValues.description
      (fun values description => { values with description := description }),
    changeField "metadata" (requestedMetadata update.metadata) AccountValues.metadata
      (fun values metadata => { values with metadata := metadata })]

namespace Account

/-- `Account::update`. -/
def update (account : Account) (update : AccountUpdateValues) : Account × Idempotent :=
  account.change update.changes

/-- `Account::update_status`. -/
def updateStatus (account : Account) (status : Status) : Account × Idempotent :=
  Account.update account { status := some status }

/-- `Account::is_account_set`. -/
def isAccountSet (account : Account) : Bool := account.values.config.isAccountSet

end Account

structure NewAccount where
  id : AccountId
  code : String
  name : String
  externalId : Option String
  normalBalanceType : DebitOrCredit
  status : Status
  eventuallyConsistent : Bool
  isAccountSet : Bool
  velocityContextValues : Option VelocityContextAccountValues
  description : Option String
  metadata : Option JsonText
  deriving DecidableEq

/-- `NewAccount::into_values`. -/
def NewAccount.intoValues (new : NewAccount) : AccountValues :=
  { id := new.id
    version := 1
    code := new.code
    name := new.name
    normalBalanceType := new.normalBalanceType
    status := new.status
    externalId := new.externalId
    description := new.description
    metadata := new.metadata
    config :=
      { isAccountSet := new.isAccountSet
        eventuallyConsistent := new.eventuallyConsistent } }

/-- `NewAccount::context_values`. -/
def NewAccount.contextValues (new : NewAccount) : VelocityContextAccountValues :=
  new.velocityContextValues.getD new.intoValues.contextValues

/-- What a caller outside the ledger may set on a `NewAccountBuilder`. -/
structure NewAccountBuilder where
  id : AccountId
  code : String
  name : String
  externalId : Option String := none
  normalBalanceType : DebitOrCredit := .credit
  status : Status := .active
  eventuallyConsistent : Bool := false
  description : Option String := none
  metadata : Option JsonText := none
  deriving DecidableEq

/-- `NewAccountBuilder::build`; the other fields keep their defaults. -/
def NewAccountBuilder.build (builder : NewAccountBuilder) : NewAccount :=
  { id := builder.id
    code := builder.code
    name := builder.name
    externalId := builder.externalId
    normalBalanceType := builder.normalBalanceType
    status := builder.status
    eventuallyConsistent := builder.eventuallyConsistent
    isAccountSet := false
    velocityContextValues := none
    description := builder.description
    metadata := builder.metadata }

/-- The columns of `AccountRepo`; the last two are not persisted on an update. -/
def accountSchema :
    ValuesSchema AccountId AccountRow NewAccount AccountValues AccountConfig where
  idOf := AccountValues.id
  newId := NewAccount.id
  intoValues := NewAccount.intoValues
  createRow new :=
    { normalBalanceType := new.normalBalanceType
      eventuallyConsistent := new.eventuallyConsistent
      isAccountSet := new.isAccountSet
      velocityContextValues := new.contextValues
      status := new.status }
  updateRow account row :=
    { row with
      normalBalanceType := account.values.normalBalanceType
      velocityContextValues := account.values.contextValues
      status := account.values.status }
  fixed := AccountValues.config
  fixedColumns row := ⟨row.isAccountSet, row.eventuallyConsistent⟩
  idOf_intoValues _ := rfl
  fixedColumns_createRow _ := rfl
  fixedColumns_updateRow _ _ := rfl

/-- An update touches neither the id of an account nor its configuration. -/
theorem AccountUpdateValues.mild (update : AccountUpdateValues) :
    ∀ change ∈ update.changes,
      Mild (fun values : AccountValues => (values.id, values.config)) change := by
  intro change hchange
  simp only [changes, List.mem_cons, List.not_mem_nil, or_false] at hchange
  rcases hchange with rfl | rfl | rfl | rfl | rfl | rfl | rfl <;>
    exact changeField_mild (fun _ _ => rfl)

end CalaLedger
