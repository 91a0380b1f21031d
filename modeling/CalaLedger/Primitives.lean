import CalaLedger.Foundations.RoundedDecimal
import Mathlib.Algebra.Order.Ring.Rat
import Mathlib.Data.List.AList

/-! # Primitive ledger values

Identifiers, layers, directions and currencies, together with the collections the rest of the
development is written over. An identifier is a UUID tagged with the entity it names, so a set id
cannot stand where an account id is expected; `AccountId.ofSet` is the one conversion the source
provides. -/

namespace CalaLedger

/-- The entities that carry an identifier of their own. -/
inductive EntityKind
  | account
  | accountSet
  | journal
  | transaction
  | entry
  | txTemplate
  | velocityLimit
  | velocityControl
  deriving DecidableEq, Repr

/-- A UUID tagged with the entity it identifies; the order is byte order of the UUID. -/
structure EntityId (kind : EntityKind) where
  uuid : ℕ
  deriving DecidableEq, Repr

theorem EntityId.uuid_injective (kind : EntityKind) :
    Function.Injective (EntityId.uuid : EntityId kind → ℕ) := by
  rintro ⟨a⟩ ⟨b⟩ h
  exact congrArg EntityId.mk h

instance (kind : EntityKind) : LinearOrder (EntityId kind) :=
  LinearOrder.lift' EntityId.uuid (EntityId.uuid_injective kind)

/-- Membership of an identifier in a list is decided. -/
instance EntityId.decidableMem {kind : EntityKind} (id : EntityId kind)
    (ids : List (EntityId kind)) : Decidable (id ∈ ids) :=
  inferInstance

abbrev AccountId := EntityId .account
abbrev AccountSetId := EntityId .accountSet
abbrev JournalId := EntityId .journal
abbrev TransactionId := EntityId .transaction
abbrev EntryId := EntityId .entry
abbrev TxTemplateId := EntityId .txTemplate
abbrev VelocityLimitId := EntityId .velocityLimit
abbrev VelocityControlId := EntityId .velocityControl

/-- The account backing an account set has the set's own UUID. -/
def AccountId.ofSet (setId : AccountSetId) : AccountId := ⟨setId.uuid⟩

theorem AccountId.ofSet_injective : Function.Injective AccountId.ofSet := by
  rintro ⟨a⟩ ⟨b⟩ h
  exact congrArg EntityId.mk (EntityId.mk.inj h)

@[simp] theorem AccountId.ofSet_inj {s t : AccountSetId} :
    AccountId.ofSet s = AccountId.ofSet t ↔ s = t :=
  AccountId.ofSet_injective.eq_iff

/-- The id a snapshot carries for a layer that no entry has touched yet. -/
def UNASSIGNED_ENTRY_ID : EntryId := ⟨0⟩

/-- The two sides of an entry. -/
inductive DebitOrCredit
  | debit
  | credit
  deriving DecidableEq, Repr

/-- Whether an account or a journal may still be posted to. -/
inductive Status
  | active
  | locked
  deriving DecidableEq, Repr

/-- The three layers a balance is kept on. -/
inductive Layer
  | settled
  | pending
  | encumbrance
  deriving DecidableEq, Repr

/-- A currency is compared by its code. -/
structure Currency where
  code : String
  deriving DecidableEq, Repr

/-- `rust_decimal::Decimal`, by what it is worth: a mantissa of 96 bits, at most 28 fractional digits,
and sums that round to what fits. Where the source panics at an overflow, a sum is the largest
decimal of its sign. -/
abbrev Decimal := Foundations.RoundedDecimal (2 ^ 96 - 1) 28

/-- A decimal has this value. -/
abbrev Representable : ℚ → Prop := Foundations.FixedDecimal.Representable (2 ^ 96 - 1) 28

/-- An instant of the operation clock. -/
abbrev Timestamp := ℤ

/-- A calendar day. -/
abbrev NaiveDate := ℤ

-- with more of Mathlib in scope, the order found first on the integers is one that does not compute
instance : Preorder NaiveDate := Int.instLinearOrder.toPreorder

/-- Opaque JSON text carried through the ledger unchanged. -/
structure JsonText where
  text : String
  deriving DecidableEq, Repr

/-- A hash map; only look-ups, insertions and removals of one key are observable. -/
abbrev HashMap (κ ν : Type) := AList (fun _ : κ => ν)

/-- A balance row is identified by its journal, account and currency. -/
structure BalanceKey where
  journalId : JournalId
  accountId : AccountId
  currency : Currency
  deriving DecidableEq, Repr

end CalaLedger
