import CalaLedger.Entities

/-! # Velocity controls of an account

The limits attached to an account and how one entry is held against them: `needsEnforcement` and
`windowForEnforcement` decide whether a limit applies and which window of it the entry falls into,
`enforce` compares a balance with the limit. An expression is evaluated against the transaction, the
entry and the account whose balance is checked; its evaluation may fail. -/

namespace CalaLedger

/-- What a velocity expression may refer to. -/
structure VelocityContext where
  transaction : TransactionValues
  entry : EntryValues
  account : VelocityContextAccountValues
  deriving DecidableEq

/-- An expression, by its evaluation. -/
abbrev VelocityExpression (α : Type) := VelocityContext → Except CelError α

/-- One component of a partition window. -/
structure PartitionKey where
  «alias» : String
  value : VelocityExpression JsonText

/-- A partition window: a JSON object, its keys in order. -/
abbrev Window := List (String × JsonText)

/-- Insert into a JSON object, replacing the value of a key that is there. -/
def Window.insert (window : Window) (name : String) (value : JsonText) : Window :=
  match window with
  | [] => [(name, value)]
  | (n, v) :: rest =>
      if name < n then (name, value) :: (n, v) :: rest
      else if name = n then (n, value) :: rest
      else (n, v) :: Window.insert rest name value

structure AccountBalanceLimit where
  layer : Layer
  amount : Decimal
  enforcementDirection : DebitOrCredit
  start : Timestamp
  «end» : Option Timestamp
  deriving DecidableEq

structure AccountLimit where
  timestampSource : Option (VelocityExpression Timestamp)
  balance : List AccountBalanceLimit

structure AccountVelocityLimit where
  limitId : VelocityLimitId
  window : List PartitionKey
  condition : Option (VelocityExpression Bool)
  currency : Option Currency
  limit : AccountLimit

structure AccountVelocityControl where
  accountId : AccountId
  controlId : VelocityControlId
  condition : Option (VelocityExpression Bool)
  velocityLimits : List AccountVelocityLimit

structure LimitExceededError where
  accountId : AccountId
  currency : Currency
  limitId : VelocityLimitId
  layer : Layer
  direction : DebitOrCredit
  limit : Decimal
  requested : Decimal
  deriving DecidableEq

/-- `sqlx` stands for a statement that violates a constraint. -/
inductive VelocityError
  | sqlx
  | celError (error : CelError)
  | enforcement (error : LimitExceededError)
  deriving DecidableEq

/-- Evaluate an expression, passing its failure on. -/
def VelocityError.evaluate {α : Type} (expression : VelocityExpression α)
    (context : VelocityContext) : Except VelocityError α :=
  match expression context with
  | .ok a => .ok a
  | .error error => .error (.celError error)

/-- `AccountVelocityControl::needs_enforcement`. -/
def AccountVelocityControl.needsEnforcement (control : AccountVelocityControl)
    (context : VelocityContext) : Except VelocityError Bool :=
  match control.condition with
  | some condition => VelocityError.evaluate condition context
  | none => .ok true

/-- Evaluate the components of a window, one after the other. -/
def evaluateWindow (context : VelocityContext) :
    List PartitionKey → Window → Except VelocityError Window
  | [], window => .ok window
  | key :: keys, window => do
      let value ← VelocityError.evaluate key.value context
      evaluateWindow context keys (window.insert key.«alias» value)

/-- `AccountVelocityLimit::window_for_enforcement`: `none` when the limit does not apply. -/
def AccountVelocityLimit.windowForEnforcement (limit : AccountVelocityLimit)
    (context : VelocityContext) (entry : EntryValues) : Except VelocityError (Option Window) := do
  if limit.currency.any (· ≠ entry.currency) then
    .ok none
  else
    let applies ← match limit.condition with
      | some condition => VelocityError.evaluate condition context
      | none => .ok true
    if applies then
      let window ← evaluateWindow context limit.window []
      .ok (some window)
    else
      .ok none

/-- One layer of a balance, positive in the given direction. -/
def BalanceAmount.inDirection (amount : BalanceAmount) (direction : DebitOrCredit) : Decimal :=
  if direction = .credit then amount.crBalance - amount.drBalance
  else amount.drBalance - amount.crBalance

/-- `BalanceWithDirection::available`: a layer together with the layers below it. -/
def BalanceSnapshot.available (snapshot : BalanceSnapshot) (direction : DebitOrCredit) :
    Layer → Decimal
  | .settled => snapshot.settled.inDirection direction
  | .pending => snapshot.pending.inDirection direction + snapshot.settled.inDirection direction
  | .encumbrance =>
      snapshot.encumbrance.inDirection direction + snapshot.pending.inDirection direction
        + snapshot.settled.inDirection direction

/-- Whether a balance limit is in force at a time: from `start` on, until `end`. -/
def AccountBalanceLimit.inForce (limit : AccountBalanceLimit) (time : Timestamp) : Bool :=
  !(decide (time < limit.start) || limit.end.any (· ≤ time))

/-- Hold a snapshot against one balance limit. -/
def AccountBalanceLimit.check (limit : AccountBalanceLimit) (limitId : VelocityLimitId)
    (time : Timestamp) (snapshot : BalanceSnapshot) : Except VelocityError Unit :=
  if limit.inForce time
      ∧ limit.amount < snapshot.available limit.enforcementDirection limit.layer then
    .error (.enforcement
      { accountId := snapshot.accountId
        currency := snapshot.currency
        limitId := limitId
        layer := limit.layer
        direction := limit.enforcementDirection
        limit := limit.amount
        requested := snapshot.available limit.enforcementDirection limit.layer })
  else
    .ok ()

/-- `AccountVelocityLimit::enforce`. -/
def AccountVelocityLimit.enforce (limit : AccountVelocityLimit) (context : VelocityContext)
    (time : Timestamp) (snapshot : BalanceSnapshot) : Except VelocityError Unit := do
  if limit.currency.any (· ≠ snapshot.currency) then
    .ok ()
  else
    let time ← match limit.limit.timestampSource with
      | some source => VelocityError.evaluate source context
      | none => .ok time
    limit.limit.balance.forM (fun balanceLimit => balanceLimit.check limit.limitId time snapshot)

end CalaLedger
