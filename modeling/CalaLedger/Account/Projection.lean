import CalaLedger.AccountSet.Entity
import CalaLedger.Foundations.HashMap

/-! # The projection of accounts

`cala_accounts` has a row for every account and for the account backing every set. Balances and
limits read the row, not the entity. Accounts refresh their row with every update they persist. A
set refreshes the velocity context of its backing row only, and with whatever it has in memory; so
the rows agree with the entities as long as no set is persisted with another normal balance type, or
out of a stale copy (`projection_in_step_iff`). -/

namespace CalaLedger

open Foundations

/-- `cala_accounts` and `cala_account_sets`, with their events. -/
structure EntityStores where
  accounts : EventStore AccountId AccountRow AccountEvent
  accountSets : EventStore AccountSetId AccountSetRow AccountSetEvent

def EntityStores.empty : EntityStores := ⟨EventStore.empty, EventStore.empty⟩

/-- `AccountRepo` and `AccountSetRepo`. -/
structure EntityRepos where
  accounts : EventRepo accountSchema.entitySchema
  accountSets : EventRepo accountSetSchema.entitySchema

/-! ## The services -/

namespace Accounts

variable (repos : EntityRepos)

/-- `Accounts::create_in_op`; joining an initial set writes no column of the account. -/
def createInOp (stores : EntityStores) (new : NewAccount) : Option (EntityStores × Account) :=
  (repos.accounts.create stores.accounts new).map
    (fun created => ({ stores with accounts := created.1 }, created.2))

/-- `Accounts::create_all_in_op`. -/
def createAllInOp (stores : EntityStores) (news : List NewAccount) :
    Option (EntityStores × List Account) :=
  (repos.accounts.createAll stores.accounts news).map
    (fun created => ({ stores with accounts := created.1 }, created.2))

/-- `Accounts::persist_in_op`: a backing account is refused. -/
def persistInOp (stores : EntityStores) (account : Account) : Option (EntityStores × Account) :=
  if Account.isAccountSet account then none
  else
    (repos.accounts.update stores.accounts account).map
      (fun updated => ({ stores with accounts := updated.1 }, updated.2))

/-- The body of `lock_in_op` and `unlock_in_op`. -/
def setStatusInOp (status : Status) (stores : EntityStores) (id : AccountId) :
    Option EntityStores := do
  let account ← repos.accounts.find stores.accounts id
  let (account, result) := Account.updateStatus account status
  if result.didExecute then (persistInOp repos stores account).map Prod.fst else some stores

/-- `Accounts::lock_in_op`. -/
def lockInOp : EntityStores → AccountId → Option EntityStores := setStatusInOp repos .locked

/-- `Accounts::unlock_in_op`. -/
def unlockInOp : EntityStores → AccountId → Option EntityStores := setStatusInOp repos .active

/-- `Accounts::update_velocity_context_values_in_op`. -/
def updateVelocityContextValuesInOp (stores : EntityStores)
    (values : VelocityContextAccountValues) : EntityStores :=
  { stores with
    accounts := stores.accounts.modifyRow values.id
      (fun row => { row with velocityContextValues := values }) }

end Accounts

namespace AccountSets

variable (repos : EntityRepos)

/-- `AccountSets::create_in_op`: the backing account, then the set. -/
def createInOp (stores : EntityStores) (new : NewAccountSet) :
    Option (EntityStores × AccountSet) := do
  let (stores, _) ← Accounts.createInOp repos stores new.backingAccount
  let (accountSets, accountSet) ← repos.accountSets.create stores.accountSets new
  some ({ stores with accountSets := accountSets }, accountSet)

/-- `AccountSets::create_all_in_op`: the backing accounts, then the sets. -/
def createAllInOp (stores : EntityStores) (news : List NewAccountSet) :
    Option (EntityStores × List AccountSet) := do
  let (stores, _) ← Accounts.createAllInOp repos stores (news.map NewAccountSet.backingAccount)
  let (accountSets, created) ← repos.accountSets.createAll stores.accountSets news
  some ({ stores with accountSets := accountSets }, created)

/-- `AccountSets::persist_in_op`. -/
def persistInOp (stores : EntityStores) (accountSet : AccountSet) :
    Option (EntityStores × AccountSet) := do
  let (accountSets, accountSet) ← repos.accountSets.update stores.accountSets accountSet
  some (Accounts.updateVelocityContextValuesInOp { stores with accountSets := accountSets }
    accountSet.values.contextValues, accountSet)

end AccountSets

/-! ## Runs -/

/-- The tables, and the entities that callers hold in memory. -/
structure ProjectionState where
  stores : EntityStores
  accounts : List Account
  accountSets : List AccountSet

def ProjectionState.initial : ProjectionState := ⟨EntityStores.empty, [], []⟩

/-- An operation of a caller; entities in memory are named by their position. -/
inductive EntityOp
  | createAccount (new : NewAccountBuilder)
  | createAllAccounts (news : List NewAccountBuilder)
  | createAccountSet (new : NewAccountSet)
  | createAllAccountSets (news : List NewAccountSet)
  | findAccount (id : AccountId)
  | findAccountSet (id : AccountSetId)
  | updateAccount (index : ℕ) (update : AccountUpdateValues)
  | updateAccountSet (index : ℕ) (update : AccountSetUpdateValues)
  | persistAccount (index : ℕ)
  | persistAccountSet (index : ℕ)
  | lockAccount (id : AccountId)
  | unlockAccount (id : AccountId)

/-- One operation, committed; `none` is an error. -/
def ProjectionState.step (repos : EntityRepos) (state : ProjectionState) :
    EntityOp → Option ProjectionState
  | .createAccount new => do
      let (stores, account) ← Accounts.createInOp repos state.stores new.build
      some { state with stores := stores, accounts := state.accounts ++ [account] }
  | .createAllAccounts news => do
      let (stores, accounts) ← Accounts.createAllInOp repos state.stores
        (news.map NewAccountBuilder.build)
      some { state with stores := stores, accounts := state.accounts ++ accounts }
  | .createAccountSet new => do
      let (stores, accountSet) ← AccountSets.createInOp repos state.stores new
      some { state with stores := stores, accountSets := state.accountSets ++ [accountSet] }
  | .createAllAccountSets news => do
      let (stores, accountSets) ← AccountSets.createAllInOp repos state.stores news
      some { state with stores := stores, accountSets := state.accountSets ++ accountSets }
  | .findAccount id => do
      let account ← repos.accounts.find state.stores.accounts id
      some { state with accounts := state.accounts ++ [account] }
  | .findAccountSet id => do
      let accountSet ← repos.accountSets.find state.stores.accountSets id
      some { state with accountSets := state.accountSets ++ [accountSet] }
  | .updateAccount index update => do
      let account ← state.accounts[index]?
      some { state with accounts := state.accounts.set index (Account.update account update).1 }
  | .updateAccountSet index update => do
      let accountSet ← state.accountSets[index]?
      some { state with
        accountSets := state.accountSets.set index (AccountSet.update accountSet update).1 }
  | .persistAccount index => do
      let account ← state.accounts[index]?
      let (stores, account) ← Accounts.persistInOp repos state.stores account
      some { state with stores := stores, accounts := state.accounts.set index account }
  | .persistAccountSet index => do
      let accountSet ← state.accountSets[index]?
      let (stores, accountSet) ← AccountSets.persistInOp repos state.stores accountSet
      some { state with stores := stores, accountSets := state.accountSets.set index accountSet }
  | .lockAccount id => do
      let stores ← Accounts.lockInOp repos state.stores id
      some { state with stores := stores }
  | .unlockAccount id => do
      let stores ← Accounts.unlockInOp repos state.stores id
      some { state with stores := stores }

/-- One operation; one that fails changes nothing. -/
def ProjectionState.apply (repos : EntityRepos) (state : ProjectionState) (op : EntityOp) :
    ProjectionState :=
  (state.step repos op).getD state

/-- A run of operations. -/
def ProjectionState.run (repos : EntityRepos) (state : ProjectionState) (ops : List EntityOp) :
    ProjectionState :=
  ops.foldl (ProjectionState.apply repos) state

/-! ## In step -/

/-- Every row agrees with the entity that owns it, in the columns that are read off the row. -/
structure EntityStores.InStep (stores : EntityStores) : Prop where
  plain : ∀ id row, stores.accounts.rows id = some row → row.isAccountSet = false →
    ∃ values, stores.accounts.latest id = some values
      ∧ row.normalBalanceType = values.normalBalanceType
      ∧ row.velocityContextValues = values.contextValues ∧ row.status = values.status
  backing : ∀ setId row, stores.accounts.rows (AccountId.ofSet setId) = some row →
    row.isAccountSet = true →
    ∃ values, stores.accountSets.latest setId = some values
      ∧ row.normalBalanceType = values.normalBalanceType
      ∧ row.velocityContextValues = values.contextValues

/-- A set in memory says the same as its backing row: in its normal balance type, and in its velocity
context too if it has no update to store. -/
def EntityStores.Agrees (stores : EntityStores) (accountSet : AccountSet) : Prop :=
  ∀ row, stores.accounts.rows (AccountId.ofSet accountSet.id) = some row →
    row.normalBalanceType = accountSet.values.normalBalanceType
      ∧ (accountSet.events.pushed = [] →
        row.velocityContextValues = accountSet.values.contextValues)

/-- Every set is persisted from a copy that agrees with its backing row. -/
def ProjectionState.PersistsFaithfully (state : ProjectionState) : EntityOp → Prop
  | .persistAccountSet index =>
      ∀ accountSet, state.accountSets[index]? = some accountSet → state.stores.Agrees accountSet
  | _ => True

/-- The tables are kept by the repositories, and every set has its backing account. -/
structure EntityStores.Sound (stores : EntityStores) : Prop where
  accounts : accountSchema.Sound stores.accounts
  accountSets : accountSetSchema.Sound stores.accountSets
  backed : ∀ setId, stores.accountSets.events setId ≠ [] →
    ∃ row, stores.accounts.rows (AccountId.ofSet setId) = some row ∧ row.isAccountSet = true

/-- Later tables. -/
structure EntityStores.Advances (stores stores' : EntityStores) : Prop where
  sound : stores'.Sound
  accounts : accountSchema.Grows stores.accounts stores'.accounts
  accountSets : accountSetSchema.Grows stores.accountSets stores'.accountSets

/-- What callers hold in memory stems from the tables. -/
structure ProjectionState.Sound (state : ProjectionState) : Prop where
  stores : state.stores.Sound
  accounts : ∀ account ∈ state.accounts, accountSchema.Follows state.stores.accounts account
  accountSets : ∀ accountSet ∈ state.accountSets,
    accountSetSchema.Follows state.stores.accountSets accountSet

/-! ## What the services do to the tables -/

namespace EntityStores

variable {stores stores' : EntityStores} {repos : EntityRepos}

/-- The kind of an account never changes. -/
theorem row_kind {accounts accounts' : EventStore AccountId AccountRow AccountEvent} {id : AccountId}
    {row : AccountRow} (hgrow : accountSchema.Grows accounts accounts')
    (hrow : accounts.rows id = some row) :
    ∃ row', accounts'.rows id = some row' ∧ row'.isAccountSet = row.isAccountSet := by
  have hfixed := hgrow.fixed id (accountSchema.fixedColumns row) (by rw [hrow, Option.map_some])
  obtain ⟨row', hrow', hcolumns⟩ := Option.map_eq_some_iff.mp hfixed
  exact ⟨row', hrow', congrArg AccountConfig.isAccountSet hcolumns⟩

theorem sound_empty : EntityStores.empty.Sound :=
  ⟨ValuesSchema.sound_empty, ValuesSchema.sound_empty, fun _ h => absurd rfl h⟩

theorem Sound.refl (hsound : stores.Sound) : stores.Advances stores :=
  ⟨hsound, ValuesSchema.Grows.refl, ValuesSchema.Grows.refl⟩

theorem Sound.advances (hsound : stores.Sound)
    (haccounts : accountSchema.Sound stores'.accounts
      ∧ accountSchema.Grows stores.accounts stores'.accounts)
    (haccountSets : accountSetSchema.Sound stores'.accountSets
      ∧ accountSetSchema.Grows stores.accountSets stores'.accountSets)
    (hnew : ∀ setId, stores'.accountSets.events setId ≠ [] →
      stores.accountSets.events setId ≠ []
        ∨ ∃ row, stores'.accounts.rows (AccountId.ofSet setId) = some row
          ∧ row.isAccountSet = true) :
    stores.Advances stores' := by
  refine ⟨⟨haccounts.1, haccountSets.1, fun setId hevents => ?_⟩, haccounts.2, haccountSets.2⟩
  rcases hnew setId hevents with hold | hbacked
  · obtain ⟨row, hrow, hkind⟩ := hsound.backed setId hold
    obtain ⟨row', hrow', hsame⟩ := row_kind haccounts.2 hrow
    exact ⟨row', hrow', hsame.trans hkind⟩
  · exact hbacked

/-- Creating plain accounts. -/
theorem Sound.accountsCreated {news : List NewAccountBuilder}
    {accounts : EventStore AccountId AccountRow AccountEvent} (hsound : stores.Sound)
    (h : Created accountSchema.entitySchema stores.accounts (news.map NewAccountBuilder.build)
      accounts) :
    stores.Advances { stores with accounts := accounts }
      ∧ (stores.InStep → EntityStores.InStep { stores with accounts := accounts }) := by
  refine ⟨hsound.advances (hsound.accounts.created h) ⟨hsound.accountSets, ValuesSchema.Grows.refl⟩
    (fun setId hevents => Or.inl hevents), fun hstep => ⟨fun id row hrow hkind => ?_,
      fun setId row hrow hkind => ?_⟩⟩
  · show ∃ values, accounts.latest id = some values ∧ _
    by_cases hid : id ∈ (news.map NewAccountBuilder.build).map NewAccount.id
    · obtain ⟨new, hnew, rfl⟩ := List.mem_map.mp hid
      have hcreated : accounts.rows new.id = some (accountSchema.createRow new) := h.row new hnew
      obtain ⟨builder, -, rfl⟩ := List.mem_map.mp hnew
      refine ⟨_, ValuesSchema.created_latest h hnew, ?_⟩
      rw [← Option.some.inj (hcreated.symm.trans hrow)]
      exact ⟨rfl, rfl, rfl⟩
    · obtain ⟨hrows, hevents⟩ := h.kept id hid
      rw [EventStore.latest, hevents]
      exact hstep.plain id row (hrows.symm.trans hrow) hkind
  · by_cases hid : AccountId.ofSet setId ∈ (news.map NewAccountBuilder.build).map NewAccount.id
    · obtain ⟨new, hnew, heq⟩ := List.mem_map.mp hid
      have hcreated : accounts.rows new.id = some (accountSchema.createRow new) := h.row new hnew
      obtain ⟨builder, -, rfl⟩ := List.mem_map.mp hnew
      rw [heq] at hcreated
      -- a plain account has no row of a backing account
      rw [← Option.some.inj (hcreated.symm.trans hrow)] at hkind
      cases hkind
    · exact hstep.backing setId row ((h.kept _ hid).1.symm.trans hrow) hkind

/-- Creating sets with their backing accounts. -/
theorem Sound.accountSetsCreated {news : List NewAccountSet}
    {accounts : EventStore AccountId AccountRow AccountEvent}
    {accountSets : EventStore AccountSetId AccountSetRow AccountSetEvent} (hsound : stores.Sound)
    (haccounts : Created accountSchema.entitySchema stores.accounts
      (news.map NewAccountSet.backingAccount) accounts)
    (haccountSets : Created accountSetSchema.entitySchema stores.accountSets news accountSets) :
    stores.Advances ⟨accounts, accountSets⟩
      ∧ (stores.InStep → EntityStores.InStep ⟨accounts, accountSets⟩) := by
  have hrows : ∀ new ∈ news, accounts.rows (AccountId.ofSet new.id)
      = some (accountSchema.createRow new.backingAccount) :=
    fun new hnew => haccounts.row _ (List.mem_map_of_mem hnew)
  have hids : ∀ id, id ∈ (news.map NewAccountSet.backingAccount).map NewAccount.id →
      ∃ new ∈ news, AccountId.ofSet new.id = id := by
    intro id hid
    obtain ⟨backing, hbacking, rfl⟩ := List.mem_map.mp hid
    obtain ⟨new, hnew, rfl⟩ := List.mem_map.mp hbacking
    exact ⟨new, hnew, rfl⟩
  refine ⟨hsound.advances (hsound.accounts.created haccounts)
    (hsound.accountSets.created haccountSets) (fun setId hevents => ?_),
    fun hstep => ⟨fun id row hrow hkind => ?_, fun setId row hrow hkind => ?_⟩⟩
  · by_cases hid : setId ∈ news.map NewAccountSet.id
    · obtain ⟨new, hnew, rfl⟩ := List.mem_map.mp hid
      exact Or.inr ⟨_, hrows new hnew, rfl⟩
    · left
      rw [← (haccountSets.kept setId hid).2]
      exact hevents
  · by_cases hid : id ∈ (news.map NewAccountSet.backingAccount).map NewAccount.id
    · obtain ⟨new, hnew, rfl⟩ := hids id hid
      rw [← Option.some.inj ((hrows new hnew).symm.trans hrow)] at hkind
      cases hkind
    · obtain ⟨hold, hevents⟩ := haccounts.kept id hid
      show ∃ values, accounts.latest id = some values ∧ _
      rw [EventStore.latest, hevents]
      exact hstep.plain id row (hold.symm.trans hrow) hkind
  · show ∃ values, accountSets.latest setId = some values ∧ _
    by_cases hid : setId ∈ news.map NewAccountSet.id
    · obtain ⟨new, hnew, rfl⟩ := List.mem_map.mp hid
      refine ⟨_, ValuesSchema.created_latest haccountSets hnew, ?_⟩
      rw [← Option.some.inj ((hrows new hnew).symm.trans hrow)]
      exact ⟨rfl, rfl⟩
    · have hid' : AccountId.ofSet setId
          ∉ (news.map NewAccountSet.backingAccount).map NewAccount.id := by
        intro hmem
        obtain ⟨new, hnew, heq⟩ := hids _ hmem
        exact hid (List.mem_map.mpr ⟨new, hnew, AccountId.ofSet_injective heq⟩)
      rw [EventStore.latest, (haccountSets.kept setId hid).2]
      exact hstep.backing setId row ((haccounts.kept _ hid').1.symm.trans hrow) hkind

/-- Persisting a plain account that follows the tables. -/
theorem Sound.accountPersisted {account account' : Account} (hsound : stores.Sound)
    (hfollows : accountSchema.Follows stores.accounts account)
    (h : Accounts.persistInOp repos stores account = some (stores', account')) :
    stores.Advances stores' ∧ accountSchema.Follows stores'.accounts account'
      ∧ (stores.InStep → stores'.InStep) := by
  unfold Accounts.persistInOp at h
  split at h
  · cases h
  rename_i hplain
  obtain ⟨⟨accounts, updated⟩, hupdate, heq⟩ := Option.map_eq_some_iff.mp h
  cases heq
  obtain ⟨⟨hsound', hgrow, hfollows', -⟩, hcases⟩ := hsound.accounts.updated hfollows hupdate
  refine ⟨hsound.advances ⟨hsound', hgrow⟩ ⟨hsound.accountSets, ValuesSchema.Grows.refl⟩
    (fun setId hevents => Or.inl hevents), hfollows', fun hstep => ?_⟩
  rcases hcases with ⟨-, rfl⟩ | ⟨-, old, hold, rfl⟩
  · exact hstep
  have hkind : old.isAccountSet = false := by
    have hcolumns := hfollows.owns_values.2
    rw [hold, Option.map_some] at hcolumns
    exact (congrArg AccountConfig.isAccountSet (Option.some.inj hcolumns)).trans
      (Bool.eq_false_iff.mpr hplain)
  constructor
  · intro id row hrow hplain
    show ∃ values, EventStore.latest _ id = some values ∧ _
    by_cases hid : id = account.id
    · subst hid
      refine ⟨account.values, ?_, ?_⟩
      · rw [EventStore.latest, EventStore.put_events_self]
        exact hfollows.values
      · rw [EventStore.put_rows_self] at hrow
        rw [← Option.some.inj hrow]
        exact ⟨rfl, rfl, rfl⟩
    · rw [EventStore.latest, EventStore.put_events_ne hid]
      rw [EventStore.put_rows_ne hid] at hrow
      exact hstep.plain id row hrow hplain
  · intro setId row hrow hbacking
    by_cases hid : AccountId.ofSet setId = account.id
    · rw [hid, EventStore.put_rows_self] at hrow
      rw [← Option.some.inj hrow, show (accountSchema.updateRow account old).isAccountSet
        = old.isAccountSet from rfl, hkind] at hbacking
      cases hbacking
    · rw [EventStore.put_rows_ne hid] at hrow
      exact hstep.backing setId row hrow hbacking

/-- Locking and unlocking. -/
theorem Sound.statusSet {status : Status} {id : AccountId} (hsound : stores.Sound)
    (h : Accounts.setStatusInOp repos status stores id = some stores') :
    stores.Advances stores' ∧ (stores.InStep → stores'.InStep) := by
  obtain ⟨account, hfind, h⟩ := Option.bind_eq_some_iff.mp h
  obtain ⟨hfollows, -, -⟩ := hsound.accounts.hydrated (repos.accounts.find_spec hfind)
  replace h : (if (Account.updateStatus account status).2.didExecute then
      (Accounts.persistInOp repos stores (Account.updateStatus account status).1).map Prod.fst
    else some stores) = some stores' := h
  split at h
  · obtain ⟨⟨stores'', account'⟩, hpersist, heq⟩ := Option.map_eq_some_iff.mp h
    cases heq
    obtain ⟨hadvances, -, hstep⟩ :=
      hsound.accountPersisted (hfollows.change (AccountUpdateValues.mild _)).1 hpersist
    exact ⟨hadvances, hstep⟩
  · cases h
    exact ⟨hsound.refl, fun hstep => hstep⟩

/-- Persisting a set that follows the tables: the rows stay in step exactly if it agrees with its
backing row. -/
theorem Sound.accountSetPersisted {accountSet accountSet' : AccountSet} (hsound : stores.Sound)
    (hfollows : accountSetSchema.Follows stores.accountSets accountSet)
    (h : AccountSets.persistInOp repos stores accountSet = some (stores', accountSet')) :
    stores.Advances stores' ∧ accountSetSchema.Follows stores'.accountSets accountSet'
      ∧ (stores.InStep → (stores'.InStep ↔ stores.Agrees accountSet)) := by
  obtain ⟨⟨accountSets, updated⟩, hupdate, heq⟩ := Option.bind_eq_some_iff.mp h
  cases heq
  obtain ⟨⟨hsound', hgrow, hfollows', -, hvalues⟩, hcases⟩ :=
    hsound.accountSets.updated hfollows hupdate
  rw [hvalues]
  have hid : accountSet.values.contextValues.id = AccountId.ofSet accountSet.id :=
    congrArg AccountId.ofSet hfollows.owns_values.1
  refine ⟨hsound.advances (hsound.accounts.modifyRow (fun _ => rfl)) ⟨hsound', hgrow⟩
    (fun setId hevents => Or.inl ?_), hfollows', fun hstep => ?_⟩
  · replace hevents : accountSets.events setId ≠ [] := hevents
    rcases hcases with ⟨-, rfl⟩ | ⟨-, old, -, rfl⟩
    · exact hevents
    · by_cases hset : setId = accountSet.id
      · rw [hset]
        exact hfollows.events_ne_nil
      · intro hnil
        exact hevents ((EventStore.put_events_ne hset).trans hnil)
  obtain ⟨row, hrow, hkind⟩ := hsound.backed accountSet.id hfollows.events_ne_nil
  obtain ⟨values, hlatest, hbalance, hcontext⟩ := hstep.backing accountSet.id row hrow hkind
  have hrefreshed : (stores.accounts.modifyRow accountSet.values.contextValues.id
      (fun row => { row with velocityContextValues := accountSet.values.contextValues })).rows
        (AccountId.ofSet accountSet.id)
      = some { row with velocityContextValues := accountSet.values.contextValues } := by
    rw [hid, EventStore.modifyRow_rows_self, hrow, Option.map_some]
  constructor
  · intro hstep' row' hrow'
    obtain rfl : row = row' := Option.some.inj (hrow.symm.trans hrow')
    obtain ⟨values', hlatest', hbalance', hcontext'⟩ :=
      hstep'.backing accountSet.id _ hrefreshed hkind
    rcases hcases with ⟨-, rfl⟩ | ⟨hpushed, old, -, rfl⟩
    · -- nothing was stored: the latest values are those of before
      obtain rfl : values = values' := Option.some.inj (hlatest.symm.trans hlatest')
      have hsame : accountSet.values.contextValues = values.contextValues := hcontext'
      exact ⟨hbalance.trans
        (congrArg VelocityContextAccountValues.normalBalanceType hsame).symm,
        fun _ => hcontext.trans hsame.symm⟩
    · have hstored : some values' = some accountSet.values := by
        rw [← hlatest', ← hfollows.values]
        exact congrArg latestValues EventStore.put_events_self
      rw [Option.some.inj hstored] at hbalance'
      exact ⟨hbalance', fun hnil => absurd hnil hpushed⟩
  · intro hagrees
    obtain ⟨hbalance', hcontext'⟩ := hagrees row hrow
    rcases hcases with ⟨hpushed, rfl⟩ | ⟨-, old, -, rfl⟩
    · -- the row is written back as it was
      have hkept : stores.accounts.modifyRow accountSet.values.contextValues.id
          (fun row => { row with velocityContextValues := accountSet.values.contextValues })
          = stores.accounts := by
        rw [EventStore.modifyRow, hid, hrow, Option.map_some, ← hcontext' hpushed, ← hrow,
          Function.update_eq_self]
      show EntityStores.InStep ⟨stores.accounts.modifyRow _ _, stores.accountSets⟩
      rw [hkept]
      exact hstep
    · constructor
      · intro id row' hrow' hplain
        have hne : id ≠ accountSet.values.contextValues.id := by
          rw [hid]
          rintro rfl
          rw [← Option.some.inj (hrefreshed.symm.trans hrow')] at hplain
          exact absurd (hplain.symm.trans hkind) Bool.false_ne_true
        exact hstep.plain id row' ((EventStore.modifyRow_rows_ne hne).symm.trans hrow') hplain
      · intro setId row' hrow' hbacking
        show ∃ values, (stores.accountSets.put accountSet.id
          (accountSetSchema.updateRow accountSet old) accountSet.events.all).latest setId
            = some values ∧ _
        by_cases hset : setId = accountSet.id
        · subst hset
          rw [EventStore.latest, EventStore.put_events_self]
          rw [← Option.some.inj (hrefreshed.symm.trans hrow')]
          exact ⟨_, hfollows.values, hbalance', rfl⟩
        · have hne : AccountId.ofSet setId ≠ accountSet.values.contextValues.id := by
            rw [hid]
            exact fun heq => hset (AccountId.ofSet_injective heq)
          rw [EventStore.latest, EventStore.put_events_ne hset]
          exact hstep.backing setId row' ((EventStore.modifyRow_rows_ne hne).symm.trans hrow')
            hbacking

end EntityStores

/-! ## Runs of operations -/

namespace ProjectionState

variable {repos : EntityRepos} {state state' : ProjectionState} {op : EntityOp}

theorem sound_initial : initial.Sound :=
  ⟨EntityStores.sound_empty, fun _ h => absurd h List.not_mem_nil,
    fun _ h => absurd h List.not_mem_nil⟩

/-- What was in memory before follows later tables too. -/
theorem Sound.advanced {stores : EntityStores} {accounts : List Account}
    {accountSets : List AccountSet} (hsound : state.Sound) (h : state.stores.Advances stores)
    (haccounts : ∀ account ∈ accounts,
      account ∈ state.accounts ∨ accountSchema.Follows stores.accounts account)
    (haccountSets : ∀ accountSet ∈ accountSets,
      accountSet ∈ state.accountSets ∨ accountSetSchema.Follows stores.accountSets accountSet) :
    ProjectionState.Sound ⟨stores, accounts, accountSets⟩ := by
  refine ⟨h.sound, fun account haccount => ?_, fun accountSet haccountSet => ?_⟩
  · rcases haccounts account haccount with hold | hnew
    · exact (hsound.accounts account hold).mono h.accounts
    · exact hnew
  · rcases haccountSets accountSet haccountSet with hold | hnew
    · exact (hsound.accountSets accountSet hold).mono h.accountSets
    · exact hnew

/-- **One operation** keeps the tables and the entities in memory sound. From tables in step it leads
to tables in step exactly if no set is persisted unfaithfully. -/
theorem Sound.step (hsound : state.Sound) (h : state.step repos op = some state') :
    state'.Sound ∧ (state.stores.InStep → (state'.stores.InStep ↔ state.PersistsFaithfully op)) := by
  cases op with
  | createAccount new =>
    obtain ⟨⟨stores, account⟩, hcreate, heq⟩ := Option.bind_eq_some_iff.mp h
    obtain ⟨⟨accounts, account⟩, hrepo, hstores⟩ := Option.map_eq_some_iff.mp hcreate
    cases hstores
    cases heq
    obtain ⟨hcreated, hhydrate⟩ := repos.accounts.create_spec hrepo
    obtain ⟨hadvances, hstep⟩ := hsound.stores.accountsCreated
      (show Created accountSchema.entitySchema _ ([new].map NewAccountBuilder.build) _ from hcreated)
    refine ⟨hsound.advanced hadvances (fun account' hmem => ?_) (fun _ => Or.inl),
      fun hin => ⟨fun _ => trivial, fun _ => hstep hin⟩⟩
    rcases List.mem_append.mp hmem with hold | hnew
    · exact Or.inl hold
    · right
      rw [List.mem_singleton.mp hnew]
      exact hsound.stores.accounts.created_follows hcreated List.mem_cons_self hhydrate
  | createAllAccounts news =>
    obtain ⟨⟨stores, created⟩, hcreate, heq⟩ := Option.bind_eq_some_iff.mp h
    obtain ⟨⟨accounts, created⟩, hrepo, hstores⟩ := Option.map_eq_some_iff.mp hcreate
    cases hstores
    cases heq
    obtain ⟨hcreated, hhydrate⟩ := repos.accounts.createAll_spec hrepo
    obtain ⟨hadvances, hstep⟩ := hsound.stores.accountsCreated hcreated
    refine ⟨hsound.advanced hadvances (fun account' hmem => ?_) (fun _ => Or.inl),
      fun hin => ⟨fun _ => trivial, fun _ => hstep hin⟩⟩
    rcases List.mem_append.mp hmem with hold | hnew
    · exact Or.inl hold
    · obtain ⟨new, hmem, hnew⟩ := exists_of_mem_mapM hhydrate _ hnew
      exact Or.inr (hsound.stores.accounts.created_follows hcreated hmem hnew)
  | createAccountSet new =>
    obtain ⟨⟨stores, accountSet⟩, hcreate, heq⟩ := Option.bind_eq_some_iff.mp h
    obtain ⟨⟨stores', backing⟩, hbacking, hrest⟩ := Option.bind_eq_some_iff.mp hcreate
    obtain ⟨⟨accountSets, accountSet⟩, hset, hsome⟩ := Option.bind_eq_some_iff.mp hrest
    obtain ⟨⟨accounts, backing⟩, hrepo, hstores⟩ := Option.map_eq_some_iff.mp hbacking
    cases hstores
    cases hsome
    cases heq
    obtain ⟨hcreated, hhydrate⟩ := repos.accountSets.create_spec hset
    obtain ⟨hadvances, hstep⟩ := hsound.stores.accountSetsCreated
      (show Created accountSchema.entitySchema _ ([new].map NewAccountSet.backingAccount) _ from
        (repos.accounts.create_spec hrepo).1) hcreated
    refine ⟨hsound.advanced hadvances (fun _ => Or.inl) (fun accountSet' hmem => ?_),
      fun hin => ⟨fun _ => trivial, fun _ => hstep hin⟩⟩
    rcases List.mem_append.mp hmem with hold | hnew
    · exact Or.inl hold
    · right
      rw [List.mem_singleton.mp hnew]
      exact hsound.stores.accountSets.created_follows hcreated List.mem_cons_self hhydrate
  | createAllAccountSets news =>
    obtain ⟨⟨stores, created⟩, hcreate, heq⟩ := Option.bind_eq_some_iff.mp h
    obtain ⟨⟨stores', backing⟩, hbacking, hrest⟩ := Option.bind_eq_some_iff.mp hcreate
    obtain ⟨⟨accountSets, created⟩, hset, hsome⟩ := Option.bind_eq_some_iff.mp hrest
    obtain ⟨⟨accounts, backing⟩, hrepo, hstores⟩ := Option.map_eq_some_iff.mp hbacking
    cases hstores
    cases hsome
    cases heq
    obtain ⟨hcreated, hhydrate⟩ := repos.accountSets.createAll_spec hset
    obtain ⟨hadvances, hstep⟩ := hsound.stores.accountSetsCreated
      (repos.accounts.createAll_spec hrepo).1 hcreated
    refine ⟨hsound.advanced hadvances (fun _ => Or.inl) (fun accountSet' hmem => ?_),
      fun hin => ⟨fun _ => trivial, fun _ => hstep hin⟩⟩
    rcases List.mem_append.mp hmem with hold | hnew
    · exact Or.inl hold
    · obtain ⟨new, hmem, hnew⟩ := exists_of_mem_mapM hhydrate _ hnew
      exact Or.inr (hsound.stores.accountSets.created_follows hcreated hmem hnew)
  | findAccount id =>
    obtain ⟨account, hfind, heq⟩ := Option.bind_eq_some_iff.mp h
    cases heq
    refine ⟨hsound.advanced hsound.stores.refl (fun account' hmem => ?_) (fun _ => Or.inl),
      fun hin => ⟨fun _ => trivial, fun _ => hin⟩⟩
    rcases List.mem_append.mp hmem with hold | hnew
    · exact Or.inl hold
    · right
      rw [List.mem_singleton.mp hnew]
      exact (hsound.stores.accounts.hydrated (repos.accounts.find_spec hfind)).1
  | findAccountSet id =>
    obtain ⟨accountSet, hfind, heq⟩ := Option.bind_eq_some_iff.mp h
    cases heq
    refine ⟨hsound.advanced hsound.stores.refl (fun _ => Or.inl) (fun accountSet' hmem => ?_),
      fun hin => ⟨fun _ => trivial, fun _ => hin⟩⟩
    rcases List.mem_append.mp hmem with hold | hnew
    · exact Or.inl hold
    · right
      rw [List.mem_singleton.mp hnew]
      exact (hsound.stores.accountSets.hydrated (repos.accountSets.find_spec hfind)).1
  | updateAccount index update =>
    obtain ⟨account, hget, heq⟩ := Option.bind_eq_some_iff.mp h
    cases heq
    refine ⟨hsound.advanced hsound.stores.refl (fun account' hmem => ?_) (fun _ => Or.inl),
      fun hin => ⟨fun _ => trivial, fun _ => hin⟩⟩
    rcases List.mem_or_eq_of_mem_set hmem with hold | rfl
    · exact Or.inl hold
    · exact Or.inr
        ((hsound.accounts account (List.mem_of_getElem? hget)).change update.mild).1
  | updateAccountSet index update =>
    obtain ⟨accountSet, hget, heq⟩ := Option.bind_eq_some_iff.mp h
    cases heq
    refine ⟨hsound.advanced hsound.stores.refl (fun _ => Or.inl) (fun accountSet' hmem => ?_),
      fun hin => ⟨fun _ => trivial, fun _ => hin⟩⟩
    rcases List.mem_or_eq_of_mem_set hmem with hold | rfl
    · exact Or.inl hold
    · exact Or.inr
        ((hsound.accountSets accountSet (List.mem_of_getElem? hget)).change update.mild).1
  | persistAccount index =>
    obtain ⟨account, hget, h⟩ := Option.bind_eq_some_iff.mp h
    obtain ⟨⟨stores, account'⟩, hpersist, heq⟩ := Option.bind_eq_some_iff.mp h
    cases heq
    obtain ⟨hadvances, hfollows, hstep⟩ := hsound.stores.accountPersisted
      (hsound.accounts account (List.mem_of_getElem? hget)) hpersist
    refine ⟨hsound.advanced hadvances (fun account'' hmem => ?_) (fun _ => Or.inl),
      fun hin => ⟨fun _ => trivial, fun _ => hstep hin⟩⟩
    rcases List.mem_or_eq_of_mem_set hmem with hold | rfl
    · exact Or.inl hold
    · exact Or.inr hfollows
  | persistAccountSet index =>
    obtain ⟨accountSet, hget, h⟩ := Option.bind_eq_some_iff.mp h
    obtain ⟨⟨stores, accountSet'⟩, hpersist, heq⟩ := Option.bind_eq_some_iff.mp h
    cases heq
    obtain ⟨hadvances, hfollows, hstep⟩ := hsound.stores.accountSetPersisted
      (hsound.accountSets accountSet (List.mem_of_getElem? hget)) hpersist
    refine ⟨hsound.advanced hadvances (fun _ => Or.inl) (fun accountSet'' hmem => ?_),
      fun hin => (hstep hin).trans ⟨fun hagrees => ?_, fun hfaithful => ?_⟩⟩
    · rcases List.mem_or_eq_of_mem_set hmem with hold | rfl
      · exact Or.inl hold
      · exact Or.inr hfollows
    · intro accountSet'' hget'
      rw [← Option.some.inj (hget.symm.trans hget')]
      exact hagrees
    · exact hfaithful accountSet hget
  | lockAccount id =>
    obtain ⟨stores, hset, heq⟩ := Option.bind_eq_some_iff.mp h
    cases heq
    obtain ⟨hadvances, hstep⟩ := hsound.stores.statusSet hset
    exact ⟨hsound.advanced hadvances (fun _ => Or.inl) (fun _ => Or.inl),
      fun hin => ⟨fun _ => trivial, fun _ => hstep hin⟩⟩
  | unlockAccount id =>
    obtain ⟨stores, hset, heq⟩ := Option.bind_eq_some_iff.mp h
    cases heq
    obtain ⟨hadvances, hstep⟩ := hsound.stores.statusSet hset
    exact ⟨hsound.advanced hadvances (fun _ => Or.inl) (fun _ => Or.inl),
      fun hin => ⟨fun _ => trivial, fun _ => hstep hin⟩⟩

theorem Sound.apply (hsound : state.Sound) : (state.apply repos op).Sound := by
  unfold ProjectionState.apply
  cases h : state.step repos op with
  | none => exact hsound
  | some state' => exact (hsound.step h).1

theorem run_append {ops : List EntityOp} :
    state.run repos (ops ++ [op]) = (state.run repos ops).apply repos op := by
  rw [run, List.foldl_append]
  rfl

theorem Sound.run {ops : List EntityOp} (hsound : state.Sound) : (state.run repos ops).Sound := by
  induction ops using List.reverseRecOn with
  | nil => exact hsound
  | append_singleton ops op ih =>
    rw [run_append]
    exact ih.apply

theorem inStep_initial : initial.stores.InStep :=
  ⟨nofun, nofun⟩

/-- After one more operation the tables are still in step exactly if it is refused or persists no
set unfaithfully. -/
theorem Sound.apply_inStep (hsound : state.Sound) (hstep : state.stores.InStep) :
    (state.apply repos op).stores.InStep
      ↔ (state.step repos op ≠ none → state.PersistsFaithfully op) := by
  unfold ProjectionState.apply
  cases h : state.step repos op with
  | none => exact ⟨fun _ hne => absurd rfl hne, fun _ => hstep⟩
  | some state' =>
    rw [Option.getD_some, (hsound.step h).2 hstep]
    exact ⟨fun hfaithful _ => hfaithful, fun hfaithful => hfaithful (Option.some_ne_none _)⟩

end ProjectionState

/-- **When the rows stay in step.** The rows of `cala_accounts` agree with the entities after every
operation of a run exactly if every set persisted in it agrees with its backing row. -/
theorem projection_in_step_iff (repos : EntityRepos) (ops : List EntityOp) :
    (∀ past, past <+: ops → (ProjectionState.initial.run repos past).stores.InStep)
      ↔ ∀ past op, past ++ [op] <+: ops →
        (ProjectionState.initial.run repos past).step repos op ≠ none →
          (ProjectionState.initial.run repos past).PersistsFaithfully op := by
  have hstep : ∀ past op, (ProjectionState.initial.run repos past).stores.InStep →
      ((ProjectionState.initial.run repos (past ++ [op])).stores.InStep
        ↔ ((ProjectionState.initial.run repos past).step repos op ≠ none →
          (ProjectionState.initial.run repos past).PersistsFaithfully op)) := by
    intro past op hin
    rw [ProjectionState.run_append]
    exact ProjectionState.sound_initial.run.apply_inStep hin
  constructor
  · intro hin past op hpast
    exact (hstep past op (hin past ((List.prefix_append _ _).trans hpast))).mp (hin _ hpast)
  · intro hfaithful past
    induction past using List.reverseRecOn with
    | nil => exact fun _ => ProjectionState.inStep_initial
    | append_singleton past op ih =>
      intro hpast
      exact (hstep past op (ih ((List.prefix_append _ _).trans hpast))).mpr (hfaithful past op hpast)

/-- A set created with a credit balance, turned to debit and persisted: the row backing it still says
credit. -/
theorem backing_row_out_of_step :
    ¬ (ProjectionState.initial.run ⟨EventRepo.reference _, EventRepo.reference _⟩
      [.createAccountSet
          { id := ⟨1⟩, name := "assets", journalId := ⟨9⟩, balanceRollup := .synchronous },
        .updateAccountSet 0 { normalBalanceType := some .debit },
        .persistAccountSet 0]).stores.InStep := by
  intro hstep
  obtain ⟨values, hlatest, hbalance, -⟩ := hstep.backing ⟨1⟩ _ rfl rfl
  rw [← Option.some.inj hlatest] at hbalance
  cases hbalance

end CalaLedger
