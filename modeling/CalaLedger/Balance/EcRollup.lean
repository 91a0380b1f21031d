import CalaLedger.AccountSet.Membership
import CalaLedger.Balance.Effective
import CalaLedger.Balance.Repo
import CalaLedger.Foundations.Commuting

/-! # The rollup apply

`Balances::apply_ec_rollup_in_op`: the transactions of one flush, grouped by journal; in each group
one read of the involved eventually-consistent balances, one fold for each transaction chained in
memory, one insert, then the effective updates one transaction after the other.

`ecStep` is the same for a single transaction, told without locks, reads or accumulators. The apply
is the run of `ecStep` over its transactions in the order given, however it groups them
(`applyEcRollupInOp_eq`). -/

namespace CalaLedger

open Foundations (VersionedTable)

/-- One transaction handed to the rollup. -/
structure EcRollupTxn where
  journalId : JournalId
  effective : NaiveDate
  createdAt : Timestamp
  entries : List EntryValues
  deriving DecidableEq

/-- `cala_accounts`, `cala_journals` and the membership tables: what a balance update reads and
never writes. -/
structure LedgerDirectory where
  accounts : AccountTable
  journals : JournalId → Option JournalValues
  memberships : MembershipTables

/-- An account that entries may be posted to: it exists and backs no set. -/
def LedgerDirectory.Leaf (directory : LedgerDirectory) (accountId : AccountId) : Prop :=
  ∃ row, directory.accounts accountId = some row ∧ row.isAccountSet = false

/-- Every set is backed by an account of its id, as the foreign key and set creation have it. -/
def LedgerDirectory.SetsBacked (directory : LedgerDirectory) : Prop :=
  ∀ setId journalId, directory.memberships.accountSets setId = some journalId →
    ∃ row, directory.accounts (AccountId.ofSet setId) = some row ∧ row.isAccountSet = true

/-- What administration keeps of the accounts: a row keeps its flags, a set its backing account. -/
structure LedgerDirectory.KeepsModes (directory directory' : LedgerDirectory) : Prop where
  accounts : ∀ accountId row, directory.accounts accountId = some row →
    ∃ row', directory'.accounts accountId = some row'
      ∧ row'.eventuallyConsistent = row.eventuallyConsistent
      ∧ row'.isAccountSet = row.isAccountSet
  backed : directory'.SetsBacked

theorem LedgerDirectory.KeepsModes.leaf {directory directory' : LedgerDirectory}
    (h : directory.KeepsModes directory') {accountId : AccountId}
    (hleaf : directory.Leaf accountId) : directory'.Leaf accountId := by
  obtain ⟨row, hrow, hset⟩ := hleaf
  obtain ⟨row', hrow', -, hset'⟩ := h.accounts accountId row hrow
  exact ⟨row', hrow', hset'.trans hset⟩

/-- An account that was there has the mode it had. -/
theorem LedgerDirectory.KeepsModes.consistency {directory directory' : LedgerDirectory}
    (h : directory.KeepsModes directory') {accountId : AccountId}
    (hknown : directory.accounts accountId ≠ none) (eventuallyConsistent : Bool) :
    directory'.accounts.consistency eventuallyConsistent accountId
      ↔ directory.accounts.consistency eventuallyConsistent accountId := by
  obtain ⟨row, hrow⟩ := Option.ne_none_iff_exists'.mp hknown
  obtain ⟨row', hrow', hmode, -⟩ := h.accounts accountId row hrow
  rw [AccountTable.consistency, AccountTable.consistency, hrow, hrow', Option.map_some,
    Option.map_some, hmode]

/-- The settled and the effective balance tables. -/
structure BalanceTables where
  balances : BalanceTable
  effectiveBalances : EffectiveTable

/-- The orders SQL leaves open: of deleted effective rows, and of the sets a walk returns. -/
structure RowOrder extends ScanOrder where
  walk : AccountId → List AccountSetId → List AccountSetId
  walk_perm : ∀ accountId sets, (walk accountId sets).Perm sets

/-- The order of insertion, everywhere. -/
instance : Inhabited RowOrder where
  default :=
    { scan := id
      perm := fun _ => List.Perm.refl _
      walk := fun _ sets => sets
      walk_perm := fun _ _ => List.Perm.refl _ }

/-- The errors of a balance update; `aborted` stands for a statement that violates a constraint and
for a panic. -/
inductive BalanceError
  | accountLocked (accountId : AccountId)
  | journalNotFound (journalId : JournalId)
  | aborted
  deriving DecidableEq, Repr

/-- The result of a statement that may abort the operation. -/
def BalanceError.ofOption {α : Type} : Option α → Except BalanceError α
  | some a => .ok a
  | none => .error .aborted

theorem BalanceError.ofOption_eq_ok {α : Type} {x : Option α} {a : α} :
    BalanceError.ofOption x = .ok a ↔ x = some a := by
  cases x with
  | none => exact ⟨nofun, nofun⟩
  | some b =>
      exact ⟨fun h => congrArg some (Except.ok.inj h),
        fun h => congrArg Except.ok (Option.some.inj h)⟩

/-- Whether an account exists and is locked. -/
def AccountTable.locked (accounts : AccountTable) (accountId : AccountId) : Prop :=
  (accounts accountId).map AccountRow.status = some .locked

instance (accounts : AccountTable) : DecidablePred accounts.locked :=
  fun _ => inferInstanceAs (Decidable (_ = _))

/-- `BalanceRepo::find_ec_balances_for_update`. -/
def findEcBalancesForUpdate (accounts : AccountTable) (balances : BalanceTable)
    (journalId : JournalId) (balanceIds : List (AccountId × Currency)) :
    Except BalanceError (HashMap (AccountId × Currency) (Option BalanceSnapshot)) :=
  let rows := balanceIds.filter (fun pair => accounts.consistency true pair.1)
  match rows.find? (fun pair => accounts.locked pair.1) with
  | some pair => .error (.accountLocked pair.1)
  | none => .ok (Foundations.ofKeys rows (fun pair => balances.value ⟨journalId, pair.1, pair.2⟩))

/-- Fold one transaction of a group onto the balances its predecessors left. -/
def settleEcTxn (ecMappings : AccountSetMappings) (ecLeaves : List AccountId)
    (state : HashMap (AccountId × Currency) (Option BalanceSnapshot) × List BalanceSnapshot)
    (tx : EcRollupTxn) :
    HashMap (AccountId × Currency) (Option BalanceSnapshot) × List BalanceSnapshot :=
  let newBalances := fromEcEntries tx.createdAt state.1 tx.entries ecMappings ecLeaves
  (newBalances.foldl (fun current snapshot =>
      current.insert (snapshot.accountId, snapshot.currency) (some snapshot)) state.1,
    state.2 ++ newBalances)

/-- The effective update of one transaction of a group. -/
def ecEffectiveCall (accounts : AccountTable) (ecMappings : AccountSetMappings)
    (ecLeaves : List AccountId) (tx : EcRollupTxn) : EffectiveCall :=
  .ecRollup
    { accounts := accounts
      journalId := tx.journalId
      entries := tx.entries
      effective := tx.effective
      createdAt := tx.createdAt
      mappings := ecMappings }
    ecLeaves

/-- The EC ancestor sets of an account, in the order a statement returns them. -/
def LedgerDirectory.ecMappings (directory : LedgerDirectory) (order : RowOrder)
    (journalId : JournalId) : AccountSetMappings :=
  fun accountId => order.walk accountId
    (directory.memberships.fetchEcSetMappings directory.accounts journalId accountId)

/-- `Balances::apply_ec_rollup_group_in_op`. -/
def applyEcRollupGroupInOp (order : RowOrder) (directory : LedgerDirectory)
    (tables : BalanceTables) (journalId : JournalId) (group : List EcRollupTxn) :
    Except BalanceError BalanceTables := do
  let entries := group.flatMap EcRollupTxn.entries
  let ecMappings := directory.ecMappings order journalId
  let ecLeaves := fetchEcLeafAccounts directory.accounts (entries.map EntryValues.accountId).dedup
  -- without EC sets and leaves nothing is involved, so the two early returns are one
  let involved := (reached (ecTargets ecMappings ecLeaves) entries).dedup
  if involved = [] then
    .ok tables
  else
    let currentBalances ← findEcBalancesForUpdate directory.accounts tables.balances journalId involved
    let allNew := (group.foldl (settleEcTxn ecMappings ecLeaves) (currentBalances, [])).2
    let balances ← BalanceError.ofOption (insertNewSnapshots tables.balances allNew)
    match directory.journals journalId with
    | none => .error (.journalNotFound journalId)
    | some journal =>
        if journal.insertEffectiveBalances then
          let effectiveBalances ← BalanceError.ofOption (runEffectiveCalls order.toScanOrder
            (group.map (ecEffectiveCall directory.accounts ecMappings ecLeaves))
            tables.effectiveBalances)
          .ok ⟨balances, effectiveBalances⟩
        else
          .ok ⟨balances, tables.effectiveBalances⟩

/-- `Balances::apply_ec_rollup_in_op`. -/
def applyEcRollupInOp (order : RowOrder) (directory : LedgerDirectory) (tables : BalanceTables)
    (txns : List EcRollupTxn) : Except BalanceError BalanceTables :=
  (Foundations.groupBy EcRollupTxn.journalId (fun tx => [tx]) txns).foldlM
    (fun tables group => applyEcRollupGroupInOp order directory tables group.1 group.2) tables

/-! ## One transaction at a time -/

section Step

variable (order : RowOrder) (directory : LedgerDirectory)

/-- The balances the rollup carries an entry into: every EC ancestor set of the journal, and the
account itself when it is an EC leaf. -/
def LedgerDirectory.ecTargetsOf (journalId : JournalId) (entry : EntryValues) : List AccountId :=
  ecTargets (directory.ecMappings order journalId)
    (fetchEcLeafAccounts directory.accounts [entry.accountId]) entry

/-- What the rollup adds to each balance for one transaction. -/
def ecEvents (tx : EcRollupTxn) (key : BalanceKey) : List TimedEntry :=
  if key.journalId = tx.journalId then
    (hits (directory.ecTargetsOf order tx.journalId) key.accountId key.currency tx.entries).map
      (fun entry => (tx.createdAt, entry))
  else
    []

/-- The rollup goes through for a transaction: no balance it reaches is locked, and if it reaches
one, the journal is known. -/
def EcReady (tx : EcRollupTxn) : Prop :=
  ∀ pair ∈ reached (directory.ecTargetsOf order tx.journalId) tx.entries,
    ¬ directory.accounts.locked pair.1 ∧ (directory.journals tx.journalId).isSome

instance (tx : EcRollupTxn) : Decidable (EcReady order directory tx) :=
  inferInstanceAs (Decidable (∀ pair ∈ _, _))

/-- Whether the journal of a transaction keeps effective balances. -/
def LedgerDirectory.keepsEffective (journalId : JournalId) : Bool :=
  (directory.journals journalId).any JournalValues.insertEffectiveBalances

/-- The effective update of one transaction on its own. -/
def ecCall (tx : EcRollupTxn) : EffectiveCall :=
  ecEffectiveCall directory.accounts (directory.ecMappings order tx.journalId)
    (fetchEcLeafAccounts directory.accounts (tx.entries.map EntryValues.accountId)) tx

def ecEffectiveStep (effectiveBalances : EffectiveTable) (tx : EcRollupTxn) :
    Option EffectiveTable :=
  if directory.keepsEffective tx.journalId then
    (ecCall order directory tx).run order.toScanOrder effectiveBalances
  else
    some effectiveBalances

/-- **The rollup of one transaction**, as its effect on the tables. -/
def ecStep (tables : BalanceTables) (tx : EcRollupTxn) : Option BalanceTables :=
  if EcReady order directory tx then
    (ecEffectiveStep order directory tables.effectiveBalances tx).map
      (fun effectiveBalances => ⟨tables.balances.advance (ecEvents order directory tx), effectiveBalances⟩)
  else
    none

variable {order directory}

/-- The rollup adds nothing outside the journal of the transaction. -/
theorem ecEvents_of_ne {tx : EcRollupTxn} {key : BalanceKey} (hne : key.journalId ≠ tx.journalId) :
    ecEvents order directory tx key = [] :=
  if_neg hne

/-- Entries of their transaction's journal make events of that journal. -/
theorem keyedEvents_ecEvents {tx : EcRollupTxn}
    (hentries : ∀ entry ∈ tx.entries, entry.journalId = tx.journalId) :
    KeyedEvents (ecEvents order directory tx) := by
  intro key timed htimed
  rw [ecEvents] at htimed
  split at htimed
  · rename_i hkey
    obtain ⟨entry, hentry, rfl⟩ := List.mem_map.mp htimed
    obtain ⟨hmem, hcurrency, -⟩ := (mem_hits _ _ _).mp hentry
    exact ⟨(hentries entry hmem).trans hkey.symm, hcurrency⟩
  · cases htimed

/-- Only the leaf test of an update depends on the list of leaves it is given. -/
theorem ecTargets_congr {ecMappings : AccountSetMappings} {leaves leaves' : List AccountId}
    {entry : EntryValues} (h : entry.accountId ∈ leaves ↔ entry.accountId ∈ leaves') :
    ecTargets ecMappings leaves entry = ecTargets ecMappings leaves' entry := by
  unfold ecTargets
  simp only [h]

/-- Within a group of accounts the group's leaves decide as an entry's own. -/
theorem ecTargets_eq_ecTargetsOf {journalId : JournalId} {accountIds : List AccountId}
    {entry : EntryValues} (hmem : entry.accountId ∈ accountIds) :
    ecTargets (directory.ecMappings order journalId)
        (fetchEcLeafAccounts directory.accounts accountIds) entry
      = directory.ecTargetsOf order journalId entry := by
  refine ecTargets_congr ?_
  rw [mem_fetchEcLeafAccounts, mem_fetchEcLeafAccounts]
  simp [hmem]

theorem reached_congr {targets targets' : EntryValues → List AccountId}
    {entries : List EntryValues} (h : ∀ entry ∈ entries, targets entry = targets' entry) :
    reached targets entries = reached targets' entries :=
  List.flatMap_congr (fun entry hentry => by rw [h entry hentry])

theorem hits_congr_targets {targets targets' : EntryValues → List AccountId} {accountId : AccountId}
    {currency : Currency} {entries : List EntryValues}
    (h : ∀ entry ∈ entries, targets entry = targets' entry) :
    hits targets accountId currency entries = hits targets' accountId currency entries :=
  hits_congr _ _ _ (fun entry hentry => by rw [h entry hentry])

/-- The group's leaves drive the same effective update as the transaction's own. -/
theorem run_ecEffectiveCall {tx : EcRollupTxn} {leaves leaves' : List AccountId}
    {ecMappings : AccountSetMappings} {accounts : AccountTable} (scan : ScanOrder)
    (h : ∀ entry ∈ tx.entries, ecTargets ecMappings leaves entry = ecTargets ecMappings leaves' entry)
    (table : EffectiveTable) :
    (ecEffectiveCall accounts ecMappings leaves tx).run scan table
      = (ecEffectiveCall accounts ecMappings leaves' tx).run scan table := by
  have hinvolved : (ecEffectiveCall accounts ecMappings leaves tx).involved
      = (ecEffectiveCall accounts ecMappings leaves' tx).involved := by
    change (reached _ tx.entries).dedup = (reached _ tx.entries).dedup
    exact congrArg _ (reached_congr h)
  unfold EffectiveCall.run
  rw [hinvolved]
  split
  · rfl
  · change writeCumulative _ _ _ _ _ _ = writeCumulative _ _ _ _ _ _
    unfold writeCumulative pushEntries
    simp only [carry_congr _ h]

/-! ## Steps of different journals -/

variable (order directory) in
theorem ecEffectiveStep_comm (effectiveBalances : EffectiveTable) {a b : EcRollupTxn}
    (hne : a.journalId ≠ b.journalId) :
    (ecEffectiveStep order directory effectiveBalances a).bind (ecEffectiveStep order directory · b)
      = (ecEffectiveStep order directory effectiveBalances b).bind
          (ecEffectiveStep order directory · a) := by
  unfold ecEffectiveStep
  by_cases ha : directory.keepsEffective a.journalId <;>
    by_cases hb : directory.keepsEffective b.journalId <;> simp only [ha, hb, if_true]
  · exact EffectiveCall.run_comm order.toScanOrder effectiveBalances hne
  · simp
  · simp
  · rfl

/-- **Transactions of different journals commute.** -/
theorem commuting_ecStep :
    Foundations.Commuting EcRollupTxn.journalId (ecStep order directory) := by
  intro tables a b hne
  have hswap : ∀ balances : BalanceTable,
      (balances.advance (ecEvents order directory a)).advance (ecEvents order directory b)
        = (balances.advance (ecEvents order directory b)).advance (ecEvents order directory a) := by
    intro balances
    rw [← BalanceTable.advance_append, ← BalanceTable.advance_append]
    refine congrArg _ (funext (fun key => ?_))
    by_cases hkey : key.journalId = a.journalId
    · have hother : ecEvents order directory b key = [] :=
        ecEvents_of_ne (fun h => hne (hkey.symm.trans h))
      rw [hother, List.append_nil, List.nil_append]
    · rw [ecEvents_of_ne hkey, List.append_nil, List.nil_append]
  have heffective := ecEffectiveStep_comm order directory tables.effectiveBalances hne
  unfold ecStep
  by_cases ha : EcReady order directory a <;> by_cases hb : EcReady order directory b <;>
    simp only [ha, hb, if_true, if_false, Option.bind_none]
  · rw [Option.bind_map, Option.bind_map]
    have hmap := congrArg (Option.map (fun effectiveBalances => (⟨(tables.balances.advance
      (ecEvents order directory a)).advance (ecEvents order directory b), effectiveBalances⟩ :
        BalanceTables))) heffective
    rw [Option.map_bind, Option.map_bind] at hmap
    simp only [Function.comp_def] at hmap ⊢
    rw [← hswap tables.balances]
    exact hmap
  · rw [Option.bind_fun_none]
  · rw [Option.bind_fun_none]

/-- The steps of a list of transactions, all at once. -/
theorem foldlM_ecStep (txns : List EcRollupTxn) :
    ∀ tables : BalanceTables, txns.foldlM (ecStep order directory) tables
      = if ∀ tx ∈ txns, EcReady order directory tx then
          (txns.foldlM (ecEffectiveStep order directory) tables.effectiveBalances).map
            (fun effectiveBalances => ⟨tables.balances.advance (fun key =>
              txns.flatMap (fun tx => ecEvents order directory tx key)), effectiveBalances⟩)
        else none := by
  induction txns with
  | nil =>
      intro tables
      simp
  | cons tx txns ih =>
      intro tables
      have hadvance : ∀ balances : BalanceTable,
          balances.advance (fun key => (tx :: txns).flatMap (fun tx => ecEvents order directory tx key))
            = (balances.advance (ecEvents order directory tx)).advance (fun key =>
                txns.flatMap (fun tx => ecEvents order directory tx key)) := by
        intro balances
        rw [← BalanceTable.advance_append]
        rfl
      rw [List.foldlM_cons, hadvance]
      simp only [List.forall_mem_cons, Option.bind_eq_bind, ih, List.foldlM_cons]
      by_cases hready : EcReady order directory tx
      · simp only [ecStep, hready, if_true, true_and, Option.bind_map, Function.comp_def]
        split
        · rw [Option.map_bind]
          rfl
        · exact Option.bind_fun_none _
      · simp [ecStep, hready]

end Step

/-! ## A group -/

section Group

variable {order : RowOrder} {directory : LedgerDirectory} {journalId : JournalId}

/-- Where the settled fold of a group stands after `events` have reached each loaded balance. -/
structure Settling (journalId : JournalId)
    (loaded : HashMap (AccountId × Currency) (Option BalanceSnapshot))
    (events : AccountId × Currency → List TimedEntry)
    (state : HashMap (AccountId × Currency) (Option BalanceSnapshot) × List BalanceSnapshot) :
    Prop where
  keyed : LoadedByKey state.1
  current : ∀ pair, state.1.lookup pair = (loaded.lookup pair).map (fun base =>
    VersionedTable.runLast (nextTimed ⟨journalId, pair.1, pair.2⟩) base (events pair))
  rows : ∀ pair, state.2.filter (fun s => SnapshotFold.OfKey pair s)
    = ((loaded.lookup pair).map (fun base =>
        VersionedTable.run (nextTimed ⟨journalId, pair.1, pair.2⟩) base (events pair))).getD []

variable (journalId) in
/-- One transaction of the settled fold, seen from one balance. -/
theorem fromEcEntries_filter {current : HashMap (AccountId × Currency) (Option BalanceSnapshot)}
    (hcurrent : LoadedByKey current) (ecMappings : AccountSetMappings) (ecLeaves : List AccountId)
    (tx : EcRollupTxn) (pair : AccountId × Currency) :
    (fromEcEntries tx.createdAt current tx.entries ecMappings ecLeaves).filter
        (fun s => SnapshotFold.OfKey pair s)
      = ((current.lookup pair).map (fun base =>
          VersionedTable.run (nextTimed ⟨journalId, pair.1, pair.2⟩) base
            ((hits (ecTargets ecMappings ecLeaves) pair.1 pair.2 tx.entries).map
              (fun entry => (tx.createdAt, entry))))).getD [] := by
  rw [fromEcEntries, fold_filter_key tx.createdAt hcurrent]
  cases current.lookup pair with
  | none => rfl
  | some base => exact chain_eq_run tx.createdAt ⟨journalId, pair.1, pair.2⟩ _ base

theorem Settling.step {loaded : HashMap (AccountId × Currency) (Option BalanceSnapshot)}
    {events : AccountId × Currency → List TimedEntry}
    {state : HashMap (AccountId × Currency) (Option BalanceSnapshot) × List BalanceSnapshot}
    (h : Settling journalId loaded events state) (ecMappings : AccountSetMappings)
    (ecLeaves : List AccountId) (tx : EcRollupTxn) :
    Settling journalId loaded (fun pair => events pair
        ++ (hits (ecTargets ecMappings ecLeaves) pair.1 pair.2 tx.entries).map
          (fun entry => (tx.createdAt, entry)))
      (settleEcTxn ecMappings ecLeaves state tx) := by
  have hnew := fromEcEntries_filter journalId h.keyed ecMappings ecLeaves tx
  have hlookup : ∀ pair, (settleEcTxn ecMappings ecLeaves state tx).1.lookup pair
      = (((fromEcEntries tx.createdAt state.1 tx.entries ecMappings ecLeaves).filter
          (fun s => SnapshotFold.OfKey pair s)).getLast?.map some).or (state.1.lookup pair) :=
    fun pair => Foundations.lookup_foldl_store _ _ _ _ _
  refine ⟨?_, ?_, ?_⟩
  · intro pair s hs
    rw [hlookup] at hs
    cases hlast : ((fromEcEntries tx.createdAt state.1 tx.entries ecMappings ecLeaves).filter
        (fun s => SnapshotFold.OfKey pair s)).getLast? with
    | none =>
        rw [hlast] at hs
        exact h.keyed pair s hs
    | some last =>
        rw [hlast] at hs
        cases hs
        simpa using (List.mem_filter.mp (List.mem_of_getLast? hlast)).2
  · intro pair
    rw [hlookup, hnew, h.current]
    cases loaded.lookup pair with
    | none => rfl
    | some base =>
        simp only [Option.map_some, Option.getD_some, VersionedTable.runLast_append]
        generalize hback : (hits (ecTargets ecMappings ecLeaves) pair.1 pair.2 tx.entries).map
          (fun entry => (tx.createdAt, entry)) = back
        by_cases hnil : back = []
        · subst hnil
          rfl
        · rw [VersionedTable.run_getLast? _ _ hnil]
          have hsome : ∃ s, VersionedTable.runLast (nextTimed ⟨journalId, pair.1, pair.2⟩)
              (VersionedTable.runLast (nextTimed ⟨journalId, pair.1, pair.2⟩) base (events pair))
              back = some s := by
            rw [← VersionedTable.run_getLast? _ _ hnil]
            exact List.getLast?_isSome.mpr (fun hrun => hnil (VersionedTable.run_eq_nil.mp hrun))
              |> Option.isSome_iff_exists.mp
          obtain ⟨s, hs⟩ := hsome
          rw [hs]
          rfl
  · intro pair
    change (state.2 ++ fromEcEntries tx.createdAt state.1 tx.entries ecMappings ecLeaves).filter _ = _
    rw [List.filter_append, h.rows, hnew, h.current]
    cases loaded.lookup pair with
    | none => rfl
    | some base => simp only [Option.map_some, Option.getD_some, VersionedTable.run_append]

/-- The settled fold of a whole group. -/
theorem Settling.fold {loaded : HashMap (AccountId × Currency) (Option BalanceSnapshot)}
    (ecMappings : AccountSetMappings) (ecLeaves : List AccountId) (group : List EcRollupTxn) :
    ∀ {events : AccountId × Currency → List TimedEntry}
      {state : HashMap (AccountId × Currency) (Option BalanceSnapshot) × List BalanceSnapshot},
      Settling journalId loaded events state →
      Settling journalId loaded (fun pair => events pair ++ group.flatMap (fun tx =>
          (hits (ecTargets ecMappings ecLeaves) pair.1 pair.2 tx.entries).map
            (fun entry => (tx.createdAt, entry))))
        (group.foldl (settleEcTxn ecMappings ecLeaves) state) := by
  induction group with
  | nil =>
      intro events state h
      simpa using h
  | cons tx group ih =>
      intro events state h
      simpa only [List.flatMap_cons, List.append_assoc, List.foldl_cons] using ih (h.step ecMappings ecLeaves tx)

variable (journalId) in
theorem Settling.start {loaded : HashMap (AccountId × Currency) (Option BalanceSnapshot)}
    (hloaded : LoadedByKey loaded) : Settling journalId loaded (fun _ => []) (loaded, []) where
  keyed := hloaded
  current := fun pair => (congrFun Option.map_id _).symm
  rows := by
    intro pair
    cases loaded.lookup pair <;> rfl

/-- A transaction that reaches no EC balance changes nothing. -/
theorem ecStep_of_reached_nil {tables : BalanceTables} {tx : EcRollupTxn}
    (hnone : reached (directory.ecTargetsOf order tx.journalId) tx.entries = []) :
    ecStep order directory tables tx = some tables := by
  have hready : EcReady order directory tx := by
    intro pair hpair
    rw [hnone] at hpair
    cases hpair
  have hevents : ecEvents order directory tx = fun _ => [] := by
    funext key
    unfold ecEvents
    split
    · by_contra hhits
      have hmem : (key.accountId, key.currency)
          ∈ reached (directory.ecTargetsOf order tx.journalId) tx.entries :=
        mem_reached.mpr (fun hnil => hhits (by rw [hnil, List.map_nil]))
      rw [hnone] at hmem
      cases hmem
    · rfl
  have hcall : (ecCall order directory tx).involved = [] := by
    change (reached (ecTargets _ _) tx.entries).dedup = []
    rw [reached_congr (fun entry hentry => ecTargets_eq_ecTargetsOf
      (List.mem_map_of_mem hentry)), hnone]
    rfl
  have heffective : ∀ table, ecEffectiveStep order directory table tx = some table := by
    intro table
    unfold ecEffectiveStep EffectiveCall.run
    simp [hcall]
  rw [ecStep, if_pos hready, heffective, hevents, BalanceTable.advance_nil]
  rfl

/-- Only eventually-consistent balances are reached. -/
theorem consistency_of_mem_reached {accountIds : List AccountId} {entries : List EntryValues}
    {pair : AccountId × Currency}
    (h : pair ∈ reached (ecTargets (directory.ecMappings order journalId)
      (fetchEcLeafAccounts directory.accounts accountIds)) entries) :
    directory.accounts.consistency true pair.1 := by
  obtain ⟨entry, -, hmem⟩ := List.mem_flatMap.mp h
  obtain ⟨accountId, htarget, rfl⟩ := List.mem_map.mp hmem
  rcases List.mem_append.mp htarget with hset | hleaf
  · obtain ⟨setId, hsetId, rfl⟩ := List.mem_map.mp hset
    exact MembershipTables.consistency_of_mem_fetchEcSetMappings
      ((order.walk_perm _ _).mem_iff.mp hsetId)
  · split at hleaf
    · rename_i hmem
      rw [List.mem_singleton] at hleaf
      exact hleaf ▸ consistency_of_mem_fetchEcLeafAccounts hmem
    · cases hleaf

variable (order directory) in
/-- The settled fold of a group spells out the events of its transactions. -/
theorem spells_settleEcTxn {table : BalanceTable} (hwf : table.WellFormed)
    {group : List EcRollupTxn} (hjournal : ∀ tx ∈ group, tx.journalId = journalId)
    (hentries : ∀ tx ∈ group, ∀ entry ∈ tx.entries, entry.journalId = tx.journalId)
    {ecMappings : AccountSetMappings} {ecLeaves : List AccountId}
    (htargets : ∀ tx ∈ group, ∀ entry ∈ tx.entries,
      ecTargets ecMappings ecLeaves entry = directory.ecTargetsOf order journalId entry)
    {balanceIds : List (AccountId × Currency)}
    (hids : ∀ pair, pair ∈ balanceIds
      ↔ ∃ tx ∈ group, pair ∈ reached (ecTargets ecMappings ecLeaves) tx.entries) :
    Spells table (fun key => group.flatMap (fun tx => ecEvents order directory tx key))
      (group.foldl (settleEcTxn ecMappings ecLeaves)
        (Foundations.ofKeys balanceIds (fun pair => table.value ⟨journalId, pair.1, pair.2⟩), [])).2 := by
  have hevents : ∀ accountId currency,
      group.flatMap (fun tx => ecEvents order directory tx ⟨journalId, accountId, currency⟩)
        = group.flatMap (fun tx => (hits (ecTargets ecMappings ecLeaves) accountId currency
            tx.entries).map (fun entry => (tx.createdAt, entry))) := by
    intro accountId currency
    refine List.flatMap_congr (fun tx htx => ?_)
    rw [ecEvents, if_pos (hjournal tx htx).symm, hjournal tx htx,
      hits_congr_targets (htargets tx htx)]
  have hloaded : LoadedByKey (Foundations.ofKeys balanceIds
      (fun pair => table.value ⟨journalId, pair.1, pair.2⟩)) := by
    intro pair s hs
    rw [Foundations.lookup_ofKeys] at hs
    split at hs
    · have hkey := hwf.value_keyed (Option.some.inj hs)
      exact Prod.ext (congrArg BalanceKey.accountId hkey) (congrArg BalanceKey.currency hkey)
    · cases hs
  have hsettled := (Settling.start journalId hloaded).fold ecMappings ecLeaves group
  refine spells_of_ofKey journalId hwf ?_ ?_ (fun accountId currency => ?_)
  · intro key timed htimed
    obtain ⟨tx, htx, htimed⟩ := List.mem_flatMap.mp htimed
    exact keyedEvents_ecEvents (hentries tx htx) key timed htimed
  · intro key hkey
    rw [List.flatMap_eq_nil_iff]
    exact fun tx htx => ecEvents_of_ne (fun h => hkey (h.trans (hjournal tx htx)))
  · rw [hsettled.rows (accountId, currency), Foundations.lookup_ofKeys, hevents, List.nil_append]
    split
    · rfl
    · -- a balance that was not loaded is not hit
      rename_i hout
      have hnone : group.flatMap (fun tx => (hits (ecTargets ecMappings ecLeaves) accountId currency
          tx.entries).map (fun entry => (tx.createdAt, entry))) = [] := by
        rw [List.flatMap_eq_nil_iff]
        intro tx htx
        rw [List.map_eq_nil_iff]
        by_contra hhits
        exact hout ((hids (accountId, currency)).mpr ⟨tx, htx, mem_reached.mpr hhits⟩)
      rw [hnone]
      rfl

/-- The effective updates of a group are those of its transactions. -/
theorem runEffectiveCalls_group {ecMappings : AccountSetMappings} {ecLeaves : List AccountId}
    {group : List EcRollupTxn} (hjournal : ∀ tx ∈ group, tx.journalId = journalId)
    (hmappings : ecMappings = directory.ecMappings order journalId)
    (htargets : ∀ tx ∈ group, ∀ entry ∈ tx.entries,
      ecTargets ecMappings ecLeaves entry = directory.ecTargetsOf order journalId entry)
    (hkeeps : directory.keepsEffective journalId = true) (table : EffectiveTable) :
    runEffectiveCalls order.toScanOrder
        (group.map (ecEffectiveCall directory.accounts ecMappings ecLeaves)) table
      = group.foldlM (ecEffectiveStep order directory) table := by
  subst hmappings
  unfold runEffectiveCalls
  induction group generalizing table with
  | nil => rfl
  | cons tx group ih =>
      have htx : tx.journalId = journalId := hjournal tx List.mem_cons_self
      have hstep : ∀ table, (ecEffectiveCall directory.accounts
          (directory.ecMappings order journalId) ecLeaves tx).run order.toScanOrder table
          = ecEffectiveStep order directory table tx := by
        intro table
        rw [ecEffectiveStep, htx, if_pos hkeeps, ecCall, htx]
        exact run_ecEffectiveCall _ (fun entry hentry =>
          (htargets tx List.mem_cons_self entry hentry).trans
            (ecTargets_eq_ecTargetsOf (List.mem_map_of_mem hentry)).symm) table
      rw [List.map_cons, List.foldlM_cons, List.foldlM_cons, hstep]
      exact congrArg _ (funext (fun table => ih
        (fun tx htx => hjournal tx (List.mem_cons_of_mem _ htx)) table
        (fun tx htx => htargets tx (List.mem_cons_of_mem _ htx))))

/-- **A group is the run of its transactions.** -/
theorem applyEcRollupGroupInOp_eq {tables : BalanceTables} (hwf : tables.balances.WellFormed)
    {group : List EcRollupTxn} (hjournal : ∀ tx ∈ group, tx.journalId = journalId)
    (hentries : ∀ tx ∈ group, ∀ entry ∈ tx.entries, entry.journalId = tx.journalId) :
    (applyEcRollupGroupInOp order directory tables journalId group).toOption
      = group.foldlM (ecStep order directory) tables := by
  set entries := group.flatMap EcRollupTxn.entries with hall
  set ecMappings := directory.ecMappings order journalId with hmappings
  set ecLeaves := fetchEcLeafAccounts directory.accounts
    (entries.map EntryValues.accountId).dedup with hleaves
  set involved := (reached (ecTargets ecMappings ecLeaves) entries).dedup with hinvolved
  have htargets : ∀ tx ∈ group, ∀ entry ∈ tx.entries,
      ecTargets ecMappings ecLeaves entry = directory.ecTargetsOf order journalId entry := by
    intro tx htx entry hentry
    refine ecTargets_eq_ecTargetsOf ?_
    rw [List.mem_dedup]
    exact List.mem_map_of_mem (List.mem_flatMap.mpr ⟨tx, htx, hentry⟩)
  have hmem : ∀ pair, pair ∈ involved
      ↔ ∃ tx ∈ group, pair ∈ reached (ecTargets ecMappings ecLeaves) tx.entries := by
    intro pair
    rw [hinvolved, List.mem_dedup, hall, reached, List.flatMap_assoc, List.mem_flatMap]
    rfl
  have hreached : ∀ tx ∈ group, reached (directory.ecTargetsOf order tx.journalId) tx.entries
      = reached (ecTargets ecMappings ecLeaves) tx.entries := by
    intro tx htx
    rw [hjournal tx htx]
    exact (reached_congr (htargets tx htx)).symm
  have hrows : involved.filter (fun pair => directory.accounts.consistency true pair.1) = involved := by
    rw [List.filter_eq_self]
    intro pair hpair
    rw [hinvolved, List.mem_dedup] at hpair
    simpa using consistency_of_mem_reached hpair
  have hunready : ∀ pair ∈ involved, (directory.accounts.locked pair.1
      ∨ directory.journals journalId = none) → ¬ ∀ tx ∈ group, EcReady order directory tx := by
    intro pair hpair hblocked hready
    obtain ⟨tx, htx, hpair⟩ := (hmem pair).mp hpair
    obtain ⟨hopen, hjournals⟩ := hready tx htx pair (by rwa [hreached tx htx])
    rw [hjournal tx htx] at hjournals
    rcases hblocked with hlocked | hnone
    · exact hopen hlocked
    · rw [hnone] at hjournals
      cases hjournals
  rw [applyEcRollupGroupInOp]
  simp only [← hall, ← hmappings, ← hleaves, ← hinvolved]
  by_cases hnone : involved = []
  · -- nothing involved: no transaction of the group reaches an EC balance
    rw [if_pos hnone]
    have hsteps : ∀ txns ⊆ group, txns.foldlM (ecStep order directory) tables = some tables := by
      intro txns
      induction txns with
      | nil => exact fun _ => rfl
      | cons tx txns ih =>
          intro hsub
          have htx : tx ∈ group := hsub List.mem_cons_self
          rw [List.foldlM_cons, ecStep_of_reached_nil]
          · exact ih (fun t ht => hsub (List.mem_cons_of_mem _ ht))
          · rw [hreached tx htx, List.eq_nil_iff_forall_not_mem]
            intro pair hpair
            have hin := (hmem pair).mpr ⟨tx, htx, hpair⟩
            rw [hnone] at hin
            cases hin
    exact (hsteps group (List.Subset.refl _)).symm
  · rw [if_neg hnone, foldlM_ecStep, findEcBalancesForUpdate]
    simp only [hrows]
    cases hfind : involved.find? (fun pair => directory.accounts.locked pair.1) with
    | some pair =>
        have hlocked := List.find?_some hfind
        rw [if_neg (hunready pair (List.mem_of_find?_eq_some hfind)
          (Or.inl (by simpa using hlocked)))]
        rfl
    | none =>
        have hinsert := insertNewSnapshots_advance hwf
          (spells_settleEcTxn order directory hwf hjournal hentries
            htargets hmem)
        simp only [bind, Except.bind, hinsert, BalanceError.ofOption]
        cases hjournals : directory.journals journalId with
        | none =>
            obtain ⟨pair, hpair⟩ := List.exists_mem_of_ne_nil _ hnone
            rw [if_neg (hunready pair hpair (Or.inr hjournals))]
            rfl
        | some journal =>
            have hready : ∀ tx ∈ group, EcReady order directory tx := by
              intro tx htx pair hpair
              rw [hreached tx htx] at hpair
              have hopen := List.find?_eq_none.mp hfind pair ((hmem pair).mpr ⟨tx, htx, hpair⟩)
              refine ⟨by simpa using hopen, ?_⟩
              rw [hjournal tx htx, hjournals]
              rfl
            have hkeeps : directory.keepsEffective journalId = journal.insertEffectiveBalances := by
              rw [LedgerDirectory.keepsEffective, hjournals]
              rfl
            rw [if_pos hready]
            cases heffective : journal.insertEffectiveBalances with
            | true =>
                have hgroup := runEffectiveCalls_group hjournal hmappings
                  htargets (hkeeps.trans heffective) tables.effectiveBalances
                simp only [heffective, if_true, hgroup]
                cases group.foldlM (ecEffectiveStep order directory) tables.effectiveBalances <;> rfl
            | false =>
                have hkept : ∀ txns ⊆ group, txns.foldlM (ecEffectiveStep order directory)
                    tables.effectiveBalances = some tables.effectiveBalances := by
                  intro txns
                  induction txns with
                  | nil => exact fun _ => rfl
                  | cons tx txns ih =>
                      intro hsub
                      have hoff : directory.keepsEffective tx.journalId = false := by
                        rw [hjournal tx (hsub List.mem_cons_self), hkeeps, heffective]
                      rw [List.foldlM_cons, ecEffectiveStep, hoff]
                      exact ih (fun t ht => hsub (List.mem_cons_of_mem _ ht))
                simp only [heffective, hkept group (List.Subset.refl _)]
                rfl

end Group

/-! ## The apply -/

section Apply

variable {order : RowOrder} {directory : LedgerDirectory}

/-- The entries of every transaction carry its journal. -/
def JournalEntries (txns : List EcRollupTxn) : Prop :=
  ∀ tx ∈ txns, ∀ entry ∈ tx.entries, entry.journalId = tx.journalId

theorem ecStep_wellFormed {tables tables' : BalanceTables} {tx : EcRollupTxn}
    (hwf : tables.balances.WellFormed) (hentries : ∀ entry ∈ tx.entries, entry.journalId = tx.journalId)
    (h : ecStep order directory tables tx = some tables') : tables'.balances.WellFormed := by
  rw [ecStep] at h
  split at h
  · obtain ⟨effectiveBalances, -, rfl⟩ := Option.map_eq_some_iff.mp h
    exact hwf.advance (keyedEvents_ecEvents hentries)
  · cases h

/-- **The rollup keeps the settled tables well formed.** -/
theorem foldlM_ecStep_wellFormed {txns : List EcRollupTxn} (hentries : JournalEntries txns) :
    ∀ {tables tables' : BalanceTables}, tables.balances.WellFormed →
      txns.foldlM (ecStep order directory) tables = some tables' → tables'.balances.WellFormed := by
  induction txns with
  | nil =>
      rintro tables _ hwf ⟨⟩
      exact hwf
  | cons tx txns ih =>
      intro tables tables' hwf h
      rw [List.foldlM_cons] at h
      obtain ⟨next, hnext, h⟩ := Option.bind_eq_some_iff.mp h
      exact ih (fun t ht => hentries t (List.mem_cons_of_mem _ ht))
        (ecStep_wellFormed hwf (hentries tx List.mem_cons_self) hnext) h

theorem toOption_bind {ε α β : Type} (x : Except ε α) (f : α → Except ε β) :
    (x >>= f).toOption = x.toOption.bind (fun a => (f a).toOption) := by
  cases x <;> rfl

/-- Group after group is transaction after transaction. -/
theorem foldlM_applyEcRollupGroupInOp {groups : List (JournalId × List EcRollupTxn)}
    (hgroups : ∀ group ∈ groups, (∀ tx ∈ group.2, tx.journalId = group.1) ∧ JournalEntries group.2) :
    ∀ {tables : BalanceTables}, tables.balances.WellFormed →
      (groups.foldlM (fun tables group =>
          applyEcRollupGroupInOp order directory tables group.1 group.2) tables).toOption
        = groups.foldlM (fun tables group => group.2.foldlM (ecStep order directory) tables) tables := by
  induction groups with
  | nil => exact fun _ => rfl
  | cons group groups ih =>
      intro tables hwf
      obtain ⟨hjournal, hentries⟩ := hgroups group List.mem_cons_self
      rw [List.foldlM_cons, List.foldlM_cons, toOption_bind,
        applyEcRollupGroupInOp_eq hwf hjournal hentries]
      refine Option.bind_congr (fun next hnext => ?_)
      exact ih (fun g hg => hgroups g (List.mem_cons_of_mem _ hg))
        (foldlM_ecStep_wellFormed hentries hwf hnext)

variable (order directory) in
/-- **The apply is the run of its transactions**, in the order given. -/
theorem applyEcRollupInOp_eq {tables : BalanceTables} (hwf : tables.balances.WellFormed)
    {txns : List EcRollupTxn} (hentries : JournalEntries txns) :
    (applyEcRollupInOp order directory tables txns).toOption
      = txns.foldlM (ecStep order directory) tables := by
  have hgroups : ∀ group ∈ Foundations.groupBy EcRollupTxn.journalId (fun tx => [tx]) txns,
      (∀ tx ∈ group.2, tx.journalId = group.1) ∧ JournalEntries group.2 := by
    rintro ⟨journalId, group⟩ hmem
    obtain ⟨-, rfl⟩ := Foundations.mem_groupBy.mp hmem
    have hitem : ∀ tx ∈ Foundations.itemsOf EcRollupTxn.journalId (fun tx => [tx]) txns journalId,
        tx ∈ txns ∧ tx.journalId = journalId := by
      intro tx htx
      rw [Foundations.itemsOf, List.flatMap_singleton', List.mem_filter] at htx
      simpa using htx
    exact ⟨fun tx htx => (hitem tx htx).2, fun tx htx => hentries tx (hitem tx htx).1⟩
  rw [applyEcRollupInOp, foldlM_applyEcRollupGroupInOp hgroups hwf]
  exact Foundations.foldlM_groupBy commuting_ecStep txns tables

end Apply

end CalaLedger
