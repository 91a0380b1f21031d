import CalaLedger.Balance.Snapshot
import CalaLedger.Foundations.Grouping
import CalaLedger.Foundations.Traversal
import CalaLedger.Foundations.VersionedTable
import CalaLedger.Velocity.AccountControl

/-! # Velocity balances

`VelocityBalances::enforce_batch_in_op`: collect, entry by entry, the limits of every balance the
entry reaches that apply to it; chain the entries of each velocity balance into snapshots, holding
every one against its limit; write them.

`enforceBatchInOp_eq_ok` says when a batch passes, velocity balance by velocity balance, and that
it then runs the matched entries over the velocity table. -/

namespace CalaLedger

open Foundations (VersionedTable)

/-- A velocity balance row is identified by its window, currency, journal, account, control and
limit. -/
structure VelocityBalanceKey where
  window : Window
  currency : Currency
  journalId : JournalId
  accountId : AccountId
  controlId : VelocityControlId
  limitId : VelocityLimitId
  deriving DecidableEq

/-- `cala_velocity_balance_history` and `cala_velocity_current_balances`. -/
abbrev VelocityTable := VersionedTable VelocityBalanceKey BalanceSnapshot

/-- `cala_velocity_account_controls` with the account facts expressions may refer to. -/
abbrev ControlTable :=
  AccountId → Option (VelocityContextAccountValues × List AccountVelocityControl)

/-- An entry matched by a limit: the velocity balance it counts towards and the context it is
evaluated in. -/
structure Matched where
  key : VelocityBalanceKey
  limit : AccountVelocityLimit
  context : VelocityContext

/-- One limit of a control, held against an entry. -/
def matchLimit (context : VelocityContext) (accountId : AccountId)
    (control : AccountVelocityControl) (limit : AccountVelocityLimit) :
    Except VelocityError (List Matched) := do
  match ← limit.windowForEnforcement context context.entry with
  | none => .ok []
  | some window =>
      .ok [{ key :=
              { window := window
                currency := context.entry.currency
                journalId := context.entry.journalId
                accountId := accountId
                controlId := control.controlId
                limitId := limit.limitId }
             limit := limit
             context := context }]

/-- One control of an account, held against an entry. -/
def matchControl (context : VelocityContext) (accountId : AccountId)
    (control : AccountVelocityControl) : Except VelocityError (List Matched) := do
  if ← control.needsEnforcement context then
    let matched ← control.velocityLimits.mapM (matchLimit context accountId control)
    .ok matched.flatten
  else
    .ok []

/-- One entry with the transaction it belongs to and one of the accounts it reaches. -/
structure PostingTarget where
  transaction : TransactionValues
  entry : EntryValues
  accountId : AccountId
  deriving DecidableEq

/-- The controls of one account, held against an entry that reaches it. -/
def matchTarget (controls : ControlTable) (target : PostingTarget) :
    Except VelocityError (List Matched) :=
  match controls target.accountId with
  | none => .ok []
  | some (values, accountControls) => do
      let matched ← accountControls.mapM
        (matchControl ⟨target.transaction, target.entry, values⟩ target.accountId)
      .ok matched.flatten

/-- The accounts the entries of one posting reach, entry by entry. -/
def postingTargets (mappings : AccountSetMappings) (transaction : TransactionValues)
    (entries : List EntryValues) : List PostingTarget :=
  entries.flatMap (fun entry =>
    (inlineTargets mappings entry).map (fun accountId => ⟨transaction, entry, accountId⟩))

/-- `VelocityBalances::collect_balances_to_check`, for every posting of a batch. A posting is
checked against the ancestor sets of its own journal. -/
def collectBalancesToCheck (controls : ControlTable) (mappings : JournalId → AccountSetMappings)
    (postings : List (TransactionValues × List EntryValues)) :
    Except VelocityError (List Matched) := do
  let matched ← (postings.flatMap (fun posting =>
    postingTargets (mappings posting.1.journalId) posting.1 posting.2)).mapM (matchTarget controls)
  .ok matched.flatten

/-- The snapshot of a velocity balance that follows when a matched entry is added. It belongs to
the account of the balance, not to the account of the entry. -/
def nextVelocity (time : Timestamp) (key : VelocityBalanceKey) (base : Option BalanceSnapshot)
    (matched : Matched) : BalanceSnapshot :=
  nextSnapshot time key.accountId base matched.context.entry

/-- Chain the entries of one velocity balance, holding each snapshot against its limit. -/
def enforceChain (time : Timestamp) (key : VelocityBalanceKey) :
    Option BalanceSnapshot → List Matched → Except VelocityError (List BalanceSnapshot)
  | _, [] => .ok []
  | latestBalance, matched :: rest => do
      let newBalance := nextVelocity time key latestBalance matched
      matched.limit.enforce matched.context time newBalance
      let newBalances ← enforceChain time key (some newBalance) rest
      .ok (newBalance :: newBalances)

/-- `VelocityBalances::new_snapshots_with_limit_enforcement`. -/
def newSnapshotsWithLimitEnforcement (time : Timestamp)
    (currentBalances : VelocityBalanceKey → Option BalanceSnapshot)
    (entriesToAdd : List (VelocityBalanceKey × List Matched)) :
    Except VelocityError (List (VelocityBalanceKey × List BalanceSnapshot)) :=
  entriesToAdd.mapM (fun group => do
    let newBalances ← enforceChain time group.1 (currentBalances group.1) group.2
    .ok (group.1, newBalances))

/-- The newest of the new rows of a velocity balance, inserted when the rows start its history, else
written over the current row. -/
def upsertVelocity (current : Option (ℕ × BalanceSnapshot)) (rows : List BalanceSnapshot) :
    Option (ℕ × BalanceSnapshot) :=
  match rows.argmax BalanceSnapshot.version with
  | none => current
  | some newest =>
      if newest.version = rows.length then
        -- `ON CONFLICT DO NOTHING`
        current.or (some (newest.version, newest))
      else
        current.map (fun _ => (newest.version, newest))

/-- `VelocityBalanceRepo::insert_new_snapshots`: `none` when the unique constraint of the history
is violated. -/
def insertVelocitySnapshots (table : VelocityTable)
    (newBalances : List (VelocityBalanceKey × List BalanceSnapshot)) : Option VelocityTable := do
  let rows := newBalances.flatMap (fun group => group.2.map (fun snapshot => (group.1, snapshot)))
  let history ← VersionedTable.appendHistory BalanceSnapshot.version table rows
  some
    { history := history
      current := fun key => upsertVelocity (table.current key) (Foundations.rowsOf rows key) }

/-- The second half of `enforce_batch_in_op`: enforce and write what was collected. -/
def enforceMatched (time : Timestamp) (table : VelocityTable) (matched : List Matched) :
    Except VelocityError VelocityTable := do
  let entriesToEnforce := Foundations.groupBy Matched.key (fun m => [m]) matched
  if entriesToEnforce = [] then
    .ok table
  else
    let newBalances ← newSnapshotsWithLimitEnforcement time
      (fun key => (table.current key).map Prod.snd) entriesToEnforce
    match insertVelocitySnapshots table newBalances with
    | some table => .ok table
    | none => .error .sqlx

/-- `VelocityBalances::enforce_batch_in_op`. -/
def enforceBatchInOp (time : Timestamp) (table : VelocityTable)
    (postings : List (TransactionValues × List EntryValues)) (controls : ControlTable)
    (mappings : JournalId → AccountSetMappings) : Except VelocityError VelocityTable := do
  let matched ← collectBalancesToCheck controls mappings postings
  enforceMatched time table matched

/-! ## Velocity balance by velocity balance -/

/-- Every snapshot of a chain passes its limit. -/
def EnforcedAlong (time : Timestamp) (key : VelocityBalanceKey) :
    Option BalanceSnapshot → List Matched → Prop
  | _, [] => True
  | base, matched :: rest =>
      Foundations.Succeeds
          (matched.limit.enforce matched.context time (nextVelocity time key base matched))
        ∧ EnforcedAlong time key (some (nextVelocity time key base matched)) rest

/-- What the entries of a batch add to the velocity balances, where every evaluation succeeds. -/
def matchedOf (controls : ControlTable) (targets : List PostingTarget) : List Matched :=
  targets.flatMap (fun target => Foundations.okOr [] (matchTarget controls target))

/-- What they add to one velocity balance. -/
def velocityEvents (controls : ControlTable) (targets : List PostingTarget)
    (key : VelocityBalanceKey) : List Matched :=
  (matchedOf controls targets).filter (fun matched => matched.key = key)

/-- Run matched entries over every velocity balance. -/
def VelocityTable.advance (time : Timestamp) (table : VelocityTable)
    (events : VelocityBalanceKey → List Matched) : VelocityTable :=
  VersionedTable.advance BalanceSnapshot.version (nextVelocity time) table events

/-- The values of the current row of a velocity balance. -/
def VelocityTable.value (table : VelocityTable) (key : VelocityBalanceKey) :
    Option BalanceSnapshot :=
  (table.current key).map Prod.snd

/-- The value a run leaves. -/
theorem VelocityTable.value_advance (time : Timestamp) (table : VelocityTable)
    (events : VelocityBalanceKey → List Matched) (key : VelocityBalanceKey) :
    VelocityTable.value (VelocityTable.advance time table events) key
      = VersionedTable.runLast (nextVelocity time key) (VelocityTable.value table key)
          (events key) :=
  VersionedTable.value_advance _ _ table events key

/-- The targets of every posting of a batch. -/
def batchTargets (mappings : JournalId → AccountSetMappings)
    (postings : List (TransactionValues × List EntryValues)) : List PostingTarget :=
  postings.flatMap (fun posting =>
    postingTargets (mappings posting.1.journalId) posting.1 posting.2)

theorem countsEvents_nextVelocity (time : Timestamp) :
    VersionedTable.CountsEvents BalanceSnapshot.version (nextVelocity time) where
  first := fun key matched => newSnapshot_version time key.accountId matched.context.entry
  later := fun _ snapshot matched => updateSnapshot_version time snapshot matched.context.entry

section Matching

variable {controls : ControlTable}

/-- A matched entry counts towards a balance of the account it was matched for. -/
theorem accountId_of_mem_matchTarget {target : PostingTarget} {matched : Matched}
    (hmem : matched ∈ Foundations.okOr [] (matchTarget controls target)) :
    matched.key.accountId = target.accountId := by
  have hlimit : ∀ {context accountId control limit ms}, matchLimit context accountId control limit
      = .ok ms → ∀ m ∈ ms, m.key.accountId = accountId := by
    intro context accountId control limit ms h m hm
    obtain ⟨window, -, h⟩ := Foundations.bind_eq_ok.mp h
    cases window with
    | none =>
        cases h
        cases hm
    | some window =>
        cases h
        rw [List.mem_singleton] at hm
        rw [hm]
  have hcontrol : ∀ {context accountId control ms}, matchControl context accountId control = .ok ms →
      ∀ m ∈ ms, m.key.accountId = accountId := by
    intro context accountId control ms h m hm
    obtain ⟨applies, -, h⟩ := Foundations.bind_eq_ok.mp h
    cases applies with
    | false =>
        cases h
        cases hm
    | true =>
        obtain ⟨found, hfound, h⟩ := Foundations.bind_eq_ok.mp h
        cases h
        obtain ⟨hall, rfl⟩ := (Foundations.mapM_ok_iff []).mp hfound
        obtain ⟨ms, hms, hm⟩ := List.mem_flatten.mp hm
        obtain ⟨limit, hlimitMem, rfl⟩ := List.mem_map.mp hms
        exact hlimit ((hall limit hlimitMem).eq_ok []) m hm
  cases hresult : matchTarget controls target with
  | error e =>
      rw [hresult] at hmem
      cases hmem
  | ok ms =>
      rw [hresult, Foundations.okOr_ok] at hmem
      unfold matchTarget at hresult
      cases hcontrols : controls target.accountId with
      | none =>
          rw [hcontrols] at hresult
          cases hresult
          cases hmem
      | some found =>
          rw [hcontrols] at hresult
          obtain ⟨matched', hfound, h⟩ := Foundations.bind_eq_ok.mp hresult
          cases h
          obtain ⟨hall, rfl⟩ := (Foundations.mapM_ok_iff []).mp hfound
          obtain ⟨ms, hms, hm⟩ := List.mem_flatten.mp hmem
          obtain ⟨control, hcontrolMem, rfl⟩ := List.mem_map.mp hms
          exact hcontrol ((hall control hcontrolMem).eq_ok []) matched hm

theorem collectBalancesToCheck_eq_ok {mappings : JournalId → AccountSetMappings}
    {postings : List (TransactionValues × List EntryValues)} {matched : List Matched} :
    collectBalancesToCheck controls mappings postings = .ok matched
      ↔ (∀ target ∈ batchTargets mappings postings, Foundations.Succeeds (matchTarget controls target))
        ∧ matched = matchedOf controls (batchTargets mappings postings) := by
  rw [collectBalancesToCheck, Foundations.bind_eq_ok]
  constructor
  · rintro ⟨found, hfound, h⟩
    obtain ⟨hall, rfl⟩ := (Foundations.mapM_ok_iff []).mp hfound
    cases h
    exact ⟨hall, List.flatMap_def.symm⟩
  · rintro ⟨hall, rfl⟩
    exact ⟨_, (Foundations.mapM_ok_iff []).mpr ⟨hall, rfl⟩, congrArg Except.ok List.flatMap_def.symm⟩

variable (controls) in
theorem velocityEvents_append (front back : List PostingTarget) (key : VelocityBalanceKey) :
    velocityEvents controls (front ++ back) key
      = velocityEvents controls front key ++ velocityEvents controls back key := by
  unfold velocityEvents matchedOf
  rw [List.flatMap_append, List.filter_append]

/-- Only the targets on the account of a velocity balance count towards it. -/
theorem velocityEvents_eq (targets : List PostingTarget) (key : VelocityBalanceKey) :
    velocityEvents controls targets key
      = velocityEvents controls (targets.filter (fun target => target.accountId = key.accountId)) key := by
  unfold velocityEvents matchedOf
  induction targets with
  | nil => rfl
  | cons target targets ih =>
      rw [List.flatMap_cons, List.filter_append, ih, List.filter_cons]
      split
      · rw [List.flatMap_cons, List.filter_append]
      · rename_i hother
        have hnone : (Foundations.okOr [] (matchTarget controls target)).filter
            (fun matched => matched.key = key) = [] := by
          rw [List.filter_eq_nil_iff]
          intro matched hmem hkey
          rw [decide_eq_true_eq] at hkey
          have haccount := accountId_of_mem_matchTarget hmem
          rw [hkey] at haccount
          exact hother (by simpa using haccount.symm)
        rw [hnone, List.nil_append]

end Matching

section Enforcing

variable {time : Timestamp} {key : VelocityBalanceKey}

theorem enforcedAlong_append (front back : List Matched) :
    ∀ base, EnforcedAlong time key base (front ++ back)
      ↔ EnforcedAlong time key base front
        ∧ EnforcedAlong time key (VersionedTable.runLast (nextVelocity time key) base front) back := by
  induction front with
  | nil => exact fun base => (true_and _).symm.to_iff
  | cons matched front ih =>
      intro base
      rw [List.cons_append, EnforcedAlong, EnforcedAlong, ih, VersionedTable.runLast_cons, and_assoc]

/-- A chain passes exactly when each of its snapshots does, and is then the run of its entries. -/
theorem enforceChain_eq_ok (events : List Matched) :
    ∀ {base : Option BalanceSnapshot} {snapshots : List BalanceSnapshot},
      enforceChain time key base events = .ok snapshots
        ↔ EnforcedAlong time key base events
          ∧ snapshots = VersionedTable.run (nextVelocity time key) base events := by
  induction events with
  | nil =>
      intro base snapshots
      constructor
      · rintro ⟨⟩
        exact ⟨trivial, rfl⟩
      · rintro ⟨-, rfl⟩
        rfl
  | cons matched events ih =>
      intro base snapshots
      rw [enforceChain, EnforcedAlong, VersionedTable.run_cons]
      constructor
      · intro h
        obtain ⟨_, hpass, h⟩ := Foundations.bind_eq_ok.mp h
        obtain ⟨rest, hrest, h⟩ := Foundations.bind_eq_ok.mp h
        cases h
        obtain ⟨henforced, rfl⟩ := ih.mp hrest
        exact ⟨⟨⟨_, hpass⟩, henforced⟩, rfl⟩
      · rintro ⟨⟨⟨_, hpass⟩, henforced⟩, rfl⟩
        exact Foundations.bind_eq_ok.mpr ⟨_, hpass, Foundations.bind_eq_ok.mpr
          ⟨_, ih.mpr ⟨henforced, rfl⟩, rfl⟩⟩

theorem newSnapshotsWithLimitEnforcement_eq_ok
    {currentBalances : VelocityBalanceKey → Option BalanceSnapshot}
    {groups : List (VelocityBalanceKey × List Matched)}
    {newBalances : List (VelocityBalanceKey × List BalanceSnapshot)} :
    newSnapshotsWithLimitEnforcement time currentBalances groups = .ok newBalances
      ↔ (∀ group ∈ groups, EnforcedAlong time group.1 (currentBalances group.1) group.2)
        ∧ newBalances = groups.map (fun group =>
            (group.1, VersionedTable.run (nextVelocity time group.1) (currentBalances group.1)
              group.2)) := by
  induction groups generalizing newBalances with
  | nil =>
      constructor
      · rintro ⟨⟩
        exact ⟨fun _ h => (List.not_mem_nil h).elim, rfl⟩
      · rintro ⟨-, rfl⟩
        rfl
  | cons group groups ih =>
      rw [newSnapshotsWithLimitEnforcement, List.mapM_cons]
      constructor
      · intro h
        obtain ⟨first, hfirst, h⟩ := Foundations.bind_eq_ok.mp h
        obtain ⟨chained, hchained, hfirst⟩ := Foundations.bind_eq_ok.mp hfirst
        cases hfirst
        obtain ⟨rest, hrest, h⟩ := Foundations.bind_eq_ok.mp h
        cases h
        obtain ⟨henforced, rfl⟩ := (enforceChain_eq_ok _).mp hchained
        obtain ⟨hall, rfl⟩ := ih.mp hrest
        exact ⟨List.forall_mem_cons.mpr ⟨henforced, hall⟩, rfl⟩
      · rintro ⟨hall, rfl⟩
        obtain ⟨henforced, hrest⟩ := List.forall_mem_cons.mp hall
        exact Foundations.bind_eq_ok.mpr ⟨_, Foundations.bind_eq_ok.mpr
          ⟨_, (enforceChain_eq_ok _).mpr ⟨henforced, rfl⟩, rfl⟩,
          Foundations.bind_eq_ok.mpr ⟨_, ih.mpr ⟨hrest, rfl⟩, rfl⟩⟩

end Enforcing

section Writing

variable {time : Timestamp} {table : VelocityTable}

/-- On counted rows the two statements leave the last of them. -/
theorem upsertVelocity_eq (h : VersionedTable.Mirrors BalanceSnapshot.version table)
    {key : VelocityBalanceKey} {rows : List BalanceSnapshot}
    (hrows : VersionedTable.Counts BalanceSnapshot.version (table.history key).length rows) :
    upsertVelocity (table.current key) rows
      = if rows = [] then table.current key
        else VersionedTable.latest BalanceSnapshot.version rows := by
  rw [upsertVelocity, Foundations.argmax_eq_getLast? hrows.strict]
  cases hlast : rows.getLast? with
  | none =>
      rw [List.getLast?_eq_none_iff.mp hlast]
      rfl
  | some newest =>
      have hne : rows ≠ [] := by
        rintro rfl
        cases hlast
      have hversion := hrows.getLast? hlast
      have hlength : 0 < rows.length := List.length_pos_of_ne_nil hne
      rw [if_neg hne, VersionedTable.latest, hlast]
      cases hcurrent : table.current key with
      | none =>
          -- the first rows of the balance: their versions count from one
          rw [h.current_eq_none.mp hcurrent, List.length_nil, Nat.zero_add] at hversion
          simp [hversion]
      | some row =>
          have hbase : 0 < (table.history key).length := by
            rw [List.length_pos_iff]
            intro hnil
            rw [h.current_eq_none.mpr hnil] at hcurrent
            cases hcurrent
          have hlater : ¬ newest.version = rows.length := by omega
          change (if newest.version = rows.length then _ else _) = _
          rw [if_neg hlater]
          rfl

/-- **The write is the run.** -/
theorem insertVelocitySnapshots_eq (h : VersionedTable.Mirrors BalanceSnapshot.version table)
    {events : VelocityBalanceKey → List Matched}
    {newBalances : List (VelocityBalanceKey × List BalanceSnapshot)}
    (hspells : ∀ key, Foundations.rowsOf (newBalances.flatMap (fun group =>
        group.2.map (fun snapshot => (group.1, snapshot)))) key
      = VersionedTable.run (nextVelocity time key) (VelocityTable.value table key) (events key)) :
    insertVelocitySnapshots table newBalances = some (VelocityTable.advance time table events) := by
  have hcontinues := h.continues_of_run (countsEvents_nextVelocity time) hspells
  have hextend : table.extend BalanceSnapshot.version _ = VelocityTable.advance time table events :=
    VersionedTable.extend_eq_advance hspells
  rw [insertVelocitySnapshots, VersionedTable.appendHistory_eq h hcontinues]
  refine congrArg some (Eq.trans ?_ hextend)
  refine congrArg (VersionedTable.mk _) (funext (fun key => ?_))
  exact upsertVelocity_eq h (hcontinues key)

/-- The rows of the groups, velocity balance by velocity balance. -/
theorem rowsOf_groups (base : VelocityBalanceKey → Option BalanceSnapshot) (matched : List Matched)
    (key : VelocityBalanceKey) :
    Foundations.rowsOf (((Foundations.groupBy Matched.key (fun m => [m]) matched).map (fun group =>
        (group.1, VersionedTable.run (nextVelocity time group.1) (base group.1)
          group.2))).flatMap (fun group =>
            group.2.map (fun snapshot => (group.1, snapshot)))) key
      = VersionedTable.run (nextVelocity time key) (base key)
          (matched.filter (fun m => m.key = key)) := by
  have hitems : Foundations.itemsOf Matched.key (fun m => [m]) matched key
      = matched.filter (fun m => m.key = key) := List.flatMap_singleton' _
  rw [← hitems, ← Foundations.flatMap_groupBy (f := fun events => VersionedTable.run
    (nextVelocity time key) (base key) events) rfl matched key]
  generalize Foundations.groupBy Matched.key (fun m => [m]) matched = groups
  induction groups with
  | nil => rfl
  | cons group groups ih =>
      rw [List.map_cons, List.flatMap_cons, Foundations.rowsOf_append, ih, List.flatMap_cons]
      refine congrArg (· ++ _) ?_
      rw [Foundations.rowsOf, List.filter_map, List.map_map]
      by_cases hkey : group.1 = key
      · subst hkey
        simp [Function.comp_def]
      · simp [Function.comp_def, hkey]

/-- The groups are enforced when every velocity balance is. -/
theorem enforcedAlong_groups (base : VelocityBalanceKey → Option BalanceSnapshot)
    (matched : List Matched) :
    (∀ group ∈ Foundations.groupBy Matched.key (fun m => [m]) matched,
        EnforcedAlong time group.1 (base group.1) group.2)
      ↔ ∀ key, EnforcedAlong time key (base key) (matched.filter (fun m => m.key = key)) := by
  have hgroup : ∀ key events, (key, events) ∈ Foundations.groupBy Matched.key (fun m => [m]) matched
      ↔ (∃ m ∈ matched, m.key = key) ∧ events = matched.filter (fun m => m.key = key) := by
    intro key events
    rw [Foundations.mem_groupBy, Foundations.itemsOf, List.flatMap_singleton']
  constructor
  · intro hall key
    by_cases hsome : ∃ m ∈ matched, m.key = key
    · exact hall (key, _) ((hgroup key _).mpr ⟨hsome, rfl⟩)
    · rw [List.filter_eq_nil_iff.mpr (fun m hm hkey => hsome ⟨m, hm, of_decide_eq_true hkey⟩)]
      trivial
  · rintro hall ⟨key, events⟩ hmem
    obtain ⟨-, rfl⟩ := (hgroup key events).mp hmem
    exact hall key

/-- What a velocity balance with matched entries has a group for. -/
theorem mem_keys_groups {matched : List Matched} {key : VelocityBalanceKey}
    (h : matched.filter (fun m => m.key = key) ≠ []) :
    key ∈ (Foundations.groupBy Matched.key (fun m => [m]) matched).map Prod.fst := by
  obtain ⟨m, hm⟩ := List.exists_mem_of_ne_nil _ h
  obtain ⟨hm, hkey⟩ := List.mem_filter.mp hm
  exact List.mem_map.mpr ⟨(key, _),
    Foundations.mem_groupBy.mpr ⟨⟨m, hm, of_decide_eq_true hkey⟩, rfl⟩, rfl⟩

/-- When what was collected passes, and what it writes. -/
theorem enforceMatched_eq_ok (h : VersionedTable.Mirrors BalanceSnapshot.version table)
    {matched : List Matched} {table' : VelocityTable} :
    enforceMatched time table matched = .ok table'
      ↔ (∀ key, EnforcedAlong time key (VelocityTable.value table key)
            (matched.filter (fun m => m.key = key)))
        ∧ table' = VelocityTable.advance time table
            (fun key => matched.filter (fun m => m.key = key)) := by
  have hkeys : ∀ key, matched.filter (fun m => m.key = key) ≠ [] →
      key ∈ (Foundations.groupBy Matched.key (fun m => [m]) matched).map Prod.fst :=
    fun key => mem_keys_groups
  rw [← enforcedAlong_groups (VelocityTable.value table) matched, enforceMatched]
  set groups := Foundations.groupBy Matched.key (fun m => [m]) matched with hgroups
  by_cases hempty : groups = []
  · -- nothing collected: no velocity balance is touched
    have hevents : ∀ key, matched.filter (fun m => m.key = key) = [] := by
      intro key
      by_contra hsome
      have hmem := hkeys key hsome
      rw [hempty] at hmem
      exact List.not_mem_nil hmem
    rw [if_pos hempty, funext hevents, VelocityTable.advance, VersionedTable.advance_nil, hempty]
    constructor
    · rintro ⟨⟩
      exact ⟨fun _ hnone => (List.not_mem_nil hnone).elim, rfl⟩
    · rintro ⟨-, rfl⟩
      rfl
  · have hinsert : insertVelocitySnapshots table (groups.map (fun group => (group.1,
          VersionedTable.run (nextVelocity time group.1) ((table.current group.1).map Prod.snd)
            group.2)))
          = some (VelocityTable.advance time table
              (fun key => matched.filter (fun m => m.key = key))) :=
        insertVelocitySnapshots_eq h (rowsOf_groups (VelocityTable.value table) _)
    rw [if_neg hempty, Foundations.bind_eq_ok]
    constructor
    · rintro ⟨newBalances, hnew, hwrite⟩
      obtain ⟨hall, rfl⟩ := newSnapshotsWithLimitEnforcement_eq_ok.mp hnew
      rw [hinsert] at hwrite
      cases hwrite
      exact ⟨hall, rfl⟩
    · rintro ⟨hall, rfl⟩
      refine ⟨_, newSnapshotsWithLimitEnforcement_eq_ok.mpr ⟨hall, rfl⟩, ?_⟩
      rw [hinsert]

/-- **When a batch passes, and what it writes**: every evaluation succeeds, every snapshot of every
velocity balance is within its limit, and the matched entries are run over the table. -/
theorem enforceBatchInOp_eq_ok (h : VersionedTable.Mirrors BalanceSnapshot.version table)
    {controls : ControlTable} {mappings : JournalId → AccountSetMappings}
    {postings : List (TransactionValues × List EntryValues)} {table' : VelocityTable} :
    enforceBatchInOp time table postings controls mappings = .ok table'
      ↔ (∀ target ∈ batchTargets mappings postings,
            Foundations.Succeeds (matchTarget controls target))
        ∧ (∀ key, EnforcedAlong time key (VelocityTable.value table key)
            (velocityEvents controls (batchTargets mappings postings) key))
        ∧ table' = VelocityTable.advance time table
            (velocityEvents controls (batchTargets mappings postings)) := by
  rw [enforceBatchInOp, Foundations.bind_eq_ok]
  constructor
  · rintro ⟨matched, hmatched, hrest⟩
    obtain ⟨hall, rfl⟩ := collectBalancesToCheck_eq_ok.mp hmatched
    exact ⟨hall, (enforceMatched_eq_ok h).mp hrest⟩
  · rintro ⟨hall, hrest⟩
    exact ⟨_, collectBalancesToCheck_eq_ok.mpr ⟨hall, rfl⟩, (enforceMatched_eq_ok h).mpr hrest⟩

end Writing

end CalaLedger
