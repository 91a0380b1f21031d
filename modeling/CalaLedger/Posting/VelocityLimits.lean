import CalaLedger.Posting.CommittedPostings
import CalaLedger.Posting.TableWriter

/-! # Velocity limits under interleaved operations

In every run, the history of a velocity balance is the run of the entries that count towards it, of
all committed postings, and every version is within its limit. -/

namespace CalaLedger

open Foundations (Dialogue Server VersionedTable Succeeds okOr rowsOf)
open Postings (PostedBatch)

/-! ## What counts towards a velocity balance -/

/-- A limit of a control that was read as attached to an account, with the context of an entry that
reaches the account. -/
structure AttachedLimit where
  control : AccountVelocityControl
  limit : AccountVelocityLimit
  context : VelocityContext

/-- The limits attached to the account an entry reaches. -/
def attachedLimits (controls : ControlTable) (target : PostingTarget) : List AttachedLimit :=
  match controls target.accountId with
  | none => []
  | some (values, accountControls) =>
      accountControls.flatMap (fun control => control.velocityLimits.map (fun limit =>
        ⟨control, limit, ⟨target.transaction, target.entry, values⟩⟩))

/-- An optional condition holds. -/
def HoldsIn (condition : Option (VelocityExpression Bool)) (context : VelocityContext) : Prop :=
  ∀ expression ∈ condition, expression context = .ok true

/-- The entry matches the conditions of the control and of the limit, the limit's currency and the
window of the velocity balance. -/
structure AttachedLimit.CountsTowards (attached : AttachedLimit) (key : VelocityBalanceKey) :
    Prop where
  control : attached.control.controlId = key.controlId
  limit : attached.limit.limitId = key.limitId
  journal : attached.context.entry.journalId = key.journalId
  currency : attached.context.entry.currency = key.currency
  limitCurrency : ∀ currency ∈ attached.limit.currency, currency = attached.context.entry.currency
  controlCondition : HoldsIn attached.control.condition attached.context
  limitCondition : HoldsIn attached.limit.condition attached.context
  window : evaluateWindow attached.context attached.limit.window [] = .ok key.window

open Classical in
/-- What counts towards a velocity balance, target by target. -/
noncomputable def countedTowards (controls : ControlTable) (targets : List PostingTarget)
    (key : VelocityBalanceKey) : List Matched :=
  (targets.filter (fun target => target.accountId = key.accountId)).flatMap (fun target =>
    ((attachedLimits controls target).filter (fun attached => attached.CountsTowards key)).map
      (fun attached => ⟨key, attached.limit, attached.context⟩))

section Matching

variable {context : VelocityContext} {control : AccountVelocityControl}
  {limit : AccountVelocityLimit} {key : VelocityBalanceKey}

theorem evaluate_eq_ok {α : Type} {expression : VelocityExpression α} {a : α} :
    VelocityError.evaluate expression context = .ok a ↔ expression context = .ok a := by
  unfold VelocityError.evaluate
  cases expression context <;> simp

/-- A limit applies to an entry it matches, in the window it evaluates to. -/
theorem windowForEnforcement_eq_some {window : Window} :
    limit.windowForEnforcement context context.entry = .ok (some window)
      ↔ (∀ currency ∈ limit.currency, currency = context.entry.currency)
        ∧ HoldsIn limit.condition context
        ∧ evaluateWindow context limit.window [] = .ok window := by
  have hcurrency : limit.currency.any (· ≠ context.entry.currency) = true
      ↔ ¬ ∀ currency ∈ limit.currency, currency = context.entry.currency := by
    cases limit.currency <;> simp
  have hwindow : (do
        let window ← evaluateWindow context limit.window []
        Except.ok (some window) : Except VelocityError (Option Window)) = .ok (some window)
      ↔ evaluateWindow context limit.window [] = .ok window := by
    rw [Foundations.bind_eq_ok]
    simp
  unfold AccountVelocityLimit.windowForEnforcement
  by_cases hany : limit.currency.any (· ≠ context.entry.currency) = true
  · rw [if_pos hany]
    constructor
    · rintro ⟨⟩
    · rintro ⟨hall, -, -⟩
      exact (hcurrency.mp hany hall).elim
  · rw [if_neg hany, and_iff_right (not_not.mp (mt hcurrency.mpr hany)), HoldsIn]
    cases limit.condition with
    | none => exact hwindow.trans (by simp)
    | some condition =>
        dsimp only
        rw [Foundations.bind_eq_ok]
        constructor
        · rintro ⟨applies, hevaluated, h⟩
          cases applies with
          | false => cases h
          | true => exact ⟨by simpa using evaluate_eq_ok.mp hevaluated, hwindow.mp h⟩
        · rintro ⟨hholds, hevaluated⟩
          exact ⟨true, evaluate_eq_ok.mpr (by simpa using hholds), hwindow.mpr hevaluated⟩

theorem needsEnforcement_eq_true :
    control.needsEnforcement context = .ok true ↔ HoldsIn control.condition context := by
  unfold AccountVelocityControl.needsEnforcement HoldsIn
  cases control.condition with
  | none => simp
  | some condition => simpa using evaluate_eq_ok

open Classical in
/-- One limit of a control that applies. -/
theorem filter_matchLimit (hcontrol : HoldsIn control.condition context) {matched : List Matched}
    (h : matchLimit context key.accountId control limit = .ok matched) :
    matched.filter (fun m => m.key = key)
      = if (⟨control, limit, context⟩ : AttachedLimit).CountsTowards key then
          [⟨key, limit, context⟩]
        else [] := by
  obtain ⟨window?, hwindow, h⟩ := Foundations.bind_eq_ok.mp h
  cases window? with
  | none =>
      cases h
      rw [if_neg]
      · rfl
      · intro hcounts
        have hsome := windowForEnforcement_eq_some.mpr
          ⟨hcounts.limitCurrency, hcounts.limitCondition, hcounts.window⟩
        rw [hwindow] at hsome
        cases hsome
  | some window =>
      cases h
      obtain ⟨hcurrency, hcondition, hevaluated⟩ := windowForEnforcement_eq_some.mp hwindow
      have hkey : (⟨window, context.entry.currency, context.entry.journalId, key.accountId,
          control.controlId, limit.limitId⟩ : VelocityBalanceKey) = key
            ↔ (⟨control, limit, context⟩ : AttachedLimit).CountsTowards key := by
        constructor
        · intro hkey
          rw [← hkey]
          exact ⟨rfl, rfl, rfl, rfl, hcurrency, hcontrol, hcondition, hevaluated⟩
        · intro hcounts
          have hsame : window = key.window := by
            have hcounted := hcounts.window
            rw [hevaluated] at hcounted
            exact Except.ok.inj hcounted
          have hcurrency' : context.entry.currency = key.currency := hcounts.currency
          have hjournal : context.entry.journalId = key.journalId := hcounts.journal
          have hcontrolId : control.controlId = key.controlId := hcounts.control
          have hlimitId : limit.limitId = key.limitId := hcounts.limit
          rw [hsame, hcurrency', hjournal, hcontrolId, hlimitId]
      by_cases hcounts : (⟨control, limit, context⟩ : AttachedLimit).CountsTowards key
      · have hsame := hkey.mpr hcounts
        rw [if_pos hcounts, List.filter_singleton, decide_eq_true hsame]
        simp [hsame]
      · rw [if_neg hcounts, List.filter_singleton, decide_eq_false (mt hkey.mp hcounts)]
        rfl

open Classical in
/-- One control of an account the entry reaches. -/
theorem filter_matchControl {matched : List Matched}
    (h : matchControl context key.accountId control = .ok matched) :
    matched.filter (fun m => m.key = key)
      = ((control.velocityLimits.map (fun limit => (⟨control, limit, context⟩ : AttachedLimit))).filter
          (fun attached => attached.CountsTowards key)).map
            (fun attached => ⟨key, attached.limit, attached.context⟩) := by
  obtain ⟨applies, happlies, h⟩ := Foundations.bind_eq_ok.mp h
  cases applies with
  | false =>
      -- the condition of the control does not hold, so none of its limits counts
      cases h
      have hnone : ¬ HoldsIn control.condition context := by
        intro hholds
        rw [needsEnforcement_eq_true.mpr hholds] at happlies
        cases happlies
      have hempty : (control.velocityLimits.map (fun limit =>
          (⟨control, limit, context⟩ : AttachedLimit))).filter
            (fun attached => attached.CountsTowards key) = [] := by
        refine List.filter_eq_nil_iff.mpr (fun attached hattached => ?_)
        obtain ⟨limit, -, rfl⟩ := List.mem_map.mp hattached
        rw [decide_eq_true_eq]
        exact fun hcounts => hnone hcounts.controlCondition
      rw [hempty]
      rfl
  | true =>
      obtain ⟨found, hfound, h⟩ := Foundations.bind_eq_ok.mp h
      cases h
      obtain ⟨hall, rfl⟩ := (Foundations.mapM_ok_iff []).mp hfound
      have hholds := needsEnforcement_eq_true.mp happlies
      rw [List.filter_flatten, List.map_map, List.filter_map, List.map_map]
      generalize control.velocityLimits = limits at hall ⊢
      induction limits with
      | nil => rfl
      | cons limit limits ih =>
          obtain ⟨hlimit, hlimits⟩ := List.forall_mem_cons.mp hall
          have hone := filter_matchLimit hholds (hlimit.eq_ok [])
          rw [List.map_cons, List.flatten_cons, ih hlimits, Function.comp_apply, hone,
            List.filter_cons]
          by_cases hcounts : (⟨control, limit, context⟩ : AttachedLimit).CountsTowards key
          · simp [hcounts]
          · simp [hcounts]

open Classical in
theorem filter_matchControls {accountControls : List AccountVelocityControl}
    (h : ∀ control ∈ accountControls, Succeeds (matchControl context key.accountId control)) :
    (accountControls.map (fun control =>
        okOr [] (matchControl context key.accountId control))).flatten.filter (fun m => m.key = key)
      = ((accountControls.flatMap (fun control => control.velocityLimits.map (fun limit =>
          (⟨control, limit, context⟩ : AttachedLimit)))).filter
            (fun attached => attached.CountsTowards key)).map
              (fun attached => ⟨key, attached.limit, attached.context⟩) := by
  induction accountControls with
  | nil => rfl
  | cons control accountControls ih =>
      obtain ⟨hcontrol, hcontrols⟩ := List.forall_mem_cons.mp h
      rw [List.map_cons, List.flatten_cons, List.filter_append, ih hcontrols,
        filter_matchControl (hcontrol.eq_ok []), List.flatMap_cons, List.filter_append,
        List.map_append]

open Classical in
/-- The controls of an account the entry reaches. -/
theorem filter_matchTarget {controls : ControlTable} {target : PostingTarget}
    (haccount : target.accountId = key.accountId) (h : Succeeds (matchTarget controls target)) :
    (okOr [] (matchTarget controls target)).filter (fun m => m.key = key)
      = ((attachedLimits controls target).filter (fun attached => attached.CountsTowards key)).map
          (fun attached => ⟨key, attached.limit, attached.context⟩) := by
  have hresult := h.eq_ok []
  generalize okOr [] (matchTarget controls target) = matched at hresult ⊢
  unfold matchTarget at hresult
  unfold attachedLimits
  cases hcontrols : controls target.accountId with
  | none =>
      rw [hcontrols] at hresult
      cases hresult
      rfl
  | some found =>
      rw [hcontrols] at hresult
      obtain ⟨found', hfound, hresult⟩ := Foundations.bind_eq_ok.mp hresult
      cases hresult
      obtain ⟨hall, rfl⟩ := (Foundations.mapM_ok_iff []).mp hfound
      rw [haccount] at hall ⊢
      exact filter_matchControls hall

/-- **What a posted batch runs over a velocity balance** is what counts towards it. -/
theorem velocityEvents_eq_countedTowards {controls : ControlTable} {targets : List PostingTarget}
    (h : ∀ target ∈ targets, Succeeds (matchTarget controls target)) (key : VelocityBalanceKey) :
    velocityEvents controls targets key = countedTowards controls targets key := by
  rw [velocityEvents_eq, velocityEvents, matchedOf, countedTowards, List.filter_flatMap]
  refine List.flatMap_congr (fun target htarget => ?_)
  obtain ⟨hmem, haccount⟩ := List.mem_filter.mp htarget
  exact filter_matchTarget (of_decide_eq_true haccount) (h target hmem)

end Matching

/-! ## The velocity tables -/

/-- The rows a statement inserts. -/
def PostingStatement.velocityRows : PostingStatement → List (VelocityBalanceKey × BalanceSnapshot)
  | .insertVelocitySnapshots newBalances =>
      newBalances.flatMap (fun group => group.2.map (fun snapshot => (group.1, snapshot)))
  | _ => []

/-- `insertVelocitySnapshots`, of the rows. -/
def insertVelocityRows (table : VelocityTable)
    (rows : List (VelocityBalanceKey × BalanceSnapshot)) : Option VelocityTable := do
  let history ← VersionedTable.appendHistory BalanceSnapshot.version table rows
  some
    { history := history
      current := fun key => upsertVelocity (table.current key) (rowsOf rows key) }

theorem inserts_insertVelocityRows :
    VersionedTable.Inserts BalanceSnapshot.version insertVelocityRows where
  appends := fun {table table' rows} h key => by
    obtain ⟨history, hhistory, h⟩ := Option.bind_eq_some_iff.mp h
    cases h
    obtain ⟨happended, hapart⟩ := VersionedTable.appendHistory_eq_some hhistory
    exact ⟨happended key, hapart key⟩
  mirrors := fun {table table' rows} h hmirrors hrows => by
    obtain ⟨history, hhistory, h⟩ := Option.bind_eq_some_iff.mp h
    cases h
    have hextend : (⟨history, fun key => upsertVelocity (table.current key) (rowsOf rows key)⟩ :
        VelocityTable) = table.extend BalanceSnapshot.version rows := by
      have happended := (VersionedTable.appendHistory_eq_some hhistory).1
      refine congrArg₂ VersionedTable.mk (funext happended) (funext (fun key => ?_))
      exact upsertVelocity_eq hmirrors (hrows key)
    rw [hextend]
    exact hmirrors.extend hrows

@[simp] theorem insertVelocityRows_nil (table : VelocityTable) :
    insertVelocityRows table [] = some table := by
  cases table
  simp [insertVelocityRows, VersionedTable.appendHistory, upsertVelocity]

/-- Only enforcement writes velocity balances. -/
theorem insertVelocityRows_apply {db db' : LedgerDb} {statement : PostingStatement}
    (h : statement.apply db = some db') :
    insertVelocityRows db.velocityBalances statement.velocityRows = some db'.velocityBalances := by
  cases statement with
  | insertVelocitySnapshots newBalances =>
      obtain ⟨table, htable, rfl⟩ := Option.map_eq_some_iff.mp h
      exact htable
  | insertPostingsAndBalances postings snapshots =>
      rw [PostingStatement.apply] at h
      split at h
      · obtain ⟨table, -, rfl⟩ := Option.map_eq_some_iff.mp h
        exact insertVelocityRows_nil _
      · cases h
  | insertSnapshots snapshots =>
      obtain ⟨table, -, rfl⟩ := Option.map_eq_some_iff.mp h
      exact insertVelocityRows_nil _
  | insertEffectiveSnapshots newBalances =>
      obtain ⟨table, -, rfl⟩ := Option.map_eq_some_iff.mp h
      exact insertVelocityRows_nil _
  | _ =>
      cases h
      exact insertVelocityRows_nil _

/-- An entry that counts towards a velocity balance, with the time of its posting. -/
abbrev TimedMatch := Timestamp × Matched

def nextTimedVelocity (key : VelocityBalanceKey) (base : Option BalanceSnapshot)
    (timed : TimedMatch) : BalanceSnapshot :=
  nextVelocity timed.1 key base timed.2

/-- The version was held against the limit of its entry. -/
def PassesLimit (timed : TimedMatch) (snapshot : BalanceSnapshot) : Prop :=
  Succeeds (timed.2.limit.enforce timed.2.context timed.1 snapshot)

/-- What a posted batch has for a velocity balance. -/
noncomputable def Postings.PostedBatch.counted (batch : PostedBatch) (key : VelocityBalanceKey) :
    List TimedMatch :=
  (countedTowards batch.controls (batchTargets batch.mappings batch.postings) key).map
    (fun matched => (batch.now, matched))

/-- `cala_velocity_balance_history` and `cala_velocity_current_balances`, as the flow writes them. -/
noncomputable def velocityWriter : TableWriter VelocityBalanceKey BalanceSnapshot TimedMatch where
  version := BalanceSnapshot.version
  next := nextTimedVelocity
  ok := fun _ => PassesLimit
  events := Postings.PostedBatch.counted
  table := LedgerDb.velocityBalances
  rows := PostingStatement.velocityRows
  insert := insertVelocityRows
  counts :=
    { first := fun key timed => (countsEvents_nextVelocity timed.1).first key timed.2
      later := fun key snapshot timed => (countsEvents_nextVelocity timed.1).later key snapshot timed.2 }
  inserts := inserts_insertVelocityRows
  applies := insertVelocityRows_apply
  reads := fun {statement} hreads => by
    cases statement <;> first | rfl | exact (hreads rfl).elim
  fresh := fun _ _ _ => rfl
  administered := fun _ _ _ _ => rfl

section Enforcement

variable {now : Timestamp} {key : VelocityBalanceKey}

theorem run_timed (events : List Matched) : ∀ base : Option BalanceSnapshot,
    VersionedTable.run (nextTimedVelocity key) base (events.map (fun matched => (now, matched)))
      = VersionedTable.run (nextVelocity now key) base events := by
  induction events with
  | nil => exact fun base => rfl
  | cons matched events ih =>
      intro base
      rw [List.map_cons, VersionedTable.run_cons, VersionedTable.run_cons, ih]
      rfl

/-- Enforced along the chain, every version passes. -/
theorem forall₂_passes (events : List Matched) : ∀ {base : Option BalanceSnapshot},
    EnforcedAlong now key base events →
      List.Forall₂ PassesLimit (events.map (fun matched => (now, matched)))
        (VersionedTable.run (nextVelocity now key) base events) := by
  induction events with
  | nil => exact fun _ => List.Forall₂.nil
  | cons matched events ih => exact fun h => List.Forall₂.cons h.1 (ih h.2)

end Enforcement

/-! ## The flow -/

section Flow

open TableWriter (readOnly_touches triple_seen triple_spelled triple_write Unseen)

variable {posted : List PostedBatch}

/-- A statement that leaves the velocity balances alone. -/
theorem readOnly_issue_velocity {statement : PostingStatement}
    (h : statement.velocityRows = []) :
    (Postings.issue statement).ReadOnly velocityWriter.Touches :=
  Dialogue.ReadOnly.ask (fun htouches => htouches h)

/-- What is collected is what counts. -/
theorem triple_collectBalancesToCheck (batch : PostedBatch) :
    velocityWriter.server.Triple (velocityWriter.Unseen posted)
      (.done ((collectBalancesToCheck batch.controls batch.mappings batch.postings).mapError
        PostingError.velocityError))
      (fun matched session => (∀ key, batch.counted key
          = (matched.filter (fun m => m.key = key)).map (fun m => (batch.now, m)))
        ∧ velocityWriter.Unseen posted session) (fun _ => True) := by
  refine Server.Triple.done TableWriter.stable_seen (fun matched hmatched session hsession => ?_)
    (fun _ _ => trivial)
  obtain ⟨hall, rfl⟩ := collectBalancesToCheck_eq_ok.mp (Foundations.mapError_eq_ok.mp hmatched)
  refine ⟨fun key => ?_, hsession⟩
  rw [PostedBatch.counted, ← velocityEvents_eq_countedTowards hall]
  rfl

variable {batch : PostedBatch} {matched : List Matched}

/-- The versions that follow the ones read are computed, every one within its limit. -/
theorem triple_newSnapshotsWithLimitEnforcement (keys : List VelocityBalanceKey)
    (hcounted : ∀ key, batch.counted key
      = (matched.filter (fun m => m.key = key)).map (fun m => (batch.now, m)))
    (hkeys : ∀ key, batch.counted key ≠ [] → key ∈ keys)
    (currentBalances : VelocityBalanceKey → Option BalanceSnapshot) :
    velocityWriter.server.Triple (velocityWriter.Seen (· ∈ keys) currentBalances posted)
      (.done ((newSnapshotsWithLimitEnforcement batch.now currentBalances
        (Foundations.groupBy Matched.key (fun m => [m]) matched)).mapError
          PostingError.velocityError))
      (fun newBalances => velocityWriter.Spelled
        (velocityWriter.rows (.insertVelocitySnapshots newBalances) ++ []) (posted ++ [batch]))
      (fun _ => True) := by
  refine Server.Triple.done TableWriter.stable_seen
    (fun newBalances hnew session hsession => ?_) (fun _ _ => trivial)
  obtain ⟨henforced, rfl⟩ :=
    newSnapshotsWithLimitEnforcement_eq_ok.mp (Foundations.mapError_eq_ok.mp hnew)
  rw [List.append_nil]
  refine hsession.spell hkeys (fun key => ?_) (fun key => ?_)
  · refine (rowsOf_groups currentBalances matched key).trans ?_
    show _ = VersionedTable.run (nextTimedVelocity key) _ (batch.counted key)
    rw [hcounted, run_timed]
  · show List.Forall₂ PassesLimit (batch.counted key)
      (VersionedTable.run (nextTimedVelocity key) _ (batch.counted key))
    rw [hcounted, run_timed]
    exact forall₂_passes _ ((enforcedAlong_groups currentBalances matched).mp henforced key)

/-- **Enforcement** reads the newest version of every velocity balance an entry counts towards, and
writes the versions that follow. -/
theorem triple_enforceBatchInOp (display : JsonDisplay) (batch : PostedBatch) :
    velocityWriter.server.Triple (velocityWriter.Unseen posted)
      (Postings.enforceBatchInOp display batch.now batch.postings batch.controls batch.mappings)
      (fun _ => velocityWriter.Spelled [] (posted ++ [batch])) (fun _ => True) := by
  unfold Postings.enforceBatchInOp
  refine (triple_collectBalancesToCheck batch).bind (fun matched => Server.Triple.of_fact ?_)
  intro hcounted
  have hgroup : ∀ key, batch.counted key ≠ [] →
      key ∈ (Foundations.groupBy Matched.key (fun m => [m]) matched).map Prod.fst := by
    intro key hsome
    refine mem_keys_groups (fun hnone => hsome ?_)
    rw [hcounted, hnone]
    rfl
  dsimp only
  split
  · rename_i hnone
    refine Server.Triple.ok TableWriter.stable_seen _ (fun session hsession => ?_)
    -- nothing counts, so nothing is added
    rw [hnone] at hgroup
    have hempty : ∀ key, batch.counted key = [] :=
      fun key => not_not.mp (fun hsome => List.not_mem_nil (hgroup key hsome))
    exact hsession.spell_nothing hempty
  · set keys := Foundations.sortBy (VelocityBalanceKey.lockOrder display)
      ((Foundations.groupBy Matched.key (fun m => [m]) matched).map Prod.fst) with hkeys
    have hmem : ∀ key, batch.counted key ≠ [] → key ∈ keys :=
      fun key hsome => (Foundations.mem_sortBy _).mpr (hgroup key hsome)
    refine Server.Triple.bind (triple_seen (readOnly_issue_velocity rfl)) (fun _ => ?_)
    have hread : velocityWriter.server.Triple (velocityWriter.Unseen posted)
        (Postings.issue (.readVelocityBalances keys))
        (fun currentBalances => velocityWriter.Seen (· ∈ keys) currentBalances posted)
        (fun _ => True) := by
      refine Server.Triple.ask TableWriter.stable_seen (fun _ => TableWriter.stable_seen)
        (fun _ _ => trivial) ?_
      rintro session answer _ ⟨order, time, db, hview, -, rfl, rfl⟩ hsession
      refine TableWriter.Seen.untouched (fun htouches => htouches rfl) ?_
      exact hsession.read hview (fun key hkey => Or.inr (onlyKeys_of_mem hkey _))
    refine hread.bind (fun currentBalances => ?_)
    refine (triple_newSnapshotsWithLimitEnforcement keys hcounted hmem currentBalances).bind
      (fun newBalances => ?_)
    exact triple_write velocityWriter _

theorem triple_postPreparedInOp (graph : JournalId → GraphSnapshot) (display : JsonDisplay)
    (now : Timestamp) (prepared : List PreparedTransaction) :
    velocityWriter.server.Triple (velocityWriter.Unseen posted)
      (Postings.postPreparedInOp graph display now prepared)
      (fun batch => velocityWriter.Spelled [] (posted ++ [batch])) (fun _ => True) := by
  unfold Postings.postPreparedInOp
  refine (triple_seen (readOnly_touches (Postings.readOnly_issue rfl))).bind (fun found => ?_)
  refine (triple_seen (d := .done _) trivial).bind (fun _ => ?_)
  refine (triple_seen (readOnly_touches (Postings.readOnly_resolveAncestors _ _ _ _))).bind
    (fun resolved => ?_)
  obtain ⟨mappings, read⟩ := resolved
  set batch : PostedBatch := ⟨now, hydrate now prepared, read.accounts, read.controls, mappings⟩
    with hbatch
  refine (triple_enforceBatchInOp display batch).bind (fun _ => ?_)
  -- the other writes leave the velocity balances alone
  have hrest : ∀ d : PostingFlow Unit, d.ReadOnly velocityWriter.Touches →
      velocityWriter.server.Triple (velocityWriter.Spelled [] (posted ++ [batch])) d
        (fun _ => velocityWriter.Spelled [] (posted ++ [batch])) (fun _ => True) :=
    fun d hd => triple_spelled hd
  refine (hrest _ ?_).bind (fun _ => (hrest _ ?_).bind (fun _ => (hrest _ ?_).bind (fun _ => ?_)))
  · refine (readOnly_issue_velocity rfl).bind_readOnly (fun _ => Dialogue.ReadOnly.forEach ?_ _)
    exact fun chunk => readOnly_issue_velocity rfl
  · refine Dialogue.ReadOnly.forEach (fun group => ?_) _
    dsimp only
    split
    · trivial
    · refine (readOnly_issue_velocity rfl).bind_readOnly (fun allData => ?_)
      exact (Dialogue.ReadOnly.expect _).bind_readOnly (fun _ => readOnly_issue_velocity rfl)
  · exact readOnly_issue_velocity rfl
  · exact Server.Triple.ok TableWriter.stable_spelled _ (fun _ h => h)

end Flow

/-! ## Within the limits -/

/-- The time a limit is enforced at: that of its source, else that of the posting. -/
def TimedMatch.EnforcedAt (timed : TimedMatch) (time : Timestamp) : Prop :=
  match timed.2.limit.limit.timestampSource with
  | some source => source timed.2.context = .ok time
  | none => time = timed.1

/-- The balance is at most every amount of the limit that is in force when it is enforced. -/
def WithinLimit (timed : TimedMatch) (snapshot : BalanceSnapshot) : Prop :=
  ∃ time, TimedMatch.EnforcedAt timed time
    ∧ ∀ balanceLimit ∈ timed.2.limit.limit.balance, balanceLimit.start ≤ time →
      (∀ «end» ∈ balanceLimit.end, time < «end») →
      snapshot.available balanceLimit.enforcementDirection balanceLimit.layer
        ≤ balanceLimit.amount

section Within

variable {limit : AccountVelocityLimit} {context : VelocityContext} {time : Timestamp}
  {snapshot : BalanceSnapshot} {key : VelocityBalanceKey}

theorem check_succeeds {balanceLimit : AccountBalanceLimit} {limitId : VelocityLimitId} :
    Succeeds (balanceLimit.check limitId time snapshot)
      ↔ (balanceLimit.start ≤ time → (∀ «end» ∈ balanceLimit.end, time < «end») →
        snapshot.available balanceLimit.enforcementDirection balanceLimit.layer
          ≤ balanceLimit.amount) := by
  have hforce : balanceLimit.inForce time = true
      ↔ balanceLimit.start ≤ time ∧ ∀ «end» ∈ balanceLimit.end, time < «end» := by
    unfold AccountBalanceLimit.inForce
    cases balanceLimit.end <;> simp
  unfold AccountBalanceLimit.check
  by_cases hexceeds : balanceLimit.inForce time = true
      ∧ balanceLimit.amount < snapshot.available balanceLimit.enforcementDirection balanceLimit.layer
  · rw [if_pos hexceeds]
    obtain ⟨hstart, hend⟩ := hforce.mp hexceeds.1
    simpa using ⟨hstart, hend, hexceeds.2⟩
  · rw [if_neg hexceeds]
    refine iff_of_true (Foundations.succeeds_ok _) (fun hstart hend => ?_)
    exact not_lt.mp (fun hlt => hexceeds ⟨hforce.mpr ⟨hstart, hend⟩, hlt⟩)

/-- Enforcement on a balance of the limit's currency. -/
theorem withinLimit_of_passes {timed : TimedMatch}
    (hcurrency : ∀ currency ∈ timed.2.limit.currency, currency = snapshot.currency)
    (h : PassesLimit timed snapshot) : WithinLimit timed snapshot := by
  have hsame : ¬ timed.2.limit.currency.any (· ≠ snapshot.currency) = true := by
    cases hlimit : timed.2.limit.currency with
    | none => simp
    | some currency => simpa using hcurrency currency hlimit
  have hchecks : ∀ {time}, Succeeds (timed.2.limit.limit.balance.forM (fun balanceLimit =>
      balanceLimit.check timed.2.limit.limitId time snapshot)) →
      ∀ balanceLimit ∈ timed.2.limit.limit.balance, balanceLimit.start ≤ time →
        (∀ «end» ∈ balanceLimit.end, time < «end») →
        snapshot.available balanceLimit.enforcementDirection balanceLimit.layer
          ≤ balanceLimit.amount := by
    rintro time ⟨_, hall⟩ balanceLimit hmem
    exact check_succeeds.mp (Foundations.forM_ok_iff.mp hall balanceLimit hmem)
  obtain ⟨_, h⟩ := h
  unfold AccountVelocityLimit.enforce at h
  rw [if_neg hsame] at h
  unfold WithinLimit TimedMatch.EnforcedAt
  cases hsource : timed.2.limit.limit.timestampSource with
  | none =>
      rw [hsource] at h
      exact ⟨timed.1, rfl, hchecks ⟨_, h⟩⟩
  | some source =>
      rw [hsource] at h
      obtain ⟨time, htime, h⟩ := Foundations.bind_eq_ok.mp h
      exact ⟨time, evaluate_eq_ok.mp htime, hchecks ⟨_, h⟩⟩

/-- What counts towards a velocity balance is of its journal and currency, and matches its limit. -/
theorem countsTowards_of_mem {controls : ControlTable} {targets : List PostingTarget}
    {matched : Matched} (h : matched ∈ countedTowards controls targets key) :
    (⟨matched.context.entry.journalId, key.accountId, matched.context.entry.currency⟩ : BalanceKey)
        = ⟨key.journalId, key.accountId, key.currency⟩
      ∧ ∀ currency ∈ matched.limit.currency, currency = key.currency := by
  obtain ⟨target, -, hmatched⟩ := List.mem_flatMap.mp h
  obtain ⟨attached, hattached, rfl⟩ := List.mem_map.mp hmatched
  have hcounts : attached.CountsTowards key := by
    simpa using (List.mem_filter.mp hattached).2
  refine ⟨?_, fun currency hcurrency => ?_⟩
  · rw [hcounts.journal, hcounts.currency]
  · exact (hcounts.limitCurrency currency hcurrency).trans hcounts.currency

theorem countsTowards_of_mem_counted {batches : List PostedBatch} {timed : TimedMatch}
    (h : timed ∈ velocityWriter.eventsOf batches key) :
    (⟨timed.2.context.entry.journalId, key.accountId, timed.2.context.entry.currency⟩ : BalanceKey)
        = ⟨key.journalId, key.accountId, key.currency⟩
      ∧ ∀ currency ∈ timed.2.limit.currency, currency = key.currency := by
  obtain ⟨batch, -, hmem⟩ := List.mem_flatMap.mp h
  obtain ⟨matched, hmatched, rfl⟩ := List.mem_map.mp hmem
  exact countsTowards_of_mem hmatched

/-- The versions of a velocity balance are of its journal, account and currency. -/
theorem key_of_mem_run {events : List TimedMatch}
    (hevents : ∀ timed ∈ events, (⟨timed.2.context.entry.journalId, key.accountId,
      timed.2.context.entry.currency⟩ : BalanceKey) = ⟨key.journalId, key.accountId, key.currency⟩) :
    ∀ {base : Option BalanceSnapshot},
      (∀ s ∈ base, s.key = ⟨key.journalId, key.accountId, key.currency⟩) →
      ∀ s ∈ VersionedTable.run (nextTimedVelocity key) base events,
        s.key = ⟨key.journalId, key.accountId, key.currency⟩ := by
  induction events with
  | nil => exact fun _ s hs => (List.not_mem_nil hs).elim
  | cons timed events ih =>
      obtain ⟨htimed, hevents⟩ := List.forall_mem_cons.mp hevents
      intro base hbase s hs
      have hfirst : (nextTimedVelocity key base timed).key
          = ⟨key.journalId, key.accountId, key.currency⟩ := by
        cases base with
        | none => exact (newSnapshot_key _ _ _).trans htimed
        | some balance => exact (updateSnapshot_key _ _ _).trans (hbase balance rfl)
      rcases List.mem_cons.mp hs with rfl | hs
      · exact hfirst
      · refine ih hevents (fun s hs => ?_) s hs
        cases hs
        exact hfirst

/-- Versions that pass are within their limits. -/
theorem forall₂_withinLimit {events : List TimedMatch} {rows : List BalanceSnapshot}
    (hpass : List.Forall₂ PassesLimit events rows)
    (hevents : ∀ timed ∈ events, ∀ currency ∈ timed.2.limit.currency, currency = key.currency)
    (hrows : ∀ s ∈ rows, s.key = ⟨key.journalId, key.accountId, key.currency⟩) :
    List.Forall₂ WithinLimit events rows := by
  induction hpass with
  | nil => exact List.Forall₂.nil
  | cons hone _ ih =>
      obtain ⟨hevent, hevents⟩ := List.forall_mem_cons.mp hevents
      obtain ⟨hrow, hrows⟩ := List.forall_mem_cons.mp hrows
      refine List.Forall₂.cons (withinLimit_of_passes (fun currency hmem => ?_) hone)
        (ih hevents hrows)
      exact (hevent currency hmem).trans (congrArg BalanceKey.currency hrow).symm

end Within

/-! ## Runs -/

/-- The argument from the read on is the argument about the flow. -/
theorem calls_velocityWriter : velocityWriter.Calls :=
  TableWriter.calls_of_postPreparedInOp (fun _ => rfl)
    (fun _ graph display _ now prepared _ => triple_postPreparedInOp graph display now prepared)

/-- What the versions of a velocity balance are made of: the entries that count towards it, of the
batches in order. -/
noncomputable def countedOf (batches : List PostedBatch) (key : VelocityBalanceKey) :
    List TimedMatch :=
  batches.flatMap (fun batch => batch.counted key)

/-- The versions an operation has written of a velocity balance. -/
def writtenVersions (session : PostingSession) (key : VelocityBalanceKey) :
    List BalanceSnapshot :=
  rowsOf (session.written.flatMap PostingStatement.velocityRows) key

section Runs

variable {system : LedgerSystem} {key : VelocityBalanceKey}

/-- The committed versions. -/
theorem committed_versions (h : LedgerSystem.Reached system) (key : VelocityBalanceKey) :
    system.committed.velocityBalances.history key
        = VersionedTable.run (nextTimedVelocity key) none (countedOf system.log key)
      ∧ ∀ s ∈ system.committed.velocityBalances.history key,
          s.key = ⟨key.journalId, key.accountId, key.currency⟩ := by
  have hhistory := (TableWriter.runsLog_of_reached calls_velocityWriter h).history key
  refine ⟨hhistory, fun s hs => ?_⟩
  have hrun : s ∈ VersionedTable.run (nextTimedVelocity key) none (countedOf system.log key) :=
    hhistory ▸ hs
  refine key_of_mem_run (fun timed htimed => (countsTowards_of_mem_counted htimed).1) ?_ s hrun
  rintro _ ⟨⟩

/-- What an operation has written between two calls is within the limits. -/
theorem withinLimit_written (h : LedgerSystem.Reached system) {operation : OpenPosting}
    (hspelled : velocityWriter.Spelled [] operation.posted (operation.session system.committed))
    (key : VelocityBalanceKey) :
    List.Forall₂ WithinLimit (countedOf operation.posted key)
      (writtenVersions (operation.session system.committed) key) := by
  obtain ⟨earlier, hearlier, hrows, hpass⟩ := hspelled.spells_written key
  have hcounted := fun timed (htimed : timed ∈ countedOf operation.posted key) =>
    countsTowards_of_mem_counted htimed
  refine forall₂_withinLimit hpass (fun timed htimed => (hcounted timed htimed).2) ?_
  intro s hs
  have hrun : s ∈ VersionedTable.run (nextTimedVelocity key) earlier.getLast?
      (countedOf operation.posted key) := hrows ▸ hs
  refine key_of_mem_run (fun timed htimed => (hcounted timed htimed).1) (fun base hbase => ?_) s hrun
  -- the version gone on from is a committed one
  exact (committed_versions h key).2 base (hearlier.subset (List.mem_of_getLast? hbase))

end Runs

/-- A call only adds statements. -/
theorem written_grows {rely : LedgerDb → LedgerDb → Prop} {current next : PostingSession}
    {call : PostingFlow PostedBatch} {issued : List PostingStatement}
    {outcome : Foundations.Outcome PostingError PostedBatch}
    (h : (PostingSession.server rely).Run current call issued outcome next) :
    current.written <+: next.written := by
  have hothers : ∀ {session session' : PostingSession},
      (PostingSession.server rely).others session session' →
      current.written <+: session.written → current.written <+: session'.written := by
    rintro session session' ⟨hwritten, -⟩ hgrown
    rwa [hwritten]
  have hexecutes : ∀ {session : PostingSession} {statement : PostingStatement}
      {answer : statement.Answer} {session' : PostingSession},
      session.Executes statement answer session' →
      current.written <+: session.written → current.written <+: session'.written := by
    rintro session statement answer _ ⟨_, _, db, -, -, -, rfl⟩ hgrown
    refine hgrown.trans ?_
    show session.written <+: if statement.writes then _ else _
    split
    · exact List.prefix_append _ _
    · exact List.prefix_rfl
  exact h.invariant hothers hexecutes List.prefix_rfl

/-- What a call that returns has written of a velocity balance: a version for each entry of the
batch that counts, enforced. -/
theorem versions_of_returned {posted : List PostedBatch} {batch : PostedBatch}
    {before after : PostingSession} (hgrown : before.written <+: after.written)
    (hbefore : velocityWriter.Spelled [] posted before)
    (hafter : velocityWriter.Spelled [] (posted ++ [batch]) after) (key : VelocityBalanceKey) :
    ∃ versions, writtenVersions after key = writtenVersions before key ++ versions
      ∧ List.Forall₂ PassesLimit (batch.counted key) versions := by
  obtain ⟨more, hmore⟩ := hgrown
  obtain ⟨-, -, -, hpass⟩ := hbefore.spells_written key
  obtain ⟨-, -, -, hpass'⟩ := hafter.spells_written key
  have hrows : writtenVersions after key = writtenVersions before key
      ++ rowsOf (more.flatMap PostingStatement.velocityRows) key := by
    rw [writtenVersions, ← hmore, List.flatMap_append, Foundations.rowsOf_append]
    rfl
  have hevents : velocityWriter.eventsOf (posted ++ [batch]) key
      = velocityWriter.eventsOf posted key ++ batch.counted key := by
    rw [TableWriter.eventsOf, List.flatMap_append, List.flatMap_singleton]
    rfl
  refine ⟨_, hrows, ?_⟩
  have hlength : (writtenVersions before key).length
      = (velocityWriter.eventsOf posted key).length := hpass.length_eq.symm
  have hall : List.Forall₂ PassesLimit (velocityWriter.eventsOf posted key ++ batch.counted key)
      (writtenVersions before key ++ rowsOf (more.flatMap PostingStatement.velocityRows) key) := by
    rw [← hrows, ← hevents]
    exact hpass'
  have hdrop := List.forall₂_drop_append _ _ _ hall
  rwa [hlength, List.drop_left] at hdrop

/-- **Velocity limits are sound over whole runs.** Whatever operations interleave: the committed
rows are those of the committed batches; the versions of a velocity balance are numbered from one
without a gap, each adds the next entry that counts towards it, and each is within the limit of its
entry at its enforcement time. The same holds of what an operation has written between two calls. A
call that returns has enforced a version for every entry of its batch that counts; a call that
rejects its batch leaves nothing of it, whatever the operation commits. -/
theorem velocity_limits_sound {system : LedgerSystem} (h : LedgerSystem.Reached system) :
    HoldsPostings system.committed system.log
    ∧ (∀ key,
        VersionedTable.Counts BalanceSnapshot.version 0
          (system.committed.velocityBalances.history key)
        ∧ system.committed.velocityBalances.history key
          = VersionedTable.run (nextTimedVelocity key) none (countedOf system.log key)
        ∧ List.Forall₂ WithinLimit (countedOf system.log key)
            (system.committed.velocityBalances.history key))
    ∧ ∀ id operation, system.operations id = some operation → operation.call = none →
        HasPosted operation.posted (operation.session system.committed)
        ∧ (∀ key, List.Forall₂ WithinLimit (countedOf operation.posted key)
            (writtenVersions (operation.session system.committed) key))
        ∧ ∀ templates graph display ids batch issued outcome session,
            system.committed.Knows graph →
            (PostingSession.server velocityWriter.Grows).Run (operation.session system.committed)
              (Postings.postBatchInOp templates graph display ids batch) issued outcome session →
            (∀ posted, outcome = .returned (.ok posted) → ∀ key,
              ∃ versions, writtenVersions session key
                  = writtenVersions (operation.session system.committed) key ++ versions
                ∧ List.Forall₂ PassesLimit (posted.counted key) versions)
            ∧ ∀ error, outcome = .returned (.error error) → session.written = operation.written := by
  have hkept := (velocityWriter.discipline calls_velocityWriter).holds h
  have hposted := postingsDiscipline.holds h
  refine ⟨hposted.committed, fun key => ⟨hkept.committed.mirrors.counts key,
    (committed_versions h key).1, ?_⟩, fun id operation hoperation hcall => ?_⟩
  · refine forall₂_withinLimit (hkept.committed.ok key)
      (fun timed htimed => (countsTowards_of_mem_counted htimed).2) (committed_versions h key).2
  · have hspelled := hkept.operations id operation hoperation
    have hsession := hposted.operations id operation hoperation
    rw [Discipline.Holds, hcall] at hspelled hsession
    refine ⟨hsession, withinLimit_written h hspelled, ?_⟩
    intro templates graph display ids batch issued outcome session hgraph hrun
    have hpromises := Discipline.promises_postBatchInOp hspelled templates hgraph display ids batch
      hrun
    refine ⟨?_, ?_⟩
    · rintro posted hreturned key
      exact versions_of_returned (written_grows hrun) hspelled (hpromises.1 posted hreturned) key
    · rintro error rfl
      have hreads := hrun.read_only
        (Postings.careful_postBatchInOp templates graph display ids batch) rfl
      exact PostingSession.written_of_reads hrun hreads

/-! ## A limited account -/

/-- At most a hundred dollars to the debit of account 2. -/
def sampleControls : ControlTable := fun accountId =>
  if accountId.uuid = 2 then
    some (⟨accountId, "account", .debit, none, none⟩,
      [{ accountId := accountId
         controlId := ⟨7⟩
         condition := none
         velocityLimits :=
           [{ limitId := ⟨8⟩
              window := []
              condition := none
              currency := none
              limit :=
                { timestampSource := none
                  balance := [⟨.settled, 100, .debit, 0, none⟩] } }] }])
  else none

def sampleLimitKey : VelocityBalanceKey := ⟨[], ⟨"USD"⟩, ⟨1⟩, ⟨2⟩, ⟨7⟩, ⟨8⟩⟩

/-- Two postings under a limit, committed. -/
theorem velocity_limits_sound_sample :
    ∃ system : LedgerSystem, LedgerSystem.Reached system
      ∧ (system.committed.velocityBalances.history sampleLimitKey).length = 2
      ∧ List.Forall₂ WithinLimit (countedOf system.log sampleLimitKey)
          (system.committed.velocityBalances.history sampleLimitKey) := by
  set display := Classical.choice JsonDisplay.nonempty with hdisplay
  set alone := PostingSession.runAlone default 0
    ⟨LedgerDb.fresh sampleDirectory sampleDb.templates sampleControls, [], []⟩
    (Postings.postBatchInOp ∅ (fun _ => SetGraphCache.cold) display sampleIds sampleBatch)
    with halone
  have hresult : alone.2.1.result?.isSome = true := by decide +kernel
  have hview : alone.2.2.view.map (fun db =>
      (db.velocityBalances.history sampleLimitKey).length) = some 2 := by decide +kernel
  obtain ⟨posted, hposted⟩ := Option.isSome_iff_exists.mp hresult
  obtain ⟨db, hdb, hlength⟩ := Option.map_eq_some_iff.mp hview
  have hstart := LedgerSystem.Reached.start sampleDirectory sampleDb.templates sampleControls
    setsBacked_sampleDirectory
  have hreached := hstart.postAlone 0 rfl ∅ (fun _ => SetGraphCache.cold) display sampleIds
    sampleBatch (LedgerDirectory.knows_cold _) default 0 (Foundations.Outcome.result?_eq_some.mp hposted) hdb
  exact ⟨_, hreached, hlength, ((velocity_limits_sound hreached).2.1 sampleLimitKey).2.2⟩

end CalaLedger
