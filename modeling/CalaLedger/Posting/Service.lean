import CalaLedger.Posting.Statements

/-! # The posting flow, statement by statement

`Postings::post_all_in_op` as a dialogue with the database: every statement it issues, and what it
computes between two of them. The template cache and the set-graph cache of the process are given as
they are when the flow reads them.

`Posting.Flow` has the same algorithm with the whole call as one step; here other operations may
commit between any two statements. -/

namespace CalaLedger

/-- A part of the flow. -/
abbrev PostingFlow (α : Type) : Type :=
  Foundations.Dialogue PostingStatement PostingStatement.Answer PostingError α

namespace Postings

open Foundations (Dialogue)
open Foundations.Dialogue (expect forEach foldEach)

/-- Issue a statement on the operation. -/
def issue (statement : PostingStatement) : PostingFlow statement.Answer :=
  Dialogue.ask statement

/-! ## Templates -/

/-- `TemplateCache::fetch_and_install`. -/
def fetchAndInstall (codes : List String) : PostingFlow (HashMap String ResolvedTemplate) := do
  let rows ← issue (.resolveTemplates codes)
  .done ((TemplateCache.fetch rows codes).mapError .txTemplateError)

/-- `TemplateCache::resolve_in_op`. -/
def resolveInOp (snapshot : HashMap String ResolvedTemplate) (codes : List String) :
    PostingFlow (HashMap String ResolvedTemplate) :=
  if TemplateCache.missing snapshot codes = [] then
    pure (TemplateCache.hits snapshot codes)
  else do
    let fetched ← fetchAndInstall (TemplateCache.missing snapshot codes)
    pure (fetched ∪ TemplateCache.hits snapshot codes)

/-- `Postings::prepare_all`, from resolved templates. -/
def prepareAll (ids : EntryIds) (batch : List PostingInput) (codes : List String)
    (used : HashMap String ResolvedTemplate) : Except PostingError (List PreparedTransaction) :=
  prepareAllFrom ids (TemplateSessions.bodies codes used) 0 [] [] batch

/-! ## Ancestors -/

/-- `AccountSetRepo::lock_resolved_ancestors_in_op`. -/
def lockResolvedAncestorsInOp (journalId : JournalId) (pairs : List (AccountSetId × Currency)) :
    PostingFlow Unit :=
  if pairs = [] then pure () else issue (.lockResolvedAncestors journalId pairs)

/-- The overlay for sets the snapshot does not know. -/
def fetchOverlay (missing : List AccountSetId) : PostingFlow (Option IndexedNodes) :=
  if missing = [] then
    pure none
  else do
    let nodes ← issue (.fetchSetGraphNodes missing)
    pure (some (SetGraphCache.indexNodes nodes))

/-- `SetGraphCache::resolve_from_probe_in_op`. -/
def resolveFromProbeInOp (snapshot : GraphSnapshot) (journalId : JournalId) (probeEpoch : ℤ)
    (probeSeeds : List AccountMembership) (entryPairs : List (AccountId × Currency)) :
    PostingFlow AccountSetMappings :=
  if probeSeeds = [] then
    pure (fun _ => [])
  else if snapshot.epoch ≠ probeEpoch then
    issue (.walkMappingsAndLock journalId entryPairs)
  else do
    let overlay ← fetchOverlay (SetGraphCache.missing snapshot probeSeeds)
    match SetGraphCache.expand snapshot overlay journalId probeSeeds entryPairs with
    | some (mappings, lockPairs) => do
        lockResolvedAncestorsInOp journalId lockPairs
        pure mappings
    | none => issue (.walkMappingsAndLock journalId entryPairs)

/-- The accounts and currencies a journal's postings have entries on. -/
def entryPairs (prepared : List PreparedTransaction) (journalId : JournalId) :
    List (AccountId × Currency) :=
  ((prepared.filter (·.journalId = journalId)).flatMap (fun posting =>
    posting.entries.map (fun entry => (entry.accountId, entry.currency)))).dedup

/-- The ancestor rows a journal's postings will write. -/
def ancestorKeys (prepared : List PreparedTransaction) (journalId : JournalId)
    (resolved : AccountSetMappings) : List BalanceKey :=
  (prepared.filter (·.journalId = journalId)).flatMap (fun posting =>
    posting.entries.flatMap (fun entry =>
      (resolved entry.accountId).map (fun setId =>
        ⟨journalId, AccountId.ofSet setId, entry.currency⟩)))

/-- The body of the journal loop of `resolve_ancestors`. -/
def resolveJournal (graph : JournalId → GraphSnapshot) (prepared : List PreparedTransaction)
    (epoch : ℤ) (seeds : List AccountMembership) (found : AncestorMappings × List BalanceKey)
    (journalId : JournalId) : PostingFlow (AncestorMappings × List BalanceKey) :=
  if entryPairs prepared journalId = [] then
    pure found
  else do
    let resolved ← resolveFromProbeInOp (graph journalId) journalId epoch seeds
      (entryPairs prepared journalId)
    pure
      (Function.update found.1 journalId
          (fun accountId => found.1 journalId accountId ++ resolved accountId),
        found.2 ++ ancestorKeys prepared journalId resolved)

/-- `Postings::resolve_ancestors`. -/
def resolveAncestors (graph : JournalId → GraphSnapshot) (prepared : List PreparedTransaction)
    (epoch : ℤ) (read : PostingState) : PostingFlow (AncestorMappings × PostingState) :=
  if read.seeds = [] then
    pure (fun _ _ => [], read)
  else do
    let found ← foldEach (resolveJournal graph prepared epoch read.seeds) (fun _ _ => [], [])
      (sortedDedup (prepared.map PreparedTransaction.journalId))
    if found.2 = [] then
      pure (found.1, read)
    else do
      let ancestorIds := sortedDedup (found.2.map BalanceKey.accountId)
      let supplemental ← issue (.readAncestorState ancestorIds (sortedDeduped found.2))
      let read := read.extend supplemental
      match ancestorIds.find? (fun accountId =>
        (read.accounts accountId).any AccountMeta.locked) with
      | some accountId => .done (.error (.balanceError (.accountLocked accountId)))
      | none => pure (found.1, read)

/-! ## Velocity -/

/-- `VelocityBalances::enforce_batch_in_op`. -/
def enforceBatchInOp (display : JsonDisplay) (now : Timestamp) (postings : List HydratedPosting)
    (controls : ControlTable) (mappings : AncestorMappings) : PostingFlow Unit := do
  -- without controls nothing is collected, so the two early returns are one
  let matched ← .done ((collectBalancesToCheck controls mappings postings).mapError .velocityError)
  let entriesToEnforce := Foundations.groupBy Matched.key (fun m => [m]) matched
  if entriesToEnforce = [] then
    pure ()
  else do
    let keys := Foundations.sortBy (VelocityBalanceKey.lockOrder display)
      (entriesToEnforce.map Prod.fst)
    issue (.lockVelocityBalances keys)
    let currentBalances ← issue (.readVelocityBalances keys)
    let newBalances ← .done ((newSnapshotsWithLimitEnforcement now currentBalances
      entriesToEnforce).mapError .velocityError)
    issue (.insertVelocitySnapshots newBalances)

/-! ## Writes -/

/-- `PostingRepo::insert_postings_and_balances_in_op`. -/
def insertPostingsAndBalancesInOp (postings : List HydratedPosting)
    (snapshots : List BalanceSnapshot) : PostingFlow Unit := do
  let head := snapshots.take (min snapshots.length INSERT_SNAPSHOT_BATCH_SIZE)
  let rest := snapshots.drop (min snapshots.length INSERT_SNAPSHOT_BATCH_SIZE)
  issue (.insertPostingsAndBalances postings head)
  forEach (fun chunk => issue (.insertSnapshots chunk))
    (Foundations.chunks INSERT_SNAPSHOT_BATCH_SIZE rest)

/-- `EffectiveBalances::update_cumulative_balances_in_op`. -/
def updateCumulativeBalancesInOp (journalId : JournalId) (entries : List EntryValues)
    (effective : NaiveDate) (createdAt : Timestamp) (mappings : AccountSetMappings)
    (balanceIds : List (AccountId × Currency)) : PostingFlow Unit := do
  let allData ← issue (.findEffectiveForUpdate journalId balanceIds effective)
  let newBalances ← expect (recomputeAll journalId createdAt
    (Foundations.values (pushEntries (inlineTargets mappings) entries effective allData)))
  issue (.insertEffectiveSnapshots newBalances)

/-- `Postings::update_effective_balances`: one update for each journal and day. -/
def updateEffectiveBalances (postings : List HydratedPosting) (read : PostingState)
    (mappings : AncestorMappings) (now : Timestamp) : PostingFlow Unit :=
  let enabled := postings.filter (fun posting =>
    (read.journals posting.1.journalId).any JournalValues.insertEffectiveBalances)
  let groups := Foundations.groupBy
    (fun posting : HydratedPosting => (posting.1.journalId, posting.1.effective)) Prod.snd enabled
  let groups := Foundations.sortBy
    (fun group : (JournalId × NaiveDate) × List EntryValues => toLex group.1) groups
  forEach (fun group =>
    let mappings := mappings group.1.1
    let involved := ((reached (inlineTargets mappings) group.2).filter
      (fun pair => read.involves pair.1)).dedup
    if involved = [] then
      pure ()
    else
      updateCumulativeBalancesInOp group.1.1 group.2 group.1.2 now mappings involved) groups

/-! ## The flow -/

/-- The fence: lock, and prepare again when a template has moved. -/
def lockInOp (ids : EntryIds) (batch : List PostingInput) (codes : List String)
    (used : HashMap String ResolvedTemplate) (prepared : List PreparedTransaction) :
    PostingFlow (Timestamp × List PreparedTransaction) := do
  let locked ← issue (.lockBalancesAndProbeTemplates (sortedDeduped (entryBalanceKeys prepared)) codes)
  let stale := TemplateCache.stale codes used locked.2
  if stale = [] then
    pure (locked.1, prepared)
  else do
    let refreshed ← fetchAndInstall stale
    let prepared ← .done (prepareAll ids batch codes (refreshed ∪ used))
    let _ ← issue (.lockBalancesAndProbeTemplates (sortedDeduped (entryBalanceKeys prepared)) [])
    pure (locked.1, prepared)

/-- A posted batch, with the accounts, controls and ancestors it was posted under. -/
structure PostedBatch where
  now : Timestamp
  postings : List HydratedPosting
  accounts : AccountId → Option AccountMeta
  controls : ControlTable
  mappings : AncestorMappings

/-- The flow from the read on. -/
def postPreparedInOp (graph : JournalId → GraphSnapshot) (display : JsonDisplay) (now : Timestamp)
    (prepared : List PreparedTransaction) : PostingFlow PostedBatch := do
  let accountIds := sortedDedup ((prepared.flatMap PreparedTransaction.entries).map
    EntryValues.accountId)
  let journalIds := sortedDedup (prepared.map PreparedTransaction.journalId)
  let found ← issue (.readPostingState accountIds journalIds
    (sortedDeduped (entryBalanceKeys prepared)))
  .done (validateFrom found.2 0 prepared)
  let (mappings, read) ← resolveAncestors graph prepared found.1 found.2
  let postings := hydrate now prepared
  enforceBatchInOp display now postings read.controls mappings
  insertPostingsAndBalancesInOp postings (foldBalances postings read mappings now)
  updateEffectiveBalances postings read mappings now
  issue (.publishAll (postings.flatMap postingEvents))
  pure ⟨now, postings, read.accounts, read.controls, mappings⟩

/-- The flow, with what it posted under. -/
def postBatchInOp (templates : HashMap String ResolvedTemplate) (graph : JournalId → GraphSnapshot)
    (display : JsonDisplay) (ids : EntryIds) (batch : List PostingInput) :
    PostingFlow PostedBatch :=
  if batch = [] then
    pure ⟨0, [], fun _ => none, fun _ => none, fun _ _ => []⟩
  else do
    let codes := sortedDedup (batch.map PostingInput.txTemplateCode)
    let used ← resolveInOp templates codes
    let prepared ← .done (prepareAll ids batch codes used)
    if MAX_DISTINCT_BALANCES_PER_BATCH < (entryBalanceKeys prepared).length then
      .done (.error (.batchTooManyAccounts (entryBalanceKeys prepared).length
        MAX_DISTINCT_BALANCES_PER_BATCH))
    else do
      let (now, prepared) ← lockInOp ids batch codes used prepared
      postPreparedInOp graph display now prepared

/-- `Postings::post_all_in_op`. -/
def postAllInOp (templates : HashMap String ResolvedTemplate) (graph : JournalId → GraphSnapshot)
    (display : JsonDisplay) (ids : EntryIds) (batch : List PostingInput) :
    PostingFlow (List HydratedPosting) := do
  let posted ← postBatchInOp templates graph display ids batch
  pure posted.postings

end Postings

end CalaLedger
