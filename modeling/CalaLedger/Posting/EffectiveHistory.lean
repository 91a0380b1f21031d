import CalaLedger.Balance.EffectiveRows
import CalaLedger.Posting.NoLostUpdate

/-! # Effective balances under interleaved operations

An effective update deletes the later rows of a balance and stores them recomputed, so its rows need
not clash with those another operation has committed meanwhile. The settled versions do: while those
an operation has written can be inserted, nobody has committed to the balances it has touched, and
what it has read of their effective rows is what it finds at its commit (`Foretold`).

So in every run the effective table is what the updates of the committed batches leave when they run
one after the other, in the order of the commits (`interleaved_effective_replays`). -/

namespace CalaLedger

open Foundations (Dialogue Server VersionedTable rowsOf rowsOf_append)
open Postings (PostedBatch)

/-! ## Statements -/

/-- What a statement does to the effective rows of one balance, if it loads the balances it names. -/
def PostingStatement.effectiveOn (key : BalanceKey) (rows : List EffectiveBalanceSnapshot) :
    PostingStatement → List EffectiveBalanceSnapshot
  | .findEffectiveForUpdate journalId balanceIds effective =>
      if key.journalId = journalId ∧ ∃ pair ∈ balanceIds, pair = (key.accountId, key.currency) then
        rows.filter (fun row => row.effective ≤ effective)
      else
        rows
  | .insertEffectiveSnapshots newBalances => rows ++ newBalances.filter (fun b => b.key = key)
  | _ => rows

/-- The balances a statement names are written inline. -/
def PostingStatement.LoadsInline (accounts : AccountTable) : PostingStatement → Prop
  | .findEffectiveForUpdate _ balanceIds _ =>
      ∀ pair ∈ balanceIds, accounts.consistency false pair.1
  | _ => True

theorem PostingStatement.effective_apply {db db' : LedgerDb} {statement : PostingStatement}
    (h : statement.apply db = some db') (hinline : statement.LoadsInline db.accounts)
    (key : BalanceKey) :
    db'.effectiveBalances key = statement.effectiveOn key (db.effectiveBalances key) := by
  cases statement with
  | findEffectiveForUpdate journalId balanceIds effective =>
      cases h
      have hmem : (key.accountId, key.currency)
            ∈ balanceIds.dedup.filter (fun pair => db.accounts.consistency false pair.1)
          ↔ (key.accountId, key.currency) ∈ balanceIds := by
        rw [List.mem_filter, List.mem_dedup, decide_eq_true_eq]
        exact and_iff_left_of_imp (hinline _)
      show (if _ ∧ _ then _ else _ : List EffectiveBalanceSnapshot) = _
      simp only [hmem, PostingStatement.effectiveOn, exists_eq_right]
  | insertEffectiveSnapshots newBalances =>
      obtain ⟨table, htable, rfl⟩ := Option.map_eq_some_iff.mp h
      rw [insertNewEffectiveSnapshots] at htable
      split at htable
      · cases htable
        rfl
      · cases htable
  | insertPostingsAndBalances postings snapshots =>
      rw [PostingStatement.apply] at h
      split at h
      · obtain ⟨table, -, rfl⟩ := Option.map_eq_some_iff.mp h
        rfl
      · cases h
  | insertVelocitySnapshots newBalances =>
      obtain ⟨table, -, rfl⟩ := Option.map_eq_some_iff.mp h
      rfl
  | insertSnapshots snapshots =>
      obtain ⟨table, -, rfl⟩ := Option.map_eq_some_iff.mp h
      rfl
  | _ =>
      cases h
      rfl

/-- The statements of an effective update. -/
def UpdatesEffective : PostingStatement → Prop
  | .findEffectiveForUpdate _ _ _ => True
  | .insertEffectiveSnapshots _ => True
  | _ => False

theorem effective_apply_of_not {db db' : LedgerDb} {statement : PostingStatement}
    (h : statement.apply db = some db') (hother : ¬ UpdatesEffective statement) (key : BalanceKey) :
    db'.effectiveBalances key = db.effectiveBalances key := by
  have hinline : statement.LoadsInline db.accounts := by
    cases statement <;> first | exact trivial | exact (hother trivial).elim
  rw [PostingStatement.effective_apply h hinline]
  cases statement <;> first | rfl | exact (hother trivial).elim

/-- What an operation sees after one more statement. -/
theorem PostingSession.view_concat {committed : LedgerDb} {written : List PostingStatement}
    {locks : List AdvisoryLock} {statement : PostingStatement} {db : LedgerDb}
    (h : PostingSession.view ⟨committed, written ++ [statement], locks⟩ = some db) :
    ∃ before, PostingSession.view ⟨committed, written, locks⟩ = some before
      ∧ statement.apply before = some db := by
  rw [PostingSession.view, List.foldlM_append] at h
  obtain ⟨before, hbefore, h⟩ := Option.bind_eq_some_iff.mp h
  refine ⟨before, hbefore, ?_⟩
  simpa using h

/-! ## Updates -/

/-- One effective update of a posted batch, and the order in which it was returned the later rows. -/
structure BatchUpdate where
  order : ScanOrder
  batch : PostedBatch
  group : (JournalId × NaiveDate) × List EntryValues

namespace BatchUpdate

def targets (update : BatchUpdate) : EntryValues → List AccountId :=
  inlineTargets (update.batch.mappings update.group.1.1)

/-- The balances the flow names. -/
def involved (update : BatchUpdate) : List (AccountId × Currency) :=
  ((reached update.targets update.group.2).filter
    (fun pair => update.batch.involves pair.1)).dedup

/-- Whether the update writes to a balance. -/
def Hits (update : BatchUpdate) (key : BalanceKey) : Prop :=
  key.journalId = update.group.1.1 ∧ update.batch.involves key.accountId = true
    ∧ hits update.targets key.accountId key.currency update.group.2 ≠ []

instance (update : BatchUpdate) (key : BalanceKey) : Decidable (update.Hits key) :=
  inferInstanceAs (Decidable (_ ∧ _))

/-- What the update makes of the rows of a balance. -/
def on (update : BatchUpdate) (key : BalanceKey) (rows : List EffectiveBalanceSnapshot) :
    List EffectiveBalanceSnapshot :=
  updatedOn update.batch.involves update.order update.group.1.1 update.targets update.group.2
    update.group.1.2 update.batch.now key rows

variable {update : BatchUpdate}

theorem on_of_not_hits {key : BalanceKey} (h : ¬ update.Hits key)
    (rows : List EffectiveBalanceSnapshot) : update.on key rows = rows :=
  updatedOn_of_not_hit h rows

theorem on_of_hits {key : BalanceKey} (h : update.Hits key)
    (rows : List EffectiveBalanceSnapshot) :
    update.on key rows = rows.filter (fun row => row.effective ≤ update.group.1.2)
      ++ recomputedRows update.group.1.1 update.batch.now (updateData update.order (fun _ => rows)
          update.group.1.1 update.targets update.group.2 update.group.1.2
          (key.accountId, key.currency)) :=
  if_pos h

theorem mem_involved {pair : AccountId × Currency} : pair ∈ update.involved
    ↔ hits update.targets pair.1 pair.2 update.group.2 ≠ []
      ∧ update.batch.involves pair.1 = true := by
  rw [involved, List.mem_dedup, List.mem_filter, mem_reached]

theorem hits_iff {key : BalanceKey} : update.Hits key
    ↔ key.journalId = update.group.1.1
      ∧ ∃ pair ∈ update.involved, pair = (key.accountId, key.currency) := by
  rw [exists_eq_right, mem_involved, Hits]
  tauto

/-- The entries of the update are postings of its batch, in its journal. -/
def OfBatch (update : BatchUpdate) : Prop :=
  ∀ entry ∈ update.group.2, ∃ posting ∈ update.batch.postings,
    posting.1.journalId = update.group.1.1 ∧ entry ∈ posting.2

/-- The batch maintains the targets of the update that are not eventually consistent. -/
theorem involves_iff (hbatch : update.OfBatch) {directory : LedgerDirectory}
    (hknows : update.batch.KnowsTargets directory) (pair : AccountId × Currency)
    (hhits : hits update.targets pair.1 pair.2 update.group.2 ≠ []) :
    update.batch.involves pair.1 = true ↔ directory.accounts.consistency false pair.1 := by
  obtain ⟨entry, hentry⟩ := List.exists_mem_of_ne_nil _ hhits
  obtain ⟨hmem, -, htarget⟩ := (mem_hits _ _ _).mp hentry
  obtain ⟨posting, hposting, hjournal, hentry⟩ := hbatch entry hmem
  rw [targets, ← hjournal] at htarget
  exact hknows.involves hposting hentry htarget

theorem loadsInline (hbatch : update.OfBatch) {directory : LedgerDirectory}
    (hknows : update.batch.KnowsTargets directory) :
    ∀ pair ∈ update.involved, directory.accounts.consistency false pair.1 := by
  intro pair hpair
  obtain ⟨hhits, hinvolves⟩ := mem_involved.mp hpair
  exact (involves_iff hbatch hknows pair hhits).mp hinvolves

theorem involvesHits (hbatch : update.OfBatch) {directory : LedgerDirectory}
    (hknows : update.batch.KnowsTargets directory) :
    InvolvesHits false directory.accounts update.involved update.targets update.group.2 := by
  intro pair hconsistency
  rw [mem_involved]
  exact and_iff_left_of_imp (fun hhits => (involves_iff hbatch hknows pair hhits).mpr hconsistency)

end BatchUpdate

/-- Some updates, one after the other. -/
def updatesOn (updates : List BatchUpdate) (key : BalanceKey)
    (rows : List EffectiveBalanceSnapshot) : List EffectiveBalanceSnapshot :=
  updates.foldl (fun rows update => update.on key rows) rows

theorem updatesOn_concat (updates : List BatchUpdate) (update : BatchUpdate) (key : BalanceKey)
    (rows : List EffectiveBalanceSnapshot) :
    updatesOn (updates ++ [update]) key rows = update.on key (updatesOn updates key rows) := by
  rw [updatesOn, List.foldl_append]
  rfl

/-- The entries of some postings, grouped by journal and day, in the order of the groups. -/
def enabledGroups (enabled : JournalId → Bool) (postings : List HydratedPosting) :
    List ((JournalId × NaiveDate) × List EntryValues) :=
  Foundations.sortBy (fun group : (JournalId × NaiveDate) × List EntryValues => toLex group.1)
    (Foundations.groupBy
      (fun posting : HydratedPosting => (posting.1.journalId, posting.1.effective)) Prod.snd
      (postings.filter (fun posting => enabled posting.1.journalId)))

theorem exists_of_mem_enabledGroups {enabled : JournalId → Bool} {postings : List HydratedPosting}
    {group : (JournalId × NaiveDate) × List EntryValues}
    (hgroup : group ∈ enabledGroups enabled postings) {entry : EntryValues}
    (hentry : entry ∈ group.2) :
    ∃ posting ∈ postings, posting.1.journalId = group.1.1 ∧ entry ∈ posting.2 := by
  obtain ⟨key, entries⟩ := group
  rw [enabledGroups, Foundations.mem_sortBy, Foundations.mem_groupBy] at hgroup
  obtain ⟨-, rfl⟩ := hgroup
  obtain ⟨posting, hposting, hentry⟩ := List.mem_flatMap.mp hentry
  obtain ⟨hposting, hkey⟩ := List.mem_filter.mp hposting
  exact ⟨posting, (List.mem_filter.mp hposting).1, congrArg Prod.fst (of_decide_eq_true hkey),
    hentry⟩

/-- Whether a journal was read to keep effective balances. -/
def PostingState.keepsEffective (read : PostingState) (journalId : JournalId) : Bool :=
  (read.journals journalId).any JournalValues.insertEffectiveBalances

/-- The updates of a batch, given the journals that keep effective balances. -/
structure MadeFor (enabled : JournalId → Bool) (batch : PostedBatch) (updates : List BatchUpdate) :
    Prop where
  own : ∀ update ∈ updates, update.batch = batch
  groups : updates.map BatchUpdate.group = enabledGroups enabled batch.postings

/-- The updates of some batches, each with the journals it has found to keep effective balances. -/
inductive UpdatesOf : List PostedBatch → List BatchUpdate → Prop
  | nil : UpdatesOf [] []
  | concat {batches : List PostedBatch} {updates more : List BatchUpdate} {batch : PostedBatch}
      (enabled : JournalId → Bool) (earlier : UpdatesOf batches updates)
      (last : MadeFor enabled batch more) : UpdatesOf (batches ++ [batch]) (updates ++ more)

theorem UpdatesOf.append {front : List PostedBatch} {updates : List BatchUpdate}
    (hfront : UpdatesOf front updates) {back : List PostedBatch} {more : List BatchUpdate}
    (hback : UpdatesOf back more) : UpdatesOf (front ++ back) (updates ++ more) := by
  induction hback with
  | nil => simpa using hfront
  | concat enabled _ last ih =>
      rw [← List.append_assoc, ← List.append_assoc]
      exact ih.concat enabled last

theorem MadeFor.ofBatch {enabled : JournalId → Bool} {batch : PostedBatch}
    {updates : List BatchUpdate} (h : MadeFor enabled batch updates) {update : BatchUpdate}
    (hupdate : update ∈ updates) : update.OfBatch := by
  intro entry hentry
  have hgroup : update.group ∈ enabledGroups enabled batch.postings := by
    rw [← h.groups]
    exact List.mem_map_of_mem hupdate
  rw [h.own update hupdate]
  exact exists_of_mem_enabledGroups hgroup hentry

theorem UpdatesOf.ofBatch {batches : List PostedBatch} {updates : List BatchUpdate}
    (h : UpdatesOf batches updates) :
    ∀ update ∈ updates, update.batch ∈ batches ∧ update.OfBatch := by
  induction h with
  | nil => exact fun _ hupdate => (List.not_mem_nil hupdate).elim
  | concat enabled _ last ih =>
      intro update hupdate
      rcases List.mem_append.mp hupdate with hearlier | hlast
      · obtain ⟨hbatch, hof⟩ := ih update hearlier
        exact ⟨List.mem_append_left _ hbatch, hof⟩
      · rw [last.own update hlast]
        exact ⟨List.mem_append_right _ List.mem_cons_self, last.ofBatch hlast⟩

/-! ## What the operation foretells -/

/-- What a commit does: an effective balance changes with its settled history only. -/
structure EffectiveRely (db db' : LedgerDb) : Prop where
  grows : balanceWriter.Grows db db'
  modes : KeepsModes db db'
  follows : ∀ key, db'.balances.history key = db.balances.history key →
    db'.effectiveBalances key = db.effectiveBalances key

theorem EffectiveRely.trans {db db' db'' : LedgerDb} (h : EffectiveRely db db')
    (h' : EffectiveRely db' db'') : EffectiveRely db db'' where
  grows := h.grows.trans h'.grows
  modes := ⟨fun accountId row hrow => by
    obtain ⟨row', hrow', hmode, hset⟩ := h.modes.accounts accountId row hrow
    obtain ⟨row'', hrow'', hmode', hset'⟩ := h'.modes.accounts accountId row' hrow'
    exact ⟨row'', hrow'', hmode'.trans hmode, hset'.trans hset⟩, h'.modes.backed⟩
  follows := fun key hsame => by
    -- the history has not moved in between either
    have hfirst : db'.balances.history key = db.balances.history key := by
      have hback := h'.grows.history key
      rw [show (balanceWriter.table db'').history key = db.balances.history key from hsame] at hback
      exact hback.eq_of_length_le (h.grows.history key).length_le
    rw [h'.follows key (hsame.trans hfirst.symm), h.follows key hfirst]

theorem EffectiveRely.refl {db : LedgerDb} (hsound : balanceWriter.Sound db)
    (hbacked : db.toLedgerDirectory.SetsBacked) : EffectiveRely db db :=
  ⟨TableWriter.Grows.refl hsound, LedgerDirectory.KeepsModes.refl hbacked, fun _ _ => rfl⟩

/-- **At any later commit** that its statements allow, the operation has made some updates. -/
structure Foretold (updates : List BatchUpdate) (session : PostingSession) : Prop where
  settled : ∀ update ∈ updates, ∀ key, update.Hits key →
    rowsOf (balanceWriter.writtenRows session) key ≠ []
  rows : ∀ committed, EffectiveRely session.committed committed → ∀ db,
    PostingSession.view ⟨committed, session.written, session.locks⟩ = some db → ∀ key,
      db.effectiveBalances key = updatesOn updates key (committed.effectiveBalances key)

section Foretold

variable {updates : List BatchUpdate} {session session' : PostingSession}

theorem stable_foretold : (PostingSession.server EffectiveRely).Stable (Foretold updates) := by
  rintro session session' ⟨hwritten, hlocks, hrely⟩ h
  constructor
  · intro update hupdate key hhits
    rw [TableWriter.writtenRows, hwritten]
    exact h.settled update hupdate key hhits
  · intro committed hcommitted db hview
    rw [hwritten, hlocks] at hview
    exact h.rows committed (hrely.trans hcommitted) db hview

theorem Foretold.reads (h : Foretold updates session)
    (hcommitted : session'.committed = session.committed)
    (hwritten : session'.written = session.written) : Foretold updates session' := by
  constructor
  · intro update hupdate key hhits
    rw [TableWriter.writtenRows, hwritten]
    exact h.settled update hupdate key hhits
  · intro committed hrely db hview
    rw [hwritten] at hview
    rw [hcommitted] at hrely
    exact h.rows committed hrely db hview

/-- Statements of other tables. -/
theorem Foretold.untouched {db : LedgerDb} {statement : PostingStatement}
    (hother : ¬ UpdatesEffective statement) (h : Foretold updates session) :
    Foretold updates (session.execute db statement) := by
  by_cases hwrites : statement.writes
  · have hwritten : (session.execute db statement).written = session.written ++ [statement] :=
      PostingSession.written_execute_of_writes hwrites
    constructor
    · intro update hupdate key hhits
      rw [TableWriter.writtenRows_execute, rowsOf_append]
      exact List.append_ne_nil_of_left_ne_nil (h.settled update hupdate key hhits) _
    · intro committed hrely db' hview key
      rw [hwritten] at hview
      obtain ⟨before, hbefore, happly⟩ := PostingSession.view_concat hview
      rw [effective_apply_of_not happly hother]
      exact h.rows committed hrely before hbefore key
  · have hcommitted : (session.execute db statement).committed = session.committed := rfl
    have hwritten : (session.execute db statement).written = session.written :=
      PostingSession.written_execute_of_reads hwrites
    exact h.reads hcommitted hwritten

end Foretold

/-! ## An update -/

/-- What holds of an operation behind the insert of its last batch, and between its updates. -/
structure Updating (posted : List PostedBatch) (updates : List BatchUpdate)
    (session : PostingSession) : Prop where
  spelled : balanceWriter.Spelled [] posted session
  knows : KnowsBatches session.committed.toLedgerDirectory posted
  foretold : Foretold updates session

/-- The rows an update stores for each balance, computed from those of a table. -/
def BatchUpdate.Stores (update : BatchUpdate) (table : EffectiveTable)
    (newBalances : List EffectiveBalanceSnapshot) : Prop :=
  ∀ key, newBalances.filter (fun b => b.key = key)
    = if update.Hits key then
        recomputedRows update.group.1.1 update.batch.now (updateData update.order table
          update.group.1.1 update.targets update.group.2 update.group.1.2
          (key.accountId, key.currency))
      else []

/-- The first statement of an update. -/
def BatchUpdate.find (update : BatchUpdate) : PostingStatement :=
  .findEffectiveForUpdate update.group.1.1 update.involved update.group.1.2

/-- An update has deleted the later rows of its balances, and read those of a table: what it finds
again at any later commit. -/
structure Deleted (posted : List PostedBatch) (updates : List BatchUpdate) (update : BatchUpdate)
    (table : EffectiveTable) (session : PostingSession) : Prop where
  spelled : balanceWriter.Spelled [] posted session
  knows : KnowsBatches session.committed.toLedgerDirectory posted
  settled : ∀ key, update.Hits key → rowsOf (balanceWriter.writtenRows session) key ≠ []
  deleted : ∃ front, session.written = front ++ [update.find]
    ∧ Foretold updates { session with written := front }
    ∧ ∀ committed, EffectiveRely session.committed committed → ∀ db,
        PostingSession.view ⟨committed, front, session.locks⟩ = some db → ∀ key, update.Hits key →
          db.effectiveBalances key = table key

section Update

variable {posted : List PostedBatch} {updates : List BatchUpdate} {session : PostingSession}

theorem stable_updating : (PostingSession.server EffectiveRely).Stable (Updating posted updates) := by
  rintro session session' ⟨hwritten, hlocks, hrely⟩ h
  exact ⟨TableWriter.stable_spelled ⟨hwritten, hlocks, hrely.grows⟩ h.spelled,
    lasting_knowsBatches posted hrely.modes h.knows,
    stable_foretold ⟨hwritten, hlocks, hrely⟩ h.foretold⟩

theorem stable_deleted {update : BatchUpdate} {table : EffectiveTable} :
    (PostingSession.server EffectiveRely).Stable (Deleted posted updates update table) := by
  rintro session session' ⟨hwritten, hlocks, hrely⟩ ⟨hspelled, hknows, hsettled, front, hfront,
    hforetold, hsaw⟩
  have hothers : (PostingSession.server EffectiveRely).others { session with written := front }
      { session' with written := front } := ⟨rfl, hlocks, hrely⟩
  refine ⟨TableWriter.stable_spelled ⟨hwritten, hlocks, hrely.grows⟩ hspelled,
    lasting_knowsBatches posted hrely.modes hknows, ?_, front, hwritten.trans hfront,
    stable_foretold hothers hforetold, ?_⟩
  · rw [TableWriter.writtenRows, hwritten]
    exact hsettled
  · intro committed hcommitted db hview
    rw [hlocks] at hview
    exact hsaw committed (hrely.trans hcommitted) db hview

/-- **While an operation can commit what it has written**, nobody has changed the effective rows of
its balances. -/
theorem Updating.unchanged (h : Updating posted updates session) {db : LedgerDb}
    (hview : session.view = some db) {committed : LedgerDb}
    (hcommitted : EffectiveRely session.committed committed) {db' : LedgerDb}
    (hview' : PostingSession.view ⟨committed, session.written, session.locks⟩ = some db')
    {key : BalanceKey} (hkey : rowsOf (balanceWriter.writtenRows session) key ≠ []) :
    db'.effectiveBalances key = db.effectiveBalances key := by
  have hhistory := h.spelled.history_eq hview hcommitted.grows hview' hkey
  have hself : EffectiveRely session.committed session.committed :=
    EffectiveRely.refl h.spelled.sound h.knows.backed
  rw [h.foretold.rows committed hcommitted db' hview' key,
    h.foretold.rows session.committed hself db hview key, hcommitted.follows key hhistory]

/-- The settled rows of the balances an update hits have been written. -/
theorem Updating.settled (h : Updating posted updates session) {update : BatchUpdate}
    (hposted : update.batch ∈ posted) (hbatch : update.OfBatch) {key : BalanceKey}
    (hhits : update.Hits key) : rowsOf (balanceWriter.writtenRows session) key ≠ [] := by
  obtain ⟨hjournal, hinvolves, hhits⟩ := hhits
  obtain ⟨entry, hentry⟩ := List.exists_mem_of_ne_nil _ hhits
  obtain ⟨hmem, hcurrency, htarget⟩ := (mem_hits _ _ _).mp hentry
  obtain ⟨posting, hposting, hjournal', hmem⟩ := hbatch entry hmem
  refine h.spelled.rows_ne_nil hposted (List.ne_nil_of_mem (a := (update.batch.now, entry)) ?_)
  rw [BatchUpdate.targets, ← hjournal] at htarget
  exact mem_foldedEvents.mpr ⟨hinvolves, rfl,
    ⟨posting, hposting, hjournal'.trans hjournal.symm, hmem⟩, hcurrency, htarget⟩

/-- **The first statement** of an update. -/
theorem Updating.delete (h : Updating posted updates session) (update : BatchUpdate)
    (hposted : update.batch ∈ posted) (hbatch : update.OfBatch) {db : LedgerDb}
    (hview : session.view = some db) :
    Deleted posted updates update db.effectiveBalances (session.execute db update.find) := by
  have hwrites : update.find.writes = true := rfl
  have hsettled : ∀ key, update.Hits key → rowsOf (balanceWriter.writtenRows session) key ≠ [] :=
    fun key hhits => h.settled hposted hbatch hhits
  refine ⟨h.spelled.untouched (fun htouches => htouches rfl), h.knows, fun key hhits => ?_,
    session.written, PostingSession.written_execute_of_writes hwrites, h.foretold.reads rfl rfl, ?_⟩
  · rw [TableWriter.writtenRows_execute, rowsOf_append]
    exact List.append_ne_nil_of_left_ne_nil (hsettled key hhits) _
  · intro committed hcommitted db' hview' key hhits
    exact h.unchanged hview hcommitted hview' (hsettled key hhits)

/-- What it computes from its read. -/
theorem BatchUpdate.stores (update : BatchUpdate) (hbatch : update.OfBatch) {db : LedgerDb}
    (hknows : update.batch.KnowsTargets db.toLedgerDirectory)
    {newBalances : List EffectiveBalanceSnapshot}
    (h : recomputeAll update.group.1.1 update.batch.now (Foundations.values (pushEntries
        update.targets update.group.2 update.group.1.2 (findForUpdate update.order db.accounts
          db.effectiveBalances update.group.1.1 update.involved update.group.1.2).2))
        = some newBalances) : update.Stores db.effectiveBalances newBalances := by
  intro key
  rw [newRows_filter (BatchUpdate.involvesHits hbatch hknows) h key]
  have hreach : key.journalId = update.group.1.1 ∧ Reaches false db.accounts update.targets
      update.group.2 (key.accountId, key.currency) ↔ update.Hits key := by
    refine and_congr_right (fun _ => ?_)
    constructor
    · rintro ⟨hconsistency, hhits⟩
      refine ⟨?_, hhits⟩
      exact (BatchUpdate.involves_iff hbatch hknows (key.accountId, key.currency) hhits).mpr
        hconsistency
    · rintro ⟨hinvolves, hhits⟩
      refine ⟨?_, hhits⟩
      exact (BatchUpdate.involves_iff hbatch hknows (key.accountId, key.currency) hhits).mp
        hinvolves
  simp only [hreach]

/-- **The second statement** of an update: now one more update is foretold. -/
theorem Deleted.insert {update : BatchUpdate} {table : EffectiveTable}
    (h : Deleted posted updates update table session) (hposted : update.batch ∈ posted)
    (hbatch : update.OfBatch) {newBalances : List EffectiveBalanceSnapshot}
    (hstores : update.Stores table newBalances) (db : LedgerDb) :
    Updating posted (updates ++ [update])
      (session.execute db (.insertEffectiveSnapshots newBalances)) := by
  obtain ⟨front, hfront, hforetold, hsaw⟩ := h.deleted
  have hwritten : (session.execute db (.insertEffectiveSnapshots newBalances)).written
      = front ++ [update.find] ++ [.insertEffectiveSnapshots newBalances] := by
    rw [← hfront]
    exact PostingSession.written_execute_of_writes rfl
  have hrows : balanceWriter.writtenRows
        (session.execute db (.insertEffectiveSnapshots newBalances))
      = balanceWriter.writtenRows session := by
    rw [TableWriter.writtenRows_execute]
    exact List.append_nil _
  refine ⟨h.spelled.untouched (fun htouches => htouches rfl), h.knows, ?_, ?_⟩
  · intro own hown key hhits
    rw [hrows]
    rcases List.mem_append.mp hown with hearlier | hlast
    · have hearlier := hforetold.settled own hearlier key hhits
      rw [TableWriter.writtenRows, hfront, List.flatMap_append, rowsOf_append]
      exact List.append_ne_nil_of_left_ne_nil hearlier _
    · rw [List.mem_singleton.mp hlast] at hhits
      exact h.settled key hhits
  · intro committed hrely db' hview key
    rw [hwritten] at hview
    obtain ⟨deleted, hview, hinserted⟩ := PostingSession.view_concat hview
    obtain ⟨before, hview, hdeleted⟩ := PostingSession.view_concat hview
    have hdirectory : before.toLedgerDirectory = committed.toLedgerDirectory :=
      (PostingSession.kept_of_view hview).1
    -- the targets are known at the commit too
    have hknows : update.batch.KnowsTargets before.toLedgerDirectory := by
      rw [hdirectory]
      exact (lasting_knowsBatches posted hrely.modes h.knows).targets update.batch hposted
    rw [PostingStatement.effective_apply hinserted trivial,
      PostingStatement.effective_apply hdeleted (BatchUpdate.loadsInline hbatch hknows),
      updatesOn_concat, ← hforetold.rows committed hrely before hview key]
    show (if _ then _ else _ : List EffectiveBalanceSnapshot) ++ newBalances.filter _ = _
    rw [hstores key]
    by_cases hhits : update.Hits key
    · have htable := hsaw committed hrely before hview key hhits
      rw [if_pos (BatchUpdate.hits_iff.mp hhits), if_pos hhits, BatchUpdate.on_of_hits hhits]
      refine congrArg (List.append _) (congrArg (recomputedRows _ _) ?_)
      have hkey : (⟨update.group.1.1, key.accountId, key.currency⟩ : BalanceKey) = key := by
        rw [← hhits.1]
      unfold updateData
      rw [hkey, htable]
    · rw [if_neg (fun hinvolved => hhits (BatchUpdate.hits_iff.mpr hinvolved)), if_neg hhits,
        List.append_nil, BatchUpdate.on_of_not_hits hhits]

/-- An update that hits nothing need not be made. -/
theorem Updating.skip (h : Updating posted updates session) {update : BatchUpdate}
    (hnone : ∀ key, ¬ update.Hits key) : Updating posted (updates ++ [update]) session := by
  refine ⟨h.spelled, h.knows, ?_, ?_⟩
  · intro own hown key hhits
    rcases List.mem_append.mp hown with hearlier | hlast
    · exact h.foretold.settled own hearlier key hhits
    · rw [List.mem_singleton.mp hlast] at hhits
      exact (hnone key hhits).elim
  · intro committed hrely db hview key
    rw [updatesOn_concat, BatchUpdate.on_of_not_hits (hnone key)]
    exact h.foretold.rows committed hrely db hview key

end Update

/-! ## The flow -/

theorem writing_of_updatesEffective (statement : PostingStatement)
    (h : UpdatesEffective statement) : Postings.Writing statement := by
  cases statement <;> first | rfl | exact h.elim

/-- **Up to the insert**, nothing is done to the effective balances. -/
theorem readOnly_settlePreparedInOp (graph : JournalId → GraphSnapshot) (display : JsonDisplay)
    (now : Timestamp) (prepared : List PreparedTransaction) :
    (Postings.settlePreparedInOp graph display now prepared).ReadOnly UpdatesEffective := by
  refine Dialogue.ReadOnly.bind_readOnly
    ((Postings.readOnly_issue rfl).mono writing_of_updatesEffective) (fun found => ?_)
  refine Dialogue.ReadOnly.bind_readOnly (d := .done _) trivial (fun _ => ?_)
  refine Dialogue.ReadOnly.bind_readOnly ((Postings.readOnly_resolveAncestors _ _ _ _).mono
    writing_of_updatesEffective) (fun resolved => ?_)
  refine (Postings.readOnly_enforceBatchInOp writing_of_updatesEffective (fun _ => id)
    _ _ _ _ _).bind_readOnly (fun _ => ?_)
  exact (Postings.readOnly_insertPostingsAndBalancesInOp (fun _ _ => id) (fun _ => id)
    _ _).bind_readOnly (fun _ => trivial)

section Flow

variable {posted : List PostedBatch} {updates : List BatchUpdate} {batch : PostedBatch}
  {group : (JournalId × NaiveDate) × List EntryValues}

/-- **One update.** -/
theorem triple_updateCumulativeBalancesInOp (order : ScanOrder) (hposted : batch ∈ posted)
    (hbatch : (⟨order, batch, group⟩ : BatchUpdate).OfBatch) :
    (PostingSession.server EffectiveRely).Triple (Updating posted updates)
      (Postings.updateCumulativeBalancesInOp group.1.1 group.2 group.1.2 batch.now
        (batch.mappings group.1.1) (⟨order, batch, group⟩ : BatchUpdate).involved)
      (fun _ session => ∃ order, Updating posted (updates ++ [⟨order, batch, group⟩]) session)
      (fun _ => True) := by
  unfold Postings.updateCumulativeBalancesInOp
  have hread : (PostingSession.server EffectiveRely).Triple (Updating posted updates)
      (Postings.issue (.findEffectiveForUpdate group.1.1
        (⟨order, batch, group⟩ : BatchUpdate).involved group.1.2))
      (fun allData session => ∃ order table,
        (∀ newBalances, recomputeAll group.1.1 batch.now (Foundations.values (pushEntries
            (inlineTargets (batch.mappings group.1.1)) group.2 group.1.2 allData))
            = some newBalances → (⟨order, batch, group⟩ : BatchUpdate).Stores table newBalances)
          ∧ Deleted posted updates ⟨order, batch, group⟩ table session) (fun _ => True) := by
    refine Server.Triple.ask stable_updating (fun allData => ?_) (fun _ _ => trivial) ?_
    · rintro session session' hothers ⟨order, table, hcomputes, hdeleted⟩
      exact ⟨order, table, hcomputes, stable_deleted hothers hdeleted⟩
    · rintro session answer _ ⟨order', time, db, hview, -, rfl, rfl⟩ h
      have hknows : batch.KnowsTargets db.toLedgerDirectory := by
        rw [(PostingSession.kept_of_view hview).1]
        exact h.knows.targets batch hposted
      refine ⟨order'.toScanOrder, db.effectiveBalances, fun newBalances hcomputes => ?_, ?_⟩
      · exact BatchUpdate.stores ⟨order'.toScanOrder, batch, group⟩ hbatch hknows hcomputes
      · exact h.delete ⟨order'.toScanOrder, batch, group⟩ hposted hbatch hview
  refine hread.bind (fun allData => Server.Triple.of_exists (fun order => Server.Triple.of_exists
    (fun table => Server.Triple.of_fact (fun hcomputes => ?_))))
  have hcomputed : (PostingSession.server EffectiveRely).Triple
      (Deleted posted updates ⟨order, batch, group⟩ table)
      (Dialogue.expect (recomputeAll group.1.1 batch.now (Foundations.values (pushEntries
        (inlineTargets (batch.mappings group.1.1)) group.2 group.1.2 allData))) : PostingFlow _)
      (fun newBalances session => (⟨order, batch, group⟩ : BatchUpdate).Stores table newBalances
        ∧ Deleted posted updates ⟨order, batch, group⟩ table session) (fun _ => True) :=
    Server.Triple.expect stable_deleted (fun _ _ => trivial) _
      (fun newBalances hsome _ h => ⟨hcomputes newBalances hsome, h⟩)
  refine hcomputed.bind (fun newBalances => Server.Triple.of_fact (fun hstores => ?_))
  refine Server.Triple.ask stable_deleted ?_ (fun _ _ => trivial) ?_
  · rintro - session session' hothers ⟨order, h⟩
    exact ⟨order, stable_updating hothers h⟩
  · rintro session answer _ ⟨order', time, db, hview, -, -, rfl⟩ h
    exact ⟨order, h.insert hposted hbatch hstores db⟩

/-- A statement of another table. -/
theorem triple_updating_other {statement : PostingStatement} (hother : ¬ UpdatesEffective statement)
    (hsettled : statement.settledRows = []) :
    (PostingSession.server EffectiveRely).Triple (Updating posted updates)
      (Postings.issue statement) (fun _ => Updating posted updates) (fun _ => True) := by
  refine Server.Triple.ask stable_updating (fun _ => stable_updating) (fun _ _ => trivial) ?_
  rintro session answer _ ⟨_, _, db, -, -, -, rfl⟩ h
  exact ⟨h.spelled.untouched (fun htouches => htouches hsettled), h.knows,
    h.foretold.untouched hother⟩

/-- Some updates of a batch have been made, and some groups are still to come. -/
def UpdatingGroups (posted : List PostedBatch) (updates : List BatchUpdate) (batch : PostedBatch)
    (groups rest : List ((JournalId × NaiveDate) × List EntryValues)) (session : PostingSession) :
    Prop :=
  ∃ more : List BatchUpdate, (∀ update ∈ more, update.batch = batch)
    ∧ more.map BatchUpdate.group ++ rest = groups ∧ Updating posted (updates ++ more) session

/-- One more update of a batch. -/
theorem UpdatingGroups.next {groups rest : List ((JournalId × NaiveDate) × List EntryValues)}
    {more : List BatchUpdate} (hown : ∀ update ∈ more, update.batch = batch)
    (hgroups : more.map BatchUpdate.group ++ group :: rest = groups) (order : ScanOrder)
    {session : PostingSession}
    (h : Updating posted (updates ++ more ++ [⟨order, batch, group⟩]) session) :
    UpdatingGroups posted updates batch groups rest session := by
  refine ⟨more ++ [⟨order, batch, group⟩], fun update hupdate => ?_, ?_, ?_⟩
  · rcases List.mem_append.mp hupdate with hearlier | hlast
    · exact hown update hearlier
    · rw [List.mem_singleton.mp hlast]
  · rw [List.map_append, List.append_assoc]
    exact hgroups
  · rw [← List.append_assoc]
    exact h

/-- **The loop** makes one update after the other. -/
theorem triple_updateEffectiveBalances (now : Timestamp) (prepared : List PreparedTransaction)
    (found : AncestorMappings × PostingState)
    (hposted : Postings.postedUnder now prepared found ∈ posted) :
    (PostingSession.server EffectiveRely).Triple (Updating posted updates)
      (Postings.updateEffectiveBalances (hydrate now prepared) found.2 found.1 now)
      (fun _ session => ∃ more,
        MadeFor found.2.keepsEffective (Postings.postedUnder now prepared found) more
          ∧ Updating posted (updates ++ more) session) (fun _ => True) := by
  set batch := Postings.postedUnder now prepared found with hbatch
  have hstable : ∀ groups rest, (PostingSession.server EffectiveRely).Stable
      (UpdatingGroups posted updates batch groups rest) := by
    rintro groups rest session session' hothers ⟨more, hown, hgroups, h⟩
    exact ⟨more, hown, hgroups, stable_updating hothers h⟩
  unfold Postings.updateEffectiveBalances
  refine Server.Triple.weaken (Server.Triple.forEach
    (UpdatingGroups posted updates batch (enabledGroups found.2.keepsEffective batch.postings))
    (hstable _ []) (fun group rest => ?_) (enabledGroups found.2.keepsEffective batch.postings))
    ?_ ?_ (fun _ h => h)
  · refine Server.Triple.of_exists (fun more => Server.Triple.of_fact (fun hown =>
      Server.Triple.of_fact (fun hgroups => ?_)))
    have hof : (⟨(default : RowOrder).toScanOrder, batch, group⟩ : BatchUpdate).OfBatch := by
      have hgroup : group ∈ enabledGroups found.2.keepsEffective batch.postings := by
        rw [← hgroups]
        exact List.mem_append_right _ List.mem_cons_self
      exact fun entry hentry => exists_of_mem_enabledGroups hgroup hentry
    dsimp only
    split
    · -- nothing is involved, so nothing is hit
      rename_i hnone
      have hhits : ∀ key,
          ¬ (⟨(default : RowOrder).toScanOrder, batch, group⟩ : BatchUpdate).Hits key := by
        intro key hhits
        obtain ⟨-, pair, hmem, -⟩ := BatchUpdate.hits_iff.mp hhits
        rw [show (⟨_, batch, group⟩ : BatchUpdate).involved = [] from hnone] at hmem
        exact List.not_mem_nil hmem
      exact Server.Triple.ok stable_updating ()
        (fun session h => UpdatingGroups.next hown hgroups _ (h.skip hhits))
    · refine (triple_updateCumulativeBalancesInOp _ hposted hof).weaken (fun _ h => h) ?_
        (fun _ h => h)
      rintro - session ⟨order, h⟩
      exact UpdatingGroups.next hown hgroups order h
  · intro session h
    exact ⟨[], fun _ hmem => (List.not_mem_nil hmem).elim, rfl, by rwa [List.append_nil]⟩
  · rintro - session ⟨more, hown, hgroups, h⟩
    exact ⟨more, ⟨hown, by rwa [List.append_nil] at hgroups⟩, h⟩

/-- **Behind the insert**, an operation makes the updates of its batch. -/
theorem triple_finishPreparedInOp (now : Timestamp) (prepared : List PreparedTransaction)
    (found : AncestorMappings × PostingState) :
    (PostingSession.server EffectiveRely).Triple
      (Updating (posted ++ [Postings.postedUnder now prepared found]) updates)
      (Postings.finishPreparedInOp now prepared found)
      (fun batch session => batch = Postings.postedUnder now prepared found
        ∧ ∃ more, MadeFor found.2.keepsEffective batch more
          ∧ Updating (posted ++ [batch]) (updates ++ more) session) (fun _ => True) := by
  unfold Postings.finishPreparedInOp
  refine (triple_updateEffectiveBalances now prepared found
    (List.mem_append_right _ List.mem_cons_self)).bind (fun _ => ?_)
  refine Server.Triple.of_exists (fun more => Server.Triple.of_fact (fun hmade => ?_))
  refine (triple_updating_other id rfl).bind (fun _ => ?_)
  exact Server.Triple.ok stable_updating _ (fun _ h => ⟨rfl, more, hmade, h⟩)

theorem triple_settlePreparedInOp_updating {ids : EntryIds} {graph : JournalId → GraphSnapshot}
    (display : JsonDisplay) (now : Timestamp) {prepared : List PreparedTransaction}
    (hprepared : WellPrepared ids prepared) :
    (PostingSession.server EffectiveRely).Triple
      (fun session => KnownGraph graph session.committed.toLedgerDirectory
        ∧ Updating posted updates session)
      (Postings.settlePreparedInOp graph display now prepared)
      (fun found => Updating (posted ++ [Postings.postedUnder now prepared found]) updates)
      (fun _ => True) := by
  have hspelled : (PostingSession.server EffectiveRely).Triple (balanceWriter.Unseen posted)
      (Postings.settlePreparedInOp graph display now prepared)
      (fun found => balanceWriter.Spelled [] (posted ++ [Postings.postedUnder now prepared found]))
      (fun _ => True) :=
    (triple_settlePreparedInOp graph display now hprepared).restrict
      (fun hothers => ⟨hothers.1, hothers.2.1, hothers.2.2.grows⟩) id
  have hlearns : (PostingSession.server EffectiveRely).Triple
      (fun session => KnownGraph graph session.committed.toLedgerDirectory
        ∧ KnowsBatches session.committed.toLedgerDirectory posted)
      (Postings.settlePreparedInOp graph display now prepared)
      (fun found session => (KnownGraph graph session.committed.toLedgerDirectory
          ∧ TargetsRead prepared found.1 found.2 session.committed.toLedgerDirectory)
        ∧ KnowsBatches session.committed.toLedgerDirectory posted) (fun _ => True) :=
    Server.Triple.restrict ((learns_settlePreparedInOp display now prepared).frame
        (lasting_knowsBatches posted))
      (fun hothers => ⟨hothers.1, hothers.2.1, hothers.2.2.modes⟩) id
  have hforetold : (PostingSession.server EffectiveRely).Triple (Foretold updates)
      (Postings.settlePreparedInOp graph display now prepared) (fun _ => Foretold updates)
      (fun _ => True) := by
    refine Server.Triple.of_readOnly stable_foretold ?_ (fun _ _ => trivial)
      (readOnly_settlePreparedInOp graph display now prepared)
    rintro session statement answer _ hother ⟨_, _, db, -, -, -, rfl⟩ h
    exact h.untouched hother
  refine (hspelled.and (hlearns.and hforetold)).weaken ?_ ?_ (fun _ _ => trivial)
  · rintro session ⟨hgraph, h⟩
    exact ⟨h.spelled.unseen, ⟨hgraph, h.knows⟩, h.foretold⟩
  · rintro found session ⟨hspelled, ⟨⟨hgraph, htargets⟩, hknows⟩, hforetold⟩
    refine ⟨hspelled, hknows.append ⟨hknows.backed, fun own hown => ?_⟩, hforetold⟩
    rw [List.mem_singleton.mp hown]
    exact knowsTargets_of_targetsRead htargets now

/-- What an operation has posted between two calls, and made of the effective balances. -/
def HasUpdated (posted : List PostedBatch) (session : PostingSession) : Prop :=
  ∃ updates, UpdatesOf posted updates ∧ Updating posted updates session

theorem stable_hasUpdated : (PostingSession.server EffectiveRely).Stable (HasUpdated posted) := by
  rintro session session' hothers ⟨updates, hof, h⟩
  exact ⟨updates, hof, stable_updating hothers h⟩

theorem Updating.reads {updates : List BatchUpdate} {session session' : PostingSession}
    (h : Updating posted updates session) (hcommitted : session'.committed = session.committed)
    (hwritten : session'.written = session.written) : Updating posted updates session' := by
  obtain ⟨hspelled, hknows, hforetold⟩ := h
  refine ⟨⟨hcommitted ▸ hspelled.sound, fun key => ?_⟩, ?_, hforetold.reads hcommitted hwritten⟩
  · rw [TableWriter.writtenRows, hwritten, hcommitted]
    exact hspelled.spells key
  · rw [hcommitted]
    exact hknows

theorem HasUpdated.reads {session session' : PostingSession} (h : HasUpdated posted session)
    (hcommitted : session'.committed = session.committed)
    (hwritten : session'.written = session.written) : HasUpdated posted session' := by
  obtain ⟨updates, hof, h⟩ := h
  exact ⟨updates, hof, h.reads hcommitted hwritten⟩

/-- A batch without postings updates nothing. -/
theorem UpdatesOf.nothing {updates : List BatchUpdate} (h : UpdatesOf posted updates) :
    UpdatesOf (posted ++ [⟨0, [], fun _ => none, fun _ => none, fun _ _ => []⟩]) updates := by
  have hnone : MadeFor (fun _ => false) ⟨0, [], fun _ => none, fun _ => none, fun _ _ => []⟩ [] :=
    ⟨fun _ hmem => (List.not_mem_nil hmem).elim, rfl⟩
  have hconcat := h.concat (fun _ => false) hnone
  rwa [List.append_nil] at hconcat

theorem Updating.nothing {updates : List BatchUpdate} {session : PostingSession}
    (h : Updating posted updates session) :
    Updating (posted ++ [⟨0, [], fun _ => none, fun _ => none, fun _ _ => []⟩]) updates session := by
  refine ⟨h.spelled.unseen.spell_nothing (fun _ => rfl),
    h.knows.append ⟨h.knows.backed, fun own hown => ?_⟩, h.foretold⟩
  rw [List.mem_singleton.mp hown]
  exact ⟨fun _ hmem => (List.not_mem_nil hmem).elim, fun _ hmem => (List.not_mem_nil hmem).elim⟩

theorem triple_postPreparedInOp_updates {ids : EntryIds} {graph : JournalId → GraphSnapshot}
    (display : JsonDisplay) (now : Timestamp) {prepared : List PreparedTransaction}
    (hprepared : WellPrepared ids prepared) :
    (PostingSession.server EffectiveRely).Triple
      (fun session => KnownGraph graph session.committed.toLedgerDirectory
        ∧ HasUpdated posted session)
      (Postings.postPreparedInOp graph display now prepared)
      (fun batch => HasUpdated (posted ++ [batch])) (fun _ => True) := by
  rw [Postings.postPreparedInOp_eq]
  have hexists : ∀ session, KnownGraph graph session.committed.toLedgerDirectory
      ∧ HasUpdated posted session → ∃ updates, UpdatesOf posted updates
        ∧ KnownGraph graph session.committed.toLedgerDirectory
        ∧ Updating posted updates session := by
    rintro session ⟨hgraph, updates, hof, h⟩
    exact ⟨updates, hof, hgraph, h⟩
  refine Server.Triple.weaken (Server.Triple.of_exists (fun updates =>
    Server.Triple.of_fact (fun hof => ?_))) hexists (fun _ _ h => h) (fun _ h => h)
  refine (triple_settlePreparedInOp_updating display now hprepared).bind (fun found => ?_)
  refine (triple_finishPreparedInOp now prepared found).weaken (fun _ h => h) ?_ (fun _ h => h)
  rintro batch session ⟨-, more, hmade, h⟩
  exact ⟨updates ++ more, hof.concat found.2.keepsEffective hmade, h⟩

end Flow

/-! ## Runs -/

/-- The effective table is what the updates of the committed batches leave. -/
structure HoldsUpdates (db : LedgerDb) (log : List PostedBatch) : Prop where
  runs : balanceWriter.RunsLog db log
  knows : KnowsBatches db.toLedgerDirectory log
  updates : ∃ updates, UpdatesOf log updates
    ∧ ∀ key, db.effectiveBalances key = updatesOn updates key []

/-- Updates leave a balance alone that none of them hits. -/
theorem updatesOn_of_not_hits {updates : List BatchUpdate} {key : BalanceKey}
    (h : ∀ update ∈ updates, ¬ update.Hits key) (rows : List EffectiveBalanceSnapshot) :
    updatesOn updates key rows = rows := by
  induction updates using List.reverseRecOn with
  | nil => rfl
  | append_singleton updates update ih =>
      rw [updatesOn_concat, ih (fun own hown => h own (List.mem_append_left _ hown)),
        BatchUpdate.on_of_not_hits (h update (List.mem_append_right _ List.mem_cons_self))]

/-- **A commit** changes an effective balance with its settled history only. -/
theorem HasUpdated.commits {db db' : LedgerDb} {log posted : List PostedBatch}
    {written : List PostingStatement} {locks : List AdvisoryLock} (hlog : HoldsUpdates db log)
    (h : HasUpdated posted ⟨db, written, locks⟩)
    (hview : PostingSession.view ⟨db, written, locks⟩ = some db') :
    HoldsUpdates db' (log ++ posted) ∧ EffectiveRely db db' := by
  obtain ⟨updates, hof, hupdating⟩ := h
  obtain ⟨hruns, hgrows⟩ := (balanceWriter.discipline calls_balanceWriter).commits hlog.runs
    hupdating.spelled hview
  have hdirectory : db'.toLedgerDirectory = db.toLedgerDirectory :=
    (PostingSession.kept_of_view hview).1
  have hself : EffectiveRely db db := EffectiveRely.refl hupdating.spelled.sound hlog.knows.backed
  have hrows := hupdating.foretold.rows db hself db' hview
  refine ⟨⟨hruns, ?_, ?_⟩, hgrows, ?_, ?_⟩
  · rw [hdirectory]
    exact hlog.knows.append hupdating.knows
  · obtain ⟨earlier, hearlier, htable⟩ := hlog.updates
    refine ⟨earlier ++ updates, hearlier.append hof, fun key => ?_⟩
    rw [hrows key, htable key, updatesOn, updatesOn, updatesOn, List.foldl_append]
  · rw [KeepsModes, hdirectory]
    exact LedgerDirectory.KeepsModes.refl hlog.knows.backed
  · -- where a row was written, the history has grown
    intro key hsame
    rw [hrows key]
    refine updatesOn_of_not_hits (fun update hupdate hhits => ?_) _
    refine hupdating.foretold.settled update hupdate key hhits ?_
    have hhistory := (TableWriter.history_view balanceWriter hview key).1
    exact List.append_right_eq_self.mp (hhistory.symm.trans hsame)

/-- An operation begins without batches and updates. -/
theorem HoldsUpdates.begun {db : LedgerDb} {log : List PostedBatch} (h : HoldsUpdates db log) :
    Updating [] [] ⟨db, [], []⟩ := by
  refine ⟨(balanceWriter.discipline calls_balanceWriter).begun h.runs,
    ⟨h.knows.backed, fun _ hmem => (List.not_mem_nil hmem).elim⟩,
    fun _ hmem => (List.not_mem_nil hmem).elim, ?_⟩
  rintro committed - _ ⟨⟩ key
  rfl

/-- The argument, put together. -/
def effectiveDiscipline : Discipline where
  rely := EffectiveRely
  global := HoldsUpdates
  session := HasUpdated
  fresh := fun directory templates accountControls hbacked =>
    ⟨(balanceWriter.discipline calls_balanceWriter).fresh directory templates accountControls
        hbacked,
      targetsDiscipline.fresh directory templates accountControls hbacked, [], .nil, fun _ => rfl⟩
  administered := fun directory templates accountControls hkeeps h => by
    obtain ⟨hruns, hgrows⟩ := (balanceWriter.discipline calls_balanceWriter).administered directory
      templates accountControls hkeeps h.runs
    exact ⟨⟨hruns, lasting_knowsBatches _ hkeeps h.knows, h.updates⟩, hgrows, hkeeps, fun _ _ => rfl⟩
  begun := fun h => ⟨[], .nil, h.begun⟩
  stable := fun _ => stable_hasUpdated
  reads := fun hcommitted hwritten h => h.reads hcommitted hwritten
  calls := fun posted templates graph display ids batch => by
    have hstable : (PostingSession.server EffectiveRely).Stable (fun session =>
        KnownGraph graph session.committed.toLedgerDirectory ∧ HasUpdated posted session) :=
      fun _ _ hothers h => ⟨lasting_knownGraph hothers.2.2.modes h.1, stable_hasUpdated hothers h.2⟩
    refine Server.Triple.weaken (Postings.triple_postBatchInOp_of hstable ?_ templates batch ?_
      (fun now prepared hprepared => triple_postPreparedInOp_updates display now hprepared))
      ?_ (fun _ _ h => h) (fun _ h => h)
    · rintro session session' hcommitted hwritten ⟨hgraph, h⟩
      rw [← hcommitted] at hgraph
      exact ⟨hgraph, h.reads hcommitted hwritten⟩
    · rintro session ⟨-, updates, hof, h⟩
      exact ⟨updates, hof.nothing, h.nothing⟩
    · rintro session ⟨hgraph, updates, hof, h⟩
      exact ⟨hgraph.knownGraph h.knows.backed, updates, hof, h⟩
  commits := fun hlog h hview => h.commits hlog hview

theorem holdsUpdates_of_reached {system : LedgerSystem} (h : LedgerSystem.Reached system) :
    HoldsUpdates system.committed system.log :=
  (effectiveDiscipline.holds h).committed

/-! ## Replay -/

section Replay

variable {accounts : AccountTable} {update : BatchUpdate} {updates : List BatchUpdate}

/-- The update, as a call on its own. -/
def BatchUpdate.call (accounts : AccountTable) (update : BatchUpdate) : EffectiveCall :=
  groupCall accounts update.batch.mappings update.batch.now update.group

/-- **An update is the call made on its own**, whatever the order in which it was returned its
rows. -/
theorem BatchUpdate.run_call {directory : LedgerDirectory} (hbatch : update.OfBatch)
    (hknows : update.batch.KnowsTargets directory) (order : ScanOrder) {table : EffectiveTable}
    {timelines : BalanceKey → List DatedEntry} (htable : TableReplays table timelines)
    (hids : ∀ key, Identified ((timelines key).map Prod.snd
      ++ (update.call directory.accounts).pushed key)) :
    (update.call directory.accounts).run order table
      = some (fun key => update.on key (table key)) := by
  have hupdated : updatedRows false order directory.accounts table update.group.1.1 update.targets
      update.group.2 update.group.1.2 update.batch.now = fun key => update.on key (table key) := by
    have hsame : updatedRows false order directory.accounts table update.group.1.1 update.targets
          update.group.2 update.group.1.2 update.batch.now
        = updatedRows false update.order directory.accounts table update.group.1.1 update.targets
          update.group.2 update.group.1.2 update.batch.now :=
      updatedRows_congr htable (fun _ _ => rfl)
    funext key
    rw [hsame, updatedRows_eq_updatedOn]
    refine updatedOn_congr (fun hhits => ?_) _
    rw [decide_eq_true_eq]
    exact (BatchUpdate.involves_iff hbatch hknows (key.accountId, key.currency) hhits).symm
  rw [EffectiveCall.run_eq order htable _ hids, ← hupdated]
  rfl

/-- What an update pushes are entries of its batch. -/
theorem BatchUpdate.mem_of_pushed (hbatch : update.OfBatch) {key : BalanceKey} {entry : EntryValues}
    (h : entry ∈ (update.call accounts).pushed key) :
    entry ∈ update.batch.postings.flatMap Prod.snd := by
  obtain ⟨posting, hposting, -, hentry⟩ := hbatch entry (EffectiveCall.mem_entries_of_pushed _ h)
  exact List.mem_flatMap.mpr ⟨posting, hposting, hentry⟩

/-- **Updates of an empty table** are the calls, one after the other. -/
theorem runEffectiveCalls_updates {directory : LedgerDirectory} {entries : List EntryValues}
    (hids : Identified entries) (order : ScanOrder)
    (h : ∀ update ∈ updates, update.OfBatch ∧ update.batch.KnowsTargets directory
      ∧ update.batch.postings.flatMap Prod.snd ⊆ entries) :
    runEffectiveCalls order (updates.map (BatchUpdate.call directory.accounts)) (fun _ => [])
        = some (fun key => updatesOn updates key [])
      ∧ TableReplays (fun key => updatesOn updates key []) (fun key => Foundations.sortBy Prod.fst
          ((updates.map (BatchUpdate.call directory.accounts)).flatMap
            (fun call => call.dated key))) := by
  induction updates using List.reverseRecOn with
  | nil => exact ⟨rfl, fun _ => List.Pairwise.nil, fun _ => rfl, fun _ _ _ _ => rfl⟩
  | append_singleton updates update ih =>
      obtain ⟨hrun, htable⟩ := ih (fun own hown => h own (List.mem_append_left _ hown))
      obtain ⟨hbatch, hknows, hentries⟩ := h update (List.mem_append_right _ List.mem_cons_self)
      have hpushed : ∀ key, Identified ((Foundations.sortBy Prod.fst
            ((updates.map (BatchUpdate.call directory.accounts)).flatMap
              (fun call => call.dated key))).map Prod.snd
          ++ (update.call directory.accounts).pushed key) := by
        intro key
        refine hids.subset (fun entry hentry => ?_)
        rcases List.mem_append.mp hentry with hold | hnew
        · -- an entry of an earlier call
          obtain ⟨dated, hdated, rfl⟩ := List.mem_map.mp hold
          rw [Foundations.mem_sortBy, List.flatMap_map] at hdated
          obtain ⟨own, hown, hdated⟩ := List.mem_flatMap.mp hdated
          obtain ⟨entry, hpushed, rfl⟩ := List.mem_map.mp hdated
          obtain ⟨hofOwn, -, hentries⟩ := h own (List.mem_append_left _ hown)
          exact hentries (BatchUpdate.mem_of_pushed hofOwn ((Foundations.mem_sortBy _).mp hpushed))
        · exact hentries (BatchUpdate.mem_of_pushed hbatch hnew)
      have hlast := BatchUpdate.run_call hbatch hknows order htable hpushed
      obtain ⟨table, hcall, hreplays⟩ := (update.call directory.accounts).run_replays order htable
        hpushed
      obtain rfl : table = fun key => update.on key (updatesOn updates key []) :=
        Option.some.inj (hcall.symm.trans hlast)
      simp only [updatesOn_concat]
      constructor
      · rw [runEffectiveCalls, List.map_append, List.foldlM_append, ← runEffectiveCalls, hrun]
        simpa using hlast
      · simpa [Foundations.sortBy_append_sortBy] using hreplays

/-- The calls of some batches, each with the journals it has found to keep effective balances. -/
inductive EffectiveCallsOf (accounts : AccountTable) : List PostedBatch → List EffectiveCall → Prop
  | nil : EffectiveCallsOf accounts [] []
  | concat {batches : List PostedBatch} {calls : List EffectiveCall} (batch : PostedBatch)
      (enabled : JournalId → Bool) (earlier : EffectiveCallsOf accounts batches calls) :
      EffectiveCallsOf accounts (batches ++ [batch])
        (calls ++ (enabledGroups enabled batch.postings).map
          (groupCall accounts batch.mappings batch.now))

theorem MadeFor.calls {enabled : JournalId → Bool} {batch : PostedBatch}
    (h : MadeFor enabled batch updates) :
    updates.map (BatchUpdate.call accounts) = (enabledGroups enabled batch.postings).map
      (groupCall accounts batch.mappings batch.now) := by
  rw [← h.groups, List.map_map]
  refine List.map_congr_left (fun update hupdate => ?_)
  rw [BatchUpdate.call, h.own update hupdate]
  rfl

theorem UpdatesOf.calls {batches : List PostedBatch} (h : UpdatesOf batches updates) :
    EffectiveCallsOf accounts batches (updates.map (BatchUpdate.call accounts)) := by
  induction h with
  | nil => exact .nil
  | @concat batches updates more batch enabled _ last ih =>
      rw [List.map_append, last.calls]
      exact ih.concat batch enabled

/-- The updates of committed batches are of known targets, and of committed entries. -/
theorem UpdatesOf.committed {batches : List PostedBatch} (h : UpdatesOf batches updates)
    {db : LedgerDb} (hknows : KnowsBatches db.toLedgerDirectory batches)
    (hposted : HoldsPostings db batches) :
    ∀ update ∈ updates, update.OfBatch ∧ update.batch.KnowsTargets db.toLedgerDirectory
      ∧ update.batch.postings.flatMap Prod.snd ⊆ db.entries := by
  intro update hupdate
  obtain ⟨hbatch, hown⟩ := h.ofBatch update hupdate
  refine ⟨hown, hknows.targets update.batch hbatch, fun entry hentry => ?_⟩
  rw [hposted.entries, postingsOf, List.flatMap_assoc]
  exact List.mem_flatMap.mpr ⟨update.batch, hbatch, hentry⟩

end Replay

/-- The committed entries have ids of their own. -/
theorem identified_of_reached {system : LedgerSystem} (h : LedgerSystem.Reached system) :
    Identified system.committed.entries := by
  have hposted := holdsPostings_of_reached h
  have hunique : (system.committed.entries.map EntryValues.id).Nodup := by
    simpa using hposted.fresh.entries
  refine ⟨fun entry hentry => ?_, fun entry hentry entry' hentry' hid =>
    List.inj_on_of_nodup_map hunique hentry hentry' hid⟩
  rw [hposted.entries, postingsOf, List.flatMap_assoc] at hentry
  obtain ⟨batch, hbatch, hentry⟩ := List.mem_flatMap.mp hentry
  obtain ⟨ids, prepared, hprepared, hpostings⟩ := (holdsEvents_of_reached h).stamped batch hbatch
  rw [hpostings, flatMap_hydrate] at hentry
  exact hprepared.assigned hentry

end CalaLedger
