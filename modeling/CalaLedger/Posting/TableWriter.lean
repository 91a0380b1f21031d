import CalaLedger.Foundations.OptimisticTable
import CalaLedger.Posting.Interleaving

/-! # Versioned tables under interleaved operations

A `TableWriter` is a versioned table of the ledger, how the statements of the flow write it, and the
events a posted batch has for each of its keys. A call reads the newest versions of its keys
(`Seen.read`), computes the versions that follow (`Seen.spell`) and writes them (`Spelled.write`).

Where the calls of the flow do that, the history of every key is, in every run, the run of the
events of all committed batches (`TableWriter.runsLog_of_reached`). -/

namespace CalaLedger

open Foundations (Dialogue Server VersionedTable rowsOf rowsOf_append)
open Postings (PostedBatch)

structure TableWriter (κ σ ε : Type) [DecidableEq κ] where
  version : σ → ℕ
  next : κ → Option σ → ε → σ
  ok : κ → ε → σ → Prop
  events : PostedBatch → κ → List ε
  table : LedgerDb → VersionedTable κ σ
  rows : PostingStatement → List (κ × σ)
  insert : VersionedTable κ σ → List (κ × σ) → Option (VersionedTable κ σ)
  counts : VersionedTable.CountsEvents version next
  inserts : VersionedTable.Inserts version insert
  applies : ∀ {db db' : LedgerDb} {statement : PostingStatement}, statement.apply db = some db' →
    insert (table db) (rows statement) = some (table db')
  reads : ∀ {statement : PostingStatement}, ¬ statement.writes → rows statement = []
  fresh : ∀ directory templates accountControls,
    table (LedgerDb.fresh directory templates accountControls) = ⟨fun _ => [], fun _ => none⟩
  administered : ∀ (db : LedgerDb) (directory : LedgerDirectory)
    (templates : String → Option TxTemplateValues) (accountControls : ControlTable),
    table { db with
      toLedgerDirectory := directory
      templates := templates
      accountControls := accountControls } = table db

namespace TableWriter

variable {κ σ ε : Type} [DecidableEq κ] (writer : TableWriter κ σ ε)

/-- The events some batches have for a key. -/
def eventsOf (batches : List PostedBatch) (k : κ) : List ε :=
  batches.flatMap (fun batch => writer.events batch k)

/-- What has been written to the table. -/
def writtenRows (session : PostingSession) : List (κ × σ) :=
  session.written.flatMap writer.rows

/-- The table mirrors its histories, and every version is one some event may leave. -/
structure Sound (db : LedgerDb) : Prop where
  mirrors : VersionedTable.Mirrors writer.version (writer.table db)
  ok : ∀ k, ∀ s ∈ (writer.table db).history k, ∃ e, writer.ok k e s

/-- Commits only add versions. -/
structure Grows (db db' : LedgerDb) : Prop where
  sound : writer.Sound db'
  history : ∀ k, (writer.table db).history k <+: (writer.table db').history k

abbrev server : Server PostingStatement PostingStatement.Answer PostingSession :=
  PostingSession.server writer.Grows

/-- The rows an operation has written, with those it has computed and not yet written, spell out the
events of its batches. -/
structure Spelled (remaining : List (κ × σ)) (posted : List PostedBatch) (session : PostingSession) :
    Prop where
  sound : writer.Sound session.committed
  spells : ∀ k, VersionedTable.Spells (writer.next k) (writer.ok k)
    ((writer.table session.committed).history k)
    (rowsOf (writer.writtenRows session ++ remaining) k) (writer.eventsOf posted k)

/-- Beside that, the call has seen the newest version of some keys. -/
structure Seen (keys : κ → Prop) (base : κ → Option σ) (posted : List PostedBatch)
    (session : PostingSession) : Prop where
  spelled : writer.Spelled [] posted session
  ok : ∀ k, keys k → ∀ s ∈ base k, ∃ e, writer.ok k e s
  saw : ∀ k, keys k → VersionedTable.Saw (writer.next k) (writer.ok k)
    ((writer.table session.committed).history k) (rowsOf (writer.writtenRows session) k)
    (writer.eventsOf posted k) (base k)

/-- Nothing seen yet. -/
abbrev Unseen (posted : List PostedBatch) : PostingSession → Prop :=
  writer.Seen (fun _ => False) (fun _ => none) posted

variable {writer} {posted : List PostedBatch} {session : PostingSession} {db : LedgerDb}
  {remaining : List (κ × σ)} {keys : κ → Prop} {base : κ → Option σ}

theorem Grows.refl (h : writer.Sound db) : writer.Grows db db :=
  ⟨h, fun _ => List.prefix_rfl⟩

theorem Grows.trans {db' db'' : LedgerDb} (h : writer.Grows db db') (h' : writer.Grows db' db'') :
    writer.Grows db db'' :=
  ⟨h'.sound, fun k => (h.history k).trans (h'.history k)⟩

theorem Spelled.unseen (h : writer.Spelled [] posted session) : writer.Unseen posted session :=
  ⟨h, fun _ => False.elim, fun _ => False.elim⟩

/-! ## What the operation sees -/

/-- The statements that have been written insert their rows. -/
theorem foldlM_insert (written : List PostingStatement) :
    ∀ {db db' : LedgerDb}, written.foldlM (fun db statement => statement.apply db) db = some db' →
      (written.map writer.rows).foldlM writer.insert (writer.table db)
        = some (writer.table db') := by
  induction written with
  | nil =>
      rintro db _ ⟨⟩
      rfl
  | cons statement written ih =>
      intro db db' hrun
      rw [List.foldlM_cons] at hrun
      obtain ⟨next, hnext, hrest⟩ := Option.bind_eq_some_iff.mp hrun
      rw [List.map_cons, List.foldlM_cons, writer.applies hnext]
      exact ih hrest

variable (writer) in
theorem history_view (hview : session.view = some db) (k : κ) :
    (writer.table db).history k
        = (writer.table session.committed).history k ++ rowsOf (writer.writtenRows session) k
      ∧ VersionedTable.Apart writer.version ((writer.table session.committed).history k)
          (rowsOf (writer.writtenRows session) k) := by
  rw [writtenRows, List.flatMap_def]
  exact writer.inserts.foldlM_appends _ (foldlM_insert session.written hview) k

/-- Every row of a list that some events may leave. -/
theorem exists_of_mem_forall₂ {ok : ε → σ → Prop} {events : List ε} {rows : List σ}
    (h : List.Forall₂ ok events rows) {s : σ} (hs : s ∈ rows) : ∃ e, ok e s := by
  induction h with
  | nil => exact (List.not_mem_nil hs).elim
  | cons hone _ ih =>
      rcases List.mem_cons.mp hs with rfl | hs
      · exact ⟨_, hone⟩
      · exact ih hs

theorem Spelled.spells_written (h : writer.Spelled [] posted session) (k : κ) :
    VersionedTable.Spells (writer.next k) (writer.ok k)
      ((writer.table session.committed).history k) (rowsOf (writer.writtenRows session) k)
      (writer.eventsOf posted k) := by
  have hspells := h.spells k
  rwa [List.append_nil] at hspells

/-- **What an operation sees is sound.** -/
theorem Spelled.sound_view (h : writer.Spelled [] posted session)
    (hview : session.view = some db) : writer.Sound db := by
  constructor
  · refine writer.inserts.foldlM_mirrors _ (foldlM_insert session.written hview) h.sound.mirrors ?_
    intro k
    rw [← List.flatMap_def]
    exact (h.spells_written k).counts writer.counts (h.sound.mirrors.counts k)
      (history_view writer hview k).2
  · intro k s hs
    rw [(history_view writer hview k).1, List.mem_append] at hs
    rcases hs with hold | hnew
    · exact h.sound.ok k s hold
    · obtain ⟨-, -, -, hok⟩ := h.spells_written k
      exact exists_of_mem_forall₂ hok hnew

/-- What the operation finds in the current row of a key is a version to go on from. -/
theorem Spelled.saw (h : writer.Spelled [] posted session) (hview : session.view = some db) (k : κ) :
    VersionedTable.Saw (writer.next k) (writer.ok k)
      ((writer.table session.committed).history k) (rowsOf (writer.writtenRows session) k)
      (writer.eventsOf posted k) (((writer.table db).current k).map Prod.snd) := by
  obtain ⟨hhistory, hapart⟩ := history_view writer hview k
  have hsaw := (h.spells_written k).saw writer.counts (h.sound.mirrors.counts k) hapart
  rwa [← hhistory, ← (h.sound_view hview).mirrors.value_eq] at hsaw

/-- **The commit of an operation** adds the run of its batches. -/
theorem Spelled.commit (h : writer.Spelled [] posted session) (hview : session.view = some db)
    {log : List PostedBatch} (k : κ)
    (hlog : (writer.table session.committed).history k
      = VersionedTable.run (writer.next k) none (writer.eventsOf log k))
    (hok : List.Forall₂ (writer.ok k) (writer.eventsOf log k)
      ((writer.table session.committed).history k)) :
    (writer.table db).history k
        = VersionedTable.run (writer.next k) none (writer.eventsOf (log ++ posted) k)
      ∧ List.Forall₂ (writer.ok k) (writer.eventsOf (log ++ posted) k)
          ((writer.table db).history k) := by
  obtain ⟨hhistory, hapart⟩ := history_view writer hview k
  have hevents : writer.eventsOf (log ++ posted) k
      = writer.eventsOf log k ++ writer.eventsOf posted k := List.flatMap_append
  rw [hhistory, hevents]
  exact (h.spells_written k).commit writer.counts (h.sound.mirrors.counts k) hapart hlog hok

/-! ## What other operations and statements keep -/

theorem stable_spelled : writer.server.Stable (writer.Spelled remaining posted) := by
  rintro session session' ⟨hwritten, -, hgrows⟩ h
  refine ⟨hgrows.sound, fun k => ?_⟩
  rw [writtenRows, hwritten]
  exact (h.spells k).grow (hgrows.history k)

theorem stable_seen : writer.server.Stable (writer.Seen keys base posted) := by
  rintro session session' ⟨hwritten, hlocks, hgrows⟩ h
  refine ⟨stable_spelled ⟨hwritten, hlocks, hgrows⟩ h.spelled, h.ok, fun k hk => ?_⟩
  rw [writtenRows, hwritten]
  exact (h.saw k hk).grow (hgrows.history k)

/-- What an operation has written for a key, it has written for some event. -/
theorem Spelled.rows_ne_nil (h : writer.Spelled [] posted session) {batch : PostedBatch}
    (hbatch : batch ∈ posted) {k : κ} (hevents : writer.events batch k ≠ []) :
    rowsOf (writer.writtenRows session) k ≠ [] := by
  obtain ⟨earlier, -, -, hok⟩ := h.spells_written k
  intro hnone
  rw [hnone] at hok
  have hnil : writer.eventsOf posted k = [] := List.forall₂_nil_right_iff.mp hok
  exact hevents (List.flatMap_eq_nil_iff.mp hnil batch hbatch)

/-- **While the rows of an operation can be inserted, nothing was committed to their keys.** -/
theorem Spelled.history_eq (h : writer.Spelled [] posted session) (hview : session.view = some db)
    {committed : LedgerDb} (hgrows : writer.Grows session.committed committed) {db' : LedgerDb}
    (hview' : PostingSession.view ⟨committed, session.written, session.locks⟩ = some db') {k : κ}
    (hrows : rowsOf (writer.writtenRows session) k ≠ []) :
    (writer.table committed).history k = (writer.table session.committed).history k := by
  have hothers : writer.server.others session ⟨committed, session.written, session.locks⟩ :=
    ⟨rfl, rfl, hgrows⟩
  have hlater : writer.Spelled [] posted ⟨committed, session.written, session.locks⟩ :=
    stable_spelled hothers h
  have hcounts := (h.spells_written k).counts writer.counts (h.sound.mirrors.counts k)
    (history_view writer hview k).2
  have hcounts' := (hlater.spells_written k).counts writer.counts (hlater.sound.mirrors.counts k)
    (history_view writer hview' k).2
  have hsame : writer.writtenRows ⟨committed, session.written, session.locks⟩
      = writer.writtenRows session := rfl
  rw [hsame] at hcounts'
  -- the first row has the version that follows both
  obtain ⟨first, rest, hfirst⟩ := List.exists_cons_of_ne_nil hrows
  rw [hfirst] at hcounts hcounts'
  have hversion : writer.version first = ((writer.table session.committed).history k).length + 1 :=
    (List.cons.inj hcounts).1
  have hversion' : writer.version first = ((writer.table committed).history k).length + 1 :=
    (List.cons.inj hcounts').1
  refine ((hgrows.history k).eq_of_length ?_).symm
  omega

theorem writtenRows_execute (session : PostingSession) (db : LedgerDb)
    (statement : PostingStatement) :
    writer.writtenRows (session.execute db statement)
      = writer.writtenRows session ++ writer.rows statement := by
  by_cases hwrites : statement.writes
  · show List.flatMap _ (if statement.writes then _ else _) = _
    rw [if_pos hwrites, List.flatMap_append, List.flatMap_singleton]
    rfl
  · show List.flatMap _ (if statement.writes then _ else _) = _
    rw [if_neg hwrites, writer.reads hwrites, List.append_nil]
    rfl

/-- **A statement that writes** what has been computed. -/
theorem Spelled.write {statement : PostingStatement}
    (h : writer.Spelled (writer.rows statement ++ remaining) posted session) :
    writer.Spelled remaining posted (session.execute db statement) := by
  refine ⟨h.sound, fun k => ?_⟩
  rw [writtenRows_execute, List.append_assoc]
  exact h.spells k

/-- Whether a statement writes to the table. -/
def Touches (writer : TableWriter κ σ ε) (statement : PostingStatement) : Prop :=
  writer.rows statement ≠ []

theorem not_touches {statement : PostingStatement} (h : ¬ statement.writes) :
    ¬ writer.Touches statement :=
  fun htouches => htouches (writer.reads h)

theorem Spelled.untouched {statement : PostingStatement} (hrows : ¬ writer.Touches statement)
    (h : writer.Spelled remaining posted session) :
    writer.Spelled remaining posted (session.execute db statement) := by
  refine Spelled.write ?_
  rwa [not_not.mp hrows, List.nil_append]

theorem Seen.untouched {statement : PostingStatement} (hrows : ¬ writer.Touches statement)
    (h : writer.Seen keys base posted session) :
    writer.Seen keys base posted (session.execute db statement) := by
  refine ⟨h.spelled.untouched hrows, h.ok, fun k hk => ?_⟩
  rw [writtenRows_execute, not_not.mp hrows, List.append_nil]
  exact h.saw k hk

/-! ## What a call does -/

/-- **A read**: every key now seen was seen before, or is read in what the operation sees. -/
theorem Seen.read {keys' : κ → Prop} {base' : κ → Option σ} (h : writer.Seen keys base posted session)
    (hview : session.view = some db)
    (hbase : ∀ k, keys' k → keys k ∧ base' k = base k
      ∨ base' k = ((writer.table db).current k).map Prod.snd) :
    writer.Seen keys' base' posted session := by
  refine ⟨h.spelled, fun k hk => ?_, fun k hk => ?_⟩
  · rcases hbase k hk with ⟨hseen, hsame⟩ | hread
    · rw [hsame]
      exact h.ok k hseen
    · -- the newest version is one of the history
      have hsound := h.spelled.sound_view hview
      rw [hread, hsound.mirrors.value_eq]
      exact fun s hs => hsound.ok k s (List.mem_of_getLast? hs)
  · rcases hbase k hk with ⟨hseen, hsame⟩ | hread
    · rw [hsame]
      exact h.saw k hseen
    · rw [hread]
      exact h.spelled.saw hview k

/-- **The computation**: rows that run the events of a batch over the versions seen. -/
theorem Seen.spell {batch : PostedBatch} (h : writer.Seen keys base posted session)
    (hkeys : ∀ k, writer.events batch k ≠ [] → keys k)
    (hrows : ∀ k, rowsOf remaining k
      = VersionedTable.run (writer.next k) (base k) (writer.events batch k))
    (hok : ∀ k, List.Forall₂ (writer.ok k) (writer.events batch k)
      (VersionedTable.run (writer.next k) (base k) (writer.events batch k))) :
    writer.Spelled remaining (posted ++ [batch]) session := by
  refine ⟨h.spelled.sound, fun k => ?_⟩
  have hevents : writer.eventsOf (posted ++ [batch]) k
      = writer.eventsOf posted k ++ writer.events batch k := by
    rw [eventsOf, List.flatMap_append, List.flatMap_singleton]
    rfl
  rw [rowsOf_append, hrows, hevents]
  by_cases hnone : writer.events batch k = []
  · rw [hnone, VersionedTable.run_nil, List.append_nil, List.append_nil]
    exact h.spelled.spells_written k
  · exact h.saw k (hkeys k hnone) _ (hok k)

/-- A batch without events. -/
theorem Seen.spell_nothing {batch : PostedBatch} (h : writer.Seen keys base posted session)
    (hnone : ∀ k, writer.events batch k = []) : writer.Spelled [] (posted ++ [batch]) session := by
  refine h.spell (fun k hsome => (hsome (hnone k)).elim) (fun k => ?_) (fun k => ?_)
  all_goals rw [hnone]
  · rfl
  · exact List.Forall₂.nil

/-! ## Rules -/

section Rules

variable {α : Type}

/-- Parts of the flow that do not touch the table. -/
theorem triple_seen {d : PostingFlow α} (hd : d.ReadOnly writer.Touches) :
    writer.server.Triple (writer.Seen keys base posted) d (fun _ => writer.Seen keys base posted)
      (fun _ => True) := by
  refine Server.Triple.of_readOnly stable_seen ?_ (fun _ _ => trivial) hd
  rintro session statement answer _ hrows ⟨_, _, _, -, -, -, rfl⟩ h
  exact h.untouched hrows

theorem triple_spelled {d : PostingFlow α} (hd : d.ReadOnly writer.Touches) :
    writer.server.Triple (writer.Spelled remaining posted) d
      (fun _ => writer.Spelled remaining posted) (fun _ => True) := by
  refine Server.Triple.of_readOnly stable_spelled ?_ (fun _ _ => trivial) hd
  rintro session statement answer _ hrows ⟨_, _, _, -, -, -, rfl⟩ h
  exact h.untouched hrows

variable (writer) in
/-- A statement that writes what has been computed. -/
theorem triple_write (statement : PostingStatement) :
    writer.server.Triple (writer.Spelled (writer.rows statement ++ remaining) posted)
      (Postings.issue statement) (fun _ => writer.Spelled remaining posted) (fun _ => True) := by
  refine Server.Triple.ask stable_spelled (fun _ => stable_spelled) (fun _ _ => trivial) ?_
  rintro session answer _ ⟨_, _, _, -, -, -, rfl⟩ h
  exact h.write

/-- A read-only part of the flow. -/
theorem readOnly_touches {d : PostingFlow α} (hd : d.ReadOnly Postings.Writing) :
    d.ReadOnly writer.Touches :=
  hd.mono (fun _ htouches => by
    by_contra hreads
    exact not_touches hreads htouches)

end Rules

/-! ## Runs -/

variable (writer) in
/-- What an argument about the flow has to show. -/
def Calls : Prop :=
  ∀ posted templates graph display ids batch,
    writer.server.Triple (writer.Unseen posted)
      (Postings.postBatchInOp templates graph display ids batch)
      (fun batch => writer.Spelled [] (posted ++ [batch])) (fun _ => True)

/-- What is prepared from any templates is well prepared. -/
theorem wellPrepared_of_prepareAll {ids : EntryIds} {batch : List PostingInput}
    {codes : List String} {used : HashMap String ResolvedTemplate}
    {prepared : List PreparedTransaction}
    (h : Postings.prepareAll ids batch codes used = .ok prepared) : WellPrepared ids prepared := by
  let templates : String → Option TxTemplateValues :=
    fun code => (TemplateSessions.bodies codes used).lookup code
  have hbodies : ∀ input ∈ batch, (TemplateSessions.bodies codes used).lookup input.txTemplateCode
      = templates input.txTemplateCode := fun _ _ => rfl
  exact wellPrepared_of_mapM ((prepareAllFrom_eq_ok batch hbodies).mp h).1

theorem triple_prepareAll (ids : EntryIds) (batch : List PostingInput) (codes : List String)
    (used : HashMap String ResolvedTemplate) :
    writer.server.Triple (writer.Unseen posted) (.done (Postings.prepareAll ids batch codes used))
      (fun prepared session => WellPrepared ids prepared ∧ writer.Unseen posted session)
      (fun _ => True) :=
  Server.Triple.done stable_seen
    (fun _ h _ hsession => ⟨wellPrepared_of_prepareAll h, hsession⟩) (fun _ _ => trivial)

/-- The fence, and preparing again. -/
theorem triple_lockInOp (ids : EntryIds) (batch : List PostingInput) (codes : List String)
    (used : HashMap String ResolvedTemplate) {prepared : List PreparedTransaction}
    (hprepared : WellPrepared ids prepared) :
    writer.server.Triple (writer.Unseen posted) (Postings.lockInOp ids batch codes used prepared)
      (fun locked session => WellPrepared ids locked.2 ∧ writer.Unseen posted session)
      (fun _ => True) := by
  unfold Postings.lockInOp
  refine (triple_seen (readOnly_touches (Postings.readOnly_issue rfl))).bind (fun locked => ?_)
  dsimp only
  split
  · exact Server.Triple.ok stable_seen _ (fun _ h => ⟨hprepared, h⟩)
  · refine (triple_seen (readOnly_touches (Postings.readOnly_fetchAndInstall _))).bind
      (fun refreshed => ?_)
    refine (triple_prepareAll ids batch codes _).bind
      (fun prepared => Server.Triple.of_fact (fun hagain => ?_))
    refine (triple_seen (readOnly_touches (Postings.readOnly_issue rfl))).bind (fun _ => ?_)
    exact Server.Triple.ok stable_seen _ (fun _ h => ⟨hagain, h⟩)

/-- **It is enough to argue from the read on**: what comes before reads no balance. -/
theorem calls_of_postPreparedInOp
    (hnothing : ∀ k, writer.events ⟨0, [], fun _ => none, fun _ => none, fun _ _ => []⟩ k = [])
    (h : ∀ posted graph display ids now prepared, WellPrepared ids prepared →
      writer.server.Triple (writer.Unseen posted)
        (Postings.postPreparedInOp graph display now prepared)
        (fun batch => writer.Spelled [] (posted ++ [batch])) (fun _ => True)) :
    writer.Calls := by
  intro posted templates graph display ids batch
  unfold Postings.postBatchInOp
  split
  · exact Server.Triple.ok stable_seen _ (fun _ hsession => hsession.spell_nothing hnothing)
  · refine (triple_seen (readOnly_touches (Postings.readOnly_resolveInOp _ _))).bind
      (fun used => ?_)
    refine (triple_prepareAll ids batch _ used).bind
      (fun prepared => Server.Triple.of_fact (fun hprepared => ?_))
    split
    · exact Server.Triple.error stable_seen _ (fun _ _ => trivial)
    · refine (triple_lockInOp ids batch _ used hprepared).bind (fun locked => ?_)
      obtain ⟨now, prepared'⟩ := locked
      exact Server.Triple.of_fact (fun hlocked => h posted graph display ids now prepared' hlocked)

/-- The table holds the runs of all committed batches. -/
structure RunsLog (writer : TableWriter κ σ ε) (db : LedgerDb) (log : List PostedBatch) : Prop where
  mirrors : VersionedTable.Mirrors writer.version (writer.table db)
  history : ∀ k, (writer.table db).history k
    = VersionedTable.run (writer.next k) none (writer.eventsOf log k)
  ok : ∀ k, List.Forall₂ (writer.ok k) (writer.eventsOf log k) ((writer.table db).history k)

theorem RunsLog.sound {log : List PostedBatch} (h : writer.RunsLog db log) : writer.Sound db :=
  ⟨h.mirrors, fun k _ hs => exists_of_mem_forall₂ (h.ok k) hs⟩

variable (writer) in
/-- The events of some batches leave versions that are as they should be. -/
def Allows (log : List PostedBatch) : Prop :=
  ∀ k, List.Forall₂ (writer.ok k) (writer.eventsOf log k)
    (VersionedTable.run (writer.next k) none (writer.eventsOf log k))

theorem eventsOf_append (front back : List PostedBatch) (k : κ) :
    writer.eventsOf (front ++ back) k = writer.eventsOf front k ++ writer.eventsOf back k :=
  List.flatMap_append

theorem Allows.front {front back : List PostedBatch} (h : writer.Allows (front ++ back)) :
    writer.Allows front := by
  intro k
  have hall := h k
  rw [eventsOf_append] at hall
  exact (VersionedTable.forall₂_run_append.mp hall).1

theorem RunsLog.allows {log : List PostedBatch} (h : writer.RunsLog db log) : writer.Allows log := by
  intro k
  rw [← h.history k]
  exact h.ok k

/-- The last of the batches leaves versions that are as they should be. -/
theorem RunsLog.last {log : List PostedBatch} (h : writer.RunsLog db log) {batch : PostedBatch}
    (hallows : writer.Allows (log ++ [batch])) (k : κ) :
    List.Forall₂ (writer.ok k) (writer.events batch k)
      (VersionedTable.run (writer.next k) (((writer.table db).current k).map Prod.snd)
        (writer.events batch k)) := by
  have hall := hallows k
  rw [eventsOf_append] at hall
  have hlast := (VersionedTable.forall₂_run_append.mp hall).2
  rw [← h.history k, ← h.mirrors.value_eq] at hlast
  rwa [eventsOf, List.flatMap_singleton] at hlast

/-- **One more batch**, run over the table. -/
theorem RunsLog.concat {log : List PostedBatch} (h : writer.RunsLog db log) {batch : PostedBatch}
    (hallows : writer.Allows (log ++ [batch])) {db' : LedgerDb}
    (hmirrors : VersionedTable.Mirrors writer.version (writer.table db'))
    (hadds : ∀ k, (writer.table db').history k = (writer.table db).history k
      ++ VersionedTable.run (writer.next k) (((writer.table db).current k).map Prod.snd)
        (writer.events batch k)) :
    writer.RunsLog db' (log ++ [batch]) := by
  have hhistory : ∀ k, (writer.table db').history k
      = VersionedTable.run (writer.next k) none (writer.eventsOf (log ++ [batch]) k) := by
    intro k
    have hlast : writer.eventsOf [batch] k = writer.events batch k := List.flatMap_singleton _ _
    rw [hadds k, eventsOf_append, VersionedTable.run_continued, ← h.history k,
      h.mirrors.value_eq, hlast]
  refine ⟨hmirrors, hhistory, fun k => ?_⟩
  rw [hhistory k]
  exact hallows k

/-- The batches determine the table. -/
theorem RunsLog.table_eq {log : List PostedBatch} (h : writer.RunsLog db log) {db' : LedgerDb}
    (h' : writer.RunsLog db' log) : writer.table db = writer.table db' :=
  h.mirrors.eq_of_history h'.mirrors (fun k => (h.history k).trans (h'.history k).symm)

/-- The argument, put together. -/
def discipline (hcalls : writer.Calls) : Discipline where
  rely := writer.Grows
  global := writer.RunsLog
  session := writer.Spelled []
  fresh := fun directory templates accountControls _ => by
    have htable := writer.fresh directory templates accountControls
    refine ⟨?_, fun k => ?_, fun k => ?_⟩
    all_goals rw [htable]
    · exact ⟨fun _ => rfl, fun _ => rfl⟩
    · rfl
    · exact List.Forall₂.nil
  administered := fun {db log} directory templates accountControls _ h => by
    have htable := writer.administered db directory templates accountControls
    refine ⟨⟨?_, fun k => ?_, fun k => ?_⟩, ⟨⟨?_, fun k => ?_⟩, fun k => ?_⟩⟩
    all_goals rw [htable]
    · exact h.mirrors
    · exact h.history k
    · exact h.ok k
    · exact h.mirrors
    · exact h.sound.ok k
  begun := fun h => ⟨h.sound, fun k => VersionedTable.Spells.nil _ _ _⟩
  stable := fun _ => stable_spelled
  reads := fun {posted current next} hcommitted hwritten h => by
    refine ⟨hcommitted ▸ h.sound, fun k => ?_⟩
    rw [writtenRows, hwritten, hcommitted]
    exact h.spells k
  calls := fun posted templates graph display ids batch =>
    (hcalls posted templates graph display ids batch).weaken (fun _ h => h.2.unseen)
      (fun _ _ h => h) (fun _ h => h)
  commits := fun {db db' log posted written locks} hlog hspelled hview => by
    have hcommit := fun k => hspelled.commit hview k (hlog.history k) (hlog.ok k)
    have hsound := hspelled.sound_view hview
    refine ⟨⟨hsound.mirrors, fun k => (hcommit k).1, fun k => (hcommit k).2⟩,
      ⟨hsound, fun k => ?_⟩⟩
    rw [(history_view writer hview k).1]
    exact List.prefix_append _ _

/-- **In every run, the history of every key is the run of the events of the committed batches.** -/
theorem runsLog_of_reached (hcalls : writer.Calls) {system : LedgerSystem}
    (h : LedgerSystem.Reached system) : writer.RunsLog system.committed system.log :=
  ((writer.discipline hcalls).holds h).committed

end TableWriter

end CalaLedger
