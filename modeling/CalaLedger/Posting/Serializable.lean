import CalaLedger.Posting.SerialRuns

/-! # Interleaved operations serialize

While an operation is open nobody administers the ledger, and the caches of the processes hold what
it has stored. Then, whatever operations interleave and whatever they lock, the committed rows are
those of a serial run: the committed batches, each posted by itself by the sequential flow, in the
order of the commits (`interleaved_runs_serialize`). -/

namespace CalaLedger

open Foundations (Dialogue Server)
open Postings (PostedBatch)

/-! ## Steady runs -/

/-- What a process has cached is stored. -/
structure LedgerDb.Caches (db : LedgerDb) (templates : HashMap String ResolvedTemplate)
    (graph : JournalId → GraphSnapshot) : Prop where
  known : db.Knows graph
  templates : CachesStored db templates
  current : ∀ journalId, (graph journalId).epoch = db.memberships.epoch →
    (graph journalId).Holds db.toLedgerDirectory

namespace LedgerSystem

/-- No operation begins a call. -/
def BeginsNoCall (system system' : LedgerSystem) : Prop :=
  ∀ id operation operation', system.operations id = some operation → operation.call = none →
    system'.operations id = some operation' → operation'.call = none

/-- A step that administers only while no operation is open, and calls with caches that hold what is
stored. -/
inductive SteadyStep : LedgerSystem → LedgerSystem → Prop
  | administer (system : LedgerSystem) (directory : LedgerDirectory)
      (templates : String → Option TxTemplateValues) (accountControls : ControlTable) :
      (∀ id, system.operations id = none) →
      system.committed.toLedgerDirectory.KeepsModes directory → directory.Linked →
      SteadyStep system { system with
        committed := { system.committed with
          toLedgerDirectory := directory
          templates := templates
          accountControls := accountControls } }
  | post {system : LedgerSystem} {id : ℕ} {operation : OpenPosting}
      (templates : HashMap String ResolvedTemplate) (graph : JournalId → GraphSnapshot)
      (display : JsonDisplay) (ids : EntryIds) (batch : List PostingInput) :
      system.operations id = some operation → operation.call = none →
      system.committed.Caches templates graph →
      SteadyStep system (system.setOperation id (some { operation with
        call := some (Postings.postBatchInOp templates graph display ids batch) }))
  | other {system system' : LedgerSystem} :
      Step system system' → SameAdministration system.committed system'.committed →
      BeginsNoCall system system' → SteadyStep system system'

/-- The states of a ledger that starts without postings, under steady steps. -/
inductive SteadyReached : LedgerSystem → Prop
  | start (directory : LedgerDirectory) (templates : String → Option TxTemplateValues)
      (accountControls : ControlTable) : directory.Linked →
      SteadyReached ⟨LedgerDb.fresh directory templates accountControls, fun _ => none, []⟩
  | step {system system' : LedgerSystem} :
      SteadyReached system → SteadyStep system system' → SteadyReached system'

theorem SteadyStep.step {system system' : LedgerSystem} (h : SteadyStep system system') :
    Step system system' := by
  cases h with
  | administer directory templates accountControls _ hkeeps _ =>
      exact .administer system directory templates accountControls hkeeps
  | post templates graph display ids batch hoperation hcall hcaches =>
      exact .post templates graph display ids batch hoperation hcall hcaches.known
  | other hstep _ _ => exact hstep

theorem beginsNoCall_setOperation {system : LedgerSystem} {id : ℕ} {moved : Option OpenPosting}
    (h : ∀ operation operation', system.operations id = some operation → operation.call = none →
      moved = some operation' → operation'.call = none) :
    BeginsNoCall system (system.setOperation id moved) := by
  intro other operation operation' hoperation hcall hmoved
  have hmoved : Function.update system.operations id moved other = some operation' := hmoved
  rw [Function.update_apply] at hmoved
  split at hmoved
  · rename_i hid
    rw [hid] at hoperation
    exact h operation operation' hoperation hcall hmoved
  · rw [hoperation] at hmoved
    cases hmoved
    exact hcall

/-- A steady step of an operation that begins no call. -/
theorem SteadyReached.move {system : LedgerSystem} (h : SteadyReached system) {id : ℕ}
    {moved : Option OpenPosting} (hstep : Step system (system.setOperation id moved))
    (hcall : ∀ operation operation', system.operations id = some operation →
      operation.call = none → moved = some operation' → operation'.call = none) :
    SteadyReached (system.setOperation id moved) :=
  h.step (.other hstep (SameAdministration.refl _) (beginsNoCall_setOperation hcall))

/-- A call may run without interruption. -/
theorem SteadyReached.run {order : RowOrder} {now : Timestamp} {id : ℕ}
    (call : PostingFlow PostedBatch) :
    ∀ {system : LedgerSystem} {written : List PostingStatement} {locks : List AdvisoryLock}
      {posted : List PostedBatch} {batch : PostedBatch},
      SteadyReached (system.setOperation id (some ⟨written, locks, posted, some call⟩)) →
      (PostingSession.runAlone order now ⟨system.committed, written, locks⟩ call).2.1
        = .returned (.ok batch) →
      let session := (PostingSession.runAlone order now ⟨system.committed, written, locks⟩ call).2.2
      SteadyReached (system.setOperation id (some
        ⟨session.written, session.locks, posted, some (.done (.ok batch))⟩)) := by
  induction call with
  | done result =>
      rintro system written locks posted batch h ⟨⟩
      exact h
  | panic => rintro _ _ _ _ _ _ ⟨⟩
  | issue statement next ih =>
      intro system written locks posted batch h hreturned
      have hself : (system.setOperation id
          (some ⟨written, locks, posted, some (.issue statement next)⟩)).operations id
            = some ⟨written, locks, posted, some (.issue statement next)⟩ :=
        Function.update_self _ _ _
      unfold PostingSession.runAlone Dialogue.runWith at hreturned ⊢
      cases hrespond : PostingSession.respond order now ⟨system.committed, written, locks⟩
          statement with
      | none =>
          rw [hrespond] at hreturned
          cases hreturned
      | some found =>
          obtain ⟨answer, session⟩ := found
          rw [hrespond] at hreturned
          have hexecutes := PostingSession.executes_of_respond hrespond
          have hcommitted : session.committed = system.committed :=
            PostingSession.committed_of_executes hexecutes
          have hstep := h.move (.statement hself rfl hexecutes) (fun operation _ hopen hcall _ => by
            rw [hself] at hopen
            cases hopen
            cases hcall)
          rw [setOperation_setOperation] at hstep
          have hrest := ih answer hstep (by rw [← hcommitted]; exact hreturned)
          rw [← hcommitted] at hrest
          exact hrest

/-- An operation may post one batch without interruption and commit it. -/
theorem SteadyReached.postAlone {system : LedgerSystem} (h : SteadyReached system) (id : ℕ)
    (hnone : system.operations id = none) (templates : HashMap String ResolvedTemplate)
    (graph : JournalId → GraphSnapshot) (display : JsonDisplay) (ids : EntryIds)
    (batch : List PostingInput) (hcaches : system.committed.Caches templates graph)
    (order : RowOrder) (now : Timestamp) {posted : PostedBatch} {db : LedgerDb}
    (hposted : (PostingSession.runAlone order now ⟨system.committed, [], []⟩
      (Postings.postBatchInOp templates graph display ids batch)).2.1 = .returned (.ok posted))
    (hview : (PostingSession.runAlone order now ⟨system.committed, [], []⟩
      (Postings.postBatchInOp templates graph display ids batch)).2.2.view = some db) :
    SteadyReached ⟨db, Function.update system.operations id none, system.log ++ [posted]⟩ := by
  have hself : ∀ operation, (system.setOperation id (some operation)).operations id
      = some operation := fun operation => Function.update_self _ _ _
  have hposting := (h.move (.begin system id hnone) (fun operation _ hopen => by
      rw [hnone] at hopen
      cases hopen)).step
    (.post templates graph display ids batch (hself OpenPosting.begun) rfl hcaches)
  rw [setOperation_setOperation] at hposting
  have hrun := SteadyReached.run _ hposting hposted
  have hreturned := hrun.move (.returned (hself _) rfl) (fun _ _ _ _ hmoved => by
    cases hmoved
    rfl)
  rw [setOperation_setOperation] at hreturned
  set session := (PostingSession.runAlone order now ⟨system.committed, [], []⟩
    (Postings.postBatchInOp templates graph display ids batch)).2.2 with hsession
  have hcommitted : session.committed = system.committed := by
    rw [hsession]
    exact PostingSession.committed_runAlone _ _ _ _
  have hcommit : PostingSession.view ⟨system.committed, session.written, session.locks⟩
      = some db := by
    rw [← hcommitted]
    exact hview
  -- the operation is gone, and the others are as they were
  have hdone := hreturned.step (.other (.commit (hself _) rfl hcommit)
    (PostingSession.sameAdministration_view hcommit) (by
      intro other operation operation' hopen hcall hmoved
      dsimp only at hmoved
      rw [Function.update_apply] at hmoved
      split at hmoved
      · cases hmoved
      · rw [hopen] at hmoved
        cases hmoved
        exact hcall))
  rw [setOperation, Function.update_idem] at hdone
  exact hdone

end LedgerSystem

/-! ## A call -/

/-- What other operations do to the committed rows. -/
structure SteadyRely (db db' : LedgerDb) : Prop where
  same : SameAdministration db db'
  effective : EffectiveRely db db'

/-- What an operation has posted between two calls, under the administration it sees. -/
def SteadySession (posted : List PostedBatch) (session : PostingSession) : Prop :=
  ∃ updates, SerialBatches session.committed posted updates ∧ Updating posted updates session

section Calls

variable {posted : List PostedBatch} {updates : List BatchUpdate} {α : Type}

theorem stable_updating_steady :
    (PostingSession.server SteadyRely).Stable (Updating posted updates) :=
  fun _ _ hothers h => stable_updating ⟨hothers.1, hothers.2.1, hothers.2.2.effective⟩ h

theorem stable_steadySession :
    (PostingSession.server SteadyRely).Stable (SteadySession posted) := by
  rintro session session' hothers ⟨updates, hserial, h⟩
  exact ⟨updates, hserial.same hothers.2.2.same, stable_updating_steady hothers h⟩

theorem SteadySession.reads {session session' : PostingSession} (h : SteadySession posted session)
    (hcommitted : session'.committed = session.committed)
    (hwritten : session'.written = session.written) : SteadySession posted session' := by
  obtain ⟨updates, hserial, h⟩ := h
  exact ⟨updates, hcommitted ▸ hserial, h.reads hcommitted hwritten⟩

theorem SteadySession.executes {session session' : PostingSession} {statement : PostingStatement}
    {answer : statement.Answer} (hreads : ¬ Postings.Writing statement)
    (hexecutes : session.Executes statement answer session') (h : SteadySession posted session) :
    SteadySession posted session' := by
  obtain ⟨_, _, db, -, -, -, rfl⟩ := hexecutes
  have hcommitted : (session.execute db statement).committed = session.committed := rfl
  exact h.reads hcommitted (PostingSession.written_execute_of_reads hreads)

/-- A part of the flow that only reads finds something, while its operation stays as it is. -/
theorem Finds.updating {base : LedgerDb} {fact : α → Prop} {d : PostingFlow α}
    (h : Finds base d fact) (hd : d.ReadOnly Postings.Writing) :
    (PostingSession.server SteadyRely).Triple
      (fun session => SameAdministration base session.committed ∧ Updating posted updates session) d
      (fun a session => fact a ∧ SameAdministration base session.committed
        ∧ Updating posted updates session) (fun _ => True) :=
  h.reading SteadyRely.same stable_updating_steady
    (fun hcommitted hwritten hupdating => hupdating.reads hcommitted hwritten) hd

/-- Whatever is found, it is found under steady steps. -/
theorem Finds.steady {base : LedgerDb} {fact : α → Prop} {d : PostingFlow α}
    (h : Finds base d fact) :
    (PostingSession.server SteadyRely).Triple
      (fun session => SameAdministration base session.committed) d
      (fun a session => fact a ∧ SameAdministration base session.committed) (fun _ => True) :=
  Server.Triple.restrict h (fun hothers => ⟨hothers.1, hothers.2.1, hothers.2.2.same⟩) id

/-- **A prepared batch** is posted under what the tables have, and its updates are made. -/
theorem triple_postPreparedInOp_steady {base : LedgerDb} {ids : EntryIds}
    {input : List PostingInput} {graph : JournalId → GraphSnapshot} (hlinked : base.toLedgerDirectory.Linked)
    (hknown : KnownGraph graph base.toLedgerDirectory)
    (hcurrent : ∀ journalId, (graph journalId).epoch = base.memberships.epoch →
      (graph journalId).Holds base.toLedgerDirectory)
    (hserial : SerialBatches base posted updates) (display : JsonDisplay) (now : Timestamp)
    {prepared : List PreparedTransaction} (hprepares : Prepares base ids input prepared) :
    (PostingSession.server SteadyRely).Triple
      (fun session => SameAdministration base session.committed ∧ Updating posted updates session)
      (Postings.postPreparedInOp graph display now prepared)
      (fun batch => SteadySession (posted ++ [batch])) (fun _ => True) := by
  have hprepared := wellPrepared_of_mapM hprepares.templates
  have hsettled : (PostingSession.server SteadyRely).Triple
      (fun session => KnownGraph graph session.committed.toLedgerDirectory
        ∧ Updating posted updates session)
      (Postings.settlePreparedInOp graph display now prepared)
      (fun found => Updating (posted ++ [Postings.postedUnder now prepared found]) updates)
      (fun _ => True) :=
    (triple_settlePreparedInOp_updating display now hprepared).restrict
      (fun hothers => ⟨hothers.1, hothers.2.1, hothers.2.2.effective⟩) id
  have hfinished : ∀ found, (PostingSession.server SteadyRely).Triple
      (Updating (posted ++ [Postings.postedUnder now prepared found]) updates)
      (Postings.finishPreparedInOp now prepared found)
      (fun batch session => batch = Postings.postedUnder now prepared found
        ∧ ∃ more, MadeFor found.2.keepsEffective batch more
          ∧ Updating (posted ++ [batch]) (updates ++ more) session) (fun _ => True) :=
    fun found => (triple_finishPreparedInOp now prepared found).restrict
      (fun hothers => ⟨hothers.1, hothers.2.1, hothers.2.2.effective⟩) id
  have hfound := (finds_settlePreparedInOp hlinked hcurrent display now prepared).steady
  rw [Postings.postPreparedInOp_eq]
  have hposted : (PostingSession.server SteadyRely).Triple
      (fun session => SameAdministration base session.committed ∧ Updating posted updates session)
      (Postings.settlePreparedInOp graph display now prepared)
      (fun found session => PostableUnder base now prepared found
        ∧ SameAdministration base session.committed
        ∧ Updating (posted ++ [Postings.postedUnder now prepared found]) updates session)
      (fun _ => True) := by
    refine (hfound.and hsettled).weaken ?_ ?_ (fun _ _ => trivial)
    · rintro session ⟨hsame, hupdating⟩
      refine ⟨hsame, ?_, hupdating⟩
      rw [hsame.directory]
      exact hknown
    · rintro found session ⟨⟨hpostable, hsame⟩, hupdating⟩
      exact ⟨hpostable, hsame, hupdating⟩
  refine hposted.bind (fun found => Server.Triple.of_fact (fun hpostable => ?_))
  refine ((Finds.any (Postings.finishPreparedInOp now prepared found)).steady.and
    (hfinished found)).weaken (fun _ h => h) ?_ (fun _ _ => trivial)
  rintro batch session ⟨⟨-, hsame⟩, rfl, more, hmade, hupdating⟩
  exact ⟨updates ++ more, (hserial.concat hprepares hpostable hmade).same hsame, hupdating⟩

/-- **A call** posts its batch under what the tables have. -/
theorem triple_postBatchInOp_steady (templates : HashMap String ResolvedTemplate)
    (graph : JournalId → GraphSnapshot) (display : JsonDisplay) (ids : EntryIds)
    (batch : List PostingInput) :
    (PostingSession.server SteadyRely).Triple
      (fun session => session.committed.toLedgerDirectory.Linked
        ∧ session.committed.Caches templates graph ∧ SteadySession posted session)
      (Postings.postBatchInOp templates graph display ids batch)
      (fun batch => SteadySession (posted ++ [batch])) (fun _ => True) := by
  -- what is committed when the call begins
  have hexists : ∀ session, session.committed.toLedgerDirectory.Linked
        ∧ session.committed.Caches templates graph ∧ SteadySession posted session →
      ∃ base : LedgerDb, ∃ updates, (base.toLedgerDirectory.Linked
          ∧ base.Caches templates graph ∧ KnownGraph graph base.toLedgerDirectory
          ∧ SerialBatches base posted updates)
        ∧ SameAdministration base session.committed ∧ Updating posted updates session := by
    rintro session ⟨hlinked, hcaches, updates, hserial, h⟩
    exact ⟨session.committed, updates, ⟨hlinked, hcaches, hcaches.known.knownGraph h.knows.backed,
      hserial⟩, SameAdministration.refl _, h⟩
  refine Server.Triple.weaken (Server.Triple.of_exists (fun base => Server.Triple.of_exists
    (fun updates => Server.Triple.of_fact ?_))) hexists (fun _ _ h => h) (fun _ h => h)
  rintro ⟨hlinked, hcaches, hknown, hserial⟩
  have hstable : (PostingSession.server SteadyRely).Stable (fun session =>
      SameAdministration base session.committed ∧ Updating posted updates session) :=
    fun _ _ hothers h => ⟨h.1.trans hothers.2.2.same, stable_updating_steady hothers h.2⟩
  unfold Postings.postBatchInOp
  split
  · refine Server.Triple.ok hstable _ (fun session h => ?_)
    exact ⟨updates, (hserial.nothing ids).same h.1, h.2.nothing⟩
  · rename_i hnonempty
    refine Server.Triple.bind ((finds_resolveInOp hcaches.templates _).updating
      (Postings.readOnly_resolveInOp _ _)) (fun used => Server.Triple.of_fact (fun hused => ?_))
    have hprepare : Finds base (.done (Postings.prepareAll ids batch
          (sortedDedup (batch.map PostingInput.txTemplateCode)) used))
        (fun prepared => batch.mapM (prepareInput ids base.templates) = some prepared
          ∧ DistinctIds prepared) :=
      Finds.done (fun prepared hprepared => hused.prepares.mp hprepared)
    refine Server.Triple.bind (hprepare.updating trivial)
      (fun prepared => Server.Triple.of_fact (fun hprepared => ?_))
    split
    · exact Server.Triple.error hstable _ (fun _ _ => trivial)
    · rename_i hcap
      refine Server.Triple.bind ((finds_lockInOp hused prepared).updating
        (Postings.readOnly_lockInOp _ _ _ _ _)) (fun locked => Server.Triple.of_fact ?_)
      obtain ⟨now, prepared'⟩ := locked
      rintro rfl
      exact triple_postPreparedInOp_steady hlinked hknown hcaches.current hserial display now
        ⟨hnonempty, hprepared.1, hprepared.2, not_lt.mp hcap⟩

end Calls

/-! ## Runs -/

/-- What the rest of a call leaves when it returns. -/
def SteadyPromise (posted : List PostedBatch) (current : PostingSession)
    (call : PostingFlow PostedBatch) : Prop :=
  ∀ ⦃issued outcome next⦄,
    (PostingSession.server SteadyRely).Run current call issued outcome next →
    (∀ batch, outcome = .returned (.ok batch) → SteadySession (posted ++ [batch]) next)
      ∧ ∀ error, outcome = .returned (.error error) → SteadySession posted next

/-- What holds of an open operation: its session, between two calls; else what its call promises. -/
def SteadyOperation (committed : LedgerDb) (operation : OpenPosting) : Prop :=
  match operation.call with
  | none => SteadySession operation.posted (operation.session committed)
  | some call => SteadyPromise operation.posted (operation.session committed) call

/-- What holds of the system: the committed rows are those of a serial run of the log. -/
structure Serialized (system : LedgerSystem) : Prop where
  reached : LedgerSystem.Reached system
  linked : system.committed.toLedgerDirectory.Linked
  serial : SerialRun system.committed system.log
  log : ∃ updates, HoldsLog system.committed system.log updates
  operations : ∀ id operation, system.operations id = some operation →
    SteadyOperation system.committed operation

section Runs

variable {posted : List PostedBatch} {system : LedgerSystem}

theorem steadyPromise_postBatchInOp {current : PostingSession}
    (hlinked : current.committed.toLedgerDirectory.Linked)
    {templates : HashMap String ResolvedTemplate} {graph : JournalId → GraphSnapshot}
    (hcaches : current.committed.Caches templates graph) (h : SteadySession posted current)
    (display : JsonDisplay) (ids : EntryIds) (batch : List PostingInput) :
    SteadyPromise posted current (Postings.postBatchInOp templates graph display ids batch) := by
  intro issued outcome next hrun
  constructor
  · rintro batch rfl
    exact triple_postBatchInOp_steady templates graph display ids _ hrun ⟨hlinked, hcaches, h⟩
  · intro error herror
    -- an error comes before every write
    have hissued := hrun.read_only
      (Postings.careful_postBatchInOp templates graph display ids batch) herror
    exact hrun.kept (stable_steadySession ·) SteadySession.executes hissued h

/-- Other operations commit. -/
theorem SteadyOperation.others {committed committed' : LedgerDb} {operation : OpenPosting}
    (h : SteadyOperation committed operation) (hrely : SteadyRely committed committed') :
    SteadyOperation committed' operation := by
  have hothers : (PostingSession.server SteadyRely).others (operation.session committed)
      (operation.session committed') := ⟨rfl, rfl, hrely⟩
  unfold SteadyOperation at h ⊢
  split at h
  · exact stable_steadySession hothers h
  · exact fun issued outcome next hrun => h (.others hothers hrun)

/-- One operation moves. -/
theorem steadyOperation_update {committed : LedgerDb} {operations : ℕ → Option OpenPosting}
    (h : ∀ id operation, operations id = some operation → SteadyOperation committed operation)
    (id : ℕ) {moved : Option OpenPosting}
    (hmoved : ∀ operation, moved = some operation → SteadyOperation committed operation)
    (other : ℕ) (operation : OpenPosting)
    (hoperation : Function.update operations id moved other = some operation) :
    SteadyOperation committed operation := by
  rw [Function.update_apply] at hoperation
  split at hoperation
  · exact hmoved operation hoperation
  · exact h other operation hoperation

theorem holdsLog_of_reached (h : LedgerSystem.Reached system) {updates : List BatchUpdate}
    (hmade : UpdatesOf system.log updates)
    (heffective : system.committed.effectiveBalances = fun key => updatesOn updates key []) :
    HoldsLog system.committed system.log updates :=
  ⟨TableWriter.runsLog_of_reached calls_balanceWriter h,
    TableWriter.runsLog_of_reached calls_velocityWriter h, holdsPostings_of_reached h,
    holdsEvents_of_reached h, knowsBatches_of_reached h, hmade, heffective⟩

/-- **A commit** is the batches of the operation, each posted by itself. -/
theorem Serialized.commit (h : Serialized system) {id : ℕ} {operation : OpenPosting} {db : LedgerDb}
    (hoperation : system.operations id = some operation) (hcall : operation.call = none)
    (hview : (operation.session system.committed).view = some db) :
    Serialized
      { committed := db
        operations := Function.update system.operations id none
        log := system.log ++ operation.posted } := by
  have hreached := h.reached.step (.commit hoperation hcall hview)
  have hholds := h.operations id operation hoperation
  rw [SteadyOperation, hcall] at hholds
  obtain ⟨updates, hserial, hupdating⟩ := hholds
  obtain ⟨earlier, hlog⟩ := h.log
  have hsame : SameAdministration system.committed db :=
    PostingSession.sameAdministration_view hview
  have hrely : EffectiveRely system.committed db :=
    (effectiveDiscipline.commits (holdsUpdates_of_reached h.reached)
      ⟨updates, hserial.updatesOf, hupdating⟩ hview).2
  -- what the operation foretells is what the commit leaves
  have heffective : db.effectiveBalances = fun key => updatesOn (earlier ++ updates) key [] := by
    funext key
    have hself := EffectiveRely.refl hupdating.spelled.sound hupdating.knows.backed
    rw [hupdating.foretold.rows _ hself db hview key, updatesOn, updatesOn, List.foldl_append]
    show List.foldl _ (system.committed.effectiveBalances key) _ = _
    rw [hlog.effective]
    rfl
  have hlog' := holdsLog_of_reached hreached (hlog.made.append hserial.updatesOf) heffective
  have hadmits := hlog'.admits
  rw [hsame.directory] at hadmits
  obtain ⟨db', hrun, hholds, hsame'⟩ := hserial.run h.serial hlog hadmits
  obtain rfl := hlog'.unique hholds (hsame.symm.trans hsame')
  refine ⟨hreached, ?_, hrun, ⟨_, hlog'⟩, ?_⟩
  · show db'.toLedgerDirectory.Linked
    rw [hsame.directory]
    exact h.linked
  · refine steadyOperation_update (fun other moved hmoved => ?_) id (fun _ hnone => by cases hnone)
    exact (h.operations other moved hmoved).others ⟨hsame, hrely⟩

/-- **One step.** -/
theorem Serialized.step {system' : LedgerSystem} (h : Serialized system)
    (hsteady : LedgerSystem.SteadyStep system system') : Serialized system' := by
  have hreached := h.reached.step hsteady.step
  obtain ⟨updates, hlog⟩ := h.log
  cases hsteady with
  | administer directory templates accountControls hnone hkeeps hlinked =>
      refine ⟨hreached, hlinked, .administer directory templates accountControls h.serial,
        ⟨updates, holdsLog_of_reached hreached hlog.made hlog.effective⟩,
        fun id operation hopen => ?_⟩
      rw [hnone id] at hopen
      cases hopen
  | @post id operation templates graph display ids batch hoperation hcall hcaches =>
      refine ⟨hreached, h.linked, h.serial, h.log, steadyOperation_update h.operations id ?_⟩
      rintro _ ⟨⟩
      have hholds := h.operations id operation hoperation
      rw [SteadyOperation, hcall] at hholds
      exact steadyPromise_postBatchInOp h.linked hcaches hholds display ids batch
  | other hstep hsame hcalls =>
      cases hstep with
      | administer directory templates accountControls hkeeps =>
          -- nothing was changed
          obtain ⟨hdirectory, htemplates, hcontrols⟩ := hsame
          cases hdirectory
          cases htemplates
          cases hcontrols
          exact h
      | begin id hnone =>
          refine ⟨hreached, h.linked, h.serial, h.log, steadyOperation_update h.operations id ?_⟩
          rintro _ ⟨⟩
          exact ⟨[], .nil, (holdsUpdates_of_reached h.reached).begun⟩
      | @post id operation templates graph display ids batch hoperation hcall hgraph =>
          have hnone := hcalls id operation _ hoperation hcall (Function.update_self _ _ _)
          cases hnone
      | @statement id operation statement rest answer session hoperation hcall hexecutes =>
          refine ⟨hreached, h.linked, h.serial, h.log, steadyOperation_update h.operations id ?_⟩
          rintro _ ⟨⟩
          have hholds := h.operations id operation hoperation
          rw [SteadyOperation, hcall] at hholds
          have hsession : session = ⟨system.committed, session.written, session.locks⟩ := by
            have hcommitted : session.committed = system.committed :=
              PostingSession.committed_of_executes hexecutes
            rw [← hcommitted]
          rw [hsession] at hexecutes
          exact fun issued outcome next hrun => hholds (.issue hexecutes hrun)
      | @returned id operation batch hoperation hcall =>
          refine ⟨hreached, h.linked, h.serial, h.log, steadyOperation_update h.operations id ?_⟩
          rintro _ ⟨⟩
          have hholds := h.operations id operation hoperation
          rw [SteadyOperation, hcall] at hholds
          exact (hholds (.done _ _)).1 batch rfl
      | @rejected id operation error hoperation hcall =>
          refine ⟨hreached, h.linked, h.serial, h.log, steadyOperation_update h.operations id ?_⟩
          rintro _ ⟨⟩
          have hholds := h.operations id operation hoperation
          rw [SteadyOperation, hcall] at hholds
          exact (hholds (.done _ _)).2 error rfl
      | @commit id operation db hoperation hcall hview => exact h.commit hoperation hcall hview
      | @rollback id operation hoperation =>
          refine ⟨hreached, h.linked, h.serial, h.log, steadyOperation_update h.operations id ?_⟩
          rintro _ ⟨⟩

theorem serialized_start (directory : LedgerDirectory)
    (templates : String → Option TxTemplateValues) (accountControls : ControlTable)
    (hlinked : directory.Linked) :
    Serialized ⟨LedgerDb.fresh directory templates accountControls, fun _ => none, []⟩ := by
  have hreached := LedgerSystem.Reached.start directory templates accountControls
    hlinked.backed
  refine ⟨hreached, hlinked, .start directory templates accountControls,
    ⟨[], holdsLog_of_reached hreached .nil rfl⟩, ?_⟩
  rintro id operation ⟨⟩

end Runs

theorem linked_sampleDirectory : sampleDirectory.Linked where
  backed := setsBacked_sampleDirectory
  edges := fun _ hmem => (List.not_mem_nil hmem).elim
  members := fun row hrow => by
    rw [List.mem_singleton.mp hrow]
    rfl

end CalaLedger
