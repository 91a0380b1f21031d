import CalaLedger.Posting.Reachable
import CalaLedger.Posting.Rejection

/-! # Interleaved posting operations

Any number of operations post batches through `Postings::post_all_in_op`, each statement seeing what
is committed when it is issued; accounts, sets, memberships, templates and controls change in
between: accounts come and keep their flags, and sets have their accounts. An operation commits
everything it has written or nothing. A lock only makes its operation wait, so the runs in which
locks are awaited are among these, whatever keys share a lock. The set graph of a process is any that
knows no set the ledger does not have.

`Discipline` is what an argument about one call has to provide, and `Discipline.holds` what it says
of every run. -/

namespace CalaLedger

open Foundations (Dialogue Server)
open Postings (PostedBatch)

/-- An open operation: what it has written and locked, the batches it has posted, and the call it is
in. -/
structure OpenPosting where
  written : List PostingStatement
  locks : List AdvisoryLock
  posted : List PostedBatch
  call : Option (PostingFlow PostedBatch)

namespace OpenPosting

def begun : OpenPosting := ⟨[], [], [], none⟩

/-- What the operation sees of the ledger. -/
def session (operation : OpenPosting) (committed : LedgerDb) : PostingSession :=
  ⟨committed, operation.written, operation.locks⟩

end OpenPosting

/-- The committed rows, the open operations, and the committed batches in the order of their
commits. -/
structure LedgerSystem where
  committed : LedgerDb
  operations : ℕ → Option OpenPosting
  log : List PostedBatch

/-- The sets of a cached graph are sets of the ledger. -/
def LedgerDirectory.Knows (directory : LedgerDirectory) (graph : JournalId → GraphSnapshot) : Prop :=
  ∀ journalId setId, ((graph journalId).sets.lookup setId).isSome →
    (directory.memberships.accountSets setId).isSome

theorem LedgerDirectory.knows_cold (directory : LedgerDirectory) :
    directory.Knows (fun _ => SetGraphCache.cold) :=
  fun _ _ hknown => (Bool.false_ne_true hknown).elim

namespace LedgerSystem

def setOperation (system : LedgerSystem) (id : ℕ) (operation : Option OpenPosting) : LedgerSystem :=
  { system with operations := Function.update system.operations id operation }

/-- One step of one operation, or of an administrator. -/
inductive Step : LedgerSystem → LedgerSystem → Prop
  | administer (system : LedgerSystem) (directory : LedgerDirectory)
      (templates : String → Option TxTemplateValues) (accountControls : ControlTable) :
      system.committed.toLedgerDirectory.KeepsModes directory →
      Step system { system with
        committed := { system.committed with
          toLedgerDirectory := directory
          templates := templates
          accountControls := accountControls } }
  | begin (system : LedgerSystem) (id : ℕ) :
      system.operations id = none → Step system (system.setOperation id (some OpenPosting.begun))
  | post {system : LedgerSystem} {id : ℕ} {operation : OpenPosting}
      (templates : HashMap String ResolvedTemplate) (graph : JournalId → GraphSnapshot)
      (display : JsonDisplay) (ids : EntryIds) (batch : List PostingInput) :
      system.operations id = some operation → operation.call = none →
      system.committed.Knows graph →
      Step system (system.setOperation id (some { operation with
        call := some (Postings.postBatchInOp templates graph display ids batch) }))
  | statement {system : LedgerSystem} {id : ℕ} {operation : OpenPosting}
      {statement : PostingStatement} {next : statement.Answer → PostingFlow PostedBatch}
      {answer : statement.Answer} {session : PostingSession} :
      system.operations id = some operation → operation.call = some (.issue statement next) →
      (operation.session system.committed).Executes statement answer session →
      Step system (system.setOperation id (some { operation with
        written := session.written
        locks := session.locks
        call := some (next answer) }))
  | returned {system : LedgerSystem} {id : ℕ} {operation : OpenPosting} {batch : PostedBatch} :
      system.operations id = some operation → operation.call = some (.done (.ok batch)) →
      Step system (system.setOperation id (some { operation with
        posted := operation.posted ++ [batch]
        call := none }))
  /-- the caller may go on after an error of the flow -/
  | rejected {system : LedgerSystem} {id : ℕ} {operation : OpenPosting} {error : PostingError} :
      system.operations id = some operation → operation.call = some (.done (.error error)) →
      Step system (system.setOperation id (some { operation with call := none }))
  | commit {system : LedgerSystem} {id : ℕ} {operation : OpenPosting} {db : LedgerDb} :
      system.operations id = some operation → operation.call = none →
      (operation.session system.committed).view = some db →
      Step system
        { committed := db
          operations := Function.update system.operations id none
          log := system.log ++ operation.posted }
  /-- a failed statement and a panic end so -/
  | rollback {system : LedgerSystem} {id : ℕ} {operation : OpenPosting} :
      system.operations id = some operation → Step system (system.setOperation id none)

/-- The states of a ledger that starts without postings. -/
inductive Reached : LedgerSystem → Prop
  | start (directory : LedgerDirectory) (templates : String → Option TxTemplateValues)
      (accountControls : ControlTable) : directory.SetsBacked →
      Reached ⟨LedgerDb.fresh directory templates accountControls, fun _ => none, []⟩
  | step {system system' : LedgerSystem} : Reached system → Step system system' → Reached system'

theorem setOperation_setOperation (system : LedgerSystem) (id : ℕ)
    (operation operation' : Option OpenPosting) :
    (system.setOperation id operation).setOperation id operation'
      = system.setOperation id operation' := by
  rw [setOperation, setOperation, setOperation, Function.update_idem]

/-- A call may run without interruption. -/
theorem Reached.run {order : RowOrder} {now : Timestamp} {id : ℕ} (call : PostingFlow PostedBatch) :
    ∀ {system : LedgerSystem} {written : List PostingStatement} {locks : List AdvisoryLock}
      {posted : List PostedBatch} {batch : PostedBatch},
      Reached (system.setOperation id (some ⟨written, locks, posted, some call⟩)) →
      (PostingSession.runAlone order now ⟨system.committed, written, locks⟩ call).2.1
        = .returned (.ok batch) →
      let session := (PostingSession.runAlone order now ⟨system.committed, written, locks⟩ call).2.2
      Reached (system.setOperation id (some
        ⟨session.written, session.locks, posted, some (.done (.ok batch))⟩)) := by
  induction call with
  | done result =>
      rintro system written locks posted batch h ⟨⟩
      exact h
  | panic => rintro _ _ _ _ _ _ ⟨⟩
  | issue statement next ih =>
      intro system written locks posted batch h hreturned
      have hself : (system.setOperation id
          (some ⟨written, locks, posted, some (.issue statement next)⟩)).operations id
            = some ⟨written, locks, posted, some (.issue statement next)⟩ :=
        Function.update_self _ _ _
      unfold PostingSession.runAlone Dialogue.runWith at hreturned ⊢
      cases hrespond : PostingSession.respond order now ⟨system.committed, written, locks⟩
          statement with
      | none =>
          rw [hrespond] at hreturned
          cases hreturned
      | some found =>
          obtain ⟨answer, session⟩ := found
          rw [hrespond] at hreturned
          have hexecutes := PostingSession.executes_of_respond hrespond
          have hcommitted : session.committed = system.committed :=
            PostingSession.committed_of_executes hexecutes
          have hstep := h.step (.statement hself rfl hexecutes)
          rw [setOperation_setOperation] at hstep
          have hrest := ih answer hstep (by rw [← hcommitted]; exact hreturned)
          rw [← hcommitted] at hrest
          exact hrest

/-- An operation may post one batch without interruption and commit it. -/
theorem Reached.postAlone {system : LedgerSystem} (h : Reached system) (id : ℕ)
    (hnone : system.operations id = none) (templates : HashMap String ResolvedTemplate)
    (graph : JournalId → GraphSnapshot) (display : JsonDisplay) (ids : EntryIds)
    (batch : List PostingInput) (hgraph : system.committed.Knows graph) (order : RowOrder)
    (now : Timestamp) {posted : PostedBatch} {db : LedgerDb}
    (hposted : (PostingSession.runAlone order now ⟨system.committed, [], []⟩
      (Postings.postBatchInOp templates graph display ids batch)).2.1 = .returned (.ok posted))
    (hview : (PostingSession.runAlone order now ⟨system.committed, [], []⟩
      (Postings.postBatchInOp templates graph display ids batch)).2.2.view = some db) :
    Reached ⟨db, Function.update system.operations id none, system.log ++ [posted]⟩ := by
  have hself : ∀ operation, (system.setOperation id (some operation)).operations id
      = some operation := fun operation => Function.update_self _ _ _
  have hposting := (h.step (.begin system id hnone)).step
    (.post templates graph display ids batch (hself OpenPosting.begun) rfl hgraph)
  rw [setOperation_setOperation] at hposting
  have hrun := Reached.run _ hposting hposted
  have hreturned := hrun.step (.returned (hself _) rfl)
  rw [setOperation_setOperation] at hreturned
  set session := (PostingSession.runAlone order now ⟨system.committed, [], []⟩
    (Postings.postBatchInOp templates graph display ids batch)).2.2 with hsession
  have hcommitted : session.committed = system.committed := by
    rw [hsession]
    exact PostingSession.committed_runAlone _ _ _ _
  have hcommit : PostingSession.view ⟨system.committed, session.written, session.locks⟩
      = some db := by
    rw [← hcommitted]
    exact hview
  have hdone := hreturned.step (.commit (hself _) rfl hcommit)
  rw [setOperation, Function.update_idem] at hdone
  exact hdone

end LedgerSystem

/-! ## Disciplines -/

/-- An argument about interleaved operations: `global` is claimed of the committed rows and the
committed batches, `session` of an operation and the batches it has posted, and `rely` is what every
commit does to the committed rows. -/
structure Discipline where
  rely : LedgerDb → LedgerDb → Prop
  global : LedgerDb → List PostedBatch → Prop
  session : List PostedBatch → PostingSession → Prop
  fresh : ∀ directory templates accountControls, directory.SetsBacked →
    global (LedgerDb.fresh directory templates accountControls) []
  administered : ∀ {db : LedgerDb} {log : List PostedBatch} (directory : LedgerDirectory)
    (templates : String → Option TxTemplateValues) (accountControls : ControlTable),
    db.toLedgerDirectory.KeepsModes directory → global db log →
      global { db with
        toLedgerDirectory := directory
        templates := templates
        accountControls := accountControls } log
      ∧ rely db { db with
        toLedgerDirectory := directory
        templates := templates
        accountControls := accountControls }
  begun : ∀ {db : LedgerDb} {log : List PostedBatch}, global db log → session [] ⟨db, [], []⟩
  stable : ∀ posted, (PostingSession.server rely).Stable (session posted)
  /-- statements that write nothing leave the operation as it is -/
  reads : ∀ {posted : List PostedBatch} {current next : PostingSession},
    next.committed = current.committed → next.written = current.written →
      session posted current → session posted next
  calls : ∀ posted templates graph display ids batch,
    (PostingSession.server rely).Triple
      (fun current => current.committed.Knows graph ∧ session posted current)
      (Postings.postBatchInOp templates graph display ids batch)
      (fun batch => session (posted ++ [batch])) (fun _ => True)
  commits : ∀ {db db' : LedgerDb} {log posted : List PostedBatch} {written : List PostingStatement}
    {locks : List AdvisoryLock}, global db log → session posted ⟨db, written, locks⟩ →
    PostingSession.view ⟨db, written, locks⟩ = some db' →
      global db' (log ++ posted) ∧ rely db db'

namespace Discipline

variable (discipline : Discipline)

/-- What the rest of a call leaves when it returns. -/
def Promises (posted : List PostedBatch) (current : PostingSession) (call : PostingFlow PostedBatch) :
    Prop :=
  ∀ ⦃issued outcome next⦄,
    (PostingSession.server discipline.rely).Run current call issued outcome next →
    (∀ batch, outcome = .returned (.ok batch) → discipline.session (posted ++ [batch]) next)
      ∧ ∀ error, outcome = .returned (.error error) → discipline.session posted next

/-- What holds of an open operation: its session, between two calls; else what its call promises. -/
def Holds (committed : LedgerDb) (operation : OpenPosting) : Prop :=
  match operation.call with
  | none => discipline.session operation.posted (operation.session committed)
  | some call => discipline.Promises operation.posted (operation.session committed) call

/-- What holds of the system. -/
structure Kept (system : LedgerSystem) : Prop where
  committed : discipline.global system.committed system.log
  operations : ∀ id operation, system.operations id = some operation →
    discipline.Holds system.committed operation

variable {discipline} {posted : List PostedBatch} {current next : PostingSession}

theorem session_of_reads {statement : PostingStatement} {answer : statement.Answer}
    (hreads : ¬ Postings.Writing statement) (h : current.Executes statement answer next)
    (hsession : discipline.session posted current) : discipline.session posted next := by
  obtain ⟨_, _, db, -, -, -, rfl⟩ := h
  have hcommitted : (current.execute db statement).committed = current.committed := rfl
  exact discipline.reads hcommitted (PostingSession.written_execute_of_reads hreads) hsession

/-- **A call promises** the batch it returns, or that nothing has changed. -/
theorem promises_postBatchInOp (h : discipline.session posted current)
    (templates : HashMap String ResolvedTemplate) {graph : JournalId → GraphSnapshot}
    (hgraph : current.committed.Knows graph) (display : JsonDisplay) (ids : EntryIds) (batch : List PostingInput) :
    discipline.Promises posted current
      (Postings.postBatchInOp templates graph display ids batch) := by
  intro issued outcome next hrun
  constructor
  · rintro batch rfl
    exact discipline.calls posted _ _ _ _ _ hrun ⟨hgraph, h⟩
  · intro error herror
    -- an error comes before every write
    have hissued := hrun.read_only (Postings.careful_postBatchInOp templates graph display ids batch)
      herror
    exact hrun.kept (discipline.stable posted ·) session_of_reads hissued h

/-- Other operations commit. -/
theorem Holds.others {committed committed' : LedgerDb} {operation : OpenPosting}
    (h : discipline.Holds committed operation) (hrely : discipline.rely committed committed') :
    discipline.Holds committed' operation := by
  have hothers : (PostingSession.server discipline.rely).others (operation.session committed)
      (operation.session committed') := ⟨rfl, rfl, hrely⟩
  unfold Holds at h ⊢
  split
  · rename_i hcall
    rw [hcall] at h
    exact discipline.stable _ hothers h
  · rename_i call hcall
    rw [hcall] at h
    exact fun issued outcome next hrun => h (.others hothers hrun)

/-- One operation moves or ends. -/
theorem holds_update {committed : LedgerDb} {operations : ℕ → Option OpenPosting}
    (h : ∀ id operation, operations id = some operation → discipline.Holds committed operation)
    (id : ℕ) {moved : Option OpenPosting}
    (hmoved : ∀ operation, moved = some operation → discipline.Holds committed operation)
    (other : ℕ) (operation : OpenPosting)
    (hoperation : Function.update operations id moved other = some operation) :
    discipline.Holds committed operation := by
  by_cases hid : other = id
  · subst hid
    rw [Function.update_self] at hoperation
    exact hmoved operation hoperation
  · rw [Function.update_of_ne hid] at hoperation
    exact h other operation hoperation

theorem Kept.setOperation {system : LedgerSystem} (h : discipline.Kept system) (id : ℕ)
    {moved : Option OpenPosting}
    (hmoved : ∀ operation, moved = some operation → discipline.Holds system.committed operation) :
    discipline.Kept (system.setOperation id moved) :=
  ⟨h.committed, holds_update h.operations id hmoved⟩

/-- **One step.** -/
theorem Kept.step {system system' : LedgerSystem} (h : discipline.Kept system)
    (hstep : LedgerSystem.Step system system') : discipline.Kept system' := by
  cases hstep with
  | administer directory templates accountControls hkeeps =>
      obtain ⟨hglobal, hrely⟩ := discipline.administered directory templates accountControls hkeeps
        h.committed
      exact ⟨hglobal, fun id operation hoperation =>
        (h.operations id operation hoperation).others hrely⟩
  | begin id hnone =>
      refine h.setOperation id ?_
      rintro _ ⟨⟩
      exact discipline.begun h.committed
  | @post id operation templates graph display ids batch hoperation hcall hgraph =>
      refine h.setOperation id ?_
      rintro _ ⟨⟩
      have hholds := h.operations id operation hoperation
      rw [Holds, hcall] at hholds
      exact promises_postBatchInOp hholds templates hgraph display ids batch
  | @statement id operation statement rest answer session hoperation hcall hexecutes =>
      refine h.setOperation id ?_
      rintro _ ⟨⟩
      have hholds := h.operations id operation hoperation
      rw [Holds, hcall] at hholds
      have hsession : session = ⟨system.committed, session.written, session.locks⟩ := by
        have hcommitted : session.committed = system.committed :=
          PostingSession.committed_of_executes hexecutes
        rw [← hcommitted]
      rw [hsession] at hexecutes
      exact fun issued outcome next hrun => hholds (.issue hexecutes hrun)
  | @returned id operation batch hoperation hcall =>
      refine h.setOperation id ?_
      rintro _ ⟨⟩
      have hholds := h.operations id operation hoperation
      rw [Holds, hcall] at hholds
      exact (hholds (.done _ _)).1 batch rfl
  | @rejected id operation error hoperation hcall =>
      refine h.setOperation id ?_
      rintro _ ⟨⟩
      have hholds := h.operations id operation hoperation
      rw [Holds, hcall] at hholds
      exact (hholds (.done _ _)).2 error rfl
  | @commit id operation db hoperation hcall hview =>
      have hholds := h.operations id operation hoperation
      rw [Holds, hcall] at hholds
      obtain ⟨hglobal, hrely⟩ := discipline.commits h.committed hholds hview
      have hothers : ∀ other moved, system.operations other = some moved →
          discipline.Holds db moved :=
        fun other moved hmoved => (h.operations other moved hmoved).others hrely
      refine ⟨hglobal, holds_update hothers id ?_⟩
      rintro _ ⟨⟩
  | @rollback id operation hoperation =>
      refine h.setOperation id ?_
      rintro _ ⟨⟩

variable (discipline) in
/-- **A discipline holds of every run.** -/
theorem holds {system : LedgerSystem} (h : LedgerSystem.Reached system) : discipline.Kept system := by
  induction h with
  | start directory templates accountControls hbacked =>
      refine ⟨discipline.fresh directory templates accountControls hbacked, ?_⟩
      rintro id operation ⟨⟩
  | step _ hstep ih => exact ih.step hstep

end Discipline

end CalaLedger
