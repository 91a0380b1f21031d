import CalaLedger.Posting.Service

/-! # The posting flow in an open operation

What a statement of the flow finds and leaves: it sees the committed rows and those its operation
has written, other operations commit in between, and the locks it takes are held to the end. -/

namespace CalaLedger

open Foundations (Dialogue Server)

/-- The committed rows, and what an open operation has written and locked, in order. -/
structure PostingSession where
  committed : LedgerDb
  written : List PostingStatement
  locks : List AdvisoryLock

/-- The flow writes balances, postings and events: accounts, journals, memberships, templates and
controls stay as they are. -/
theorem PostingStatement.kept_of_apply {db db' : LedgerDb} {statement : PostingStatement}
    (h : statement.apply db = some db') :
    db'.toLedgerDirectory = db.toLedgerDirectory ∧ db'.templates = db.templates
      ∧ db'.accountControls = db.accountControls := by
  cases statement with
  | insertVelocitySnapshots =>
      obtain ⟨table, -, rfl⟩ := Option.map_eq_some_iff.mp h
      exact ⟨rfl, rfl, rfl⟩
  | insertPostingsAndBalances =>
      rw [PostingStatement.apply] at h
      split at h
      · obtain ⟨table, -, rfl⟩ := Option.map_eq_some_iff.mp h
        exact ⟨rfl, rfl, rfl⟩
      · cases h
  | insertSnapshots =>
      obtain ⟨table, -, rfl⟩ := Option.map_eq_some_iff.mp h
      exact ⟨rfl, rfl, rfl⟩
  | insertEffectiveSnapshots =>
      obtain ⟨table, -, rfl⟩ := Option.map_eq_some_iff.mp h
      exact ⟨rfl, rfl, rfl⟩
  | _ =>
      cases h
      exact ⟨rfl, rfl, rfl⟩

namespace PostingSession

/-- The rows the operation sees, which are those its commit leaves. -/
def view (session : PostingSession) : Option LedgerDb :=
  session.written.foldlM (fun db statement => statement.apply db) session.committed

/-- What an operation sees beside the rows it writes. -/
theorem kept_of_view {session : PostingSession} {db : LedgerDb} (h : session.view = some db) :
    db.toLedgerDirectory = session.committed.toLedgerDirectory
      ∧ db.templates = session.committed.templates
      ∧ db.accountControls = session.committed.accountControls := by
  rw [view] at h
  generalize session.committed = start at h
  generalize session.written = written at h
  induction written generalizing start with
  | nil =>
      cases h
      exact ⟨rfl, rfl, rfl⟩
  | cons statement rest ih =>
      rw [List.foldlM_cons] at h
      obtain ⟨next, hnext, hrest⟩ := Option.bind_eq_some_iff.mp h
      obtain ⟨hdirectory, htemplates, hcontrols⟩ := PostingStatement.kept_of_apply hnext
      rw [← hdirectory, ← htemplates, ← hcontrols]
      exact ih next hrest

/-- The operation after a statement that sees `db`. -/
def execute (session : PostingSession) (db : LedgerDb) (statement : PostingStatement) :
    PostingSession :=
  { session with
    written := if statement.writes then session.written ++ [statement] else session.written
    locks := session.locks ++ statement.lockRequests db }

/-- A statement returns what it finds in the rows the operation sees, in some order. -/
def Executes (session : PostingSession) (statement : PostingStatement)
    (answer : statement.Answer) (session' : PostingSession) : Prop :=
  ∃ order now db, session.view = some db ∧ (statement.apply db).isSome
    ∧ answer = statement.answer order now db ∧ session' = session.execute db statement

/-- Other operations commit, as `rely` has it; they leave what this one has written and locked
alone. -/
def server (rely : LedgerDb → LedgerDb → Prop) :
    Server PostingStatement PostingStatement.Answer PostingSession where
  others := fun session session' => session'.written = session.written
    ∧ session'.locks = session.locks ∧ rely session.committed session'.committed
  executes := Executes

/-- Answer a statement while no other operation commits. -/
def respond (order : RowOrder) (now : Timestamp) (session : PostingSession)
    (statement : PostingStatement) : Option (statement.Answer × PostingSession) := do
  let db ← session.view
  let _ ← statement.apply db
  some (statement.answer order now db, session.execute db statement)

theorem executes_of_respond {order : RowOrder} {now : Timestamp}
    {session session' : PostingSession} {statement : PostingStatement} {answer : statement.Answer}
    (h : session.respond order now statement = some (answer, session')) :
    session.Executes statement answer session' := by
  obtain ⟨db, hview, h⟩ := Option.bind_eq_some_iff.mp h
  obtain ⟨db', happly, h⟩ := Option.bind_eq_some_iff.mp h
  cases h
  exact ⟨order, now, db, hview, by rw [happly]; rfl, rfl, rfl⟩

/-- A dialogue run while no other operation commits. -/
def runAlone {ε α : Type} (order : RowOrder) (now : Timestamp) (session : PostingSession)
    (d : Dialogue PostingStatement PostingStatement.Answer ε α) :
    List PostingStatement × Foundations.Outcome ε α × PostingSession :=
  d.runWith (respond order now) session

theorem run_runAlone {ε α : Type} (rely : LedgerDb → LedgerDb → Prop) (order : RowOrder)
    (now : Timestamp) (session : PostingSession)
    (d : Dialogue PostingStatement PostingStatement.Answer ε α) :
    (server rely).Run session d (session.runAlone order now d).1
      (session.runAlone order now d).2.1 (session.runAlone order now d).2.2 :=
  Server.run_runWith executes_of_respond d session

/-- A statement commits nothing. -/
theorem committed_of_executes {session session' : PostingSession} {statement : PostingStatement}
    {answer : statement.Answer} (h : session.Executes statement answer session') :
    session'.committed = session.committed := by
  obtain ⟨_, _, _, -, -, -, rfl⟩ := h
  rfl

theorem committed_runAlone {ε α : Type} (order : RowOrder) (now : Timestamp)
    (d : Dialogue PostingStatement PostingStatement.Answer ε α) :
    ∀ session : PostingSession, (session.runAlone order now d).2.2.committed = session.committed := by
  induction d with
  | done result => exact fun session => rfl
  | panic => exact fun session => rfl
  | issue statement next ih =>
      intro session
      rw [runAlone, Dialogue.runWith]
      cases hrespond : respond order now session statement with
      | none => rfl
      | some found =>
          exact (ih found.1 found.2).trans (committed_of_executes (executes_of_respond hrespond))

theorem written_execute_of_writes {session : PostingSession} {db : LedgerDb}
    {statement : PostingStatement} (h : statement.writes) :
    (session.execute db statement).written = session.written ++ [statement] :=
  if_pos h

theorem written_execute_of_reads {session : PostingSession} {db : LedgerDb}
    {statement : PostingStatement} (h : ¬ statement.writes) :
    (session.execute db statement).written = session.written :=
  if_neg h

end PostingSession

end CalaLedger
