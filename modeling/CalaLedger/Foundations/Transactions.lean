import CalaLedger.Foundations.Dialogue
import CalaLedger.Foundations.LockTable
import Mathlib.Logic.Function.Basic

/-! # Transactions under locks

Transactions run dialogues against one store. A statement sees the committed data under what its own
transaction has written; it is granted its locks when no other transaction holds one that conflicts,
and they are held to the end of the transaction. Other transactions commit in between.

A `LockDiscipline` argues about one transaction at a time: `rely` is what others may commit while
some locks are held, and a transaction that commits keeps what every holder of compatible locks
relies on. Then what is claimed of the committed data and of every open transaction holds in every
run (`LockDiscipline.holds`). -/

namespace Foundations

variable {σ : Type} {Answer : σ → Type} {D κ ε α : Type}

/-- The data of a store, those committed before them, and what an open transaction has written and
locked, in order. -/
structure Session (σ D κ : Type) where
  committed : D
  past : List D
  written : List σ
  locks : List (LockRequest κ)

/-- Statements on a store: the data each leaves, whether it writes, what it may find and the locks
it takes. What is cached outside of the store was committed at some time. -/
structure Store (σ : Type) (Answer : σ → Type) (D κ : Type) where
  apply : D → σ → Option D
  writes : σ → Bool
  finds : List D → D → (statement : σ) → Answer statement → Prop
  requests : σ → List (LockRequest κ)
  apply_of_reads : ∀ {statement}, ¬ writes statement → ∀ data, apply data statement = some data

/-- No lock of one list conflicts with one of the other. -/
def Compatible (locks others : List (LockRequest κ)) : Prop :=
  ∀ own ∈ locks, ∀ other ∈ others, ¬ own.Conflicts other

theorem Compatible.symm {locks others : List (LockRequest κ)} (h : Compatible locks others) :
    Compatible others locks :=
  fun own hown other hother hconflicts => h other hother own hown hconflicts.symm

theorem Compatible.append {locks locks' others : List (LockRequest κ)}
    (h : Compatible locks others) (h' : Compatible locks' others) :
    Compatible (locks ++ locks') others := by
  intro own hown
  rcases List.mem_append.mp hown with hown | hown
  · exact h own hown
  · exact h' own hown

namespace Store

variable (store : Store σ Answer D κ)

/-- The data a transaction sees, which are those its commit leaves. -/
def view (session : Session σ D κ) : Option D :=
  session.written.foldlM store.apply session.committed

/-- The transaction after a statement. -/
def execute (session : Session σ D κ) (statement : σ) : Session σ D κ :=
  { session with
    written := if store.writes statement then session.written ++ [statement] else session.written
    locks := session.locks ++ store.requests statement }

/-- A statement finds something in the data the transaction sees, and does not fail on them. -/
def Executes (session : Session σ D κ) (statement : σ) (answer : Answer statement)
    (session' : Session σ D κ) : Prop :=
  ∃ data, store.view session = some data ∧ (store.apply data statement).isSome
    ∧ store.finds (session.committed :: session.past) data statement answer
    ∧ session' = store.execute session statement

/-- Other transactions commit, as `rely` has it under the locks of this one. -/
def server (rely : List (LockRequest κ) → D → D → Prop) (global : D → List D → Prop) :
    Server σ Answer (Session σ D κ) where
  others := fun session session' => session'.written = session.written
    ∧ session'.locks = session.locks ∧ session'.past = session.committed :: session.past
    ∧ rely session.locks session.committed session'.committed
    ∧ global session'.committed session'.past
  executes := store.Executes

variable {store} {session : Session σ D κ} {statement : σ}

/-! ### Triples -/

section Triples

variable (store) (rely : List (LockRequest κ) → D → D → Prop) (global : D → List D → Prop)

/-- An assertion that neither other transactions nor further locks of its own transaction end. -/
structure Lasting (assertion : Session σ D κ → Prop) : Prop where
  stable : (store.server rely global).Stable assertion
  locks : ∀ {session : Session σ D κ} (more : List (LockRequest κ)), assertion session →
    assertion { session with locks := session.locks ++ more }

variable {store rely global} {pre : Session σ D κ → Prop}

theorem Lasting.and {pre' : Session σ D κ → Prop} (h : store.Lasting rely global pre)
    (h' : store.Lasting rely global pre') :
    store.Lasting rely global (fun session => pre session ∧ pre' session) where
  stable := fun _ _ hothers hsession =>
    ⟨h.stable hothers hsession.1, h'.stable hothers hsession.2⟩
  locks := fun more hsession => ⟨h.locks more hsession.1, h'.locks more hsession.2⟩

/-- What is known for good lasts. -/
theorem Lasting.of_fact {fact : Prop} (h : store.Lasting rely global pre) :
    store.Lasting rely global (fun session => fact ∧ pre session) where
  stable := fun _ _ hothers hsession => ⟨hsession.1, h.stable hothers hsession.2⟩
  locks := fun more hsession => ⟨hsession.1, h.locks more hsession.2⟩

theorem lasting_exists {ι : Type} {assertion : ι → Session σ D κ → Prop}
    (h : ∀ i, store.Lasting rely global (assertion i)) :
    store.Lasting rely global (fun session => ∃ i, assertion i session) where
  stable := fun _ _ hothers ⟨i, hsession⟩ => ⟨i, (h i).stable hothers hsession⟩
  locks := fun more ⟨i, hsession⟩ => ⟨i, (h i).locks more hsession⟩

/-- A lock is held to the end. -/
theorem lasting_held (request : LockRequest κ) :
    store.Lasting rely global (fun session => request ∈ session.locks) where
  stable := by
    intro session session' hothers hheld
    show request ∈ session'.locks
    rw [hothers.2.1]
    exact hheld
  locks := fun more hheld => List.mem_append_left more hheld

/-- A statement that writes nothing takes locks at most. -/
theorem Lasting.executed (h : store.Lasting rely global pre) (hreads : ¬ store.writes statement)
    (hsession : pre session) : pre (store.execute session statement) := by
  have hkept := h.locks (store.requests statement) hsession
  unfold Store.execute
  rwa [if_neg hreads]

/-- What statements that write nothing keep. -/
theorem Lasting.readOnly (h : store.Lasting rely global pre) {d : Dialogue σ Answer ε α}
    (hd : d.ReadOnly (fun statement => store.writes statement)) :
    (store.server rely global).Triple pre d (fun _ => pre) (fun _ => True) := by
  refine Server.Triple.of_readOnly h.stable ?_ (fun _ _ => trivial) hd
  rintro session statement answer session' hreads ⟨_, -, -, -, rfl⟩ hsession
  exact h.executed hreads hsession

/-- **A statement that reads** finds something in the data the transaction sees. -/
theorem Lasting.read {post : Answer statement → Session σ D κ → Prop}
    (h : store.Lasting rely global pre) (hpost : ∀ answer, store.Lasting rely global (post answer))
    (hreads : ¬ store.writes statement) (hrequests : store.requests statement = [])
    (hfinds : ∀ {session data answer}, pre session → store.view session = some data →
      store.finds (session.committed :: session.past) data statement answer → post answer session) :
    (store.server rely global).Triple pre (Dialogue.ask statement : Dialogue σ Answer ε _)
      (fun answer session => pre session ∧ post answer session) (fun _ => True) := by
  refine Server.Triple.ask h.stable (fun answer => (h.and (hpost answer)).stable)
    (fun _ _ => trivial) ?_
  rintro session answer session' ⟨data, hview, -, hfound, rfl⟩ hsession
  unfold execute
  rw [if_neg hreads, hrequests, List.append_nil]
  exact ⟨hsession, hfinds hsession hview hfound⟩

variable (store rely global) in
/-- While an assertion lasts, a dialogue that returns has found what is as `fact` has it. -/
def Learns (assertion : Session σ D κ → Prop) (d : Dialogue σ Answer ε α) (fact : α → Prop) :
    Prop :=
  (store.server rely global).Triple assertion d
    (fun a session => fact a ∧ assertion session) (fun _ => True)

theorem Lasting.learns_done (h : store.Lasting rely global pre) {result : Except ε α}
    {fact : α → Prop} (hfact : ∀ a, result = .ok a → fact a) :
    store.Learns rely global pre (.done result : Dialogue σ Answer ε α) fact :=
  Server.Triple.done h.stable (fun a ha _ hsession => ⟨hfact a ha, hsession⟩) (fun _ _ => trivial)

theorem Lasting.learns_expect (h : store.Lasting rely global pre) {value : Option α}
    {fact : α → Prop} (hfact : ∀ a, value = some a → fact a) :
    store.Learns rely global pre (Dialogue.expect value : Dialogue σ Answer ε α) fact :=
  Server.Triple.expect h.stable (fun _ _ => trivial) value
    (fun a ha _ hsession => ⟨hfact a ha, hsession⟩)

/-- **A statement that reads** tells what is found in the data the transaction sees. -/
theorem Lasting.learns_ask {fact : Answer statement → Prop} (h : store.Lasting rely global pre)
    (hreads : ¬ store.writes statement) (hrequests : store.requests statement = [])
    (hfinds : ∀ {session data answer}, pre session → store.view session = some data →
      store.finds (session.committed :: session.past) data statement answer → fact answer) :
    store.Learns rely global pre (Dialogue.ask statement : Dialogue σ Answer ε _) fact := by
  have hfact : ∀ answer, store.Lasting rely global (fun _ => fact answer) :=
    fun answer => ⟨fun _ _ _ hfound => hfound, fun _ hfound => hfound⟩
  exact (h.read hfact hreads hrequests hfinds).weaken (fun _ hsession => hsession)
    (fun _ _ hleft => ⟨hleft.2, hleft.1⟩) (fun _ _ => trivial)

theorem Learns.bind {β : Type} {d : Dialogue σ Answer ε β} {f : β → Dialogue σ Answer ε α}
    {mid : β → Prop} {fact : α → Prop} (h : store.Learns rely global pre d mid)
    (hf : ∀ b, mid b → store.Learns rely global pre (f b) fact) :
    store.Learns rely global pre (d.bind f) fact :=
  Server.Triple.bind h (fun b => Server.Triple.of_fact (hf b))

/-- **A statement that takes locks.** -/
theorem Lasting.lock (h : store.Lasting rely global pre) (hreads : ¬ store.writes statement) :
    (store.server rely global).Triple pre (Dialogue.ask statement : Dialogue σ Answer ε _)
      (fun _ session => pre session ∧ ∀ request ∈ store.requests statement,
        request ∈ session.locks) (fun _ => True) := by
  refine Server.Triple.ask h.stable (fun _ world world' hothers hworld => ?_)
    (fun _ _ => trivial) ?_
  · exact ⟨h.stable hothers hworld.1, fun request hmem => hothers.2.1 ▸ hworld.2 request hmem⟩
  · rintro session answer session' ⟨data, -, -, -, rfl⟩ hsession
    unfold execute
    rw [if_neg hreads]
    exact ⟨h.locks _ hsession, fun request hmem => List.mem_append_right _ hmem⟩

/-- **A statement that writes** applies to the data the transaction sees. -/
theorem triple_write {post : Session σ D κ → Prop} (hwrites : store.writes statement = true)
    (hstable : (store.server rely global).Stable pre)
    (hstable' : (store.server rely global).Stable post) (hrequests : store.requests statement = [])
    (happly : ∀ {session data data'}, pre session → store.view session = some data →
      store.apply data statement = some data' →
      post { session with written := session.written ++ [statement] }) :
    (store.server rely global).Triple pre (Dialogue.ask statement : Dialogue σ Answer ε _)
      (fun _ => post) (fun _ => True) := by
  refine Server.Triple.ask hstable (fun _ => hstable') (fun _ _ => trivial) ?_
  rintro session answer session' ⟨data, hview, hvalid, -, rfl⟩ hsession
  obtain ⟨data', hdata'⟩ := Option.isSome_iff_exists.mp hvalid
  unfold execute
  rw [if_pos hwrites, hrequests, List.append_nil]
  exact happly hsession hview hdata'

end Triples

end Store

/-! ## The system -/

/-- A transaction under way: what it has written and locked, and the call it is in. -/
structure OpenTransaction (σ : Type) (Answer : σ → Type) (κ ε α : Type) where
  written : List σ
  locks : List (LockRequest κ)
  call : Option (Dialogue σ Answer ε α)

/-- The session of a transaction. -/
def OpenTransaction.session (transaction : OpenTransaction σ Answer κ ε α) (committed : D)
    (past : List D) : Session σ D κ :=
  ⟨committed, past, transaction.written, transaction.locks⟩

/-- A store in use: the data it starts with, what is committed outside of the transactions, and the
calls of a transaction. -/
structure TransactionProgram (σ : Type) (Answer : σ → Type) (D κ ε α : Type)
    extends Store σ Answer D κ where
  initial : D → Prop
  outside : D → D → Prop
  calls : Dialogue σ Answer ε α → Prop

/-- The committed data, newest first, and the open transactions. -/
structure TransactionSystem (σ : Type) (Answer : σ → Type) (D κ ε α : Type) where
  committed : D
  past : List D
  transactions : ℕ → Option (OpenTransaction σ Answer κ ε α)

namespace TransactionSystem

variable (program : TransactionProgram σ Answer D κ ε α)

/-- One transaction moves. -/
def setTransaction (system : TransactionSystem σ Answer D κ ε α) (id : ℕ)
    (transaction : Option (OpenTransaction σ Answer κ ε α)) :
    TransactionSystem σ Answer D κ ε α :=
  { system with transactions := Function.update system.transactions id transaction }

/-- New data are committed. -/
def settle (system : TransactionSystem σ Answer D κ ε α) (data : D) :
    TransactionSystem σ Answer D κ ε α :=
  { system with
    committed := data
    past := system.committed :: system.past }

theorem transactions_setTransaction_self (system : TransactionSystem σ Answer D κ ε α) (id : ℕ)
    (transaction : Option (OpenTransaction σ Answer κ ε α)) :
    (system.setTransaction id transaction).transactions id = transaction := by
  show Function.update system.transactions id transaction id = transaction
  exact Function.update_self _ _ _

theorem transactions_setTransaction_of_ne (system : TransactionSystem σ Answer D κ ε α)
    {id other : ℕ} (h : other ≠ id) (transaction : Option (OpenTransaction σ Answer κ ε α)) :
    (system.setTransaction id transaction).transactions other = system.transactions other := by
  show Function.update system.transactions id transaction other = _
  exact Function.update_of_ne h _ _

/-- No other transaction holds a lock that conflicts. -/
def Free (system : TransactionSystem σ Answer D κ ε α) (id : ℕ)
    (requests : List (LockRequest κ)) : Prop :=
  ∀ other transaction, other ≠ id → system.transactions other = some transaction →
    Compatible requests transaction.locks

/-- One step of the system. -/
inductive Step : TransactionSystem σ Answer D κ ε α → TransactionSystem σ Answer D κ ε α → Prop
  | outside {system : TransactionSystem σ Answer D κ ε α} {data : D} :
      program.outside system.committed data → Step system (system.settle data)
  | begin (system : TransactionSystem σ Answer D κ ε α) (id : ℕ) :
      system.transactions id = none →
      Step system (system.setTransaction id (some ⟨[], [], none⟩))
  | call {system : TransactionSystem σ Answer D κ ε α} {id : ℕ}
      {transaction : OpenTransaction σ Answer κ ε α} (call : Dialogue σ Answer ε α) :
      system.transactions id = some transaction → transaction.call = none → program.calls call →
      Step system (system.setTransaction id (some { transaction with call := some call }))
  | statement {system : TransactionSystem σ Answer D κ ε α} {id : ℕ}
      {transaction : OpenTransaction σ Answer κ ε α} {statement : σ}
      {next : Answer statement → Dialogue σ Answer ε α} {answer : Answer statement}
      {session : Session σ D κ} :
      system.transactions id = some transaction →
      transaction.call = some (.issue statement next) →
      program.Executes (transaction.session system.committed system.past) statement answer
        session →
      system.Free id (program.requests statement) →
      Step system (system.setTransaction id
        (some ⟨session.written, session.locks, some (next answer)⟩))
  | returned {system : TransactionSystem σ Answer D κ ε α} {id : ℕ}
      {transaction : OpenTransaction σ Answer κ ε α} {a : α} :
      system.transactions id = some transaction → transaction.call = some (.done (.ok a)) →
      Step system (system.setTransaction id (some { transaction with call := none }))
  /-- a transaction may go on after an error of its call -/
  | rejected {system : TransactionSystem σ Answer D κ ε α} {id : ℕ}
      {transaction : OpenTransaction σ Answer κ ε α} {error : ε} :
      system.transactions id = some transaction →
      transaction.call = some (.done (.error error)) →
      Step system (system.setTransaction id (some { transaction with call := none }))
  | commit {system : TransactionSystem σ Answer D κ ε α} {id : ℕ}
      {transaction : OpenTransaction σ Answer κ ε α} {data : D} :
      system.transactions id = some transaction → transaction.call = none →
      program.view (transaction.session system.committed system.past) = some data →
      Step system ((system.settle data).setTransaction id none)
  /-- a failed statement and a panic end so -/
  | rollback {system : TransactionSystem σ Answer D κ ε α} {id : ℕ}
      {transaction : OpenTransaction σ Answer κ ε α} :
      system.transactions id = some transaction → Step system (system.setTransaction id none)

/-- The states reached. -/
inductive Reached : TransactionSystem σ Answer D κ ε α → Prop
  | start {data : D} : program.initial data → Reached ⟨data, [], fun _ => none⟩
  | step {system system' : TransactionSystem σ Answer D κ ε α} :
      Reached system → Step program system system' → Reached system'

end TransactionSystem

/-! ### One transaction alone -/

namespace Store

variable {β : Type} (store : Store σ Answer D κ) {session session' session'' : Session σ D κ}

/-- A dialogue returns a result while no other transaction commits. -/
def Returns (session : Session σ D κ) (d : Dialogue σ Answer ε α) (a : α)
    (session' : Session σ D κ) : Prop :=
  ∃ issued, (store.server (fun _ _ _ => False) (fun _ _ => True)).Run session d issued
    (.returned (.ok a)) session'

variable {store}

theorem Returns.done (session : Session σ D κ) (a : α) :
    store.Returns session (.done (.ok a) : Dialogue σ Answer ε α) a session :=
  ⟨[], .done _ _⟩

theorem Returns.expect (session : Session σ D κ) {value : Option α} {a : α}
    (h : value = some a) :
    store.Returns session (Dialogue.expect value : Dialogue σ Answer ε α) a session := by
  subst h
  exact Returns.done session a

theorem Returns.ask {statement : σ} {answer : Answer statement} {data : D}
    (hview : store.view session = some data) (hvalid : (store.apply data statement).isSome)
    (hfinds : store.finds (session.committed :: session.past) data statement answer) :
    store.Returns session (Dialogue.ask statement : Dialogue σ Answer ε _) answer
      (store.execute session statement) :=
  ⟨[statement], .issue ⟨data, hview, hvalid, hfinds, rfl⟩ (.done _ _)⟩

theorem Returns.bind {d : Dialogue σ Answer ε β} {f : β → Dialogue σ Answer ε α} {b : β} {a : α}
    (h : store.Returns session d b session') (hf : store.Returns session' (f b) a session'') :
    store.Returns session (d.bind f) a session'' := by
  obtain ⟨issued, hrun⟩ := h
  obtain ⟨issued', hrest⟩ := hf
  refine ⟨issued ++ issued', ?_⟩
  generalize houtcome : (Outcome.returned (.ok b) : Outcome ε β) = outcome at hrun
  -- nobody commits in between, so the two runs are one
  induction hrun with
  | done =>
      cases houtcome
      exact hrest
  | panic => cases houtcome
  | fail => cases houtcome
  | issue hexecutes _ ih => exact .issue hexecutes (ih hrest houtcome)
  | others hothers _ _ => exact hothers.2.2.2.1.elim

end Store

namespace TransactionSystem

variable {program : TransactionProgram σ Answer D κ ε α}

theorem setTransaction_twice (system : TransactionSystem σ Answer D κ ε α) (id : ℕ)
    (first second : Option (OpenTransaction σ Answer κ ε α)) :
    (system.setTransaction id first).setTransaction id second
      = system.setTransaction id second := by
  unfold setTransaction
  rw [Function.update_idem]

/-- A call that returns while no other transaction is open. -/
theorem Reached.returns {system : TransactionSystem σ Answer D κ ε α} {id : ℕ}
    {session session' : Session σ D κ} {call : Dialogue σ Answer ε α} {a : α}
    (h : Reached program system) (hcommitted : session.committed = system.committed)
    (hpast : session.past = system.past)
    (hopen : system.transactions id = some ⟨session.written, session.locks, some call⟩)
    (halone : ∀ other, other ≠ id → system.transactions other = none)
    (hreturns : program.Returns session call a session') :
    Reached program (system.setTransaction id (some ⟨session'.written, session'.locks, none⟩)) := by
  obtain ⟨issued, hrun⟩ := hreturns
  generalize houtcome : (Outcome.returned (.ok a) : Outcome ε α) = outcome at hrun
  induction hrun generalizing system with
  | done =>
      cases houtcome
      exact .step h (.returned hopen rfl)
  | panic => cases houtcome
  | fail => cases houtcome
  | others hothers _ _ => exact hothers.2.2.2.1.elim
  | @issue session next rest statement answer _ _ _ hexecutes _ ih =>
      have hnext : next = ⟨system.committed, system.past, next.written, next.locks⟩ := by
        obtain ⟨_, -, -, -, rfl⟩ := hexecutes
        rw [← hcommitted, ← hpast]
        rfl
      have hsession : session
          = ⟨system.committed, system.past, session.written, session.locks⟩ := by
        rw [← hcommitted, ← hpast]
      have hstep := Reached.step h (.statement hopen rfl (hsession ▸ hexecutes) (by
        intro other transaction hne hother
        rw [halone other hne] at hother
        cases hother))
      have hrest := ih hstep (congrArg Session.committed hnext) (congrArg Session.past hnext)
        (transactions_setTransaction_self _ _ _) (fun other hne => by
          rw [transactions_setTransaction_of_ne system hne]
          exact halone other hne) houtcome
      rwa [setTransaction_twice] at hrest

/-- **One transaction alone**: it begins, makes a call and commits. -/
theorem Reached.commitAlone {data data' : D} {past : List D}
    (h : Reached program ⟨data, past, fun _ => none⟩) {call : Dialogue σ Answer ε α} {a : α}
    {session : Session σ D κ} (hcall : program.calls call)
    (hreturns : program.Returns ⟨data, past, [], []⟩ call a session)
    (hview : program.view ⟨data, past, session.written, session.locks⟩ = some data') :
    Reached program ⟨data', data :: past, fun _ => none⟩ := by
  have hbegun := Reached.step h (.begin _ 0 rfl)
  have hcalled := Reached.step hbegun
    (.call call (transactions_setTransaction_self _ _ _) rfl hcall)
  have hreturned := hcalled.returns rfl rfl (transactions_setTransaction_self _ _ _) ?_ hreturns
  · rw [setTransaction_twice, setTransaction_twice] at hreturned
    have hcommitted := Reached.step hreturned
      (.commit (transactions_setTransaction_self _ _ _) rfl hview)
    have hended : ((TransactionSystem.setTransaction ⟨data, past, fun _ => none⟩ 0
        (some ⟨session.written, session.locks, none⟩)).settle data').setTransaction 0 none
        = (⟨data', data :: past, fun _ => none⟩ : TransactionSystem σ Answer D κ ε α) := by
      unfold setTransaction settle
      rw [Function.update_idem, Function.update_eq_self_iff.mpr rfl]
    rwa [hended] at hcommitted
  · intro other hne
    rw [setTransaction_twice, transactions_setTransaction_of_ne _ hne]

end TransactionSystem

/-! ## Disciplines -/

/-- An argument about transactions under locks: `rely` is what others may commit while some locks
are held, `global` is claimed of the committed data and those before them, `session` of a
transaction between two calls. -/
structure LockDiscipline (program : TransactionProgram σ Answer D κ ε α) where
  rely : List (LockRequest κ) → D → D → Prop
  global : D → List D → Prop
  session : Session σ D κ → Prop
  initial : ∀ {data : D}, program.initial data → global data []
  outside : ∀ {data data' : D} {past : List D}, global data past → program.outside data data' →
    global data' (data :: past) ∧ ∀ locks, rely locks data data'
  begun : ∀ {data : D} {past : List D}, global data past → session ⟨data, past, [], []⟩
  lasting : program.Lasting rely global session
  calls : ∀ call, program.calls call → call.Careful (fun statement => program.writes statement)
    ∧ (program.server rely global).Triple session call (fun _ => session) (fun _ => True)
  commits : ∀ {current : Session σ D κ} {data : D}, global current.committed current.past →
    session current → program.view current = some data →
      global data (current.committed :: current.past)
        ∧ ∀ locks, Compatible current.locks locks → rely locks current.committed data

namespace LockDiscipline

variable {program : TransactionProgram σ Answer D κ ε α} (discipline : LockDiscipline program)

/-- What the rest of a call leaves when it returns. -/
def Promises (current : Session σ D κ) (call : Dialogue σ Answer ε α) : Prop :=
  ∀ ⦃issued outcome next⦄,
    (program.server discipline.rely discipline.global).Run current call issued outcome next →
    ∀ result, outcome = .returned result → discipline.session next

/-- What holds of an open transaction: its session, between two calls; else what its call
promises. -/
def Holds (transaction : OpenTransaction σ Answer κ ε α) (committed : D) (past : List D) : Prop :=
  match transaction.call with
  | none => discipline.session (transaction.session committed past)
  | some call => discipline.Promises (transaction.session committed past) call

/-- What holds of the system. -/
structure Kept (system : TransactionSystem σ Answer D κ ε α) : Prop where
  committed : discipline.global system.committed system.past
  transactions : ∀ id transaction, system.transactions id = some transaction →
    discipline.Holds transaction system.committed system.past
  compatible : ∀ id transaction, system.transactions id = some transaction →
    system.Free id transaction.locks

variable {discipline} {current : Session σ D κ}

/-- **A call promises** the session it leaves, whether it returns a result or an error. -/
theorem promises_call (h : discipline.session current) {call : Dialogue σ Answer ε α}
    (hcall : program.calls call) : discipline.Promises current call := by
  intro issued outcome next hrun result hreturned
  obtain ⟨hcareful, htriple⟩ := discipline.calls call hcall
  cases result with
  | ok a =>
      subst hreturned
      exact htriple hrun h
  | error error =>
      -- an error comes before every write
      have hissued := hrun.read_only hcareful (Outcome.error?_eq_some.mp (by rw [hreturned]; rfl))
      refine hrun.kept (fun hother => discipline.lasting.stable hother) ?_ hissued h
      rintro session statement answer session' hreads ⟨_, -, -, -, rfl⟩ hsession
      exact discipline.lasting.executed hreads hsession

/-- Other transactions commit. -/
theorem Holds.others {transaction : OpenTransaction σ Answer κ ε α} {committed committed' : D}
    {past : List D} (h : discipline.Holds transaction committed past)
    (hrely : discipline.rely transaction.locks committed committed')
    (hglobal : discipline.global committed' (committed :: past)) :
    discipline.Holds transaction committed' (committed :: past) := by
  have hothers : (program.server discipline.rely discipline.global).others
      (transaction.session committed past) (transaction.session committed' (committed :: past)) :=
    ⟨rfl, rfl, rfl, hrely, hglobal⟩
  unfold Holds at h ⊢
  split
  · rename_i hcall
    rw [hcall] at h
    exact discipline.lasting.stable hothers h
  · rename_i call hcall
    rw [hcall] at h
    exact fun issued outcome next hrun => h (.others hothers hrun)

/-- One transaction moves or ends. -/
theorem Kept.setTransaction {system : TransactionSystem σ Answer D κ ε α}
    (h : discipline.Kept system) (id : ℕ) {moved : Option (OpenTransaction σ Answer κ ε α)}
    (hmoved : ∀ transaction, moved = some transaction →
      discipline.Holds transaction system.committed system.past
        ∧ system.Free id transaction.locks) :
    discipline.Kept (system.setTransaction id moved) := by
  have hcases : ∀ other transaction,
      (system.setTransaction id moved).transactions other = some transaction →
        (other = id ∧ moved = some transaction)
          ∨ (other ≠ id ∧ system.transactions other = some transaction) := by
    intro other transaction hopen
    by_cases hid : other = id
    · subst hid
      rw [TransactionSystem.transactions_setTransaction_self] at hopen
      exact Or.inl ⟨rfl, hopen⟩
    · rw [TransactionSystem.transactions_setTransaction_of_ne system hid] at hopen
      exact Or.inr ⟨hid, hopen⟩
  refine ⟨h.committed, fun other transaction hopen => ?_, fun other transaction hopen => ?_⟩
  · rcases hcases other transaction hopen with ⟨-, hself⟩ | ⟨-, hopen⟩
    · exact (hmoved transaction hself).1
    · exact h.transactions other transaction hopen
  · intro third transaction' hne hopen'
    rcases hcases other transaction hopen with ⟨rfl, hself⟩ | ⟨hother, hopen⟩
    · rcases hcases third transaction' hopen' with ⟨hthird, -⟩ | ⟨-, hopen'⟩
      · exact (hne hthird).elim
      · exact (hmoved transaction hself).2 third transaction' hne hopen'
    · rcases hcases third transaction' hopen' with ⟨hthird, hself⟩ | ⟨-, hopen'⟩
      · exact ((hmoved transaction' hself).2 other transaction (hthird ▸ hne.symm) hopen).symm
      · exact h.compatible other transaction hopen third transaction' hne hopen'

/-- New data are committed that every open transaction relies on. -/
theorem Kept.settle {system : TransactionSystem σ Answer D κ ε α} (h : discipline.Kept system)
    {data : D} (hglobal : discipline.global data (system.committed :: system.past))
    (hrely : ∀ id transaction, system.transactions id = some transaction →
      discipline.rely transaction.locks system.committed data) :
    discipline.Kept (system.settle data) :=
  ⟨hglobal, fun id transaction hopen =>
    (h.transactions id transaction hopen).others (hrely id transaction hopen) hglobal, h.compatible⟩

/-- **One step.** -/
theorem Kept.step {system system' : TransactionSystem σ Answer D κ ε α}
    (h : discipline.Kept system) (hstep : TransactionSystem.Step program system system') :
    discipline.Kept system' := by
  cases hstep with
  | outside houtside =>
      obtain ⟨hglobal, hrely⟩ := discipline.outside h.committed houtside
      exact h.settle hglobal (fun _ _ _ => hrely _)
  | begin id hnone =>
      refine h.setTransaction id ?_
      rintro _ ⟨⟩
      exact ⟨discipline.begun h.committed, fun _ _ _ _ own hown => (List.not_mem_nil hown).elim⟩
  | @call id transaction call hopen hnone hcall =>
      refine h.setTransaction id ?_
      rintro _ ⟨⟩
      have hholds := h.transactions id transaction hopen
      rw [Holds, hnone] at hholds
      exact ⟨promises_call hholds hcall, h.compatible id transaction hopen⟩
  | @statement id transaction statement next answer session hopen hcall hexecutes hfree =>
      refine h.setTransaction id ?_
      rintro _ ⟨⟩
      have hholds := h.transactions id transaction hopen
      rw [Holds, hcall] at hholds
      have hsession : session
          = ⟨system.committed, system.past, session.written, session.locks⟩ := by
        obtain ⟨_, -, -, -, rfl⟩ := hexecutes
        rfl
      have hlocks : session.locks = transaction.locks ++ program.requests statement := by
        obtain ⟨_, -, -, -, rfl⟩ := hexecutes
        rfl
      constructor
      · -- the rest of the call keeps the promise of the whole
        rw [hsession] at hexecutes
        exact fun issued outcome next hrun => hholds (.issue hexecutes hrun)
      · intro other transaction' hne hother
        show Compatible session.locks _
        rw [hlocks]
        exact (h.compatible id transaction hopen other transaction' hne hother).append
          (hfree other transaction' hne hother)
  | @returned id transaction a hopen hcall =>
      refine h.setTransaction id ?_
      rintro _ ⟨⟩
      have hholds := h.transactions id transaction hopen
      rw [Holds, hcall] at hholds
      exact ⟨hholds (.done _ _) _ rfl, h.compatible id transaction hopen⟩
  | @rejected id transaction error hopen hcall =>
      refine h.setTransaction id ?_
      rintro _ ⟨⟩
      have hholds := h.transactions id transaction hopen
      rw [Holds, hcall] at hholds
      exact ⟨hholds (.done _ _) _ rfl, h.compatible id transaction hopen⟩
  | @commit id transaction data hopen hnone hview =>
      have hholds := h.transactions id transaction hopen
      rw [Holds, hnone] at hholds
      obtain ⟨hglobal, hrely⟩ := discipline.commits h.committed hholds hview
      -- the transaction ends first, so that all the open ones hold compatible locks
      have hended : discipline.Kept (system.setTransaction id none) :=
        h.setTransaction id (by rintro _ ⟨⟩)
      refine hended.settle hglobal (fun other transaction' hother => hrely _ ?_)
      have hne : other ≠ id := by
        rintro rfl
        rw [TransactionSystem.transactions_setTransaction_self] at hother
        cases hother
      rw [TransactionSystem.transactions_setTransaction_of_ne system hne] at hother
      exact h.compatible id transaction hopen other transaction' hne hother
  | @rollback id transaction hopen =>
      refine h.setTransaction id ?_
      rintro _ ⟨⟩

variable (discipline) in
/-- **A discipline holds of every run.** -/
theorem holds {system : TransactionSystem σ Answer D κ ε α}
    (h : TransactionSystem.Reached program system) : discipline.Kept system := by
  induction h with
  | start hinitial =>
      refine ⟨discipline.initial hinitial, ?_, ?_⟩
      · rintro id transaction ⟨⟩
      · rintro id transaction ⟨⟩
  | step _ hstep ih => exact ih.step hstep

end LockDiscipline

end Foundations
