import CalaLedger.Posting.OpenOperation

/-! # Rejections leave no trace

Whatever error the posting flow returns of its own, the statements it has issued by then only read
or lock (`Postings.careful_postBatchInOp`), so the operation is as it was before the call, its locks
aside (`rejection_leaves_no_trace`). -/

namespace CalaLedger

open Foundations (Dialogue Server)

/-! ## The flow is careful -/

namespace Postings

open Foundations.Dialogue (ReadOnly Careful Unfailing)

/-- The statements that write. -/
def Writing (statement : PostingStatement) : Prop := statement.writes = true

section ReadOnly

theorem readOnly_issue {statement : PostingStatement} (h : statement.writes = false) :
    (issue statement).ReadOnly Writing :=
  ReadOnly.ask (by rw [Writing, h]; exact Bool.false_ne_true)

theorem readOnly_fetchAndInstall (codes : List String) :
    (fetchAndInstall codes).ReadOnly Writing :=
  (readOnly_issue rfl).bind_readOnly (fun _ => trivial)

theorem readOnly_resolveInOp (snapshot : HashMap String ResolvedTemplate) (codes : List String) :
    (resolveInOp snapshot codes).ReadOnly Writing := by
  unfold resolveInOp
  split
  · trivial
  · exact (readOnly_fetchAndInstall _).bind_readOnly (fun _ => trivial)

theorem readOnly_lockResolvedAncestorsInOp (journalId : JournalId)
    (pairs : List (AccountSetId × Currency)) :
    (lockResolvedAncestorsInOp journalId pairs).ReadOnly Writing := by
  unfold lockResolvedAncestorsInOp
  split
  · trivial
  · exact readOnly_issue rfl

theorem readOnly_fetchOverlay (missing : List AccountSetId) :
    (fetchOverlay missing).ReadOnly Writing := by
  unfold fetchOverlay
  split
  · trivial
  · exact (readOnly_issue rfl).bind_readOnly (fun _ => trivial)

theorem readOnly_resolveFromProbeInOp (snapshot : GraphSnapshot) (journalId : JournalId)
    (probeEpoch : ℤ) (probeSeeds : List AccountMembership)
    (entryPairs : List (AccountId × Currency)) :
    (resolveFromProbeInOp snapshot journalId probeEpoch probeSeeds entryPairs).ReadOnly Writing := by
  unfold resolveFromProbeInOp
  split
  · trivial
  split
  · exact readOnly_issue rfl
  · refine (readOnly_fetchOverlay _).bind_readOnly (fun overlay => ?_)
    split
    · exact (readOnly_lockResolvedAncestorsInOp _ _).bind_readOnly (fun _ => trivial)
    · exact readOnly_issue rfl

theorem readOnly_resolveJournal (graph : JournalId → GraphSnapshot)
    (prepared : List PreparedTransaction) (epoch : ℤ) (seeds : List AccountMembership)
    (found : AncestorMappings × List BalanceKey) (journalId : JournalId) :
    (resolveJournal graph prepared epoch seeds found journalId).ReadOnly Writing := by
  unfold resolveJournal
  split
  · trivial
  · exact (readOnly_resolveFromProbeInOp _ _ _ _ _).bind_readOnly (fun _ => trivial)

theorem readOnly_resolveAncestors (graph : JournalId → GraphSnapshot)
    (prepared : List PreparedTransaction) (epoch : ℤ) (read : PostingState) :
    (resolveAncestors graph prepared epoch read).ReadOnly Writing := by
  unfold resolveAncestors
  split
  · trivial
  · refine ReadOnly.bind_readOnly
      (ReadOnly.foldEach (readOnly_resolveJournal graph prepared epoch read.seeds) _ _)
      (fun found => ?_)
    split
    · trivial
    · refine (readOnly_issue rfl).bind_readOnly (fun supplemental => ?_)
      dsimp only
      split <;> trivial

theorem readOnly_lockInOp (ids : EntryIds) (batch : List PostingInput) (codes : List String)
    (used : HashMap String ResolvedTemplate) (prepared : List PreparedTransaction) :
    (lockInOp ids batch codes used prepared).ReadOnly Writing := by
  refine (readOnly_issue rfl).bind_readOnly (fun locked => ?_)
  dsimp only
  split
  · trivial
  · refine (readOnly_fetchAndInstall _).bind_readOnly (fun refreshed => ?_)
    refine ReadOnly.bind_readOnly (d := Dialogue.done _) trivial (fun prepared => ?_)
    exact (readOnly_issue rfl).bind_readOnly (fun _ => trivial)

/-! Some statements may matter only; the parts of the flow that issue none of them. -/

variable {matters : PostingStatement → Prop}

theorem readOnly_enforceBatchInOp (hreads : ∀ statement, matters statement → Writing statement)
    (hinsert : ∀ newBalances, ¬ matters (.insertVelocitySnapshots newBalances))
    (display : JsonDisplay) (now : Timestamp) (postings : List HydratedPosting)
    (controls : ControlTable) (mappings : AncestorMappings) :
    (enforceBatchInOp display now postings controls mappings).ReadOnly matters := by
  refine ReadOnly.bind_readOnly (d := Dialogue.done _) trivial (fun matched => ?_)
  dsimp only
  split
  · trivial
  · refine ((readOnly_issue rfl).mono hreads).bind_readOnly (fun _ => ?_)
    refine ((readOnly_issue rfl).mono hreads).bind_readOnly (fun currentBalances => ?_)
    refine ReadOnly.bind_readOnly (d := Dialogue.done _) trivial (fun newBalances => ?_)
    exact ReadOnly.ask (hinsert newBalances)

theorem readOnly_insertPostingsAndBalancesInOp
    (hpostings : ∀ postings snapshots, ¬ matters (.insertPostingsAndBalances postings snapshots))
    (hsnapshots : ∀ snapshots, ¬ matters (.insertSnapshots snapshots))
    (postings : List HydratedPosting) (snapshots : List BalanceSnapshot) :
    (insertPostingsAndBalancesInOp postings snapshots).ReadOnly matters :=
  (ReadOnly.ask (hpostings _ _)).bind_readOnly
    (fun _ => ReadOnly.forEach (fun _ => ReadOnly.ask (hsnapshots _)) _)

theorem readOnly_updateEffectiveBalances
    (hfind : ∀ journalId balanceIds effective,
      ¬ matters (.findEffectiveForUpdate journalId balanceIds effective))
    (hinsert : ∀ newBalances, ¬ matters (.insertEffectiveSnapshots newBalances))
    (postings : List HydratedPosting) (read : PostingState) (mappings : AncestorMappings)
    (now : Timestamp) :
    (updateEffectiveBalances postings read mappings now).ReadOnly matters := by
  refine ReadOnly.forEach (fun group => ?_) _
  dsimp only
  split
  · trivial
  · refine (ReadOnly.ask (hfind _ _ _)).bind_readOnly (fun allData => ?_)
    exact (ReadOnly.expect _).bind_readOnly (fun _ => ReadOnly.ask (hinsert _))

end ReadOnly

section Writes

/-- Enforcement writes after the last limit is checked. -/
theorem careful_enforceBatchInOp (display : JsonDisplay) (now : Timestamp)
    (postings : List HydratedPosting) (controls : ControlTable) (mappings : AncestorMappings) :
    (enforceBatchInOp display now postings controls mappings).Careful Writing := by
  refine ReadOnly.bind (d := Dialogue.done _) trivial (fun matched => ?_)
  dsimp only
  split
  · trivial
  · refine (readOnly_issue rfl).bind (fun _ => ?_)
    refine (readOnly_issue rfl).bind (fun currentBalances => ?_)
    refine ReadOnly.bind (d := Dialogue.done _) trivial (fun newBalances => ?_)
    exact (Unfailing.ask _).careful

theorem unfailing_insertPostingsAndBalancesInOp (postings : List HydratedPosting)
    (snapshots : List BalanceSnapshot) :
    (insertPostingsAndBalancesInOp postings snapshots).Unfailing :=
  (Unfailing.ask _).bind (fun _ => Unfailing.forEach (fun _ => Unfailing.ask _) _)

theorem unfailing_updateCumulativeBalancesInOp (journalId : JournalId) (entries : List EntryValues)
    (effective : NaiveDate) (createdAt : Timestamp) (mappings : AccountSetMappings)
    (balanceIds : List (AccountId × Currency)) :
    (updateCumulativeBalancesInOp journalId entries effective createdAt mappings
      balanceIds).Unfailing :=
  (Unfailing.ask _).bind (fun _ => (Unfailing.expect _).bind (fun _ => Unfailing.ask _))

theorem unfailing_updateEffectiveBalances (postings : List HydratedPosting) (read : PostingState)
    (mappings : AncestorMappings) (now : Timestamp) :
    (updateEffectiveBalances postings read mappings now).Unfailing := by
  refine Unfailing.forEach (fun group => ?_) _
  dsimp only
  split
  · exact ⟨(), rfl⟩
  · exact unfailing_updateCumulativeBalancesInOp _ _ _ _ _ _

end Writes

theorem careful_postPreparedInOp (graph : JournalId → GraphSnapshot) (display : JsonDisplay)
    (now : Timestamp) (prepared : List PreparedTransaction) :
    (postPreparedInOp graph display now prepared).Careful Writing := by
  refine (readOnly_issue rfl).bind (fun found => ?_)
  refine ReadOnly.bind (d := Dialogue.done _) trivial (fun _ => ?_)
  refine (readOnly_resolveAncestors graph prepared found.1 found.2).bind (fun resolved => ?_)
  refine (careful_enforceBatchInOp display now _ _ _).bind (fun _ => ?_)
  refine (unfailing_insertPostingsAndBalancesInOp _ _).bind (fun _ => ?_)
  refine (unfailing_updateEffectiveBalances _ _ _ _).bind (fun _ => ?_)
  exact (Unfailing.ask _).bind (fun _ => ⟨_, rfl⟩)

/-- **Every error comes before every write.** -/
theorem careful_postBatchInOp (templates : HashMap String ResolvedTemplate)
    (graph : JournalId → GraphSnapshot) (display : JsonDisplay) (ids : EntryIds)
    (batch : List PostingInput) :
    (postBatchInOp templates graph display ids batch).Careful Writing := by
  unfold postBatchInOp
  split
  · trivial
  · refine (readOnly_resolveInOp templates _).bind (fun used => ?_)
    refine ReadOnly.bind (d := Dialogue.done _) trivial (fun prepared => ?_)
    split
    · trivial
    · refine (readOnly_lockInOp ids batch _ used prepared).bind (fun locked => ?_)
      exact careful_postPreparedInOp graph display locked.1 locked.2

theorem careful_postAllInOp (templates : HashMap String ResolvedTemplate)
    (graph : JournalId → GraphSnapshot) (display : JsonDisplay) (ids : EntryIds)
    (batch : List PostingInput) :
    (postAllInOp templates graph display ids batch).Careful Writing :=
  (careful_postBatchInOp templates graph display ids batch).bind (fun _ => ⟨_, rfl⟩)

end Postings

/-- A run whose statements only read has written nothing. -/
theorem PostingSession.written_of_reads {α : Type} {rely : LedgerDb → LedgerDb → Prop}
    {session session' : PostingSession} {d : PostingFlow α} {issued : List PostingStatement}
    {outcome : Foundations.Outcome PostingError α}
    (h : (PostingSession.server rely).Run session d issued outcome session')
    (hissued : ∀ statement ∈ issued, ¬ Postings.Writing statement) :
    session'.written = session.written := by
  refine Server.Run.unchanged PostingSession.written ?_ ?_ h hissued
  · rintro _ _ ⟨hwritten, -⟩
    exact hwritten
  · rintro _ statement _ _ hreads ⟨_, _, _, -, -, -, rfl⟩
    exact PostingSession.written_execute_of_reads hreads

/-- **A rejection leaves no trace**: when the flow returns an error of its own, no statement it has
issued writes, and the operation is the one it would be without the call, locks aside: whatever it
goes on with, it commits the same. -/
theorem rejection_leaves_no_trace (templates : HashMap String ResolvedTemplate)
    (graph : JournalId → GraphSnapshot) (display : JsonDisplay) (ids : EntryIds)
    (batch : List PostingInput) {rely : LedgerDb → LedgerDb → Prop} {session session' : PostingSession}
    {issued : List PostingStatement} {error : PostingError}
    (h : (PostingSession.server rely).Run session
      (Postings.postAllInOp templates graph display ids batch) issued
      (.returned (.error error)) session') :
    (∀ statement ∈ issued, statement.writes = false)
      ∧ session' = { session with committed := session'.committed, locks := session'.locks } := by
  have hissued := h.read_only (Postings.careful_postAllInOp templates graph display ids batch) rfl
  refine ⟨fun statement hmem => Bool.eq_false_iff.mpr (hissued statement hmem), ?_⟩
  rw [← PostingSession.written_of_reads h hissued]

/-- A ledger whose template debits the account behind a set. -/
def sampleSession : PostingSession :=
  { committed := { sampleDb with
      templates := fun code => some (sampleTemplate code (1, .credit) (3, .debit)) }
    written := []
    locks := [] }

theorem rejection_leaves_no_trace_sample :
    ∃ (display : JsonDisplay) (issued : List PostingStatement) (session' : PostingSession),
      issued.length = 3
      ∧ (PostingSession.server (fun _ _ => True)).Run sampleSession
          (Postings.postAllInOp ∅ (fun _ => SetGraphCache.cold) display sampleIds
            [⟨⟨1⟩, "move", []⟩]) issued
          (.returned (.error (.rejected 0 ⟨1⟩ (.entryTargetsAccountSet ⟨3⟩)))) session'
      ∧ (∀ statement ∈ issued, statement.writes = false)
      ∧ session' = { sampleSession with
          committed := session'.committed, locks := session'.locks } := by
  have herror : (sampleSession.runAlone default 0 (Postings.postAllInOp ∅
      (fun _ => SetGraphCache.cold) (Classical.choice JsonDisplay.nonempty) sampleIds
        [⟨⟨1⟩, "move", []⟩])).2.1.error?
      = some (.rejected 0 ⟨1⟩ (.entryTargetsAccountSet ⟨3⟩)) := by
    decide +kernel
  have hrun := sampleSession.run_runAlone (fun _ _ => True) default 0 (Postings.postAllInOp ∅
    (fun _ => SetGraphCache.cold) (Classical.choice JsonDisplay.nonempty) sampleIds
      [⟨⟨1⟩, "move", []⟩])
  rw [Foundations.Outcome.error?_eq_some.mp herror] at hrun
  exact ⟨_, _, _, by decide +kernel, hrun, rejection_leaves_no_trace _ _ _ _ _ hrun⟩

end CalaLedger
