import CalaLedger.Posting.TableWriter

/-! # Calls on prepared batches

What a call does before it reads a balance: it resolves templates, prepares the batch and takes the
locks of the fence, and writes nothing. Whatever reads leave alone can therefore be argued from the
read on, for a batch that is well prepared (`triple_postBatchInOp_of`). -/

namespace CalaLedger

open Foundations (Dialogue Server)

namespace Postings

section Prepared

variable {rely : LedgerDb → LedgerDb → Prop} {pre : PostingSession → Prop} {α : Type}

/-- Parts of the flow that only read. -/
theorem triple_reading (hstable : (PostingSession.server rely).Stable pre)
    (hreads : ∀ {session session' : PostingSession}, session'.committed = session.committed →
      session'.written = session.written → pre session → pre session')
    {d : PostingFlow α} (hd : d.ReadOnly Writing) :
    (PostingSession.server rely).Triple pre d (fun _ => pre) (fun _ => True) := by
  refine Server.Triple.of_readOnly hstable ?_ (fun _ _ => trivial) hd
  rintro session statement answer _ hreading ⟨_, _, db, -, -, -, rfl⟩ h
  have hcommitted : (session.execute db statement).committed = session.committed := rfl
  exact hreads hcommitted (PostingSession.written_execute_of_reads hreading) h

variable (hstable : (PostingSession.server rely).Stable pre)
  (hreads : ∀ {session session' : PostingSession}, session'.committed = session.committed →
    session'.written = session.written → pre session → pre session')

include hstable

theorem triple_prepareAll_of (ids : EntryIds) (batch : List PostingInput) (codes : List String)
    (used : HashMap String ResolvedTemplate) :
    (PostingSession.server rely).Triple pre (.done (prepareAll ids batch codes used))
      (fun prepared session => WellPrepared ids prepared ∧ pre session) (fun _ => True) :=
  Server.Triple.done hstable
    (fun _ h _ hsession => ⟨TableWriter.wellPrepared_of_prepareAll h, hsession⟩)
    (fun _ _ => trivial)

include hreads

/-- The fence, and preparing again. -/
theorem triple_lockInOp_of (ids : EntryIds) (batch : List PostingInput) (codes : List String)
    (used : HashMap String ResolvedTemplate) {prepared : List PreparedTransaction}
    (hprepared : WellPrepared ids prepared) :
    (PostingSession.server rely).Triple pre (lockInOp ids batch codes used prepared)
      (fun locked session => WellPrepared ids locked.2 ∧ pre session) (fun _ => True) := by
  unfold lockInOp
  refine (triple_reading hstable hreads (readOnly_issue rfl)).bind (fun locked => ?_)
  dsimp only
  split
  · exact Server.Triple.ok hstable _ (fun _ h => ⟨hprepared, h⟩)
  · refine (triple_reading hstable hreads (readOnly_fetchAndInstall _)).bind (fun refreshed => ?_)
    -- the batch is prepared again, with the templates that have moved
    refine (triple_prepareAll_of hstable ids batch codes _).bind
      (fun prepared => Server.Triple.of_fact (fun hagain => ?_))
    refine (triple_reading hstable hreads (readOnly_issue rfl)).bind (fun _ => ?_)
    exact Server.Triple.ok hstable _ (fun _ h => ⟨hagain, h⟩)

/-- **It is enough to argue from the read on.** -/
theorem triple_postBatchInOp_of {post : PostedBatch → PostingSession → Prop}
    (templates : HashMap String ResolvedTemplate) {graph : JournalId → GraphSnapshot}
    {display : JsonDisplay} {ids : EntryIds} (batch : List PostingInput)
    (hnothing : ∀ session, pre session →
      post ⟨0, [], fun _ => none, fun _ => none, fun _ _ => []⟩ session)
    (h : ∀ now prepared, WellPrepared ids prepared →
      (PostingSession.server rely).Triple pre (postPreparedInOp graph display now prepared) post
        (fun _ => True)) :
    (PostingSession.server rely).Triple pre (postBatchInOp templates graph display ids batch) post
      (fun _ => True) := by
  unfold postBatchInOp
  split
  · exact Server.Triple.ok hstable _ hnothing
  · refine (triple_reading hstable hreads (readOnly_resolveInOp _ _)).bind (fun used => ?_)
    refine (triple_prepareAll_of hstable ids batch _ used).bind
      (fun prepared => Server.Triple.of_fact (fun hprepared => ?_))
    split
    · exact Server.Triple.error hstable _ (fun _ _ => trivial)
    · refine (triple_lockInOp_of hstable hreads ids batch _ used hprepared).bind (fun locked => ?_)
      obtain ⟨now, prepared'⟩ := locked
      exact Server.Triple.of_fact (fun hlocked => h now prepared' hlocked)

end Prepared

end Postings

end CalaLedger
