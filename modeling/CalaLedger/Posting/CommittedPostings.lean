import CalaLedger.Posting.Interleaving

/-! # The committed postings

In every run of interleaved operations the transaction and entry rows are those of the committed
batches, in the order of their commits, and their ids are unique. -/

namespace CalaLedger

open Foundations (Dialogue Server)
open Postings (PostedBatch)

/-- The postings a statement inserts. -/
def PostingStatement.postedRows : PostingStatement → List HydratedPosting
  | .insertPostingsAndBalances postings _ => postings
  | _ => []

/-- The postings of some batches. -/
def postingsOf (batches : List PostedBatch) : List HydratedPosting :=
  batches.flatMap PostedBatch.postings

/-- What an operation has inserted are the postings of its batches. -/
def HasPosted (posted : List PostedBatch) (session : PostingSession) : Prop :=
  session.written.flatMap PostingStatement.postedRows = postingsOf posted

/-- The rows of the committed batches, with unique ids. -/
structure HoldsPostings (db : LedgerDb) (log : List PostedBatch) : Prop where
  transactions : db.transactions = (postingsOf log).map Prod.fst
  entries : db.entries = (postingsOf log).flatMap Prod.snd
  fresh : FreshRows db []

theorem postingsOf_append (front back : List PostedBatch) :
    postingsOf (front ++ back) = postingsOf front ++ postingsOf back :=
  List.flatMap_append

/-! ## What a statement adds -/

/-- A statement adds the postings it inserts, under the unique constraints. -/
theorem PostingStatement.apply_posts {db db' : LedgerDb} {statement : PostingStatement}
    (h : statement.apply db = some db') (hfresh : FreshRows db []) :
    db'.transactions = db.transactions ++ statement.postedRows.map Prod.fst
      ∧ db'.entries = db.entries ++ statement.postedRows.flatMap Prod.snd ∧ FreshRows db' [] := by
  have hsame : ∀ {db' : LedgerDb}, statement.postedRows = [] → db'.transactions = db.transactions →
      db'.entries = db.entries →
      db'.transactions = db.transactions ++ statement.postedRows.map Prod.fst
        ∧ db'.entries = db.entries ++ statement.postedRows.flatMap Prod.snd
        ∧ FreshRows db' [] := by
    intro db' hrows htransactions hentries
    rw [hrows, htransactions, hentries]
    refine ⟨(List.append_nil _).symm, (List.append_nil _).symm, ?_, ?_, ?_⟩
    · rw [htransactions]
      exact hfresh.transactions
    · rw [htransactions]
      exact hfresh.externalIds
    · rw [hentries]
      exact hfresh.entries
  cases statement with
  | insertPostingsAndBalances postings snapshots =>
      rw [PostingStatement.apply] at h
      split at h
      · rename_i hrows
        obtain ⟨table, -, rfl⟩ := Option.map_eq_some_iff.mp h
        refine ⟨rfl, rfl, ?_, ?_, ?_⟩
        · simpa using hrows.transactions
        · simpa using hrows.externalIds
        · simpa using hrows.entries
      · cases h
  | insertVelocitySnapshots newBalances =>
      obtain ⟨table, -, rfl⟩ := Option.map_eq_some_iff.mp h
      exact hsame rfl rfl rfl
  | insertSnapshots snapshots =>
      obtain ⟨table, -, rfl⟩ := Option.map_eq_some_iff.mp h
      exact hsame rfl rfl rfl
  | insertEffectiveSnapshots newBalances =>
      obtain ⟨table, -, rfl⟩ := Option.map_eq_some_iff.mp h
      exact hsame rfl rfl rfl
  | _ =>
      cases h
      exact hsame rfl rfl rfl

/-- What an operation sees are the committed rows and the postings it has inserted. -/
theorem foldlM_posts (written : List PostingStatement) : ∀ {db db' : LedgerDb},
    written.foldlM (fun db statement => statement.apply db) db = some db' → FreshRows db [] →
      db'.transactions
          = db.transactions ++ (written.flatMap PostingStatement.postedRows).map Prod.fst
        ∧ db'.entries
          = db.entries ++ (written.flatMap PostingStatement.postedRows).flatMap Prod.snd
        ∧ FreshRows db' [] := by
  induction written with
  | nil =>
      rintro db _ ⟨⟩ hfresh
      exact ⟨(List.append_nil _).symm, (List.append_nil _).symm, hfresh⟩
  | cons statement written ih =>
      intro db db' hrun hfresh
      rw [List.foldlM_cons] at hrun
      obtain ⟨next, hnext, hrest⟩ := Option.bind_eq_some_iff.mp hrun
      obtain ⟨htransactions, hentries, hfresh⟩ := PostingStatement.apply_posts hnext hfresh
      obtain ⟨htransactions', hentries', hfresh'⟩ := ih hrest hfresh
      rw [htransactions', htransactions, hentries', hentries, List.flatMap_cons, List.map_append,
        List.flatMap_append, List.append_assoc, List.append_assoc]
      exact ⟨rfl, rfl, hfresh'⟩

/-! ## What a call adds -/

section Calls

variable {rely : LedgerDb → LedgerDb → Prop} {posted : List PostedBatch} {α : Type}

theorem stable_hasPosted : (PostingSession.server rely).Stable (HasPosted posted) := by
  rintro session session' ⟨hwritten, -⟩ h
  rw [HasPosted, hwritten]
  exact h

/-- Whether a statement inserts postings. -/
def Posts (statement : PostingStatement) : Prop :=
  statement.postedRows ≠ []

theorem not_posts {statement : PostingStatement} (h : ¬ statement.writes) : ¬ Posts statement := by
  cases statement <;> first | exact fun hposts => hposts rfl | exact (h rfl).elim

/-- A statement that inserts no postings. -/
theorem readOnly_issue_posts {statement : PostingStatement} (h : statement.postedRows = []) :
    (Postings.issue statement).ReadOnly Posts :=
  Dialogue.ReadOnly.ask (fun hposts => hposts h)

theorem written_execute (session : PostingSession) (db : LedgerDb) (statement : PostingStatement) :
    (session.execute db statement).written.flatMap PostingStatement.postedRows
      = session.written.flatMap PostingStatement.postedRows ++ statement.postedRows := by
  show List.flatMap _ (if statement.writes then _ else _) = _
  by_cases hwrites : statement.writes
  · rw [if_pos hwrites, List.flatMap_append, List.flatMap_singleton]
  · rw [if_neg hwrites, not_not.mp (not_posts hwrites), List.append_nil]

/-- Parts of the flow that insert no postings. -/
theorem triple_hasPosted {d : PostingFlow α} (hd : d.ReadOnly Posts) :
    (PostingSession.server rely).Triple (HasPosted posted) d (fun _ => HasPosted posted)
      (fun _ => True) := by
  refine Server.Triple.of_readOnly stable_hasPosted ?_ (fun _ _ => trivial) hd
  rintro session statement answer _ hrows ⟨_, _, _, -, -, -, rfl⟩ h
  rw [HasPosted, written_execute, not_not.mp hrows, List.append_nil]
  exact h

theorem triple_reads {d : PostingFlow α} (hd : d.ReadOnly Postings.Writing) :
    (PostingSession.server rely).Triple (HasPosted posted) d (fun _ => HasPosted posted)
      (fun _ => True) :=
  triple_hasPosted (hd.mono (fun _ hposts => by
    by_contra hreads
    exact not_posts hreads hposts))

/-- **The insert** of the postings of a batch. -/
theorem triple_insertPostingsAndBalancesInOp (batch : PostedBatch)
    (snapshots : List BalanceSnapshot) :
    (PostingSession.server rely).Triple (HasPosted posted)
      (Postings.insertPostingsAndBalancesInOp batch.postings snapshots)
      (fun _ => HasPosted (posted ++ [batch])) (fun _ => True) := by
  unfold Postings.insertPostingsAndBalancesInOp
  have hinsert : ∀ head, (PostingSession.server rely).Triple (HasPosted posted)
      (Postings.issue (.insertPostingsAndBalances batch.postings head))
      (fun _ => HasPosted (posted ++ [batch])) (fun _ => True) := by
    refine fun head => Server.Triple.ask stable_hasPosted (fun _ => stable_hasPosted)
      (fun _ _ => trivial) ?_
    rintro session answer _ ⟨_, _, _, -, -, -, rfl⟩ h
    rw [HasPosted, written_execute, h, postingsOf_append, postingsOf, postingsOf,
      List.flatMap_singleton]
    rfl
  exact (hinsert _).bind
    (fun _ => triple_hasPosted (Dialogue.ReadOnly.forEach (fun _ => readOnly_issue_posts rfl) _))

theorem triple_postBatchInOp (templates : HashMap String ResolvedTemplate)
    (graph : JournalId → GraphSnapshot) (display : JsonDisplay) (ids : EntryIds)
    (batch : List PostingInput) :
    (PostingSession.server rely).Triple (HasPosted posted)
      (Postings.postBatchInOp templates graph display ids batch)
      (fun batch => HasPosted (posted ++ [batch])) (fun _ => True) := by
  unfold Postings.postBatchInOp
  split
  · refine Server.Triple.ok stable_hasPosted _ (fun session h => ?_)
    rw [HasPosted, postingsOf_append]
    exact h.trans (List.append_nil _).symm
  · refine (triple_reads (Postings.readOnly_resolveInOp _ _)).bind (fun used => ?_)
    refine (triple_reads (d := .done _) trivial).bind (fun prepared => ?_)
    split
    · exact Server.Triple.error stable_hasPosted _ (fun _ _ => trivial)
    · refine (triple_reads (Postings.readOnly_lockInOp _ _ _ _ _)).bind (fun locked => ?_)
      obtain ⟨now, prepared⟩ := locked
      refine (triple_reads (Postings.readOnly_issue rfl)).bind (fun found => ?_)
      refine (triple_reads (d := .done _) trivial).bind (fun _ => ?_)
      refine (triple_reads (Postings.readOnly_resolveAncestors _ _ _ _)).bind (fun resolved => ?_)
      obtain ⟨mappings, read⟩ := resolved
      set batch : PostedBatch := ⟨now, hydrate now prepared, read.accounts, read.controls, mappings⟩
      refine (triple_hasPosted ?_).bind (fun _ => ?_)
      · refine Dialogue.ReadOnly.bind_readOnly (d := .done _) trivial (fun matched => ?_)
        dsimp only
        split
        · trivial
        · refine (readOnly_issue_posts rfl).bind_readOnly (fun _ => ?_)
          refine (readOnly_issue_posts rfl).bind_readOnly (fun currentBalances => ?_)
          refine Dialogue.ReadOnly.bind_readOnly (d := .done _) trivial (fun newBalances => ?_)
          exact readOnly_issue_posts rfl
      refine (triple_insertPostingsAndBalancesInOp batch _).bind (fun _ => ?_)
      refine (triple_hasPosted ?_).bind (fun _ => ?_)
      · refine Dialogue.ReadOnly.forEach (fun group => ?_) _
        dsimp only
        split
        · trivial
        · refine (readOnly_issue_posts rfl).bind_readOnly (fun allData => ?_)
          exact (Dialogue.ReadOnly.expect _).bind_readOnly (fun _ => readOnly_issue_posts rfl)
      refine (triple_hasPosted (readOnly_issue_posts rfl)).bind (fun _ => ?_)
      exact Server.Triple.ok stable_hasPosted _ (fun _ h => h)

end Calls

/-! ## Runs -/

/-- The argument, put together. -/
def postingsDiscipline : Discipline where
  rely := fun _ _ => True
  global := HoldsPostings
  session := HasPosted
  fresh := fun _ _ _ _ => ⟨rfl, rfl, List.nodup_nil, List.nodup_nil, List.nodup_nil⟩
  administered := fun _ _ _ _ h =>
    ⟨⟨h.transactions, h.entries, h.fresh.transactions, h.fresh.externalIds, h.fresh.entries⟩,
      trivial⟩
  begun := fun _ => rfl
  stable := fun _ => stable_hasPosted
  reads := fun {posted current next} _ hwritten h => by
    rw [HasPosted, hwritten]
    exact h
  calls := fun _ templates graph display ids batch =>
    (triple_postBatchInOp templates graph display ids batch).weaken (fun _ h => h.2)
      (fun _ _ h => h) (fun _ h => h)
  commits := fun {db db' log posted written locks} hlog hposted hview => by
    obtain ⟨htransactions, hentries, hfresh⟩ := foldlM_posts written hview hlog.fresh
    have hwritten : written.flatMap PostingStatement.postedRows = postingsOf posted := hposted
    rw [hwritten] at htransactions hentries
    refine ⟨⟨?_, ?_, hfresh⟩, trivial⟩
    · rw [htransactions, hlog.transactions, postingsOf_append, List.map_append]
    · rw [hentries, hlog.entries, postingsOf_append, List.flatMap_append]

/-- **The committed rows are those of the committed batches.** -/
theorem holdsPostings_of_reached {system : LedgerSystem} (h : LedgerSystem.Reached system) :
    HoldsPostings system.committed system.log :=
  (postingsDiscipline.holds h).committed

end CalaLedger
